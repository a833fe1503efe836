/-
# Minipython.Shfs.HtableList — the element list of a table under all its operations (htable.h, shfs_btable.h)

Besides looking up, adding and removing digests, a mount feeds a table slot by slot. Each operation relinks the
element list by hand, and still the list is the slots in use (`InOrder`), with the slot that an operation has
put a digest in at its end.

An operation is judged where its contract allows it: a removal where the slot is in use, a feed where the
index lies in the table. Feeding the zero digest takes the slot off the list, feeding another one takes it
to the end, also where the slot was in use before. The links of slots that are off the list are left as they
are, and nothing depends on them.

The proof keeps `Ordered`: the table has its dimensions, and there is a list that its links represent
(`DList`). Each operation appends to that list, erases from it, or does both.
-/
import Minipython.Shfs.HtableCalls

namespace Minipython.Shfs

open Minipython.Lib
open Htable

/-- An operation on a table. -/
inductive HtableOp where
  | add (h : Hash512)
  | lookupAdd (h : Hash512)
  | rm (el : HtableEl)
  | clear
  | feed (entIdx : Nat) (h : Hash512)

/-- The operation, with the element that it has added or fed a digest to. -/
def htableOp (bt : Htable) : HtableOp → Except Fault (Option HtableEl × Htable)
  | .add h => htableAdd bt h
  | .lookupAdd h => do
      let (x, bt) ← htableLookupAdd bt h
      return (x.bind fun (el, isNew) => if isNew then some el else none, bt)
  | .rm el => .ok (none, htableRm bt el)
  | .clear => .ok (none, htableClear bt)
  | .feed entIdx h => do
      let (el, bt) ← shfsBtableFeed bt entIdx h
      -- the zero digest takes the element off the list
      return (if hashIsZero h bt.hlen then none else some el, bt)

/-- `htable_rm` is called on listed elements, and `shfs_btable_feed` with an index of the table. -/
def htableOpEnabled (bt : Htable) : HtableOp → Prop
  | .rm el => el ∈ foreachHtableEl bt
  | .feed entIdx _ => entIdx < bt.nbBkts * bt.elPerBkt
  | _ => True

/-- A table under its operations. -/
def htableOps : Machine Htable HtableOp Fault :=
  ⟨htableOpEnabled, fun bt op => (htableOp bt op).map (·.2)⟩

instance (bt : Htable) (op : HtableOp) : Decidable (htableOps.Enabled bt op) :=
  match op with
  | .rm el => inferInstanceAs (Decidable (el ∈ foreachHtableEl bt))
  | .feed entIdx _ => inferInstanceAs (Decidable (entIdx < bt.nbBkts * bt.elPerBkt))
  | .add _ | .lookupAdd _ | .clear => inferInstanceAs (Decidable True)

/-- The list from the head is `l`, from the tail it is `l` in reverse, and `l` is the slots with a digest that
is not zero. -/
structure InOrder (bt : Htable) (l : List HtableEl) : Prop where
  nodup : l.Nodup
  mem : ∀ el, el ∈ l ↔ bt.InRange el ∧ hashIsZero (bt.h el) bt.hlen = false
  next : DList.Traverses bt.links.next bt.ends.first l
  tail : bt.ends.last = l.getLast?
  prev : DList.Traverses bt.links.prev bt.ends.last l.reverse

section HtableOps

variable {bt bt' : Htable} {l : List HtableEl}

theorem Htable.Listed.inOrder (hl : bt.Listed l) : InOrder bt l :=
  ⟨hl.rep.nodup, hl.mem, hl.rep.traverses.1, hl.rep.last, hl.rep.traverses.2⟩

/-- What the operations keep of a table: its dimensions, and the list. -/
structure Ordered (nbBkts elPerBkt hlen : Nat) (bt : Htable) : Prop where
  geom : SameGeom (allocHtable nbBkts elPerBkt hlen) bt
  listed : ∃ l, bt.Listed l

/-- An operation goes right, and the element that it has put a digest in is the last one. -/
structure Relinked (nbBkts elPerBkt hlen : Nat) (x : Option HtableEl) (bt' : Htable) : Prop where
  ordered : Ordered nbBkts elPerBkt hlen bt'
  last : ∀ el, x = some el → bt'.ends.last = some el

variable {nbBkts elPerBkt hlen : Nat}

/-- Nothing was added. -/
theorem Ordered.relinked (ho : Ordered nbBkts elPerBkt hlen bt) :
    Relinked nbBkts elPerBkt hlen none bt :=
  ⟨ho, fun _ hel => by cases hel⟩

/-- An element was put to the end. -/
theorem relinked_append {el : HtableEl} (hg : SameGeom (allocHtable nbBkts elPerBkt hlen) bt)
    (hl : bt.Listed (l ++ [el])) : Relinked nbBkts elPerBkt hlen (some el) bt := by
  refine ⟨⟨hg, _, hl⟩, ?_⟩
  rintro _ ⟨⟩
  rw [hl.rep.last, List.getLast?_concat]

/-- `htable_add` links the new element last. -/
theorem Ordered.add (ho : Ordered nbBkts elPerBkt hlen bt) (hb : 0 < nbBkts) (h : Hash512) :
    ∃ x bt', htableAdd bt h = .ok (x, bt') ∧ Relinked nbBkts elPerBkt hlen x bt' := by
  rcases ho.listed with ⟨l, hl⟩
  have hb' : 0 < bt.nbBkts := by
    rw [ho.geom.1]
    exact hb
  rcases htableAdd_spec hl hb' h with ⟨-, hadd⟩ | ⟨-, el, bt', hadd, hadded⟩
  · exact ⟨none, bt, hadd, ho.relinked⟩
  · exact ⟨some el, bt', hadd, relinked_append (ho.geom.trans hadded.geom) hadded.listed⟩

/-- Each operation keeps the list. -/
theorem Ordered.op (ho : Ordered nbBkts elPerBkt hlen bt) (hb : 0 < nbBkts) (hn : nbBkts ≤ u32Size)
    (he : elPerBkt ≤ u32Size) {op : HtableOp} (hop : htableOps.Enabled bt op) :
    ∃ x bt', htableOp bt op = .ok (x, bt') ∧ Relinked nbBkts elPerBkt hlen x bt' := by
  rcases ho.listed with ⟨l, hl⟩
  cases op with
  | add h => exact ho.add hb h
  | lookupAdd h =>
      show ∃ x bt', (htableLookupAdd bt h >>= fun y => _) = _ ∧ _
      rw [htableLookupAdd_eq]
      cases htableLookup bt h with
      | some el => exact ⟨none, bt, rfl, ho.relinked⟩
      | none =>
          rcases ho.add hb h with ⟨x, bt', hadd, hx⟩
          refine ⟨x, bt', ?_, hx⟩
          rw [hadd]
          cases x <;> rfl
  | rm el =>
      have hel : el ∈ foreachHtableEl bt := hop
      rw [foreachHtableEl_eq hl] at hel
      rcases htableRm_spec hl hel with ⟨hg, -, hl'⟩
      exact ⟨none, htableRm bt el, rfl, Ordered.relinked ⟨ho.geom.trans hg, _, hl'⟩⟩
  | clear =>
      rcases htableClear_spec hl with ⟨hg, hl'⟩
      exact ⟨none, htableClear bt, rfl, Ordered.relinked ⟨ho.geom.trans hg, _, hl'⟩⟩
  | feed entIdx h =>
      rcases ho.geom with ⟨hn', he', -⟩
      have hn' : bt.nbBkts = nbBkts := hn'
      have he' : bt.elPerBkt = elPerBkt := he'
      rcases feed_spec hl h hop (hn' ▸ hn) (he' ▸ he) with ⟨bt', hfeed, hg, -, hl'⟩
      refine ⟨if hashIsZero h bt'.hlen then none else some (bt.slot entIdx), bt', ?_, ?_⟩
      · show (shfsBtableFeed bt entIdx h >>= fun y => _) = _
        rw [hfeed]
        rfl
      · rw [hg.2.2]
        split
        · exact Ordered.relinked ⟨ho.geom.trans hg, _, hl'⟩
        · rename_i hz
          rw [if_neg hz] at hl'
          exact relinked_append (ho.geom.trans hg) hl'

theorem Ordered.step {op : HtableOp} (ho : Ordered nbBkts elPerBkt hlen bt) (hb : 0 < nbBkts)
    (hn : nbBkts ≤ u32Size) (he : elPerBkt ≤ u32Size) (hs : htableOps.Step bt op bt') :
    Ordered nbBkts elPerBkt hlen bt' := by
  rcases ho.op hb hn he hs.1 with ⟨x, bt'', hop, hx⟩
  have hnext : (htableOp bt op).map (·.2) = .ok bt' := hs.2
  rw [hop] at hnext
  obtain rfl : bt'' = bt' := Except.ok.inj hnext
  exact hx.ordered

/-- The element list is the slots in use: after any operations the list runs through exactly the slots whose
digest is not zero, in both directions, and the next operation goes right and leaves the element that it
has added or fed at the tail. The dimensions are 32-bit values. -/
theorem element_list_exact {ops : List HtableOp} (nbBkts elPerBkt hlen : Nat) (bt : Htable)
    (hb : 0 < nbBkts) (hn : nbBkts < u32Size) (he : elPerBkt < u32Size)
    (hrun : htableOps.Run (allocHtable nbBkts elPerBkt hlen) ops bt) :
    (∃ l, InOrder bt l) ∧
    ∀ op, htableOps.Enabled bt op → ∃ x bt', htableOp bt op = .ok (x, bt') ∧
      (∃ l, InOrder bt' l) ∧ ∀ el, x = some el → bt'.ends.last = some el := by
  have ho : Ordered nbBkts elPerBkt hlen bt :=
    hrun.invariant (I := Ordered nbBkts elPerBkt hlen)
      (fun _ _ _ hI hs => hI.step hb hn.le he.le hs) ⟨SameGeom.refl _, [], listed_alloc _ _ _⟩
  constructor
  · exact ho.listed.imp fun l hl => hl.inOrder
  · intro op hop
    rcases ho.op hb hn.le he.le hop with ⟨x, bt', hop', hx⟩
    exact ⟨x, bt', hop', hx.ordered.listed.imp fun l hl => hl.inOrder, hx.last⟩

/-- A table of two slots, fed twice at one slot and cleared of the other. -/
theorem element_list_exact_two : ∃ bt, bt.ends = ⟨some (0, 1), some (0, 1)⟩ ∧ (∃ l, InOrder bt l) ∧
    ∀ op, htableOps.Enabled bt op → ∃ x bt', htableOp bt op = .ok (x, bt') ∧
      (∃ l, InOrder bt' l) ∧ ∀ el, x = some el → bt'.ends.last = some el := by
  have hexec : (htableOps.exec (allocHtable 1 2 1)
      [.feed 1 fun _ => 1, .add fun _ => 2, .feed 1 fun _ => 1, .feed 0 fun _ => 0]).any
      (fun bt => bt.ends == ⟨some (0, 1), some (0, 1)⟩) = true := by
    decide +kernel
  rcases Machine.Run.of_exec_any hexec with ⟨bt, hrun, hends⟩
  exact ⟨bt, by simpa using hends,
    element_list_exact 1 2 1 bt (by decide) (by decide) (by decide) hrun⟩

end HtableOps

end Minipython.Shfs
