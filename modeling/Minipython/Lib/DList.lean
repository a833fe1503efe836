/-
# Minipython.Lib.DList — intrusive doubly linked lists, at pointer level

Elements carry their own `next`/`prev` fields and a list is a pair of end pointers. Nothing ties the
fields to the ends except what the operations do, so every fact about a list is a fact about which
pointers were written.

`Rep L E l` says that the ends `E`, followed through the fields `L`, spell the finite list `l` in both
directions. It is the invariant of a list that is only ever edited by its own operations: appending an
element that is not on the list and unlinking one that is keep it, and every element elsewhere keeps
its fields, so several lists may share one pair of fields as long as they share no element.

`Sorted` is a family of lists with one pair of fields, such as the collision lists of a hash table.

`Coherent U L E` is what survives a wrong edit. Unlinking an element that is on no list resets both
ends and leaves the old members linked to one another; `Coherent` asks only that pointers lead to
members of `U`, that `next` and `prev` mirror each other and that an end has nothing beyond it. A
`Discipline` is either of the two ties, for proofs that do not depend on which.
-/
import Mathlib.Data.List.Induction
import Mathlib.Data.List.Nodup
import Mathlib.Logic.Function.Basic
import Mathlib.Data.Set.Insert
import Mathlib.Data.Finset.Card

namespace Minipython.Lib

universe u v

/-- The pair of link fields that every element carries for one kind of list. -/
structure Links (α : Type u) where
  next : α → Option α
  prev : α → Option α

/-- The two end pointers of a list. -/
structure Ends (α : Type u) where
  first : Option α
  last : Option α
  deriving DecidableEq

namespace DList

variable {α : Type u}

/-! ## Represented lists -/

/-- The fields of the elements of `l` chain them in order, from the element before `p` to the element
after `q`. -/
def Seg (L : Links α) : Option α → List α → Option α → Prop
  | _, [], _ => True
  | p, x :: xs, q => L.prev x = p ∧ L.next x = xs.head?.or q ∧ Seg L (some x) xs q

/-- A list with no element. -/
def emptyEnds : Ends α := ⟨none, none⟩

/-- The ends `E` spell the list `l` through the fields `L`. -/
structure Rep (L : Links α) (E : Ends α) (l : List α) : Prop where
  nodup : l.Nodup
  first : E.first = l.head?
  last : E.last = l.getLast?
  seg : Seg L none l none

@[simp] theorem seg_nil (L : Links α) (p q : Option α) : Seg L p [] q := trivial

theorem seg_append (L : Links α) (p q : Option α) (l₁ l₂ : List α) :
    Seg L p (l₁ ++ l₂) q ↔ Seg L p l₁ (l₂.head?.or q) ∧ Seg L (l₁.getLast?.or p) l₂ q := by
  induction l₁ generalizing p with
  | nil => simp [Seg]
  | cons x xs ih =>
      simp only [List.cons_append, Seg, ih, List.head?_append]
      rw [List.getLast?_cons, Option.or_assoc]
      cases xs.getLast? <;> simp [and_assoc]

/-- A segment depends on the fields of its own elements only. -/
theorem Seg.congr {L L' : Links α} {p q : Option α} {l : List α} (h : Seg L p l q)
    (hn : ∀ x ∈ l, L'.next x = L.next x) (hp : ∀ x ∈ l, L'.prev x = L.prev x) : Seg L' p l q := by
  induction l generalizing p with
  | nil => trivial
  | cons x xs ih =>
      obtain ⟨h1, h2, h3⟩ := h
      refine ⟨(hp x (by simp)).trans h1, (hn x (by simp)).trans h2, ih h3 ?_ ?_⟩
      · exact fun y hy => hn y (by simp [hy])
      · exact fun y hy => hp y (by simp [hy])

theorem Rep.congr {L L' : Links α} {E : Ends α} {l : List α} (h : Rep L E l)
    (hn : ∀ x ∈ l, L'.next x = L.next x) (hp : ∀ x ∈ l, L'.prev x = L.prev x) : Rep L' E l :=
  ⟨h.nodup, h.first, h.last, h.seg.congr hn hp⟩

theorem rep_empty (L : Links α) : Rep L emptyEnds [] :=
  ⟨List.nodup_nil, rfl, rfl, trivial⟩

/-- The neighbours of a member are read off the list around it. -/
theorem Rep.neighbours {L : Links α} {E : Ends α} {l₁ l₂ : List α} {x : α}
    (h : Rep L E (l₁ ++ x :: l₂)) : L.prev x = l₁.getLast? ∧ L.next x = l₂.head? := by
  have hs := (seg_append L none none l₁ (x :: l₂)).1 h.seg
  simpa [Seg] using And.intro hs.2.1 hs.2.2.1

/-! ## Traversal -/

/-- Following the pointers `f` from `p` visits exactly `l` and ends. -/
def Traverses (f : α → Option α) : Option α → List α → Prop
  | none, [] => True
  | some x, y :: ys => x = y ∧ Traverses f (f x) ys
  | none, _ :: _ => False
  | some _, [] => False

theorem Seg.traverses_next {L : Links α} {p : Option α} {l : List α} (h : Seg L p l none) :
    Traverses L.next l.head? l := by
  induction l generalizing p with
  | nil => trivial
  | cons x xs ih =>
      obtain ⟨-, h2, h3⟩ := h
      refine ⟨rfl, ?_⟩
      rw [h2, Option.or_none]
      exact ih h3

theorem Seg.traverses_prev {L : Links α} {q : Option α} {l : List α} (h : Seg L none l q) :
    Traverses L.prev l.getLast? l.reverse := by
  induction l using List.reverseRecOn generalizing q with
  | nil => trivial
  | append_singleton l x ih =>
      rw [seg_append] at h
      have hx : L.prev x = l.getLast? := by simpa using h.2.1
      have hgoal : Traverses L.prev (some x) (x :: l.reverse) := ⟨rfl, hx ▸ ih h.1⟩
      simpa using hgoal

/-- A represented list is what the traversal from the front visits, and its reverse what the
traversal from the back visits. -/
theorem Rep.traverses {L : Links α} {E : Ends α} {l : List α} (h : Rep L E l) :
    Traverses L.next E.first l ∧ Traverses L.prev E.last l.reverse :=
  ⟨h.first ▸ h.seg.traverses_next, h.last ▸ h.seg.traverses_prev⟩

/-- The elements a traversal from `p` visits, at most `fuel` of them. -/
def walk (f : α → Option α) : Nat → Option α → List α
  | 0, _ => []
  | _ + 1, none => []
  | fuel + 1, some x => x :: walk f fuel (f x)

/-- A traversal that ends is walked to its end. -/
theorem walk_traverses {f : α → Option α} {p : Option α} {l : List α} {fuel : Nat}
    (h : Traverses f p l) (hf : l.length ≤ fuel) : walk f fuel p = l := by
  induction l generalizing p fuel with
  | nil =>
      cases p with
      | none => cases fuel <;> rfl
      | some x => exact absurd h id
  | cons y ys ih =>
      cases p with
      | none => exact absurd h id
      | some x =>
          obtain ⟨rfl, h2⟩ := h
          cases fuel with
          | zero => exact absurd hf (by simp)
          | succ fuel =>
              show x :: walk f fuel (f x) = x :: ys
              rw [ih h2 (by simpa using hf)]

theorem walk_length (f : α → Option α) (fuel : Nat) (p : Option α) :
    (walk f fuel p).length ≤ fuel := by
  induction fuel generalizing p with
  | zero => exact Nat.le_refl 0
  | succ fuel ih =>
      cases p with
      | none => exact Nat.zero_le _
      | some x => exact Nat.succ_le_succ (ih (f x))

variable [DecidableEq α]

/-! ## Pointer writes -/

/-- Write the `next` field of `x`. -/
def setNext (L : Links α) (x : α) (v : Option α) : Links α :=
  { L with next := Function.update L.next x v }

/-- Write the `prev` field of `x`. -/
def setPrev (L : Links α) (x : α) (v : Option α) : Links α :=
  { L with prev := Function.update L.prev x v }

@[simp] theorem setNext_next (L : Links α) (x y : α) (v : Option α) :
    (setNext L x v).next y = if y = x then v else L.next y := by
  simp [setNext, Function.update_apply]

@[simp] theorem setNext_prev (L : Links α) (x y : α) (v : Option α) :
    (setNext L x v).prev y = L.prev y := rfl

@[simp] theorem setPrev_prev (L : Links α) (x y : α) (v : Option α) :
    (setPrev L x v).prev y = if y = x then v else L.prev y := by
  simp [setPrev, Function.update_apply]

@[simp] theorem setPrev_next (L : Links α) (x y : α) (v : Option α) :
    (setPrev L x v).next y = L.next y := rfl

/-! ## Operations -/

/-- First half of an unlink: the predecessor, or the front end, skips `x`. -/
def bypassNext (L : Links α) (E : Ends α) (x : α) : Links α × Ends α :=
  match L.prev x with
  | some p => (setNext L p (L.next x), E)
  | none => (L, { E with first := L.next x })

/-- Second half of an unlink: the successor, or the back end, skips `x`. -/
def bypassPrev (L : Links α) (E : Ends α) (x : α) : Links α × Ends α :=
  match L.next x with
  | some n => (setPrev L n (L.prev x), E)
  | none => (L, { E with last := L.prev x })

/-- Take `x` out of the list with the ends `E`; the fields of `x` itself keep their values. -/
def unlink (L : Links α) (E : Ends α) (x : α) : Links α × Ends α :=
  let s := bypassNext L E x
  bypassPrev s.1 s.2 x

/-- Unlink `x` and reset its own fields. -/
def detach (L : Links α) (E : Ends α) (x : α) : Links α × Ends α :=
  let s := unlink L E x
  (setPrev (setNext s.1 x none) x none, s.2)

/-- Put `x` at the back of the list. `none` is the write through a null `last` pointer that happens
when the front end is set and the back end is not. -/
def append (L : Links α) (E : Ends α) (x : α) : Option (Links α × Ends α) :=
  match E.first with
  | none => some (setNext (setPrev L x none) x none, ⟨some x, some x⟩)
  | some _ =>
      match E.last with
      | none => none
      | some z => some (setNext (setPrev (setNext L z (some x)) x (some z)) x none,
          { E with last := some x })

/-- Put `x` between `p` and `q`. Where one of them is missing, `x` becomes that end. -/
def insertBetween (L : Links α) (E : Ends α) (p : Option α) (x : α) (q : Option α) : Links α × Ends α :=
  let L := setNext (setPrev L x p) x q
  let s := match p with
    | some p => (setNext L p (some x), E)
    | none => (L, { E with first := some x })
  match q with
  | some q => (setPrev s.1 q (some x), s.2)
  | none => (s.1, { s.2 with last := some x })

/-! ## Segments under pointer writes -/

/-- Redirecting the last `next` pointer moves the far end of a segment. -/
theorem Seg.setNext_last {L : Links α} {p q : Option α} {l : List α} {y : α}
    (h : Seg L p (l ++ [y]) q) (hy : y ∉ l) (q' : Option α) :
    Seg (setNext L y q') p (l ++ [y]) q' := by
  rw [seg_append] at h ⊢
  refine ⟨h.1.congr (fun x hx => ?_) (fun x _ => rfl), ?_⟩
  · rw [setNext_next, if_neg]
    rintro rfl
    exact hy hx
  · simpa [Seg] using h.2.1

/-- Redirecting the first `prev` pointer moves the near end of a segment. -/
theorem Seg.setPrev_head {L : Links α} {p q : Option α} {l : List α} {y : α}
    (h : Seg L p (y :: l) q) (hy : y ∉ l) (p' : Option α) :
    Seg (setPrev L y p') p' (y :: l) q := by
  obtain ⟨-, h2, h3⟩ := h
  refine ⟨by simp, h2, h3.congr (fun x _ => rfl) (fun x hx => ?_)⟩
  rw [setPrev_prev, if_neg]
  rintro rfl
  exact hy hx

/-! ## The operations on a represented list -/

/-- What the front half of an unlink leaves: the part before `x` now ends at the part after it. -/
theorem bypassNext_spec {L : Links α} {E : Ends α} {l₁ l₂ : List α} {x : α}
    (h : Rep L E (l₁ ++ x :: l₂)) :
    Seg (bypassNext L E x).1 none l₁ l₂.head? ∧
      Seg (bypassNext L E x).1 l₁.getLast? (x :: l₂) none ∧
      (bypassNext L E x).2 = ⟨(l₁ ++ l₂).head?, E.last⟩ ∧
      (bypassNext L E x).1.prev = L.prev ∧
      ∀ y, y ∉ l₁ → (bypassNext L E x).1.next y = L.next y := by
  obtain ⟨hp, hn⟩ := h.neighbours
  have hs := (seg_append L none none l₁ (x :: l₂)).1 h.seg
  have hnd := List.nodup_append.1 h.nodup
  rcases List.eq_nil_or_concat l₁ with rfl | ⟨l, p, rfl⟩
  · simp only [List.getLast?_nil] at hp
    simp only [bypassNext, hp, hn]
    exact ⟨trivial, by simpa using hs.2, by simp, trivial, by simp⟩
  · simp only [List.concat_eq_append] at *
    have hpl : p ∉ l := by
      have := List.nodup_append.1 hnd.1
      intro hmem
      exact this.2.2 p hmem p (by simp) rfl
    have hp' : L.prev x = some p := by simpa using hp
    simp only [bypassNext, hp', hn]
    have hdisj : ∀ y ∈ x :: l₂, y ≠ p := fun y hy he => hnd.2.2 p (by simp) y hy he.symm
    refine ⟨hs.1.setNext_last hpl _, ?_, ?_, rfl, ?_⟩
    · refine (by simpa using hs.2 : Seg L (l ++ [p]).getLast? (x :: l₂) none).congr ?_ (fun y _ => rfl)
      intro y hy
      rw [setNext_next, if_neg (hdisj y hy)]
    · cases E with
      | mk f z =>
          have hf : f = _ := h.first
          cases l <;> simp_all
    · intro y hy
      rw [setNext_next, if_neg]
      rintro rfl
      exact hy (by simp)

/-- Unlinking a member leaves the list without it. -/
theorem Rep.unlink {L : Links α} {E : Ends α} {l₁ l₂ : List α} {x : α}
    (h : Rep L E (l₁ ++ x :: l₂)) :
    Rep (DList.unlink L E x).1 (DList.unlink L E x).2 (l₁ ++ l₂) := by
  obtain ⟨hseg1, hseg2, hE, hprev, -⟩ := bypassNext_spec h
  have hnd := List.nodup_append.1 h.nodup
  have hnd2 := List.nodup_cons.1 hnd.2.1
  have hout : (l₁ ++ l₂).Nodup := List.nodup_append.2
    ⟨hnd.1, hnd2.2, fun a ha b hb => hnd.2.2 a ha b (by simp [hb])⟩
  obtain ⟨hpx, hnx, htail⟩ := hseg2
  have hnx' : (bypassNext L E x).1.next x = l₂.head? := by simpa using hnx
  have hlast : E.last = (l₁ ++ x :: l₂).getLast? := h.last
  unfold DList.unlink
  simp only
  cases l₂ with
  | nil =>
      simp only [List.head?_nil] at hnx'
      simp only [bypassPrev, hnx', hpx, hE]
      exact ⟨hout, rfl, by simp, by simpa using hseg1⟩
  | cons n l₂ =>
      simp only [List.head?_cons] at hnx'
      simp only [bypassPrev, hnx', hpx, hE]
      have hnl : n ∉ l₂ := (List.nodup_cons.1 hnd2.2).1
      refine ⟨hout, rfl, ?_, ?_⟩
      · rw [hlast]
        simp [List.getLast?_cons]
      · rw [seg_append]
        refine ⟨hseg1.congr (fun y _ => rfl) ?_, by simpa using htail.setPrev_head hnl _⟩
        intro y hy
        rw [setPrev_prev, if_neg]
        rintro rfl
        exact hnd.2.2 y hy y (by simp) rfl

/-- Unlinking writes only to the fields of the other members. -/
theorem Rep.unlink_frame {L : Links α} {E : Ends α} {l₁ l₂ : List α} {x : α}
    (h : Rep L E (l₁ ++ x :: l₂)) {y : α} (hy : y ∉ l₁ ++ l₂) :
    (DList.unlink L E x).1.next y = L.next y ∧ (DList.unlink L E x).1.prev y = L.prev y := by
  obtain ⟨-, hseg2, hE, hprev, hfr⟩ := bypassNext_spec h
  obtain ⟨hpx, hnx, -⟩ := hseg2
  have hnx' : (bypassNext L E x).1.next x = l₂.head? := by simpa using hnx
  have hy1 : y ∉ l₁ := fun hm => hy (by simp [hm])
  have hpy : (bypassNext L E x).1.prev y = L.prev y := by rw [hprev]
  unfold DList.unlink
  simp only
  cases l₂ with
  | nil =>
      simp only [List.head?_nil] at hnx'
      simp only [bypassPrev, hnx']
      exact ⟨hfr y hy1, hpy⟩
  | cons n l₂ =>
      simp only [List.head?_cons] at hnx'
      simp only [bypassPrev, hnx', setPrev_next, setPrev_prev]
      refine ⟨hfr y hy1, ?_⟩
      rw [if_neg, hpy]
      rintro rfl
      exact hy (by simp)

/-- Detaching a member leaves the list without it. -/
theorem Rep.detach {L : Links α} {E : Ends α} {l₁ l₂ : List α} {x : α}
    (h : Rep L E (l₁ ++ x :: l₂)) :
    Rep (DList.detach L E x).1 (DList.detach L E x).2 (l₁ ++ l₂) := by
  have hx : x ∉ l₁ ++ l₂ := by
    have hnd := List.nodup_append.1 h.nodup
    intro hm
    rcases List.mem_append.1 hm with hm | hm
    · exact hnd.2.2 x hm x (by simp) rfl
    · exact (List.nodup_cons.1 hnd.2.1).1 hm
  have hne : ∀ y ∈ l₁ ++ l₂, y ≠ x := fun y hy he => hx (he ▸ hy)
  refine h.unlink.congr (fun y hy => ?_) (fun y hy => ?_)
  · simp [DList.detach, hne y hy]
  · simp [DList.detach, hne y hy]

/-- Detaching writes to the fields of the members only. -/
theorem Rep.detach_frame {L : Links α} {E : Ends α} {l₁ l₂ : List α} {x : α}
    (h : Rep L E (l₁ ++ x :: l₂)) {y : α} (hy : y ∉ l₁ ++ x :: l₂) :
    (DList.detach L E x).1.next y = L.next y ∧ (DList.detach L E x).1.prev y = L.prev y := by
  have hyx : y ≠ x := fun he => hy (by simp [he])
  have hy' : y ∉ l₁ ++ l₂ := fun hm => hy (by
    rcases List.mem_append.1 hm with hm | hm <;> simp [hm])
  have hf := h.unlink_frame hy'
  simp [DList.detach, hyx, hf.1, hf.2]

/-- A detached element has null fields. -/
theorem detach_self (L : Links α) (E : Ends α) (x : α) :
    (DList.detach L E x).1.next x = none ∧ (DList.detach L E x).1.prev x = none := by
  simp [DList.detach]

/-- Appending a new element puts it last. -/
theorem Rep.append {L : Links α} {E : Ends α} {l : List α} {x : α} (h : Rep L E l) (hx : x ∉ l) :
    ∃ L' E', DList.append L E x = some (L', E') ∧ Rep L' E' (l ++ [x]) ∧
      ∀ y, y ∉ l → y ≠ x → L'.next y = L.next y ∧ L'.prev y = L.prev y := by
  rcases List.eq_nil_or_concat l with rfl | ⟨k, z, rfl⟩
  · have hf : E.first = none := h.first
    refine ⟨setNext (setPrev L x none) x none, ⟨some x, some x⟩, by simp only [DList.append, hf],
      ⟨by simp, rfl, rfl, ?_⟩, ?_⟩
    · simp [Seg]
    · intro y _ hy
      simp [hy]
  · simp only [List.concat_eq_append] at h hx ⊢
    have hlast : E.last = some z := by simpa using h.last
    obtain ⟨w, hw⟩ : ∃ w, E.first = some w := by
      rw [h.first]
      cases k <;> simp
    have hzk : z ∉ k := by
      have := List.nodup_append.1 h.nodup
      exact fun hm => this.2.2 z hm z (by simp) rfl
    have hzx : z ≠ x := fun he => hx (by simp [he])
    refine ⟨setNext (setPrev (setNext L z (some x)) x (some z)) x none, ⟨some w, some x⟩,
      by simp [DList.append, hw, hlast], ⟨?_, ?_, by simp, ?_⟩, ?_⟩
    · rw [List.nodup_append]
      refine ⟨h.nodup, by simp, ?_⟩
      intro a ha b hb he
      simp only [List.mem_singleton] at hb
      exact hx (hb ▸ he ▸ ha)
    · have := h.first
      cases k <;> simp_all
    · rw [seg_append]
      refine ⟨((h.seg.setNext_last hzk (some x)).congr ?_ ?_), ?_⟩
      · intro y hy
        have hyx : y ≠ x := fun he => hx (he ▸ hy)
        simp [hyx]
      · intro y hy
        have hyx : y ≠ x := fun he => hx (he ▸ hy)
        simp [hyx]
      · simp [Seg]
    · intro y hy hyx
      have hyz : y ≠ z := fun he => hy (by simp [he])
      simp [hyx, hyz]

theorem insertBetween_next (L : Links α) (E : Ends α) (p : Option α) (x : α) (q : Option α) (y : α) :
    (insertBetween L E p x q).1.next y =
      if p = some y then some x else if y = x then q else L.next y := by
  rcases p with _ | p <;> rcases q with _ | q <;> simp [insertBetween, eq_comm]

theorem insertBetween_prev (L : Links α) (E : Ends α) (p : Option α) (x : α) (q : Option α) (y : α) :
    (insertBetween L E p x q).1.prev y =
      if q = some y then some x else if y = x then p else L.prev y := by
  rcases p with _ | p <;> rcases q with _ | q <;> simp [insertBetween, eq_comm]

/-- Inserting a new element puts it between the two parts. -/
theorem Rep.insertBetween {L : Links α} {E : Ends α} {l₁ l₂ : List α} {x : α} (h : Rep L E (l₁ ++ l₂))
    (hx : x ∉ l₁ ++ l₂) :
    Rep (DList.insertBetween L E l₁.getLast? x l₂.head?).1 (DList.insertBetween L E l₁.getLast? x l₂.head?).2
      (l₁ ++ x :: l₂) := by
  have hs := (seg_append L none none l₁ l₂).1 h.seg
  have hdisj := (List.nodup_append.1 h.nodup).2.2
  have hne : ∀ y ∈ l₁ ++ l₂, y ≠ x := fun y hy he => hx (he ▸ hy)
  refine ⟨?_, ?_, ?_, ?_⟩
  · exact List.nodup_middle.2 (List.nodup_cons.2 ⟨hx, h.nodup⟩)
  · have hfirst := h.first
    rcases l₁ with _ | ⟨y, l₁⟩
    · cases l₂ <;> simp [DList.insertBetween]
    · rcases hlast : (y :: l₁).getLast? with _ | p
      · simp at hlast
      · cases l₂ <;> simpa [DList.insertBetween] using hfirst
  · have hlast := h.last
    rcases l₂ with _ | ⟨z, l₂⟩
    · simp [DList.insertBetween]
    · rcases l₁.getLast? with _ | p <;> simpa [DList.insertBetween, List.getLast?_append] using hlast
  · rw [seg_append]
    refine ⟨?_, ?_, ?_, ?_⟩
    · -- the last `next` pointer in front of `x` is redirected to it
      rcases List.eq_nil_or_concat l₁ with rfl | ⟨k, p, rfl⟩
      · trivial
      · simp only [List.concat_eq_append] at *
        have hp : p ∉ k := by
          have hnd := (List.nodup_append.1 (List.nodup_append.1 h.nodup).1).2.2
          exact fun hm => hnd p hm p (by simp) rfl
        refine (hs.1.setNext_last hp (some x)).congr (fun y hy => ?_) (fun y hy => ?_)
        · have hyx := hne y (List.mem_append_left _ hy)
          rw [insertBetween_next, setNext_next, List.getLast?_concat]
          simp [hyx, eq_comm]
        · have hyx := hne y (List.mem_append_left _ hy)
          rw [insertBetween_prev, if_neg, if_neg hyx, setNext_prev]
          exact fun hq => hdisj y hy y (List.mem_of_mem_head? hq) rfl
    · rw [insertBetween_prev, if_neg, if_pos rfl, Option.or_none]
      exact fun hq => hne x (List.mem_append_right _ (List.mem_of_mem_head? hq)) rfl
    · rw [insertBetween_next, if_neg, if_pos rfl, Option.or_none]
      exact fun hp => hne x (List.mem_append_left _ (List.mem_of_mem_getLast? hp)) rfl
    · -- and the first `prev` pointer behind it
      rcases l₂ with _ | ⟨q, l₂⟩
      · trivial
      · have hq : q ∉ l₂ := (List.nodup_cons.1 (List.nodup_append.1 h.nodup).2.1).1
        refine (hs.2.setPrev_head hq (some x)).congr (fun y hy => ?_) (fun y hy => ?_)
        · have hyx := hne y (List.mem_append_right _ hy)
          rw [insertBetween_next, if_neg, if_neg hyx, setPrev_next]
          exact fun hp => hdisj y (List.mem_of_mem_getLast? hp) y hy rfl
        · have hyx := hne y (List.mem_append_right _ hy)
          rw [insertBetween_prev, setPrev_prev, List.head?_cons]
          simp [hyx, eq_comm]

/-- Unlinking by any element that is a member. -/
theorem Rep.detach_mem {L : Links α} {E : Ends α} {l : List α} {x : α} (h : Rep L E l)
    (hx : x ∈ l) : Rep (DList.detach L E x).1 (DList.detach L E x).2 (l.erase x) := by
  obtain ⟨l₁, l₂, hnot, rfl, he⟩ := List.exists_erase_eq hx
  rw [he]
  exact h.detach

theorem Rep.unlink_mem {L : Links α} {E : Ends α} {l : List α} {x : α} (h : Rep L E l)
    (hx : x ∈ l) : Rep (DList.unlink L E x).1 (DList.unlink L E x).2 (l.erase x) := by
  obtain ⟨l₁, l₂, hnot, rfl, he⟩ := List.exists_erase_eq hx
  rw [he]
  exact h.unlink

theorem Rep.detach_mem_frame {L : Links α} {E : Ends α} {l : List α} {x y : α} (h : Rep L E l)
    (hx : x ∈ l) (hy : y ∉ l) :
    (DList.detach L E x).1.next y = L.next y ∧ (DList.detach L E x).1.prev y = L.prev y := by
  obtain ⟨l₁, l₂, rfl⟩ := List.append_of_mem hx
  exact h.detach_frame hy

/-! ## Lists that share their fields -/

/-- The lists with the ends `E i` sort the elements of `H` by `key`: every element of `H` is on the
list of its key, once, and on no other. -/
def Sorted {ι : Type v} (L : Links α) (E : ι → Ends α) (key : α → ι) (H : Set α) : Prop :=
  ∃ l : ι → List α, (∀ i, Rep L (E i) (l i)) ∧ ∀ i x, x ∈ l i ↔ x ∈ H ∧ key x = i

section Sorted

variable {ι : Type v} {L : Links α} {E : ι → Ends α} {key : α → ι} {H : Set α}

omit [DecidableEq α] in
theorem sorted_empty (L : Links α) (key : α → ι) : Sorted L (fun _ => emptyEnds) key ∅ :=
  ⟨fun _ => [], fun _ => rep_empty L, by simp⟩

omit [DecidableEq α] in
/-- Only the keys of the elements that are listed matter. -/
theorem Sorted.congr {key' : α → ι} {H' : Set α} (h : Sorted L E key H)
    (hH : ∀ x, x ∈ H' ↔ x ∈ H) (hkey : ∀ x ∈ H, key' x = key x) : Sorted L E key' H' := by
  obtain ⟨l, hrep, hmem⟩ := h
  refine ⟨l, hrep, fun i x => ?_⟩
  rw [hmem, hH]
  constructor
  · rintro ⟨h1, h2⟩
    exact ⟨h1, (hkey x h1).trans h2⟩
  · rintro ⟨h1, h2⟩
    exact ⟨h1, (hkey x h1).symm.trans h2⟩

variable [DecidableEq ι]

theorem Sorted.detach {x : α} (h : Sorted L E key H) (hx : x ∈ H) :
    Sorted (DList.detach L (E (key x)) x).1
      (Function.update E (key x) (DList.detach L (E (key x)) x).2) key (H \ {x}) := by
  obtain ⟨l, hrep, hmem⟩ := h
  have hxl : x ∈ l (key x) := (hmem _ _).2 ⟨hx, rfl⟩
  refine ⟨Function.update l (key x) ((l (key x)).erase x), fun i => ?_, fun i y => ?_⟩
  · by_cases hi : i = key x
    · subst hi
      simpa using (hrep _).detach_mem hxl
    · rw [Function.update_of_ne hi, Function.update_of_ne hi]
      -- the members of another list are not members of this one
      have hout : ∀ y ∈ l i, y ∉ l (key x) := fun y hy hy' =>
        hi (((hmem _ _).1 hy).2.symm.trans ((hmem _ _).1 hy').2)
      exact (hrep i).congr (fun y hy => ((hrep _).detach_mem_frame hxl (hout y hy)).1)
        fun y hy => ((hrep _).detach_mem_frame hxl (hout y hy)).2
  · by_cases hi : i = key x
    · subst hi
      rw [Function.update_self, (hrep _).nodup.mem_erase_iff, hmem]
      simp only [Set.mem_sdiff, Set.mem_singleton_iff]
      tauto
    · rw [Function.update_of_ne hi, hmem]
      simp only [Set.mem_sdiff, Set.mem_singleton_iff]
      constructor
      · rintro ⟨h1, h2⟩
        refine ⟨⟨h1, ?_⟩, h2⟩
        rintro rfl
        exact hi h2.symm
      · rintro ⟨⟨h1, -⟩, h2⟩
        exact ⟨h1, h2⟩

theorem Sorted.append {x : α} (h : Sorted L E key H) (hx : x ∉ H) :
    ∃ L' E', DList.append L (E (key x)) x = some (L', E') ∧
      Sorted L' (Function.update E (key x) E') key (insert x H) := by
  obtain ⟨l, hrep, hmem⟩ := h
  have hxl : ∀ i, x ∉ l i := fun i hm => hx ((hmem _ _).1 hm).1
  obtain ⟨L', E', happ, hrep', hframe⟩ := (hrep (key x)).append (hxl _)
  refine ⟨L', E', happ, Function.update l (key x) (l (key x) ++ [x]), fun i => ?_, fun i y => ?_⟩
  · by_cases hi : i = key x
    · subst hi
      simpa using hrep'
    · rw [Function.update_of_ne hi, Function.update_of_ne hi]
      have hout : ∀ y ∈ l i, y ∉ l (key x) ∧ y ≠ x := fun y hy =>
        ⟨fun hy' => hi (((hmem _ _).1 hy).2.symm.trans ((hmem _ _).1 hy').2),
          fun he => hxl i (he ▸ hy)⟩
      exact (hrep i).congr (fun y hy => (hframe y (hout y hy).1 (hout y hy).2).1)
        fun y hy => (hframe y (hout y hy).1 (hout y hy).2).2
  · by_cases hi : i = key x
    · subst hi
      rw [Function.update_self, List.mem_append, hmem, List.mem_singleton, Set.mem_insert_iff]
      constructor
      · rintro (⟨h1, h2⟩ | rfl)
        · exact ⟨.inr h1, h2⟩
        · exact ⟨.inl rfl, rfl⟩
      · rintro ⟨rfl | h1, h2⟩
        · exact .inr rfl
        · exact .inl ⟨h1, h2⟩
    · rw [Function.update_of_ne hi, hmem, Set.mem_insert_iff]
      constructor
      · rintro ⟨h1, h2⟩
        exact ⟨.inr h1, h2⟩
      · rintro ⟨rfl | h1, h2⟩
        · exact absurd h2.symm hi
        · exact ⟨h1, h2⟩

end Sorted

/-! ## The fields after an operation -/

theorem detach_next (L : Links α) (E : Ends α) (x y : α) : (DList.detach L E x).1.next y =
    if y = x then none else if L.prev x = some y then L.next x else L.next y := by
  rcases hp : L.prev x with _ | p <;> rcases hn : L.next x with _ | n <;>
    simp [DList.detach, DList.unlink, bypassNext, bypassPrev, hp, hn, eq_comm]

theorem detach_prev (L : Links α) (E : Ends α) (x y : α) : (DList.detach L E x).1.prev y =
    if y = x then none else if L.next x = some y then L.prev x else L.prev y := by
  rcases hp : L.prev x with _ | p <;> rcases hn : L.next x with _ | n <;>
    simp [DList.detach, DList.unlink, bypassNext, bypassPrev, hp, hn, eq_comm]

theorem detach_first (L : Links α) (E : Ends α) (x : α) : (DList.detach L E x).2.first =
    if L.prev x = none then L.next x else E.first := by
  rcases hp : L.prev x with _ | p <;> rcases hn : L.next x with _ | n <;>
    simp [DList.detach, DList.unlink, bypassNext, bypassPrev, hp, hn]

theorem detach_last (L : Links α) (E : Ends α) (x : α) : (DList.detach L E x).2.last =
    if L.next x = none then L.prev x else E.last := by
  rcases hp : L.prev x with _ | p <;> rcases hn : L.next x with _ | n <;>
    simp [DList.detach, DList.unlink, bypassNext, bypassPrev, hp, hn]

theorem append_next {L L' : Links α} {E E' : Ends α} {x : α}
    (h : DList.append L E x = some (L', E')) (y : α) : L'.next y =
    if y = x then none else if E.first ≠ none ∧ E.last = some y then some x else L.next y := by
  rcases E with ⟨_ | f, _ | z⟩ <;> simp only [DList.append, Option.some.injEq, Prod.mk.injEq,
    reduceCtorEq] at h <;> obtain ⟨rfl, rfl⟩ := h <;> simp [eq_comm]

theorem append_prev {L L' : Links α} {E E' : Ends α} {x : α}
    (h : DList.append L E x = some (L', E')) (y : α) : L'.prev y =
    if y = x then (if E.first = none then none else E.last) else L.prev y := by
  rcases E with ⟨_ | f, _ | z⟩ <;> simp only [DList.append, Option.some.injEq, Prod.mk.injEq,
    reduceCtorEq] at h <;> obtain ⟨rfl, rfl⟩ := h <;> simp

theorem append_ends {L L' : Links α} {E E' : Ends α} {x : α}
    (h : DList.append L E x = some (L', E')) :
    E' = ⟨if E.first = none then some x else E.first, some x⟩ := by
  rcases E with ⟨_ | f, _ | z⟩ <;> simp only [DList.append, Option.some.injEq, Prod.mk.injEq,
    reduceCtorEq] at h <;> obtain ⟨rfl, rfl⟩ := h <;> rfl

/-! ## What a wrong unlink leaves -/

/-- Pointers of members of `U` lead to members, `next` and `prev` mirror each other, and each end is a
member with nothing beyond it. -/
structure Coherent (U : Set α) (L : Links α) (E : Ends α) : Prop where
  next : ∀ x ∈ U, ∀ y, L.next x = some y → y ∈ U ∧ L.prev y = some x
  prev : ∀ x ∈ U, ∀ y, L.prev x = some y → y ∈ U ∧ L.next y = some x
  first : ∀ x, E.first = some x → x ∈ U ∧ L.prev x = none
  last : ∀ x, E.last = some x → x ∈ U ∧ L.next x = none

/-- The fields of `x` lead nowhere. -/
def Unlinked (L : Links α) (x : α) : Prop := L.next x = none ∧ L.prev x = none

section Coherent

variable {U : Set α} {L L' : Links α} {E E' : Ends α} {x : α}

omit [DecidableEq α] in
theorem coherent_empty (L : Links α) : Coherent ∅ L emptyEnds :=
  ⟨by simp, by simp, (fun _ h => by cases h), (fun _ h => by cases h)⟩

omit [DecidableEq α] in
/-- A represented list is coherent. -/
theorem Rep.coherent {l : List α} (h : Rep L E l) (hU : ∀ x, x ∈ U ↔ x ∈ l) : Coherent U L E := by
  refine ⟨?_, ?_, ?_, ?_⟩
  · intro x hx y hy
    obtain ⟨l₁, l₂, rfl⟩ := List.append_of_mem ((hU x).1 hx)
    rw [h.neighbours.2] at hy
    obtain ⟨l₃, rfl⟩ := List.head?_eq_some_iff.1 hy
    have h' : Rep L E ((l₁ ++ [x]) ++ y :: l₃) := by simpa using h
    exact ⟨(hU y).2 (by simp), by simpa using h'.neighbours.1⟩
  · intro x hx y hy
    obtain ⟨l₁, l₂, rfl⟩ := List.append_of_mem ((hU x).1 hx)
    rw [h.neighbours.1] at hy
    obtain ⟨l₀, rfl⟩ := List.getLast?_eq_some_iff.1 hy
    have h' : Rep L E (l₀ ++ y :: x :: l₂) := by simpa using h
    exact ⟨(hU y).2 (by simp), by simpa using h'.neighbours.2⟩
  · intro x hx
    rw [h.first] at hx
    obtain ⟨l₃, rfl⟩ := List.head?_eq_some_iff.1 hx
    have h' : Rep L E ([] ++ x :: l₃) := h
    exact ⟨(hU x).2 (by simp), h'.neighbours.1⟩
  · intro x hx
    rw [h.last] at hx
    obtain ⟨l₀, rfl⟩ := List.getLast?_eq_some_iff.1 hx
    exact ⟨(hU x).2 (by simp), h.neighbours.2⟩

omit [DecidableEq α] in
/-- The mirror image of a coherent list, front and back exchanged. -/
theorem Coherent.mirror (h : Coherent U L E) : Coherent U ⟨L.prev, L.next⟩ ⟨E.last, E.first⟩ :=
  ⟨h.prev, h.next, h.last, h.first⟩

/-- The half of `Coherent.detach` about `next` and the front end. -/
theorem Coherent.detach_front (h : Coherent U L E) (hx : x ∈ U) :
    (∀ y ∈ U \ {x}, ∀ z, (DList.detach L E x).1.next y = some z →
        z ∈ U \ {x} ∧ (DList.detach L E x).1.prev z = some y) ∧
      ∀ y, (DList.detach L E x).2.first = some y →
        y ∈ U \ {x} ∧ (DList.detach L E x).1.prev y = none := by
  constructor
  · rintro y ⟨hy, hyx⟩ z hz
    have hyx : y ≠ x := hyx
    rw [detach_next, if_neg hyx] at hz
    rw [detach_prev]
    by_cases hp : L.prev x = some y
    · -- `y` led to `x` and now leads to what is behind `x`
      rw [if_pos hp] at hz
      have hzx : z ≠ x := by
        rintro rfl
        have := (h.next z hx z hz).2
        rw [hp] at this
        exact hyx (Option.some.inj this)
      rw [if_neg hzx, if_pos hz]
      exact ⟨⟨(h.next x hx z hz).1, hzx⟩, hp⟩
    · rw [if_neg hp] at hz
      obtain ⟨hzU, hzp⟩ := h.next y hy z hz
      have hzx : z ≠ x := by
        rintro rfl
        exact hp hzp
      have hn : L.next x ≠ some z := by
        intro hn
        have := (h.next x hx z hn).2
        rw [hzp] at this
        exact hyx (Option.some.inj this)
      rw [if_neg hzx, if_neg hn]
      exact ⟨⟨hzU, hzx⟩, hzp⟩
  · intro y hy
    rw [detach_first] at hy
    rw [detach_prev]
    by_cases hp : L.prev x = none
    · rw [if_pos hp] at hy
      obtain ⟨hyU, hyp⟩ := h.next x hx y hy
      have hyx : y ≠ x := by
        rintro rfl
        rw [hp] at hyp
        cases hyp
      rw [if_neg hyx, if_pos hy]
      exact ⟨⟨hyU, hyx⟩, hp⟩
    · rw [if_neg hp] at hy
      obtain ⟨hyU, hyp⟩ := h.first y hy
      have hyx : y ≠ x := by
        rintro rfl
        exact hp hyp
      have hn : L.next x ≠ some y := by
        intro hn
        have := (h.next x hx y hn).2
        rw [hyp] at this
        cases this
      rw [if_neg hyx, if_neg hn]
      exact ⟨⟨hyU, hyx⟩, hyp⟩

/-- Detaching exchanges with the mirror. -/
theorem detach_mirror (L : Links α) (E : Ends α) (x : α) :
    (∀ y, (DList.detach ⟨L.prev, L.next⟩ ⟨E.last, E.first⟩ x).1.next y =
        (DList.detach L E x).1.prev y) ∧
      (∀ y, (DList.detach ⟨L.prev, L.next⟩ ⟨E.last, E.first⟩ x).1.prev y =
        (DList.detach L E x).1.next y) ∧
      (DList.detach ⟨L.prev, L.next⟩ ⟨E.last, E.first⟩ x).2.first =
        (DList.detach L E x).2.last := by
  refine ⟨fun y => ?_, fun y => ?_, ?_⟩
  · rw [detach_next, detach_prev]
  · rw [detach_next, detach_prev]
  · rw [detach_first, detach_last]

/-- Detaching a member, whatever the ends are, keeps the rest coherent. -/
theorem Coherent.detach (h : Coherent U L E) (hx : x ∈ U) :
    Coherent (U \ {x}) (DList.detach L E x).1 (DList.detach L E x).2 := by
  obtain ⟨hnext, hfirst⟩ := h.detach_front hx
  obtain ⟨hprev, hlast⟩ := h.mirror.detach_front hx
  obtain ⟨mn, mp, mf⟩ := detach_mirror L E x
  simp only [mn, mp, mf] at hprev hlast
  exact ⟨hnext, hprev, hfirst, hlast⟩

/-- Detaching touches members only. -/
theorem Coherent.detach_frame (h : Coherent U L E) (hx : x ∈ U) {y : α} (hy : y ∉ U) :
    (DList.detach L E x).1.next y = L.next y ∧ (DList.detach L E x).1.prev y = L.prev y := by
  have hyx : y ≠ x := fun he => hy (he ▸ hx)
  have hp : L.prev x ≠ some y := fun hp => hy (h.prev x hx y hp).1
  have hn : L.next x ≠ some y := fun hn => hy (h.next x hx y hn).1
  rw [detach_next, detach_prev, if_neg hyx, if_neg hyx, if_neg hp, if_neg hn]
  exact ⟨rfl, rfl⟩

/-- Detaching an element that is on no list changes no field, and both ends become null. -/
theorem Unlinked.detach (hx : Unlinked L x) (E : Ends α) :
    DList.detach L E x = (L, emptyEnds) := by
  obtain ⟨hn, hp⟩ := hx
  have h1 : Function.update L.next x none = L.next := by
    rw [← hn]
    exact Function.update_eq_self x L.next
  have h2 : Function.update L.prev x none = L.prev := by
    rw [← hp]
    exact Function.update_eq_self x L.prev
  simp only [DList.detach, DList.unlink, bypassNext, bypassPrev, hn, hp, setNext, setPrev, h1, h2]
  rfl

omit [DecidableEq α] in
/-- Members stay linked to one another when both ends are lost. -/
theorem Coherent.lose (h : Coherent U L E) : Coherent U L emptyEnds :=
  ⟨h.next, h.prev, (fun _ he => by cases he), (fun _ he => by cases he)⟩

/-- Appending a new element to a coherent list, when that does not fault. -/
theorem Coherent.append (h : Coherent U L E) (hx : x ∉ U)
    (happ : DList.append L E x = some (L', E')) : Coherent (insert x U) L' E' := by
  have hne : ∀ y ∈ U, y ≠ x := fun y hy he => hx (he ▸ hy)
  refine ⟨?_, ?_, ?_, ?_⟩
  · rintro y (rfl | hy) z hz
    · rw [append_next happ, if_pos rfl] at hz
      cases hz
    · rw [append_next happ, if_neg (hne y hy)] at hz
      rw [append_prev happ]
      by_cases hc : E.first ≠ none ∧ E.last = some y
      · rw [if_pos hc] at hz
        obtain rfl := Option.some.inj hz
        rw [if_pos rfl, if_neg hc.1]
        exact ⟨Set.mem_insert _ _, hc.2⟩
      · rw [if_neg hc] at hz
        obtain ⟨hzU, hzp⟩ := h.next y hy z hz
        rw [if_neg (hne z hzU)]
        exact ⟨Set.mem_insert_of_mem _ hzU, hzp⟩
  · rintro y (rfl | hy) z hz
    · rw [append_prev happ, if_pos rfl] at hz
      by_cases hf : E.first = none
      · rw [if_pos hf] at hz
        cases hz
      · rw [if_neg hf] at hz
        obtain ⟨hzU, -⟩ := h.last z hz
        rw [append_next happ, if_neg (hne z hzU), if_pos ⟨hf, hz⟩]
        exact ⟨Set.mem_insert_of_mem _ hzU, rfl⟩
    · rw [append_prev happ, if_neg (hne y hy)] at hz
      obtain ⟨hzU, hzn⟩ := h.prev y hy z hz
      rw [append_next happ, if_neg (hne z hzU), if_neg]
      · exact ⟨Set.mem_insert_of_mem _ hzU, hzn⟩
      · rintro ⟨-, hl⟩
        rw [(h.last z hl).2] at hzn
        cases hzn
  · intro y hy
    rw [append_ends happ] at hy
    rw [append_prev happ]
    by_cases hf : E.first = none
    · simp only [hf, if_true, Option.some.injEq] at hy
      subst hy
      simp [hf]
    · simp only [hf, if_false] at hy
      obtain ⟨hyU, hyp⟩ := h.first y hy
      rw [if_neg (hne y hyU)]
      exact ⟨Set.mem_insert_of_mem _ hyU, hyp⟩
  · intro y hy
    rw [append_ends happ] at hy
    obtain rfl := Option.some.inj hy
    rw [append_next happ, if_pos rfl]
    exact ⟨Set.mem_insert _ _, rfl⟩

/-- Appending touches members and the new element only. -/
theorem Coherent.append_frame (h : Coherent U L E) (happ : DList.append L E x = some (L', E'))
    {y : α} (hy : y ∉ U) (hyx : y ≠ x) : L'.next y = L.next y ∧ L'.prev y = L.prev y := by
  have hl : ¬(E.first ≠ none ∧ E.last = some y) := fun hc => hy (h.last y hc.2).1
  rw [append_next happ, append_prev happ, if_neg hyx, if_neg hl, if_neg hyx]
  exact ⟨rfl, rfl⟩

/-- The chain that starts at an element nothing in `S` leads to ends, and repeats nothing. -/
theorem chain_traverses (L : Links α) (n : Nat) (S : Finset α) (hS : S.card = n)
    (hnext : ∀ y ∈ S, ∀ z, L.next y = some z → z ∈ S ∧ L.prev z = some y) (hx : x ∈ S)
    (hp : ∀ p, L.prev x = some p → p ∉ S) :
    ∃ l, Traverses L.next (some x) l ∧ l.Nodup ∧ ∀ y ∈ l, y ∈ S := by
  induction n generalizing S x with
  | zero =>
      rw [Finset.card_eq_zero] at hS
      subst hS
      cases hx
  | succ n ih =>
      cases hn : L.next x with
      | none =>
          refine ⟨[x], ⟨rfl, ?_⟩, by simp, by simpa using hx⟩
          rw [hn]
          trivial
      | some z =>
          obtain ⟨hzS, hzp⟩ := hnext x hx z hn
          have hzx : z ≠ x := by
            rintro rfl
            exact hp z hzp hx
          -- nothing behind `x` leads back to it, so the rest is closed without it
          have hclosed : ∀ y ∈ S.erase x, ∀ w, L.next y = some w →
              w ∈ S.erase x ∧ L.prev w = some y := by
            intro y hy w hw
            obtain ⟨hyx, hyS⟩ := Finset.mem_erase.1 hy
            obtain ⟨hwS, hwp⟩ := hnext y hyS w hw
            refine ⟨Finset.mem_erase.2 ⟨?_, hwS⟩, hwp⟩
            rintro rfl
            exact hp y hwp hyS
          obtain ⟨l, htr, hnd, hmem⟩ := ih (S.erase x) (by rw [Finset.card_erase_of_mem hx]; omega)
            hclosed (Finset.mem_erase.2 ⟨hzx, hzS⟩) (fun p hzp' => by
              rw [hzp] at hzp'
              obtain rfl := Option.some.inj hzp'
              simp)
          refine ⟨x :: l, ⟨rfl, ?_⟩, List.nodup_cons.2 ⟨fun hm => ?_, hnd⟩, ?_⟩
          · rw [hn]
            exact htr
          · exact (Finset.mem_erase.1 (hmem x hm)).1 rfl
          · intro y hy
            rcases List.mem_cons.1 hy with rfl | hy
            · exact hx
            · exact (Finset.mem_erase.1 (hmem y hy)).2

/-- A walk along a coherent list ends and meets only members, each at most once. -/
theorem Coherent.walk_next (h : Coherent U L E) (S : Finset α) (hS : ∀ x, x ∈ S ↔ x ∈ U) :
    Traverses L.next E.first (walk L.next S.card E.first) ∧
      ∀ x ∈ walk L.next S.card E.first, x ∈ U := by
  cases hf : E.first with
  | none =>
      have : walk L.next S.card none = [] := by cases S.card <;> rfl
      rw [this]
      exact ⟨trivial, by simp⟩
  | some x =>
      obtain ⟨hx, hp⟩ := h.first x hf
      obtain ⟨l, htr, hnd, hmem⟩ := chain_traverses L S.card S rfl
        (fun y hy z hz => by
          obtain ⟨h1, h2⟩ := h.next y ((hS y).1 hy) z hz
          exact ⟨(hS z).2 h1, h2⟩)
        ((hS x).2 hx) (fun p hp' => by rw [hp] at hp'; cases hp')
      have hlen : l.length ≤ S.card := by
        rw [← List.toFinset_card_of_nodup hnd]
        exact Finset.card_le_card fun y hy => hmem y (List.mem_toFinset.1 hy)
      rw [walk_traverses htr hlen]
      exact ⟨htr, fun y hy => (hS y).1 (hmem y hy)⟩

end Coherent

/-! ## Disciplines -/

/-- A way to tie a list to a set that the operations keep. -/
structure Discipline (P : Set α → Links α → Ends α → Prop) : Prop where
  coherent : ∀ {U L E}, P U L E → Coherent U L E
  empty : ∀ L, P ∅ L emptyEnds
  detach : ∀ {U L E x}, P U L E → x ∈ U →
    P (U \ {x}) (DList.detach L E x).1 (DList.detach L E x).2
  append : ∀ {U L E x L' E'}, P U L E → x ∉ U → DList.append L E x = some (L', E') →
    P (insert x U) L' E'

/-- The list is exactly the set. -/
def Exact (U : Set α) (L : Links α) (E : Ends α) : Prop := ∃ l, Rep L E l ∧ ∀ x, x ∈ l ↔ x ∈ U

theorem coherent_discipline : Discipline (Coherent (α := α)) :=
  ⟨id, coherent_empty, Coherent.detach, Coherent.append⟩

theorem exact_discipline : Discipline (Exact (α := α)) where
  coherent := by
    rintro U L E ⟨l, hrep, hmem⟩
    exact hrep.coherent fun x => (hmem x).symm
  empty L := ⟨[], rep_empty L, by simp⟩
  detach := by
    rintro U L E x ⟨l, hrep, hmem⟩ hx
    refine ⟨_, hrep.detach_mem ((hmem x).2 hx), fun y => ?_⟩
    rw [hrep.nodup.mem_erase_iff, hmem, Set.mem_sdiff, Set.mem_singleton_iff, and_comm]
  append := by
    rintro U L E x L' E' ⟨l, hrep, hmem⟩ hx happ
    obtain ⟨L₁, E₁, happ₁, hrep₁, -⟩ := hrep.append fun hm => hx ((hmem x).1 hm)
    rw [happ] at happ₁
    cases happ₁
    refine ⟨_, hrep₁, fun y => ?_⟩
    rw [List.mem_append, hmem, List.mem_singleton, Set.mem_insert_iff, or_comm]

end DList

end Minipython.Lib
