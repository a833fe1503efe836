/-
# Minipython.Tools.AlistLinks — the entries of the allocator in memory (shfs_alloc.c)

The entries of `Minipython.Tools.Alist` are chained by hand. Registering searches the place by the starts and
patches four pointers there, unregistering compares both bounds and patches the pointers around the entry that
it frees.

`Holds al l` says that the chain is `l`. Under it the two functions do on the chain what the functions on
`Minipython.Tools.Alist` do on the list (`register_refines`, `unregister_refines`).

An entry is a number here, and its memory a record of its bounds and two links. An access to an entry that
is not allocated is a fault, and so is a loop that goes on for longer than there are entries:
`register_refines` and `unregister_refines` exclude both on a chain. Memory for a new entry is any number
that is not in use, or none.
-/
import Mathlib.Data.Finset.Card
import Minipython.Lib.DList
import Minipython.Tools.Alloc

namespace Minipython.Tools.Linked

open Minipython.Lib
open Minipython.Lib.Extent
open Minipython.Shfs

/-! ## The code -/

def enoent : Int := 2
def enomem : Int := 12

/-- How a function can fail to return. -/
inductive AlistFault where
  /-- an access to an entry that is not allocated -/
  | wild
  /-- a loop that has met more entries than there are -/
  | endless
  deriving DecidableEq, Repr

/-- `struct shfs_alist` and the entries at their addresses. The addresses in `live` have been handed out by
`malloc`, and not been freed. -/
structure Alist where
  stop : Nat
  count : UInt32
  allocator : UInt8
  ends : Ends Nat
  entry : Nat → Aentry
  links : Links Nat
  live : Finset Nat

/-- `shfs_alloc_alist`. The memory for entries is as it is, and `mem` is the outcome of the allocation. -/
def shfsAllocAlist (areaSize : Nat) (allocator : UInt8) (entry : Nat → Aentry) (links : Links Nat)
    (mem : Bool) : Option Alist :=
  if allocator ≠ sallocFirstfit ∧ allocator ≠ sallocBestfit then none
  else if mem then some ⟨areaSize, 0, allocator, DList.emptyEnds, entry, links, ∅⟩
  else none

/-- Read or write the entry at an address. -/
def Alist.access (al : Alist) (e : Nat) : Except AlistFault Unit :=
  if e ∈ al.live then .ok () else .error .wild

/-- The loop of `shfs_alist_register` at `e`: the predecessor and the successor. -/
def registerLoop (al : Alist) (start : Nat) :
    Nat → Option Nat → Option Nat → Except AlistFault (Option Nat × Option Nat)
  | 0, _, _ => .error .endless
  | _ + 1, prev, none => .ok (prev, none)
  | turns + 1, prev, some e => do
      al.access e
      if (al.entry e).start ≤ start then registerLoop al start turns (some e) (al.links.next e)
      else return (prev, some e)

/-- The memory with a new entry. -/
def Alist.malloc (al : Alist) (new : Nat) (e : Aentry) : Alist :=
  { al with live := insert new al.live, entry := Function.update al.entry new e }

/-- `shfs_alist_register`; `mem` is the address that `malloc` returns. -/
def shfsAlistRegister (al : Alist) (mem : Option Nat) (start len : Nat) : Except AlistFault (Int × Alist) :=
  match mem with
  | none => .ok (-enomem, al)
  | some new => do
      let al := al.malloc new (aentryOf start len)
      let s ←
        if al.ends.first = none then
          pure (DList.setNext (DList.setPrev al.links new none) new none, ⟨some new, some new⟩)
        else do
          let (prev, next) ← registerLoop al start (al.live.card + 1) none al.ends.first
          pure (DList.insertBetween al.links al.ends prev new next)
      return (0, { al with links := s.1, ends := s.2, count := al.count + 1 })

/-- The loop of `shfs_alist_unregister` at `e`: the entry that is found. -/
def unregisterLoop (al : Alist) (start stop : Nat) : Nat → Option Nat → Except AlistFault (Option Nat)
  | 0, _ => .error .endless
  | _ + 1, none => .ok none
  | turns + 1, some e => do
      al.access e
      if (al.entry e).start = start ∧ (al.entry e).stop = stop then return some e
      else unregisterLoop al start stop turns (al.links.next e)

/-- `shfs_alist_unregister`. -/
def shfsAlistUnregister (al : Alist) (start len : Nat) : Except AlistFault (Int × Alist) := do
  let stop := wrap64 (start + len)
  match ← unregisterLoop al start stop (al.live.card + 1) al.ends.first with
  | none => return (-enoent, al)
  | some e => do
      (al.links.prev e).forM al.access
      (al.links.next e).forM al.access
      let s := DList.unlink al.links al.ends e
      return (0, { al with links := s.1, ends := s.2, live := al.live.erase e, count := al.count - 1 })

/-! ## The chain -/

/-- The entries are chained as `l`, in the order of their starts, and counted in 32 bits. No other entry is
allocated. -/
structure Holds (al : Alist) (l : List Nat) : Prop where
  rep : DList.Rep al.links al.ends l
  live : ∀ e, e ∈ al.live ↔ e ∈ l
  sorted : Extent.Sorted (l.map al.entry)
  count : al.count = UInt32.ofNat l.length

/-- The list that a chain stands for. -/
def Alist.read (al : Alist) (l : List Nat) : Tools.Alist := ⟨al.stop, l.length, al.allocator, l.map al.entry⟩

section Chain

variable {al : Alist} {l : List Nat} {new : Nat}

/-- There are as many entries as the chain is long. -/
theorem Holds.card (h : Holds al l) : al.live.card = l.length := by
  have hset : al.live = l.toFinset := by
    ext e
    rw [h.live, List.mem_toFinset]
  rw [hset, List.toFinset_card_of_nodup h.rep.nodup]

theorem holds_alloc {areaSize : Nat} {allocator : UInt8} {entry : Nat → Aentry} {links : Links Nat} {mem : Bool}
    (h : shfsAllocAlist areaSize allocator entry links mem = some al) : Holds al [] := by
  unfold shfsAllocAlist at h
  split at h
  · cases h
  · split at h
    · cases h
      exact ⟨DList.rep_empty links, fun e => by simp, List.Pairwise.nil, rfl⟩
    · cases h

theorem access_ok {e : Nat} (h : e ∈ al.live) : al.access e = .ok () := if_pos h

theorem access_option {p : Option Nat} (h : ∀ e ∈ p, e ∈ al.live) : p.forM al.access = .ok () := by
  rcases p with _ | e
  · rfl
  · exact access_ok (h e rfl)

/-- The search for the place splits what is left of the chain by the starts. -/
theorem registerLoop_spec (start : Nat) (prev : Option Nat) {p : Option Nat} {turns : Nat}
    (htr : DList.Traverses al.links.next p l) (hlive : ∀ e ∈ l, e ∈ al.live) (hturns : l.length < turns) :
    ∃ l₁ l₂, l = l₁ ++ l₂ ∧ (∀ e ∈ l₁, (al.entry e).start ≤ start) ∧
      (∀ e ∈ l₂.head?, start < (al.entry e).start) ∧
      registerLoop al start turns prev p = .ok (l₁.getLast?.or prev, l₂.head?) := by
  induction l generalizing p prev turns with
  | nil =>
      rcases turns with _ | turns
      · simp at hturns
      · rcases p with _ | e
        · exact ⟨[], [], rfl, by simp, by simp, rfl⟩
        · exact absurd htr id
  | cons e l ih =>
      rcases turns with _ | turns
      · simp at hturns
      · rcases p with _ | e'
        · exact absurd htr id
        · rcases htr with ⟨rfl, htail⟩
          have hok := access_ok (hlive e' (by simp))
          by_cases hle : (al.entry e').start ≤ start
          · rcases ih (some e') htail (fun x hx => hlive x (by simp [hx])) (by simpa using hturns) with
              ⟨l₁, l₂, rfl, hfront, hnext, hloop⟩
            refine ⟨e' :: l₁, l₂, rfl, by simpa [hle] using hfront, hnext, ?_⟩
            rw [registerLoop, hok]
            simp only [Except.bind, bind, if_pos hle, hloop, List.getLast?_cons]
            cases l₁.getLast? <;> rfl
          · refine ⟨[], e' :: l, rfl, by simp, by simpa using hle, ?_⟩
            rw [registerLoop, hok]
            simp [Except.bind, bind, hle, pure, Except.pure]

/-- The search for an entry finds the first with its bounds. -/
theorem unregisterLoop_spec (start stop : Nat) {p : Option Nat} {turns : Nat}
    (htr : DList.Traverses al.links.next p l) (hlive : ∀ e ∈ l, e ∈ al.live) (hturns : l.length < turns) :
    ((∀ e ∈ l, al.entry e ≠ ⟨start, stop⟩) ∧ unregisterLoop al start stop turns p = .ok none) ∨
      ∃ l₁ e l₂, l = l₁ ++ e :: l₂ ∧ (∀ x ∈ l₁, al.entry x ≠ ⟨start, stop⟩) ∧ al.entry e = ⟨start, stop⟩ ∧
        unregisterLoop al start stop turns p = .ok (some e) := by
  induction l generalizing p turns with
  | nil =>
      rcases turns with _ | turns
      · simp at hturns
      · rcases p with _ | e
        · exact .inl ⟨by simp, rfl⟩
        · exact absurd htr id
  | cons e l ih =>
      rcases turns with _ | turns
      · simp at hturns
      · rcases p with _ | e'
        · exact absurd htr id
        · rcases htr with ⟨rfl, htail⟩
          have hok := access_ok (hlive e' (by simp))
          have hiff : ((al.entry e').start = start ∧ (al.entry e').stop = stop) ↔
              al.entry e' = ⟨start, stop⟩ := by
            rcases al.entry e' with ⟨a, b⟩
            simp
          by_cases heq : al.entry e' = ⟨start, stop⟩
          · refine .inr ⟨[], e', l, rfl, by simp, heq, ?_⟩
            rw [unregisterLoop, hok]
            simp only [Except.bind, bind, if_pos (hiff.2 heq), pure, Except.pure]
          · have hloop : unregisterLoop al start stop (turns + 1) (some e') =
                unregisterLoop al start stop turns (al.links.next e') := by
              rw [unregisterLoop, hok]
              simp only [Except.bind, bind, if_neg (mt hiff.1 heq)]
            rw [hloop]
            rcases ih htail (fun x hx => hlive x (by simp [hx])) (by simpa using hturns) with
              ⟨hnone, hres⟩ | ⟨l₁, x, l₂, rfl, hfront, hx, hres⟩
            · exact .inl ⟨by simpa [heq] using hnone, hres⟩
            · exact .inr ⟨e' :: l₁, x, l₂, rfl, by simpa [heq] using hfront, hx, hres⟩

/-! ## Registering -/

/-- Where the new entry is linked. -/
theorem register_place (h : Holds al l) (hnew : new ∉ l) (start len : Nat) :
    ∃ l₁ l₂, l = l₁ ++ l₂ ∧ (∀ e ∈ l₁, (al.entry e).start ≤ start) ∧
      (∀ e ∈ l₂.head?, start < (al.entry e).start) ∧
      shfsAlistRegister al (some new) start len = .ok (0, { al.malloc new (aentryOf start len) with
        links := (DList.insertBetween al.links al.ends l₁.getLast? new l₂.head?).1
        ends := (DList.insertBetween al.links al.ends l₁.getLast? new l₂.head?).2
        count := al.count + 1 }) := by
  have hold : ∀ e ∈ l, (al.malloc new (aentryOf start len)).entry e = al.entry e := by
    intro e he
    apply Function.update_of_ne
    rintro rfl
    exact hnew he
  by_cases hhead : al.ends.first = none
  · have hl : l = [] := List.head?_eq_none_iff.1 (h.rep.first ▸ hhead)
    subst hl
    refine ⟨[], [], rfl, by simp, by simp, ?_⟩
    have hnone : (al.malloc new (aentryOf start len)).ends.first = none := hhead
    rw [shfsAlistRegister]
    simp only [if_pos hnone]
    rfl
  · have hlive : ∀ e ∈ l, e ∈ (al.malloc new (aentryOf start len)).live := fun e he =>
      Finset.mem_insert_of_mem ((h.live e).2 he)
    have hcard : l.length < (al.malloc new (aentryOf start len)).live.card + 1 := by
      have hle := Finset.card_le_card (Finset.subset_insert new al.live)
      rw [h.card] at hle
      exact Nat.lt_succ_of_le hle
    have htr : DList.Traverses (al.malloc new (aentryOf start len)).links.next al.ends.first l :=
      h.rep.traverses.1
    rcases registerLoop_spec start none htr hlive hcard with ⟨l₁, l₂, rfl, hfront, hnext, hloop⟩
    refine ⟨l₁, l₂, rfl, fun e he => ?_, fun e he => ?_, ?_⟩
    · rw [← hold e (List.mem_append_left _ he)]
      exact hfront e he
    · rw [← hold e (List.mem_append_right _ (List.mem_of_mem_head? he))]
      exact hnext e he
    · have hsome : ¬(al.malloc new (aentryOf start len)).ends.first = none := hhead
      have hloop' : registerLoop (al.malloc new (aentryOf start len)) start
          ((al.malloc new (aentryOf start len)).live.card + 1) none
          (al.malloc new (aentryOf start len)).ends.first = .ok (l₁.getLast?, l₂.head?) := by
        rw [Option.or_none] at hloop
        exact hloop
      rw [shfsAlistRegister]
      simp only [if_neg hsome, hloop']
      rfl

/-- Registering goes right, and inserts the area by its start. -/
theorem register_refines (h : Holds al l) (hnew : new ∉ l) (start len : Nat) :
    ∃ al' l', shfsAlistRegister al (some new) start len = .ok (0, al') ∧ Holds al' l' ∧
      l'.Perm (new :: l) ∧ al'.read l' = (Tools.shfsAlistRegister (al.read l) true start len).2 := by
  rcases register_place h hnew start len with ⟨l₁, l₂, rfl, hfront, hnext, hreg⟩
  have hmap : ∀ k : List Nat, new ∉ k →
      k.map (Function.update al.entry new (aentryOf start len)) = k.map al.entry := by
    intro k hk
    apply List.map_congr_left
    intro e he
    apply Function.update_of_ne
    rintro rfl
    exact hk he
  have hentries : (l₁ ++ new :: l₂).map (Function.update al.entry new (aentryOf start len)) =
      insertByStart (aentryOf start len) ((l₁ ++ l₂).map al.entry) := by
    have hfirst : insertByStart (aentryOf start len) (l₂.map al.entry) =
        aentryOf start len :: l₂.map al.entry := by
      rcases l₂ with _ | ⟨e, l₂⟩
      · rfl
      · have hlt : ¬(al.entry e).start ≤ (aentryOf start len).start := Nat.not_le.2 (hnext e rfl)
        exact if_neg hlt
    rw [List.map_append, List.map_append, insertByStart_append, hfirst, List.map_cons,
      Function.update_self, hmap l₁ (fun hm => hnew (by simp [hm])), hmap l₂ (fun hm => hnew (by simp [hm]))]
    intro a ha
    rcases List.mem_map.1 ha with ⟨e, he, rfl⟩
    exact hfront e he
  have hlength : (l₁ ++ new :: l₂).length = (l₁ ++ l₂).length + 1 := by
    simp only [List.length_append, List.length_cons]
    omega
  refine ⟨_, l₁ ++ new :: l₂, hreg, ⟨h.rep.insertBetween hnew, fun e => ?_, ?_, ?_⟩,
    List.perm_middle, ?_⟩
  · show e ∈ insert new al.live ↔ _
    rw [Finset.mem_insert, h.live]
    simp only [List.mem_append, List.mem_cons]
    tauto
  · show Extent.Sorted ((l₁ ++ new :: l₂).map (Function.update al.entry new (aentryOf start len)))
    rw [hentries]
    exact h.sorted.insertByStart _
  · show al.count + 1 = _
    rw [h.count, hlength, UInt32.ofNat_add]
    rfl
  · show (⟨al.stop, (l₁ ++ new :: l₂).length, al.allocator,
      (l₁ ++ new :: l₂).map (Function.update al.entry new (aentryOf start len))⟩ : Tools.Alist) = _
    rw [hlength, hentries]
    rfl

/-! ## Unregistering -/

/-- Which entry is unlinked and freed. -/
theorem unregister_place (h : Holds al l) (start len : Nat) :
    ((∀ e ∈ l, al.entry e ≠ aentryOf start len) ∧ shfsAlistUnregister al start len = .ok (-enoent, al)) ∨
      ∃ l₁ e l₂, l = l₁ ++ e :: l₂ ∧ (∀ x ∈ l₁, al.entry x ≠ aentryOf start len) ∧
        al.entry e = aentryOf start len ∧
        shfsAlistUnregister al start len = .ok (0, { al with
          links := (DList.unlink al.links al.ends e).1
          ends := (DList.unlink al.links al.ends e).2
          live := al.live.erase e
          count := al.count - 1 }) := by
  have hcard : l.length < al.live.card + 1 := by
    rw [h.card]
    exact Nat.lt_succ_self _
  rcases unregisterLoop_spec start (wrap64 (start + len)) h.rep.traverses.1
    (fun e he => (h.live e).2 he) hcard with ⟨hnone, hloop⟩ | ⟨l₁, e, l₂, rfl, hfront, he, hloop⟩
  · refine .inl ⟨hnone, ?_⟩
    rw [shfsAlistUnregister]
    simp only [hloop]
    rfl
  · refine .inr ⟨l₁, e, l₂, rfl, hfront, he, ?_⟩
    -- the entries that are patched are neighbours on the chain
    rcases h.rep.neighbours with ⟨hp, hn⟩
    have hprev : (al.links.prev e).forM al.access = .ok () := by
      apply access_option
      intro x hx
      rw [hp] at hx
      exact (h.live x).2 (by simp [List.mem_of_mem_getLast? hx])
    have hnext : (al.links.next e).forM al.access = .ok () := by
      apply access_option
      intro x hx
      rw [hn] at hx
      exact (h.live x).2 (by simp [List.mem_of_mem_head? hx])
    rw [shfsAlistUnregister]
    simp only [hloop, bind, Except.bind, hprev, hnext]
    rfl

/-- What is left of the chain without an entry. -/
theorem mem_erase_middle {l₁ l₂ : List Nat} {e : Nat} (hnd : (l₁ ++ e :: l₂).Nodup) (x : Nat) :
    x ≠ e ∧ x ∈ l₁ ++ e :: l₂ ↔ x ∈ l₁ ++ l₂ := by
  have hout := (List.nodup_cons.1 (List.nodup_middle.1 hnd)).1
  constructor
  · rintro ⟨hx, hm⟩
    simpa [hx] using hm
  · intro hm
    refine ⟨?_, ?_⟩
    · rintro rfl
      exact hout hm
    · rw [List.mem_append, List.mem_cons]
      exact (List.mem_append.1 hm).imp_right .inr

/-- Unregistering goes right: it frees the first entry with the bounds of the area, or finds none. -/
theorem unregister_refines (h : Holds al l) (start len : Nat) :
    (Tools.shfsAlistUnregister (al.read l) start len = none ∧
      shfsAlistUnregister al start len = .ok (-enoent, al)) ∨
    ∃ al' l', shfsAlistUnregister al start len = .ok (0, al') ∧ Holds al' l' ∧
      Tools.shfsAlistUnregister (al.read l) start len = some (al'.read l') := by
  rcases unregister_place h start len with ⟨hnone, hun⟩ | ⟨l₁, e, l₂, rfl, hfront, he, hun⟩
  · refine .inl ⟨if_neg fun hmem => ?_, hun⟩
    rcases List.mem_map.1 hmem with ⟨e, hel, he⟩
    exact hnone e hel he
  · have hlength : (l₁ ++ e :: l₂).length = (l₁ ++ l₂).length + 1 := by
      simp only [List.length_append, List.length_cons]
      omega
    refine .inr ⟨_, l₁ ++ l₂, hun, ⟨h.rep.unlink, fun x => ?_, ?_, ?_⟩, ?_⟩
    · show x ∈ al.live.erase e ↔ _
      rw [Finset.mem_erase, h.live]
      exact mem_erase_middle h.rep.nodup x
    · apply List.Pairwise.sublist _ h.sorted
      exact ((List.sublist_cons_self e l₂).append_left l₁).map _
    · show al.count - 1 = _
      rw [h.count, hlength, UInt32.ofNat_add]
      exact UInt32.add_sub_cancel _ _
    · have hmem : aentryOf start len ∈ (l₁ ++ e :: l₂).map al.entry :=
        List.mem_map.2 ⟨e, by simp, he⟩
      have hnot : aentryOf start len ∉ l₁.map al.entry := by
        intro hm
        rcases List.mem_map.1 hm with ⟨x, hx, hxe⟩
        exact hfront x hx hxe
      have herase : ((l₁ ++ e :: l₂).map al.entry).erase (aentryOf start len) =
          (l₁ ++ l₂).map al.entry := by
        rw [List.map_append, List.map_cons, he, List.erase_append_right _ hnot]
        show l₁.map al.entry ++ (aentryOf start len :: l₂.map al.entry).erase (aentryOf start len) = _
        rw [List.erase_cons_head, List.map_append]
      rw [Tools.shfsAlistUnregister]
      show (if aentryOf start len ∈ (l₁ ++ e :: l₂).map al.entry then _ else none) = _
      rw [if_pos hmem]
      show some (⟨al.stop, (l₁ ++ e :: l₂).length - 1, al.allocator,
        ((l₁ ++ e :: l₂).map al.entry).erase (aentryOf start len)⟩ : Tools.Alist) = _
      rw [herase, hlength]
      rfl

end Chain

end Minipython.Tools.Linked
