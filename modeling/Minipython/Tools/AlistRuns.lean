/-
# Minipython.Tools.AlistRuns — the allocator under any sequence of calls (shfs_alloc.c)

A history is a sequence of calls that register and unregister areas, some of which find no memory or no entry.
After each the chain is sorted and linked both ways, and its areas are those that the successful calls have
registered less those that they have unregistered (`alist_sorted_multiset`).

`SortedMultiset` is judged after the whole history, with one call more: an area that is not on the list is
refused with `-ENOENT` and nothing changes, and one that is there is taken off once. The chain is that of
`AlistLinks`, at the level of its four link writes, so that a call that followed a wrong link would have a
fault; none has.

The counter is an `unsigned int`. A list of `2 ^ 32` entries has a counter of zero (`alist_count_wraps`),
and no function of the allocator reads it. So the order, the links and the areas are right without a
condition, and the counter is the number of entries modulo `2 ^ 32`.
-/
import Mathlib.Data.Multiset.Filter
import Mathlib.Algebra.Order.Group.Multiset
import Minipython.Lib.Machine
import Minipython.Tools.AlistLinks

namespace Minipython.Tools.Linked

open Minipython.Lib
open Minipython.Lib.Extent
open Minipython.Shfs

/-- A call with non-wrapping bounds, and what `malloc` returns to it. -/
inductive AlistCall where
  | register (mem : Option Nat) (start len : Nat)
  | unregister (start len : Nat)
  deriving DecidableEq, Repr

def alistCall (al : Alist) : AlistCall → Except AlistFault (Int × Alist)
  | .register mem start len => shfsAlistRegister al mem start len
  | .unregister start len => shfsAlistUnregister al start len

/-- The area that a call is to register. -/
def AlistCall.registers : AlistCall → Option Aentry
  | .register _ start len => some ⟨start, start + len⟩
  | .unregister .. => none

/-- The area that a call is to unregister. -/
def AlistCall.unregisters : AlistCall → Option Aentry
  | .register .. => none
  | .unregister start len => some ⟨start, start + len⟩

/-- The allocator, and all calls so far with the values that they have returned. -/
structure AlistRun where
  al : Alist
  log : List (AlistCall × Int)

/-- The areas of the calls that have succeeded. -/
def areasOf (f : AlistCall → Option Aentry) (log : List (AlistCall × Int)) : Multiset Aentry :=
  ((log.filter fun x => x.2 = 0).filterMap fun x => f x.1 : List Aentry)

def registered (log : List (AlistCall × Int)) : Multiset Aentry := areasOf AlistCall.registers log

def unregistered (log : List (AlistCall × Int)) : Multiset Aentry := areasOf AlistCall.unregisters log

/-- The areas of the entries on a chain. -/
def Alist.areas (al : Alist) (l : List Nat) : Multiset Aentry := (l.map al.entry : List Aentry)

/-- What a call may be made with: `malloc` hands out no entry twice. -/
def callEnabled (al : Alist) : AlistCall → Prop
  | .register mem start len => start + len < u64Size ∧ ∀ new ∈ mem, new ∉ al.live
  | .unregister start len => start + len < u64Size

/-- An allocator under calls in any order. -/
def alistRuns : Machine AlistRun AlistCall AlistFault where
  Enabled s c := callEnabled s.al c
  next s c := do
    let (r, al) ← alistCall s.al c
    return ⟨al, s.log ++ [(c, r)]⟩

instance (s : AlistRun) (c : AlistCall) : Decidable (alistRuns.Enabled s c) :=
  match c with
  | .register (some new) start len =>
      decidable_of_iff (start + len < u64Size ∧ new ∉ s.al.live) (by simp [alistRuns, callEnabled])
  | .register none start len => decidable_of_iff (start + len < u64Size) (by simp [alistRuns, callEnabled])
  | .unregister start len => inferInstanceAs (Decidable (start + len < u64Size))

/-- What holds of the chain `l` after any history. -/
structure SortedMultiset (s : AlistRun) (l : List Nat) : Prop where
  next : DList.Traverses s.al.links.next s.al.ends.first l
  prev : DList.Traverses s.al.links.prev s.al.ends.last l.reverse
  sorted : Extent.Sorted (l.map s.al.entry)
  count : s.al.count.toNat = l.length % u32Size
  within : unregistered s.log ≤ registered s.log
  areas : s.al.areas l = registered s.log - unregistered s.log
  absent : ∀ start len, start + len < u64Size → ∃ r al', shfsAlistUnregister s.al start len = .ok (r, al') ∧
    (r = -enoent ↔ ∀ e ∈ l, s.al.entry e ≠ ⟨start, start + len⟩) ∧ (r = -enoent → al' = s.al)

section Histories

variable {s : AlistRun} {l : List Nat}

theorem areasOf_some {f : AlistCall → Option Aentry} {c : AlistCall} {a : Aentry} (h : f c = some a)
    (log : List (AlistCall × Int)) : areasOf f (log ++ [(c, 0)]) = a ::ₘ areasOf f log := by
  unfold areasOf
  have htail : ([(c, (0 : Int))].filter fun x => x.2 = 0).filterMap (fun x => f x.1) = [a] := by simp [h]
  rw [List.filter_append, List.filterMap_append, htail, ← Multiset.coe_add, add_comm]
  rfl

theorem areasOf_none {f : AlistCall → Option Aentry} {c : AlistCall} (h : f c = none)
    (log : List (AlistCall × Int)) (r : Int) : areasOf f (log ++ [(c, r)]) = areasOf f log := by
  unfold areasOf
  have htail : ([(c, r)].filter fun x => x.2 = 0).filterMap (fun x => f x.1) = [] := by
    by_cases hr : r = 0 <;> simp [hr, h]
  rw [List.filter_append, List.filterMap_append, htail, List.append_nil]

/-- A call that returns an error counts for nothing. -/
theorem areasOf_failed (f : AlistCall → Option Aentry) (log : List (AlistCall × Int)) (c : AlistCall) {r : Int}
    (hr : r ≠ 0) : areasOf f (log ++ [(c, r)]) = areasOf f log := by
  unfold areasOf
  rw [List.filter_append]
  simp [hr]

/-- The chain is `l`, and what was registered is on it or has been unregistered. -/
structure Balanced (s : AlistRun) (l : List Nat) : Prop where
  holds : Holds s.al l
  balance : registered s.log = s.al.areas l + unregistered s.log

theorem aentryOf_of_lt {start len : Nat} (h : start + len < u64Size) :
    aentryOf start len = ⟨start, start + len⟩ := by
  rw [aentryOf, wrap64_of_lt h]

/-- Registering an area adds it. -/
theorem Balanced.register (h : Balanced s l) {new start len : Nat}
    (hc : alistRuns.Enabled s (.register (some new) start len)) :
    ∃ t l', alistRuns.next s (.register (some new) start len) = .ok t ∧ Balanced t l' ∧
      l'.Perm (new :: l) := by
  have hnew : new ∉ l := fun hm => hc.2 new rfl ((h.holds.live new).2 hm)
  rcases register_refines h.holds hnew start len with ⟨al', l', hreg, hholds, hperm, hread⟩
  have hentries : l'.map al'.entry = insertByStart (aentryOf start len) (l.map s.al.entry) :=
    congrArg Tools.Alist.entries hread
  have hareas : al'.areas l' = ⟨start, start + len⟩ ::ₘ s.al.areas l := by
    rw [← aentryOf_of_lt hc.1, Alist.areas, hentries]
    exact Multiset.coe_eq_coe.2 (insertByStart_perm _ _)
  refine ⟨⟨al', s.log ++ [(.register (some new) start len, 0)]⟩, l', ?_, ⟨hholds, ?_⟩, hperm⟩
  · show (alistCall s.al _ >>= _) = _
    rw [alistCall, hreg]
    rfl
  · calc registered (s.log ++ [(.register (some new) start len, 0)])
        = ⟨start, start + len⟩ ::ₘ registered s.log := areasOf_some rfl _
      _ = al'.areas l' + unregistered s.log := by rw [h.balance, hareas, Multiset.cons_add]
      _ = al'.areas l' + unregistered (s.log ++ [(.register (some new) start len, 0)]) :=
          congrArg _ (areasOf_none rfl _ _).symm

/-- Unregistering removes the area, or changes nothing. -/
theorem Balanced.unregister (h : Balanced s l) {start len : Nat}
    (hc : alistRuns.Enabled s (.unregister start len)) :
    ∃ t l', alistRuns.next s (.unregister start len) = .ok t ∧ Balanced t l' := by
  rcases unregister_refines h.holds start len with ⟨-, hun⟩ | ⟨al', l', hun, hholds, hread⟩
  · refine ⟨⟨s.al, s.log ++ [(.unregister start len, -enoent)]⟩, l, ?_, ⟨h.holds, ?_⟩⟩
    · show (alistCall s.al _ >>= _) = _
      rw [alistCall, hun]
      rfl
    · have hne : -enoent ≠ 0 := by decide
      rw [registered, unregistered, areasOf_failed _ _ _ hne, areasOf_failed _ _ _ hne]
      exact h.balance
  · rcases unregister_some hread with ⟨hmem, hentries, -, -⟩
    have hareas : s.al.areas l = ⟨start, start + len⟩ ::ₘ al'.areas l' := by
      have hkept : l'.map al'.entry = (l.map s.al.entry).erase (aentryOf start len) := hentries
      rw [← aentryOf_of_lt hc, Alist.areas, Alist.areas, hkept]
      exact Multiset.coe_eq_coe.2 (List.perm_cons_erase hmem)
    refine ⟨⟨al', s.log ++ [(.unregister start len, 0)]⟩, l', ?_, ⟨hholds, ?_⟩⟩
    · show (alistCall s.al _ >>= _) = _
      rw [alistCall, hun]
      rfl
    · calc registered (s.log ++ [(.unregister start len, 0)]) = registered s.log := areasOf_none rfl _ _
        _ = al'.areas l' + ⟨start, start + len⟩ ::ₘ unregistered s.log := by
            rw [h.balance, hareas, Multiset.cons_add, Multiset.add_cons]
        _ = al'.areas l' + unregistered (s.log ++ [(.unregister start len, 0)]) :=
            congrArg _ (areasOf_some rfl _).symm

/-- Every call goes right, and keeps the balance. -/
theorem Balanced.call (h : Balanced s l) {c : AlistCall} (hc : alistRuns.Enabled s c) :
    ∃ t l', alistRuns.next s c = .ok t ∧ Balanced t l' := by
  cases c with
  | register mem start len =>
      cases mem with
      | some new =>
          rcases h.register hc with ⟨t, l', hnext, hbal, -⟩
          exact ⟨t, l', hnext, hbal⟩
      | none =>
          refine ⟨⟨s.al, s.log ++ [(.register none start len, -enomem)]⟩, l, rfl, ⟨h.holds, ?_⟩⟩
          have hne : -enomem ≠ 0 := by decide
          rw [registered, unregistered, areasOf_failed _ _ _ hne, areasOf_failed _ _ _ hne]
          exact h.balance
  | unregister start len => exact h.unregister hc

theorem balanced_run {al : Alist} {calls : List AlistCall} (hal : Holds al [])
    (hrun : alistRuns.Run ⟨al, []⟩ calls s) : ∃ l, Balanced s l := by
  apply hrun.invariant (I := fun s => ∃ l, Balanced s l)
  · rintro s c t ⟨l, hbal⟩ ⟨hc, hnext⟩
    rcases hbal.call hc with ⟨t', l', hnext', hbal'⟩
    cases hnext.symm.trans hnext'
    exact ⟨l', hbal'⟩
  · exact ⟨[], hal, rfl⟩

theorem Balanced.sortedMultiset (h : Balanced s l) : SortedMultiset s l where
  next := h.holds.rep.traverses.1
  prev := h.holds.rep.traverses.2
  sorted := h.holds.sorted
  count := by
    rw [h.holds.count]
    exact UInt32.toNat_ofNat'
  within := by
    rw [h.balance]
    exact Multiset.le_add_left _ _
  areas := by
    rw [h.balance, Multiset.add_sub_cancel_right]
  absent := by
    intro start len hlt
    rcases unregister_refines h.holds start len with ⟨hnone, hun⟩ | ⟨al', l', hun, -, hread⟩
    · refine ⟨_, _, hun, ⟨fun _ e he heq => ?_, fun _ => rfl⟩, fun _ => rfl⟩
      rw [Tools.shfsAlistUnregister, if_pos] at hnone
      · cases hnone
      · rw [aentryOf_of_lt hlt]
        exact List.mem_map.2 ⟨e, he, heq⟩
    · have hne : (0 : Int) ≠ -enoent := by decide
      refine ⟨_, _, hun, iff_of_false hne fun hall => ?_, fun h0 => absurd h0 hne⟩
      rcases List.mem_map.1 (unregister_some hread).1 with ⟨e, he, heq⟩
      rw [aentryOf_of_lt hlt] at heq
      exact hall e he heq

/-- After any history the entries are the areas that were registered and not unregistered, sorted by start
and linked both ways. The counter has 32 bits, and is the number of entries up to them. No call fails to
return. One call more answers `-ENOENT` and changes nothing exactly if no entry has the bounds that it is
given. -/
theorem alist_sorted_multiset {areaSize : Nat} {allocator : UInt8} {entry : Nat → Aentry} {links : Links Nat}
    {al : Alist} {calls : List AlistCall}
    (halloc : shfsAllocAlist areaSize allocator entry links true = some al)
    (hrun : alistRuns.Run ⟨al, []⟩ calls s) :
    (∃ l, SortedMultiset s l) ∧ ∀ f, ¬alistRuns.Faults s f := by
  rcases balanced_run (holds_alloc halloc) hrun with ⟨l, hbal⟩
  refine ⟨⟨l, hbal.sortedMultiset⟩, ?_⟩
  rintro f ⟨c, hc, hfault⟩
  rcases hbal.call hc with ⟨t, l', hnext, -⟩
  cases hfault.symm.trans hnext

/-- An allocator for 100 chunks. -/
def emptyAlist : Alist :=
  ⟨100, 0, sallocFirstfit, DList.emptyEnds, fun _ => ⟨0, 0⟩, ⟨fun _ => none, fun _ => none⟩, ∅⟩

theorem emptyAlist_alloc :
    shfsAllocAlist 100 sallocFirstfit (fun _ => ⟨0, 0⟩) ⟨fun _ => none, fun _ => none⟩ true = some emptyAlist := rfl

/-- An area is registered, another one in front of it, a third finds no memory, the first is unregistered, and
an area that is not there is not. -/
def someCalls : List AlistCall :=
  [.register (some 64) 5 3, .register (some 32) 1 2, .register none 9 1, .unregister 5 3, .unregister 5 2]

theorem alist_sorted_multiset_some :
    ∃ s, alistRuns.Run ⟨emptyAlist, []⟩ someCalls s ∧ s.log.map Prod.snd = [0, 0, -enomem, 0, -enoent] ∧
      (∃ l, SortedMultiset s l) ∧ ∀ f, ¬alistRuns.Faults s f := by
  have hexec : (alistRuns.exec ⟨emptyAlist, []⟩ someCalls).any
      (fun s => s.log.map Prod.snd = [0, 0, -enomem, 0, -enoent]) = true := by decide
  rcases Machine.Run.of_exec_any hexec with ⟨s, hrun, hlog⟩
  exact ⟨s, hrun, of_decide_eq_true hlog, alist_sorted_multiset emptyAlist_alloc hrun⟩

/-- As many calls for the first chunk. -/
def manyCalls (n : Nat) : List AlistCall := (List.range n).map fun i => .register (some i) 0 1

theorem manyCalls_run (n : Nat) :
    ∃ s l, alistRuns.Run ⟨emptyAlist, []⟩ (manyCalls n) s ∧ Balanced s l ∧ l.Perm (List.range n) := by
  induction n with
  | zero => exact ⟨_, [], .nil _, ⟨holds_alloc emptyAlist_alloc, rfl⟩, List.Perm.refl _⟩
  | succ n ih =>
      rcases ih with ⟨s, l, hrun, hbal, hperm⟩
      have hc : alistRuns.Enabled s (.register (some n) 0 1) := by
        refine ⟨by decide, fun new hnew hlive => ?_⟩
        cases hnew
        exact List.not_mem_range_self (hperm.mem_iff.1 ((hbal.holds.live n).1 hlive))
      rcases hbal.register hc with ⟨t, l', hnext, hbal', hperm'⟩
      refine ⟨t, l', ?_, hbal', ?_⟩
      · rw [manyCalls, List.range_succ, List.map_append]
        exact hrun.snoc ⟨hc, hnext⟩
      · rw [List.range_succ]
        exact (hperm'.trans (hperm.cons n)).trans (List.perm_append_singleton n _).symm

/-- With 2 ^ 32 entries on the list the counter is at zero again. -/
theorem alist_count_wraps :
    ∃ s l, alistRuns.Run ⟨emptyAlist, []⟩ (manyCalls u32Size) s ∧
      DList.Traverses s.al.links.next s.al.ends.first l ∧ s.al.count.toNat ≠ l.length := by
  rcases manyCalls_run u32Size with ⟨s, l, hrun, hbal, hperm⟩
  refine ⟨s, l, hrun, hbal.holds.rep.traverses.1, ?_⟩
  have hlength : l.length = u32Size := by
    rw [hperm.length_eq, List.length_range]
  rw [hbal.sortedMultiset.count, hlength, Nat.mod_self]
  exact Nat.zero_ne_add_one _

end Histories

end Minipython.Tools.Linked
