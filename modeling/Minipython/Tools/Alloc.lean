/-
# Minipython.Tools.Alloc — the chunk allocator of the tools (shfs_alloc.c)

The allocator keeps the used areas of a volume in a list that is sorted by start. Nothing is merged
when an area is registered; the search for free space merges on the fly, in one pass over the list.

Whatever was registered, the search answers nothing in front of the areas that the list begins with
(`findFree_behind`) and nothing behind the last end (`findFree_le`).

An area is a start and an end, and areas that were registered twice are there twice. The search is first
fit. The source has the name of a best fit as well; its function prints the free areas and finds none.
-/
import Minipython.Lib.Extent
import Minipython.Shfs.Defs

namespace Minipython.Tools

open Minipython.Lib
open Minipython.Lib.Extent
open Minipython.Shfs

def sallocFirstfit : UInt8 := 0
def sallocBestfit : UInt8 := 1

/-- `struct shfs_aentry`. -/
abbrev Aentry := Extent Nat

/-- `struct shfs_alist` with its entries from `head` on. -/
structure Alist where
  stop : Nat
  count : Nat
  allocator : UInt8
  entries : List Aentry
  deriving DecidableEq, Repr

/-- `shfs_alloc_alist`; `mem` is the outcome of the allocation. -/
def shfsAllocAlist (areaSize : Nat) (allocator : UInt8) (mem : Bool) : Option Alist :=
  if allocator ≠ sallocFirstfit ∧ allocator ≠ sallocBestfit then none
  else if mem then some ⟨areaSize, 0, allocator, []⟩
  else none

/-- The entry for `len` chunks from `start` on. -/
def aentryOf (start len : Nat) : Aentry := ⟨start, wrap64 (start + len)⟩

/-- `shfs_alist_register`: behind the last entry that starts no later. Without memory nothing is
registered. -/
def shfsAlistRegister (al : Alist) (mem : Bool) (start len : Nat) : Bool × Alist :=
  if mem then
    (true, { al with
      count := al.count + 1
      entries := insertByStart (aentryOf start len) al.entries })
  else (false, al)

/-- `shfs_alist_unregister`: remove the first entry with this start and end, if there is one. -/
def shfsAlistUnregister (al : Alist) (start len : Nat) : Option Alist :=
  if aentryOf start len ∈ al.entries then
    some { al with
      count := al.count - 1
      entries := al.entries.erase (aentryOf start len) }
  else none

/-- The loops of `_shfs_alist_find_ff` behind the entry `e`. The inner loop goes on as long as the next
entry starts within `e`, and the outer loop takes up where the inner one has stopped. -/
def findFfFrom (stop len freeStart : Nat) (e : Aentry) : List Aentry → Nat
  | [] =>
      if stop = freeStart then 0
      else if len ≤ wrap64 (stop + u64Size - freeStart) then freeStart
      else 0
  | next :: rest =>
      if next.start ≤ e.stop then
        findFfFrom stop len (if freeStart < next.stop then next.stop else freeStart) next rest
      else if len ≤ wrap64 (next.start + u64Size - freeStart) then freeStart
      else findFfFrom stop len next.stop next rest

/-- `_shfs_alist_find_ff`. -/
def shfsAlistFindFf (al : Alist) (len : Nat) : Nat :=
  match al.entries with
  | [] => 0
  | e :: rest => findFfFrom al.stop len e.stop e rest

/-- `_shfs_alist_find_bf` only prints the free areas. -/
def shfsAlistFindBf (_ : Alist) (_ : Nat) : Nat := 0

/-- `shfs_alist_find_free`. -/
def shfsAlistFindFree (al : Alist) (len : Nat) : Nat :=
  if al.allocator = sallocFirstfit then shfsAlistFindFf al len
  else if al.allocator = sallocBestfit then shfsAlistFindBf al len
  else 0

/-! ## In front of and behind all entries -/

/-- The entries do not wrap, and none is longer than `m`. -/
def Short (m : Nat) (l : List Aentry) : Prop := ∀ e ∈ l, e.start ≤ e.stop ∧ e.stop ≤ e.start + m

/-- Behind `b` the search stays behind `b`: where the entries seen reach over the next one the gap
between them wraps and is taken as it is. -/
theorem findFfFrom_behind {stop len m b freeStart : Nat} {e : Aentry} {rest : List Aentry}
    (hm : m + len ≤ u64Size) (hsorted : Sorted (e :: rest)) (hshort : Short m rest)
    (hb : b ≤ freeStart) (hfs : freeStart ≤ e.start + m) :
    findFfFrom stop len freeStart e rest = 0 ∨ b ≤ findFfFrom stop len freeStart e rest := by
  induction rest generalizing freeStart e with
  | nil =>
      rw [findFfFrom]
      split
      · exact .inl rfl
      · split
        · exact .inr hb
        · exact .inl rfl
  | cons next rest ih =>
      obtain ⟨hhead, htail⟩ := List.pairwise_cons.1 hsorted
      have hstart := hhead next List.mem_cons_self
      obtain ⟨hok, hlen⟩ := hshort next List.mem_cons_self
      have hrest : Short m rest := fun r hr => hshort r (List.mem_cons_of_mem next hr)
      rw [findFfFrom]
      split
      · apply ih htail hrest
        · split <;> omega
        · split <;> omega
      · split
        · exact .inr hb
        · rename_i hsmall
          have hle : freeStart ≤ next.start := by
            by_contra hlt
            have hwrap : wrap64 (next.start + u64Size - freeStart) =
                next.start + u64Size - freeStart := wrap64_of_lt (by omega)
            omega
          exact ih htail hrest (by omega) hlen

/-- Each entry begins within the one before it and ends no earlier. -/
def Adjoining (l : List Aentry) : Prop := l.IsChain fun a b => b.start ≤ a.stop ∧ a.stop ≤ b.stop

/-- The inner loop goes through entries that adjoin. -/
theorem findFfFrom_adjoining {stop len : Nat} {e : Aentry} {l rest : List Aentry}
    (h : Adjoining (e :: l)) : ∃ b ∈ e :: l, (∀ a ∈ e :: l, a.stop ≤ b.stop) ∧
      findFfFrom stop len e.stop e (l ++ rest) = findFfFrom stop len b.stop b rest := by
  induction l generalizing e with
  | nil => exact ⟨e, List.mem_cons_self, fun a ha => by rw [List.mem_singleton.1 ha], rfl⟩
  | cons next l ih =>
      obtain ⟨⟨hstart, hstop⟩, htail⟩ := List.isChain_cons_cons.1 h
      obtain ⟨b, hb, hmax, heq⟩ := ih htail
      refine ⟨b, List.mem_cons_of_mem e hb, fun a ha => ?_, ?_⟩
      · obtain rfl | ha := List.mem_cons.1 ha
        · exact Nat.le_trans hstop (hmax next List.mem_cons_self)
        · exact hmax a ha
      · have hfs : (if e.stop < next.stop then next.stop else e.stop) = next.stop := by
          split <;> omega
        rw [List.cons_append, findFfFrom, if_pos hstart, hfs]
        exact heq

/-- First fit never answers an area in front of the end of entries that the list begins with and that
adjoin, whatever follows. -/
theorem findFree_behind {al : Alist} {a : Aentry} {l rest : List Aentry} {len m : Nat}
    (hal : al.entries = a :: l ++ rest) (hadj : Adjoining (a :: l)) (hsorted : Sorted al.entries)
    (hshort : Short m al.entries) (hm : m + len ≤ u64Size) :
    shfsAlistFindFree al len = 0 ∨ ∀ x ∈ a :: l, x.stop ≤ shfsAlistFindFree al len := by
  unfold shfsAlistFindFree
  split
  · unfold shfsAlistFindFf
    rw [hal] at hsorted hshort ⊢
    obtain ⟨b, hb, hmax, heq⟩ := @findFfFrom_adjoining al.stop len a l rest hadj
    obtain ⟨-, hrest, hcross⟩ := List.pairwise_append.1 hsorted
    have htail : Sorted (b :: rest) := List.pairwise_cons.2 ⟨hcross b hb, hrest⟩
    show findFfFrom al.stop len a.stop a (l ++ rest) = 0 ∨
      ∀ x ∈ a :: l, x.stop ≤ findFfFrom al.stop len a.stop a (l ++ rest)
    rw [heq]
    have hbehind := @findFfFrom_behind al.stop len m b.stop b.stop b rest hm htail
      (fun r hr => hshort r (List.mem_append_right _ hr)) (Nat.le_refl _)
      (hshort b (List.mem_append_left _ hb)).2
    obtain hzero | hle := hbehind
    · exact .inl hzero
    · exact .inr fun x hx => Nat.le_trans (hmax x hx) hle
  · split
    · exact .inl rfl
    · exact .inl rfl

/-! ## Room behind the areas -/

/-- The search answers no chunk behind the end of all entries. -/
theorem findFfFrom_le {stop len u freeStart : Nat} {e : Aentry} {rest : List Aentry} (hfs : freeStart ≤ u)
    (hrest : ∀ r ∈ rest, r.stop ≤ u) : findFfFrom stop len freeStart e rest ≤ u := by
  induction rest generalizing freeStart e with
  | nil =>
      rw [findFfFrom]
      split
      · exact Nat.zero_le u
      · split
        · exact hfs
        · exact Nat.zero_le u
  | cons next rest ih =>
      have hnext := hrest next List.mem_cons_self
      have htail : ∀ r ∈ rest, r.stop ≤ u := fun r hr => hrest r (List.mem_cons_of_mem next hr)
      rw [findFfFrom]
      split
      · apply ih _ htail
        split
        · exact hnext
        · exact hfs
      · split
        · exact hfs
        · exact ih hnext htail

/-- The search answers an area if there is room for one behind the end of all entries. For an area of
no chunks there is room only in front of the end of the volume. -/
theorem findFfFrom_pos {stop len u freeStart : Nat} {e : Aentry} {rest : List Aentry}
    (hstop : stop < u64Size) (hu : u + len ≤ stop) (hroom : 0 < len ∨ u < stop)
    (hpos : 0 < freeStart) (hfs : freeStart ≤ u) (hrest : ∀ r ∈ rest, 0 < r.stop ∧ r.stop ≤ u) :
    0 < findFfFrom stop len freeStart e rest := by
  induction rest generalizing freeStart e with
  | nil =>
      rw [findFfFrom, if_neg (by omega), wrap64_gap (by omega) hstop, if_pos (by omega)]
      exact hpos
  | cons next rest ih =>
      obtain ⟨hpos', hnext⟩ := hrest next List.mem_cons_self
      have htail : ∀ r ∈ rest, 0 < r.stop ∧ r.stop ≤ u := fun r hr =>
        hrest r (List.mem_cons_of_mem next hr)
      rw [findFfFrom]
      split
      · apply ih _ _ htail
        · split
          · exact hpos'
          · exact hpos
        · split
          · exact hnext
          · exact hfs
      · split
        · exact hpos
        · exact ih hpos' hnext htail

/-- First fit answers no chunk behind the end of all entries. -/
theorem findFree_le {al : Alist} {len u : Nat} (h : ∀ e ∈ al.entries, e.stop ≤ u) :
    shfsAlistFindFree al len ≤ u := by
  unfold shfsAlistFindFree
  split
  · unfold shfsAlistFindFf
    cases hal : al.entries with
    | nil => exact Nat.zero_le u
    | cons e rest =>
        rw [hal] at h
        exact findFfFrom_le (h e List.mem_cons_self) fun r hr => h r (List.mem_cons_of_mem e hr)
  · split
    · exact Nat.zero_le u
    · exact Nat.zero_le u

/-- First fit answers an area if there is room behind the end of all entries. -/
theorem findFree_pos {al : Alist} {len u : Nat} (hff : al.allocator = sallocFirstfit)
    (hstop : al.stop < u64Size) (hu : u + len ≤ al.stop) (hroom : 0 < len ∨ u < al.stop)
    (hne : al.entries ≠ []) (h : ∀ e ∈ al.entries, 0 < e.stop ∧ e.stop ≤ u) :
    0 < shfsAlistFindFree al len := by
  unfold shfsAlistFindFree
  rw [if_pos hff]
  unfold shfsAlistFindFf
  cases hal : al.entries with
  | nil => exact absurd hal hne
  | cons e rest =>
      rw [hal] at h
      obtain ⟨hpos, hfs⟩ := h e List.mem_cons_self
      exact findFfFrom_pos hstop hu hroom hpos hfs fun r hr => h r (List.mem_cons_of_mem e hr)

/-! ## Registered areas -/

section Register

variable {al : Alist} {start len : Nat}

theorem register_entries (al : Alist) (start len : Nat) :
    (shfsAlistRegister al true start len).2.entries = insertByStart (aentryOf start len) al.entries :=
  rfl

/-- Registering keeps the list sorted. -/
theorem register_sorted (h : Sorted al.entries) (mem : Bool) :
    Sorted (shfsAlistRegister al mem start len).2.entries := by
  unfold shfsAlistRegister
  split
  · exact h.insertByStart _
  · exact h

@[simp] theorem register_stop (mem : Bool) :
    (shfsAlistRegister al mem start len).2.stop = al.stop := by
  unfold shfsAlistRegister
  split <;> rfl

@[simp] theorem register_allocator (mem : Bool) :
    (shfsAlistRegister al mem start len).2.allocator = al.allocator := by
  unfold shfsAlistRegister
  split <;> rfl

/-- What unregistering does when it finds the entry. -/
theorem unregister_some {al' : Alist} (h : shfsAlistUnregister al start len = some al') :
    aentryOf start len ∈ al.entries ∧ al'.entries = al.entries.erase (aentryOf start len) ∧
      al'.stop = al.stop ∧ al'.allocator = al.allocator := by
  unfold shfsAlistUnregister at h
  split at h
  · rename_i hmem
    obtain rfl := Option.some.inj h
    exact ⟨hmem, rfl, rfl, rfl⟩
  · cases h

/-- Unregistering what was just registered gives the same areas back. -/
theorem unregister_register (al : Alist) (start len : Nat) :
    ∃ al', shfsAlistUnregister (shfsAlistRegister al true start len).2 start len = some al' ∧
      al'.entries.Perm al.entries ∧ al'.stop = al.stop ∧ al'.allocator = al.allocator := by
  have hperm := insertByStart_perm (aentryOf start len) al.entries
  have hmem : aentryOf start len ∈ (shfsAlistRegister al true start len).2.entries :=
    hperm.mem_iff.2 List.mem_cons_self
  refine ⟨_, if_pos hmem, ?_, rfl, rfl⟩
  have herase := hperm.erase (aentryOf start len)
  rwa [List.erase_cons_head] at herase

end Register

end Minipython.Tools
