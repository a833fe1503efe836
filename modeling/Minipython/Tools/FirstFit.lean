/-
# Minipython.Tools.FirstFit — what the first fit of shfs_alloc.c finds

The search goes once through the entries, which are sorted by start. It takes the largest end of a run
of entries as the begin of a gap, but decides by the end of the *last* entry whether the run goes on.
An entry that ends within an earlier one can so hide that the earlier one reaches over the next start:
the gap then has a negative size, which wraps and fits every request.

`firstHidden` is the first such place. Up to it the answer is the lowest area that is apart from all
entries; at it the answer is the end of what was seen (`findFfFrom_spec`). An empty entry occupies no
chunk but splits the gap it lies in, so the lowest area that meets no entry can be lower
(`findFree_right_iff`).

The lists are those that calls build on a new allocator, with calls that find no memory among them; their
areas may meet each other, as the code registers what it is given. `findFfFrom_spec` is by induction on the
rest of the list, with the largest end so far. A request has at least one chunk. For a single length the
theorem asks that it does not leave 64 bits behind the end of the area; for all lengths at once it does not.

`findFree_packed` is the case that the tools live on: where no two areas meet, the answer is the lowest area
that is apart from all of them.
-/
import Mathlib.Order.Lattice.Nat
import Minipython.Tools.Alloc

namespace Minipython.Tools

open Minipython.Lib
open Minipython.Lib.Extent
open Minipython.Shfs

/-- The area of `len` chunks at `start` is apart from every entry. -/
def FreeAt (l : List Aentry) (start len : Nat) : Prop := ∀ e ∈ l, Apart e ⟨start, start + len⟩

/-- The entries do not wrap and end inside the area. -/
def Inside (stop : Nat) (l : List Aentry) : Prop := ∀ e ∈ l, e.start ≤ e.stop ∧ e.stop ≤ stop

/-- An area that is free, that begins where an entry ends, and for a length that is not zero the lowest
such area. -/
structure Found (l : List Aentry) (stop len start : Nat) : Prop where
  inside : start + len ≤ stop
  free : FreeAt l start len
  ends : ∃ e ∈ l, e.stop = start
  lowest : 0 < len → ∀ s < start, ¬ FreeAt l s len

/-- The right answer in terms of areas that are apart from every entry. -/
def Answer (l : List Aentry) (stop len y : Nat) : Prop :=
  (y ≠ 0 → Found l stop len y) ∧ (y = 0 → 0 < len → ∀ s, s + len ≤ stop → ¬ FreeAt l s len)

/-- An entry blocks every area that reaches into it. -/
theorem not_freeAt_of_mem {l : List Aentry} {e : Aentry} {s len : Nat} (he : e ∈ l)
    (h1 : s < e.stop) (h2 : e.start < s + len) : ¬ FreeAt l s len := by
  intro h
  obtain hle | hle := h e he
  · exact absurd hle (Nat.not_le.2 h1)
  · exact absurd hle (Nat.not_le.2 h2)

/-! ## Hidden overlaps -/

/-- The first place where the next entry starts behind the entry `e` before it, but in front of
`freeStart`, the largest end so far: the chunks from the start of the entry to that end. -/
def firstHiddenFrom (freeStart : Nat) (e : Aentry) : List Aentry → Option Aentry
  | [] => none
  | next :: rest =>
      if e.stop < next.start ∧ next.start < freeStart then some ⟨next.start, freeStart⟩
      else firstHiddenFrom (max freeStart next.stop) next rest

def firstHidden (al : Alist) : Option Aentry :=
  match al.entries with
  | [] => none
  | e :: rest => firstHiddenFrom e.stop e rest

theorem firstHiddenFrom_next {freeStart : Nat} {e next : Aentry} {rest : List Aentry}
    (h : ¬ (e.stop < next.start ∧ next.start < freeStart)) :
    firstHiddenFrom freeStart e (next :: rest) = firstHiddenFrom (max freeStart next.stop) next rest := by
  rw [firstHiddenFrom, if_neg h]

theorem firstHiddenFrom_lt {freeStart : Nat} {e h : Aentry} {rest : List Aentry}
    (heq : firstHiddenFrom freeStart e rest = some h) : h.start < h.stop := by
  induction rest generalizing freeStart e with
  | nil => cases heq
  | cons next rest ih =>
      rw [firstHiddenFrom] at heq
      split at heq
      · rename_i hhid
        obtain rfl := Option.some.inj heq
        exact hhid.2
      · exact ih heq

/-- The first hidden overlap ends within every bound of the entries. -/
theorem firstHiddenFrom_le {freeStart u : Nat} {e h : Aentry} {rest : List Aentry}
    (heq : firstHiddenFrom freeStart e rest = some h) (hfs : freeStart ≤ u)
    (hrest : ∀ r ∈ rest, r.stop ≤ u) : h.stop ≤ u := by
  induction rest generalizing freeStart e with
  | nil => cases heq
  | cons next rest ih =>
      rw [firstHiddenFrom] at heq
      split at heq
      · obtain rfl := Option.some.inj heq
        exact hfs
      · exact ih heq (Nat.max_le.2 ⟨hfs, hrest next List.mem_cons_self⟩) fun r hr =>
          hrest r (List.mem_cons_of_mem next hr)

/-- The first hidden overlap lies behind the start of the next entry. -/
theorem firstHiddenFrom_start {freeStart : Nat} {e next h : Aentry} {rest : List Aentry}
    (heq : firstHiddenFrom freeStart e (next :: rest) = some h) (hsorted : Sorted (next :: rest)) :
    next.start ≤ h.start := by
  induction rest generalizing freeStart e next with
  | nil =>
      rw [firstHiddenFrom] at heq
      split at heq
      · obtain rfl := Option.some.inj heq
        exact Nat.le_refl _
      · cases heq
  | cons n rest ih =>
      obtain ⟨hhead, htail⟩ := List.pairwise_cons.1 hsorted
      rw [firstHiddenFrom] at heq
      split at heq
      · obtain rfl := Option.some.inj heq
        exact Nat.le_refl _
      · exact Nat.le_trans (hhead n List.mem_cons_self) (ih heq htail)

/-- In a packed list nothing is hidden: an earlier end belongs to an entry that is apart from the
next. -/
theorem firstHiddenFrom_packed {p e : Aentry} {rest : List Aentry} (hp : p.start ≤ e.start)
    (he : e.start ≤ e.stop) (hsorted : Sorted (e :: rest)) (hpacked : Packed rest)
    (hrest : ∀ r ∈ rest, r.start ≤ r.stop ∧ Apart p r) : firstHiddenFrom p.stop e rest = none := by
  induction rest generalizing p e with
  | nil => rfl
  | cons next rest ih =>
      obtain ⟨hhead, htail⟩ := List.pairwise_cons.1 hsorted
      obtain ⟨hnext, hpacked⟩ := List.pairwise_cons.1 hpacked
      obtain ⟨hok, hapart⟩ := hrest next List.mem_cons_self
      have hstart := hhead next List.mem_cons_self
      have hbehind : ∀ r ∈ rest, r.start ≤ r.stop ∧ Apart p r := fun r hr =>
        hrest r (List.mem_cons_of_mem next hr)
      rw [firstHiddenFrom_next fun hhid => ?_]
      · by_cases hle : p.stop ≤ next.stop
        · rw [Nat.max_eq_right hle]
          exact ih (Nat.le_refl _) hok htail hpacked fun r hr => ⟨(hbehind r hr).1, hnext r hr⟩
        · rw [Nat.max_eq_left (by omega)]
          exact ih (Nat.le_trans hp hstart) hok htail hpacked hbehind
      · -- an empty `next` at the start of `p` would lie within `e`
        obtain hle | hle := hapart
        · exact absurd hhid.2 (Nat.not_lt.2 hle)
        · omega

/-! ## The search -/

/-- The search for `len` chunks in `l` on its way: `seen` is behind it and `rest` in front of it, `e` is
the entry it has seen last, and `freeStart` is the end of what it has seen. -/
structure Search (l : List Aentry) (stop len : Nat) (seen : List Aentry) (freeStart : Nat) (e : Aentry)
    (rest : List Aentry) : Prop where
  all : ∀ x, x ∈ l ↔ x ∈ seen ∨ x ∈ rest
  inside : Inside stop l
  mem : e ∈ seen
  sorted : Sorted (e :: rest)
  bound : ∀ p ∈ seen, p.stop ≤ freeStart
  attained : ∃ p ∈ seen, p.stop = freeStart
  lowest : 0 < len → ∀ s < freeStart, ¬ FreeAt l s len

namespace Search

variable {l seen rest : List Aentry} {stop freeStart len : Nat} {e next : Aentry}

theorem of_seen (h : Search l stop len seen freeStart e rest) {p : Aentry} (hp : p ∈ seen) : p ∈ l :=
  (h.all p).2 (.inl hp)

theorem of_rest (h : Search l stop len seen freeStart e rest) {r : Aentry} (hr : r ∈ rest) : r ∈ l :=
  (h.all r).2 (.inr hr)

/-- The end of what was seen lies in the area. -/
theorem freeStart_le_stop (h : Search l stop len seen freeStart e rest) : freeStart ≤ stop := by
  obtain ⟨p, hp, rfl⟩ := h.attained
  exact (h.inside p (h.of_seen hp)).2

/-- The entries in front of the search start no earlier than the next. -/
theorem rest_le (h : Search l stop len seen freeStart e (next :: rest)) :
    ∀ r ∈ next :: rest, next.start ≤ r.start := by
  intro r hr
  obtain ⟨-, htail⟩ := List.pairwise_cons.1 h.sorted
  obtain rfl | hr := List.mem_cons.1 hr
  · exact Nat.le_refl _
  · exact (List.pairwise_cons.1 htail).1 r hr

/-- The area up to `a` is free when no entry in front of the search starts earlier. -/
theorem found (h : Search l stop len seen freeStart e rest) {a : Nat} (ha : a ≤ stop)
    (hr : ∀ r ∈ rest, a ≤ r.start) (hlen : freeStart + len ≤ a) : Found l stop len freeStart where
  inside := Nat.le_trans hlen ha
  free := by
    intro x hx
    obtain hx | hx := (h.all x).1 hx
    · exact .inl (h.bound x hx)
    · exact .inr (Nat.le_trans hlen (hr x hx))
  ends := by
    obtain ⟨p, hp, heq⟩ := h.attained
    exact ⟨p, h.of_seen hp, heq⟩
  lowest := h.lowest

/-- One more entry is seen, when the gap in front of it is none or too small. -/
theorem step (h : Search l stop len seen freeStart e (next :: rest)) {fs : Nat}
    (hfs : fs = max freeStart next.stop) (hsmall : 0 < len → next.start < freeStart + len) :
    Search l stop len (next :: seen) fs next rest := by
  obtain ⟨hhead, htail⟩ := List.pairwise_cons.1 h.sorted
  subst hfs
  constructor
  case all =>
      intro x
      rw [h.all x, List.mem_cons, List.mem_cons]
      tauto
  case inside => exact h.inside
  case mem => exact List.mem_cons_self
  case sorted => exact htail
  case bound =>
      intro p hp
      obtain rfl | hp := List.mem_cons.1 hp
      · exact Nat.le_max_right _ _
      · exact Nat.le_trans (h.bound p hp) (Nat.le_max_left _ _)
  case attained =>
      obtain ⟨p, hp, heq⟩ := h.attained
      by_cases hle : freeStart ≤ next.stop
      · exact ⟨next, List.mem_cons_self, (Nat.max_eq_right hle).symm⟩
      · refine ⟨p, List.mem_cons_of_mem next hp, ?_⟩
        rw [heq, Nat.max_eq_left (by omega)]
  case lowest =>
      intro hpos s hs
      by_cases hlt : s < freeStart
      · exact h.lowest hpos s hlt
      · have hnear := hsmall hpos
        exact not_freeAt_of_mem (h.of_rest List.mem_cons_self) (by omega) (by omega)

end Search

/-- What the search answers up to the first hidden overlap, and at it. -/
def AnswerTo (l : List Aentry) (stop len y : Nat) : Option Aentry → Prop
  | none => Answer l stop len y
  | some h =>
      (Found l stop len y ∧ y + len ≤ h.start) ∨
      ((0 < len → ∀ s < h.stop, ¬ FreeAt l s len) ∧ (h.stop + len ≤ h.start + u64Size → y = h.stop))

/-- A gap that is there and large enough. -/
theorem Search.answerTo_gap {l seen rest : List Aentry} {stop freeStart len : Nat} {e next : Aentry}
    (h : Search l stop len seen freeStart e (next :: rest)) (hpos : 0 < freeStart)
    (hlen : freeStart + len ≤ next.start) {o : Option Aentry}
    (ho : ∀ x ∈ o, next.start ≤ x.start) : AnswerTo l stop len freeStart o := by
  have hstop := (h.inside next (h.of_rest List.mem_cons_self))
  have hfound := h.found (by omega) h.rest_le hlen
  cases o with
  | none => exact ⟨fun _ => hfound, fun h0 => by omega⟩
  | some x => exact .inl ⟨hfound, Nat.le_trans hlen (ho x rfl)⟩

/-- The search, by induction on the entries in front of it. -/
theorem findFfFrom_spec {l seen rest : List Aentry} {stop len freeStart : Nat} {e : Aentry}
    (h : Search l stop len seen freeStart e rest) (hstop : stop < u64Size)
    (hpos : 0 < freeStart ∨ ∃ r ∈ rest, r.start = 0 ∧ 0 < r.stop) :
    AnswerTo l stop len (findFfFrom stop len freeStart e rest) (firstHiddenFrom freeStart e rest) := by
  induction rest generalizing seen freeStart e with
  | nil =>
      obtain hpos | ⟨r, hr, -⟩ := hpos
      case inr => cases hr
      have hle := h.freeStart_le_stop
      have hnone : ∀ {s : Nat}, 0 < len → s < freeStart → ¬ FreeAt l s len := fun hp hs =>
        h.lowest hp _ hs
      rw [findFfFrom]
      split
      · exact ⟨fun h0 => absurd rfl h0, fun _ hp s hs => hnone hp (by omega)⟩
      · rw [wrap64_gap hle hstop]
        split
        · refine ⟨fun _ => h.found le_rfl (fun r hr => ?_) (by omega), fun h0 => by omega⟩
          cases hr
        · exact ⟨fun h0 => absurd rfl h0, fun _ hp s hs => hnone hp (by omega)⟩
  | cons next rest ih =>
      have hok := (h.inside next (h.of_rest List.mem_cons_self))
      have hsorted := (List.pairwise_cons.1 h.sorted).2
      by_cases hmerge : next.start ≤ e.stop
      · -- the inner loop: the next entry begins within the last one
        have hlast : next.start ≤ freeStart := Nat.le_trans hmerge (h.bound e h.mem)
        have hmax : (if freeStart < next.stop then next.stop else freeStart) =
            max freeStart next.stop := by
          split <;> omega
        rw [findFfFrom, if_pos hmerge, hmax, firstHiddenFrom_next (by omega)]
        refine ih (h.step rfl fun hp => by omega) ?_
        obtain hpos | ⟨r, hr, hzero, hlast⟩ := hpos
        · exact .inl (by omega)
        · obtain rfl | hr := List.mem_cons.1 hr
          · exact .inl (by omega)
          · exact .inr ⟨r, hr, hzero, hlast⟩
      · have hpos : 0 < freeStart := by
          obtain hpos | ⟨r, hr, hzero, -⟩ := hpos
          · exact hpos
          · have hle := h.rest_le r hr
            omega
        by_cases hhid : next.start < freeStart
        · -- a hidden overlap: the gap wraps
          have hle := h.freeStart_le_stop
          have hwrap : wrap64 (next.start + u64Size - freeStart) = next.start + u64Size - freeStart :=
            wrap64_of_lt (by omega)
          have hfirst : firstHiddenFrom freeStart e (next :: rest) = some ⟨next.start, freeStart⟩ := by
            rw [firstHiddenFrom, if_pos ⟨by omega, hhid⟩]
          rw [findFfFrom, if_neg hmerge, hwrap, hfirst]
          refine Or.inr ⟨h.lowest, fun hlen => ?_⟩
          rw [if_pos (by simp only at hlen; omega)]
        · have hmax : next.stop = max freeStart next.stop := by omega
          rw [findFfFrom, if_neg hmerge, wrap64_gap (by omega) (by omega),
            firstHiddenFrom_next fun hc => hhid hc.2]
          by_cases hlen : len ≤ next.start - freeStart
          · rw [if_pos hlen]
            refine h.answerTo_gap hpos (by omega) fun x hx => ?_
            have hnot : ¬ (e.stop < next.start ∧ next.start < freeStart) := fun hc => hhid hc.2
            rw [← firstHiddenFrom_next hnot] at hx
            exact firstHiddenFrom_start (Option.mem_def.1 hx) hsorted
          · -- the outer loop: the gap is too small
            rw [if_neg hlen, ← hmax]
            exact ih (h.step hmax fun hp => by omega) (.inl (by omega))

/-! ## The list as the calls build it -/

/-- A call that changes the list. -/
inductive AlistCall where
  | register (mem : Bool) (start len : Nat)
  | unregister (start len : Nat)
  deriving DecidableEq, Repr

namespace AlistCall

/-- The range does not wrap and lies inside the area. -/
def Ok (stop : Nat) : AlistCall → Prop
  | register _ start len => start + len ≤ stop
  | unregister start len => start + len ≤ stop

instance (stop : Nat) : (c : AlistCall) → Decidable (c.Ok stop)
  | register _ start len => inferInstanceAs (Decidable (start + len ≤ stop))
  | unregister start len => inferInstanceAs (Decidable (start + len ≤ stop))

/-- The list after the call, whatever it returns. -/
def apply (al : Alist) : AlistCall → Alist
  | register mem start len => (shfsAlistRegister al mem start len).2
  | unregister start len => (shfsAlistUnregister al start len).getD al

end AlistCall

/-- A first-fit list for an area of `stop` chunks whose entries are sorted and lie inside it. -/
structure FfList (stop : Nat) (al : Alist) : Prop where
  stop_eq : al.stop = stop
  allocator : al.allocator = sallocFirstfit
  sorted : Sorted al.entries
  inside : Inside stop al.entries

theorem ffList_alloc {stop : Nat} {al : Alist}
    (h : shfsAllocAlist stop sallocFirstfit true = some al) : FfList stop al := by
  obtain rfl := Option.some.inj h
  exact ⟨rfl, rfl, List.Pairwise.nil, fun e he => by cases he⟩

/-- A call keeps the list sorted and inside the area. -/
theorem FfList.apply {stop : Nat} {al : Alist} (h : FfList stop al) (hstop : stop < u64Size)
    {c : AlistCall} (hc : c.Ok stop) : FfList stop (c.apply al) := by
  cases c with
  | register mem start len =>
      have hle : start + len ≤ stop := hc
      have hwrap : wrap64 (start + len) = start + len := wrap64_of_lt (by omega)
      refine ⟨?_, ?_, register_sorted h.sorted mem, ?_⟩
      · exact (register_stop mem).trans h.stop_eq
      · exact (register_allocator mem).trans h.allocator
      · intro e he
        cases mem with
        | false => exact h.inside e he
        | true =>
            obtain rfl | he := mem_insertByStart.1 he
            · simp only [aentryOf, hwrap]
              exact ⟨by omega, hc⟩
            · exact h.inside e he
  | unregister start len =>
      simp only [AlistCall.apply]
      cases hun : shfsAlistUnregister al start len with
      | none => exact h
      | some al' =>
          obtain ⟨-, herase, hstop', hal⟩ := unregister_some hun
          refine ⟨hstop'.trans h.stop_eq, hal.trans h.allocator, ?_, ?_⟩
          · rw [Option.getD_some, herase]
            exact h.sorted.sublist List.erase_sublist
          · intro e he
            rw [Option.getD_some, herase] at he
            exact h.inside e (List.mem_of_mem_erase he)

/-- Every sequence of calls does. -/
theorem FfList.run {stop : Nat} {al : Alist} (h : FfList stop al) (hstop : stop < u64Size)
    {calls : List AlistCall} (hcalls : ∀ c ∈ calls, c.Ok stop) :
    FfList stop (calls.foldl AlistCall.apply al) := by
  induction calls generalizing al with
  | nil => exact h
  | cons c calls ih =>
      exact ih (h.apply hstop (hcalls c List.mem_cons_self)) fun d hd =>
        hcalls d (List.mem_cons_of_mem c hd)

/-! ## The lowest area that meets no entry -/

/-- Some chunk of the area of `len` chunks at `start` lies in the entry. -/
def Meets (e : Aentry) (start len : Nat) : Prop :=
  ∃ c, (start ≤ c ∧ c < start + len) ∧ e.start ≤ c ∧ c < e.stop

/-- The starts of the areas of `len` chunks that lie in the volume and meet no entry. -/
def freeStarts (al : Alist) (len : Nat) : Set Nat :=
  {s | s + len ≤ al.stop ∧ ∀ e ∈ al.entries, ¬ Meets e s len}

/-- First fit is right for `len` chunks: it answers the lowest free area, or 0 if there is none. -/
def Right (al : Alist) (len : Nat) : Prop :=
  IsLeast (freeStarts al len) (shfsAlistFindFree al len) ∨
    (freeStarts al len = ∅ ∧ shfsAlistFindFree al len = 0)

/-- An empty entry lies inside the area. -/
def Split (al : Alist) (start len : Nat) : Prop :=
  ∃ e ∈ al.entries, e.start = e.stop ∧ start < e.start ∧ e.start < start + len

/-- No empty entry splits the lowest free area of any length. -/
def Unsplit (al : Alist) : Prop := ∀ len s, IsLeast (freeStarts al len) s → ¬ Split al s len

/-- Where the first fit answers `len` chunks rightly: the lowest free area is at the end of the first
hidden overlap, or in front of it and not split; without a free area nothing is hidden. -/
def Fits (al : Alist) (len : Nat) : Prop :=
  (∃ s, IsLeast (freeStarts al len) s ∧
    ((∃ h, firstHidden al = some h ∧ s = h.stop) ∨
      ((∀ h, firstHidden al = some h → s < h.stop) ∧ ¬ Split al s len))) ∨
  (freeStarts al len = ∅ ∧ firstHidden al = none)

/-- An area of some chunks that is apart from an entry does not meet it. -/
theorem not_meets_of_apart {e : Aentry} {s len : Nat} (h : Apart e ⟨s, s + len⟩) :
    ¬ Meets e s len := by
  rintro ⟨c, ⟨h1, h2⟩, h3, h4⟩
  obtain hle | hle := h
  · exact absurd hle (by simp only; omega)
  · exact absurd hle (by simp only; omega)

/-- Whether an area is apart from all entries: it meets none and is not split. -/
theorem freeAt_iff {al : Alist} {s len : Nat} (hin : Inside al.stop al.entries) (hlen : 0 < len)
    (hs : s + len ≤ al.stop) :
    FreeAt al.entries s len ↔ s ∈ freeStarts al len ∧ ¬ Split al s len := by
  constructor
  · intro h
    refine ⟨⟨hs, fun e he => not_meets_of_apart (h e he)⟩, ?_⟩
    rintro ⟨e, he, hempty, h1, h2⟩
    exact not_freeAt_of_mem he (by omega) h2 h
  · rintro ⟨⟨-, hclear⟩, hsplit⟩ e he
    have hok := (hin e he).1
    by_contra hap
    have h1 : s < e.stop := by
      by_contra hge
      exact hap (.inl (by simp only; omega))
    have h2 : e.start < s + len := by
      by_contra hge
      exact hap (.inr (by simp only; omega))
    by_cases hempty : e.start = e.stop
    · exact hsplit ⟨e, he, hempty, by omega, h2⟩
    · exact hclear e he ⟨max s e.start, ⟨by omega, by omega⟩, by omega, by omega⟩

section FindFree

variable {al : Alist} {stop len : Nat}

/-- What first fit answers on a list with a range at 0 that is not empty. Empty ranges at 0 can stand in
front of it. -/
theorem findFree_spec (h : FfList stop al) (hstop : stop < u64Size)
    (hzero : ∃ e ∈ al.entries, e.start = 0 ∧ 0 < e.stop) (len : Nat) :
    AnswerTo al.entries stop len (shfsAlistFindFree al len) (firstHidden al) := by
  obtain ⟨stop', count, allocator, entries⟩ := al
  obtain ⟨rfl, rfl, hsorted, hin⟩ := h
  obtain ⟨z, hz, hstart, hlast⟩ := hzero
  cases entries with
  | nil => cases hz
  | cons e rest =>
      simp only at hsorted hin hz hstop ⊢
      have hfirst : e.start = 0 := by
        obtain rfl | hz := List.mem_cons.1 hz
        · exact hstart
        · have hle := (List.pairwise_cons.1 hsorted).1 z hz
          omega
      have hone : ∀ p ∈ [e], p = e := fun p hp => List.mem_singleton.1 hp
      have hsearch : Search (e :: rest) stop' len [e] e.stop e rest := by
        constructor
        case all => exact fun x => by rw [List.mem_cons, List.mem_singleton]
        case inside => exact hin
        case mem => exact List.mem_cons_self
        case sorted => exact hsorted
        case bound => exact fun p hp => by rw [hone p hp]
        case attained => exact ⟨e, List.mem_cons_self, rfl⟩
        case lowest =>
            intro hlen s hs
            exact not_freeAt_of_mem List.mem_cons_self hs (by omega)
      apply findFfFrom_spec hsearch hstop
      obtain rfl | hz := List.mem_cons.1 hz
      · exact .inl hlast
      · exact .inr ⟨z, hz, hstart, hlast⟩

/-- On a packed list the first fit is the lowest area that is apart from all entries. -/
theorem findFree_packed (h : FfList stop al) (hstop : stop < u64Size) (hpacked : Packed al.entries)
    (hzero : ∃ e ∈ al.entries, e.start = 0 ∧ 0 < e.stop) (len : Nat) :
    Answer al.entries stop len (shfsAlistFindFree al len) := by
  have hnone : firstHidden al = none := by
    have hsorted := h.sorted
    have hin := h.inside
    unfold firstHidden
    split
    · rfl
    · rename_i e rest heq
      rw [heq] at hpacked hsorted hin
      obtain ⟨hapart, hrest⟩ := List.pairwise_cons.1 hpacked
      apply firstHiddenFrom_packed (Nat.le_refl _) (hin e List.mem_cons_self).1 hsorted hrest
      exact fun r hr => ⟨(hin r (List.mem_cons_of_mem e hr)).1, hapart r hr⟩
  have hspec := findFree_spec h hstop hzero len
  rwa [hnone] at hspec

/-- The first hidden overlap reaches no further than the area. -/
theorem FfList.hidden_le (h : FfList stop al) {x : Aentry} (hx : firstHidden al = some x) :
    x.start < x.stop ∧ x.stop ≤ stop := by
  have hin := h.inside
  unfold firstHidden at hx
  split at hx
  · cases hx
  · rename_i e rest heq
    rw [heq] at hin
    refine ⟨firstHiddenFrom_lt hx, firstHiddenFrom_le hx (hin e List.mem_cons_self).2 ?_⟩
    exact fun r hr => (hin r (List.mem_cons_of_mem e hr)).2

/-- Chunk 0 is in no free area. -/
theorem zero_not_free (hzero : ∃ e ∈ al.entries, e.start = 0 ∧ 0 < e.stop) (hlen : 0 < len) :
    0 ∉ freeStarts al len := by
  obtain ⟨e, he, hstart, hlast⟩ := hzero
  exact fun h0 => h0.2 e he ⟨0, ⟨Nat.le_refl _, by omega⟩, by omega, hlast⟩

/-- Without a hidden overlap a length is answered rightly unless an empty entry splits the lowest free
area. -/
theorem right_iff_of_unhidden (h : FfList stop al)
    (hzero : ∃ e ∈ al.entries, e.start = 0 ∧ 0 < e.stop) (hlen : 0 < len)
    (hans : Answer al.entries stop len (shfsAlistFindFree al len)) :
    Right al len ↔ ∀ s, IsLeast (freeStarts al len) s → ¬ Split al s len := by
  obtain rfl := h.stop_eq
  have hfree : ∀ {s}, s + len ≤ al.stop →
      (FreeAt al.entries s len ↔ s ∈ freeStarts al len ∧ ¬ Split al s len) := fun hs =>
    freeAt_iff h.inside hlen hs
  constructor
  · rintro (hleast | ⟨hnone, -⟩) s hs
    · obtain rfl := hleast.unique hs
      have hne : shfsAlistFindFree al len ≠ 0 := fun h0 =>
        zero_not_free hzero hlen (by rw [h0] at hleast; exact hleast.1)
      have hfound := hans.1 hne
      exact ((hfree hfound.inside).1 hfound.free).2
    · have hmem := hs.1
      rw [hnone] at hmem
      cases hmem
  · intro hunsplit
    -- the lowest free area is not split, so it is apart from all entries
    have hleast : ∀ {s}, IsLeast (freeStarts al len) s → FreeAt al.entries s len := fun hs =>
      (hfree hs.1.1).2 ⟨hs.1, hunsplit _ hs⟩
    by_cases hy : shfsAlistFindFree al len = 0
    · refine .inr ⟨?_, hy⟩
      by_contra hne
      have hs := isLeast_csInf (Set.nonempty_iff_ne_empty.2 hne)
      exact hans.2 hy hlen _ hs.1.1 (hleast hs)
    · have hfound := hans.1 hy
      have hmem := ((hfree hfound.inside).1 hfound.free).1
      have hs := isLeast_csInf ⟨_, hmem⟩
      have hge := Nat.not_lt.1 fun hlt => hfound.lowest hlen _ hlt (hleast hs)
      have heq := Nat.le_antisymm hge (hs.2 hmem)
      rw [Right, heq]
      exact .inl hs

/-- With a hidden overlap. -/
theorem right_iff_of_hidden (h : FfList stop al) {x : Aentry} (hlen : 0 < len)
    (hx : firstHidden al = some x) (hroom : x.stop + len ≤ x.start + u64Size)
    (hans : AnswerTo al.entries stop len (shfsAlistFindFree al len) (some x)) :
    Right al len ↔ ∃ s, IsLeast (freeStarts al len) s ∧
      (s = x.stop ∨ (s < x.stop ∧ ¬ Split al s len)) := by
  obtain rfl := h.stop_eq
  obtain ⟨hlt, -⟩ := h.hidden_le hx
  have hfree : ∀ {s}, s + len ≤ al.stop →
      (FreeAt al.entries s len ↔ s ∈ freeStarts al len ∧ ¬ Split al s len) := fun hs =>
    freeAt_iff h.inside hlen hs
  obtain ⟨hfound, hfront⟩ | ⟨hnone, hend⟩ := hans
  · -- an area in front of the overlap is found
    obtain ⟨hmem, hunsplit⟩ := (hfree hfound.inside).1 hfound.free
    constructor
    · rintro (hleast | ⟨hempty, -⟩)
      · exact ⟨_, hleast, .inr ⟨by omega, hunsplit⟩⟩
      · rw [hempty] at hmem
        cases hmem
    · rintro ⟨s, hs, hcase⟩
      have hle := hs.2 hmem
      obtain rfl | ⟨-, hsplit⟩ := hcase
      · omega
      · have hge := Nat.not_lt.1 fun hlt =>
          hfound.lowest hlen _ hlt ((hfree hs.1.1).2 ⟨hs.1, hsplit⟩)
        rw [Right, Nat.le_antisymm hge hle]
        exact .inl hs
  · -- the overlap itself is answered
    have hy := hend hroom
    rw [Right, hy]
    constructor
    · rintro (hleast | ⟨-, h0⟩)
      · exact ⟨_, hleast, .inl rfl⟩
      · omega
    · rintro ⟨s, hs, rfl | ⟨hbefore, hsplit⟩⟩
      · exact .inl hs
      · exact absurd ((hfree hs.1.1).2 ⟨hs.1, hsplit⟩) (hnone hlen s hbefore)

end FindFree

/-- For every list that the calls build: first fit is right for all lengths exactly if the list hides no
overlap and no empty entry splits a lowest free area; and it is right for a single length exactly if the
lowest free area is not behind a hidden overlap or split. -/
theorem findFree_right_iff {stop : Nat} {al₀ al : Alist} {calls : List AlistCall}
    (hstop : stop < u64Size) (halloc : shfsAllocAlist stop sallocFirstfit true = some al₀)
    (hcalls : ∀ c ∈ calls, c.Ok stop) (hal : al = calls.foldl AlistCall.apply al₀)
    (hzero : ∃ e ∈ al.entries, e.start = 0 ∧ 0 < e.stop) :
    ((∀ len, 0 < len → len < u64Size → Right al len) ↔ firstHidden al = none ∧ Unsplit al) ∧
      ∀ len, 0 < len → stop + len ≤ u64Size → (Right al len ↔ Fits al len) := by
  have h : FfList stop al := by
    rw [hal]
    exact (ffList_alloc halloc).run hstop hcalls
  have hspec := findFree_spec h hstop hzero
  cases hx : firstHidden al with
  | none =>
      rw [hx] at hspec
      have hright : ∀ {len}, 0 < len →
          (Right al len ↔ ∀ s, IsLeast (freeStarts al len) s → ¬ Split al s len) := fun hlen =>
        right_iff_of_unhidden h hzero hlen (hspec _)
      refine ⟨⟨fun hall => ⟨rfl, fun len s hs hsplit => ?_⟩, fun hun len hlen _ => ?_⟩, ?_⟩
      · obtain ⟨e, he, hempty, h1, h2⟩ := id hsplit
        have hle : s + len ≤ al.stop := hs.1.1
        have hstop' := h.stop_eq
        exact (hright (by omega)).1 (hall len (by omega) (by omega)) s hs hsplit
      · exact (hright hlen).2 (hun.2 len)
      · intro len hlen hroom
        rw [hright hlen, Fits]
        constructor
        · intro hun
          by_cases hempty : freeStarts al len = ∅
          · exact .inr ⟨hempty, hx⟩
          · have hs := isLeast_csInf (Set.nonempty_iff_ne_empty.2 hempty)
            exact .inl ⟨_, hs, .inr ⟨fun x hx' => (by rw [hx] at hx'; cases hx'), hun _ hs⟩⟩
        · rintro (⟨s, hs, ⟨x, hx', -⟩ | ⟨-, hsplit⟩⟩ | ⟨hempty, -⟩) t ht
          · rw [hx] at hx'
            cases hx'
          · rwa [ht.unique hs]
          · have hmem := ht.1
            rw [hempty] at hmem
            cases hmem
  | some x =>
      rw [hx] at hspec
      obtain ⟨hlt, hle⟩ := h.hidden_le hx
      have hright : ∀ {len}, 0 < len → x.stop + len ≤ x.start + u64Size →
          (Right al len ↔ ∃ s, IsLeast (freeStarts al len) s ∧
            (s = x.stop ∨ (s < x.stop ∧ ¬ Split al s len))) := fun hlen hroom =>
        right_iff_of_hidden h hlen hx hroom (hspec _)
      refine ⟨⟨fun hall => ?_, fun hun => by cases hun.1⟩, ?_⟩
      · -- a length that fits neither in front of the overlap nor behind it
        have hstop' := h.stop_eq
        obtain ⟨len, hlen⟩ : ∃ len, len = max (stop - x.stop + 1) (x.start + 1) := ⟨_, rfl⟩
        obtain ⟨-, hfront⟩ | ⟨-, hend⟩ := hspec len
        · omega
        · have hy := hend (by omega)
          obtain hleast | ⟨-, h0⟩ := hall len (by omega) (by omega)
          · have hin : shfsAlistFindFree al len + len ≤ al.stop := hleast.1.1
            omega
          · omega
      · intro len hlen hroom
        rw [hright hlen (by omega), Fits]
        constructor
        · rintro ⟨s, hs, rfl | ⟨hbefore, hsplit⟩⟩
          · exact .inl ⟨_, hs, .inl ⟨x, hx, rfl⟩⟩
          · refine .inl ⟨s, hs, .inr ⟨fun x' hx' => ?_, hsplit⟩⟩
            rw [hx] at hx'
            obtain rfl := Option.some.inj hx'
            exact hbefore
        · rintro (⟨s, hs, ⟨x', hx', rfl⟩ | ⟨hbefore, hsplit⟩⟩ | ⟨-, hnone⟩)
          · rw [hx] at hx'
            obtain rfl := Option.some.inj hx'
            exact ⟨_, hs, .inl rfl⟩
          · exact ⟨s, hs, .inr ⟨hbefore x hx, hsplit⟩⟩
          · rw [hx] at hnone
            cases hnone

/-- A list of two areas with a gap of one chunk between them. -/
theorem findFree_right_iff_gap :
    ((∀ len, 0 < len → len < u64Size → Right ⟨8, 2, sallocFirstfit, [⟨0, 2⟩, ⟨3, 4⟩]⟩ len) ↔
        firstHidden ⟨8, 2, sallocFirstfit, [⟨0, 2⟩, ⟨3, 4⟩]⟩ = none ∧
          Unsplit ⟨8, 2, sallocFirstfit, [⟨0, 2⟩, ⟨3, 4⟩]⟩) ∧
      ∀ len, 0 < len → 8 + len ≤ u64Size →
        (Right ⟨8, 2, sallocFirstfit, [⟨0, 2⟩, ⟨3, 4⟩]⟩ len ↔
          Fits ⟨8, 2, sallocFirstfit, [⟨0, 2⟩, ⟨3, 4⟩]⟩ len) :=
  @findFree_right_iff 8 ⟨8, 0, sallocFirstfit, []⟩ _
    [.register true 3 1, .unregister 5 1, .register true 0 2] (by decide) rfl (by decide) (by decide)
    ⟨⟨0, 2⟩, by decide⟩

/-- An area of ten chunks that is full: two ranges inside the first one make the gap in front of the
last wrap, and one chunk is found behind the end. -/
theorem findFree_nested :
    shfsAllocAlist 10 sallocFirstfit true = some ⟨10, 0, sallocFirstfit, []⟩ ∧
    (∀ c ∈ [AlistCall.register true 0 10, .register true 2 2, .register true 6 2], c.Ok 10) ∧
    ¬ Right ([AlistCall.register true 0 10, .register true 2 2, .register true 6 2].foldl
      AlistCall.apply ⟨10, 0, sallocFirstfit, []⟩) 1 := by
  refine ⟨rfl, by decide, ?_⟩
  have hfind : shfsAlistFindFree ([AlistCall.register true 0 10, .register true 2 2,
      .register true 6 2].foldl AlistCall.apply ⟨10, 0, sallocFirstfit, []⟩) 1 = 10 := by decide
  unfold Right
  rw [hfind]
  rintro (hleast | ⟨-, h0⟩)
  · exact absurd hleast.1.1 (by decide)
  · cases h0

end Minipython.Tools
