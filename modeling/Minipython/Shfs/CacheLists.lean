/-
# Minipython.Shfs.CacheLists — the two kinds of lists of the chunk cache

`shfs_cache_unlink` unlinks an entry from both lists. On the release of the last reference on an entry
whose request failed it is called for an entry that is on no list of available entries, and `dlist_unlink`
then sets both ends of that list to null: all available entries are lost (`release_loses_available`).

Unless a release does that, unless reading ahead wraps around to address 0, and as long as every step is
orderly, the lists are what they should be (`cache_lists_ok`). A step is not orderly if it takes the buffer
of a call that waits for a slot, if it completes a part of that call's request, or if a read makes `2 ^ 32`
references out of one less.

An entry is on no collision list while the call that sets up its request waits: it has its address already,
and `shfs_cache_add` lists it when `shfs_aread_chunk` has returned. It is among the available entries by
then. Between two operations that do not wait there is no such entry.
-/
import Minipython.Shfs.CacheComplete

namespace Minipython.Shfs

open Minipython.Lib
open Cache

/-- The pointers of a list spell `l`, forwards from `first` and backwards from `last`. -/
def Spells (L : Links Mem) (E : Ends Mem) (l : List Mem) : Prop :=
  DList.Traverses L.next E.first l ∧ DList.Traverses L.prev E.last l.reverse ∧ l.Nodup

/-- The list of available entries spells the entries with an address and without references, among which
one that a flush waits for counts; each collision list spells the entries with an address that belongs
there. An entry is on the way to its collision list as long as a call waits in `shfs_cache_add` with it. -/
structure ListsOk (conf : CacheConf) (s : Cache) : Prop where
  alist : ∃ l, Spells s.alinks s.alist l ∧ ∀ c, c ∈ l ↔
    c ∈ s.entries ∧ (s.cce c).addr ≠ 0 ∧ ((s.cce c).refcount = 0 ∨ s.pc = .wait c)
  htable : ∀ i, ∃ l, Spells s.clinks (s.htable i) l ∧ ∀ c, c ∈ l ↔
    c ∈ s.entries ∧ (s.cce c).addr ≠ 0 ∧ ¬ s.SetUp c ∧ shfsCacheHtindex conf (s.cce c).addr = i

/-- The last reference on an entry with an address whose request failed is given back only while no
other entry is available, and no read of the last chunk of a volume with `2 ^ 64` of them reads ahead. -/
def SafeEvent (conf : CacheConf) (s : Cache) : CacheEvent → Prop
  | .release r => Wrecks s r → ∀ c ∈ s.entries, (s.cce c).refcount ≠ 0
  | .ioabort r => Wrecks s r → ∀ c ∈ s.entries, (s.cce c).refcount ≠ 0
  | .aread addr _ _ => addr + 1 < u64Size ∨ conf.volsize + 1 < u64Size ∨ conf.readahead = 0
  | _ => True

instance (s : Cache) (r : Ref) : Decidable (Wrecks s r) := inferInstanceAs (Decidable (_ ∧ _))

instance (conf : CacheConf) (s : Cache) (e : CacheEvent) : Decidable (SafeEvent conf s e) :=
  match e with
  | .release r | .ioabort r =>
      inferInstanceAs (Decidable (Wrecks s r → ∀ c ∈ s.entries, (s.cce c).refcount ≠ 0))
  | .aread addr _ _ => inferInstanceAs (Decidable (addr + 1 < u64Size ∨ _))
  | .mount _ | .resume _ _ _ | .eblank _ | .finalize _ | .complete _ _ | .flush | .flushNext
  | .flushed => inferInstanceAs (Decidable True)

section Lists

variable {conf : CacheConf} {s s' : Cache} {e : CacheEvent}

theorem Rep_spells {L : Links Mem} {E : Ends Mem} {l : List Mem} (h : DList.Rep L E l) :
    Spells L E l := ⟨h.traverses.1, h.traverses.2, h.nodup⟩

/-- Exact lists of available entries, and no address 0 in any list. -/
theorem Sound.listsOk (h : Sound DList.Exact (· ≠ 0) conf s) : ListsOk conf s := by
  obtain ⟨hl, hc, -, -, -, hset⟩ := h.inv
  have haddr : ∀ c, c ∈ avail (refsOn s) s → (s.cce c).addr ≠ 0 := by
    intro c hA
    by_cases hup : s.SetUp c
    · obtain ⟨p, hp, rfl⟩ := hup
      obtain ⟨-, -, he, hz⟩ := hset.entry p hp
      rw [he]
      exact hz
    · exact hl.addr c (listed_of_avail hA hup)
  constructor
  · obtain ⟨l, hrep, hmem⟩ := hl.alist
    refine ⟨l, Rep_spells hrep, fun c => ?_⟩
    rw [hmem]
    constructor
    · intro hA
      refine ⟨hA.1, haddr c hA, ?_⟩
      rw [Word.count_eq_zero, hc.refcount c hA.1, hA.2]
      by_cases hw : s.pc = .wait c
      · exact .inr hw
      · rw [if_neg hw]
        exact .inl rfl
    · rintro ⟨hin, -, h0 | hw⟩
      · exact ⟨hin, (hc.of_zero hin h0).1⟩
      · exact hc.wait c hw
  · intro i
    obtain ⟨l, hrep, hmem⟩ := hl.clist
    refine ⟨l i, Rep_spells (hrep i), fun c => ?_⟩
    rw [hmem]
    constructor
    · rintro ⟨hH, rfl⟩
      exact ⟨hH.1, hl.addr c hH, hH.2.2, rfl⟩
    · rintro ⟨hin, ha, hup, rfl⟩
      exact ⟨⟨hin, .inr ha, hup⟩, rfl⟩

/-- A list without available entries has nothing to lose. -/
theorem SafeEvent.loseOk (h : Sound DList.Exact (· ≠ 0) conf s) (he : cacheEnabled s e)
    (hs : SafeEvent conf s e) : LoseOk DList.Exact s e := by
  have key : ∀ r, s.pc = .idle → (Wrecks s r → ∀ c ∈ s.entries, (s.cce c).refcount ≠ 0) →
      Wrecks s r → DList.Exact (avail (refsOn s) s) s.alinks DList.emptyEnds := by
    intro r hpc hsafe hw
    refine ⟨[], DList.rep_empty _, fun c => ⟨(fun hc => by cases hc), fun hA => ?_⟩⟩
    refine absurd (Word.count_eq_zero.2 ?_) (hsafe hw c hA.1)
    rw [h.inv.refcount_eq hpc hA.1]
    exact hA.2
  cases e with
  | release r => exact key r he.1 hs
  | ioabort r => exact key r he.1 hs
  | mount m => trivial
  | aread addr cb env => trivial
  | resume p err env => trivial
  | eblank heap => trivial
  | finalize r => trivial
  | complete t ret => trivial
  | flush => trivial
  | flushNext => trivial
  | flushed => trivial

/-- Reading ahead stays between the chunk that is read and the end of the volume. -/
theorem SafeEvent.addrOk (hs : SafeEvent conf s e) : AddrOk (· ≠ 0) conf e := by
  cases e with
  | aread addr cb env =>
      intro ha hv
      refine ⟨ha, fun k hk hra hreach => ?_⟩
      have hlt := conf.volsize_lt
      have hs : addr + 1 < u64Size ∨ conf.volsize + 1 < u64Size ∨ conf.readahead = 0 := hs
      -- no address up to the `k`-th one wraps
      have hno : ∀ j, j ≤ k → addr + j < u64Size := by
        intro j
        induction j with
        | zero => omega
        | succ j ih =>
            intro hj
            have hprev := ih (by omega)
            by_cases h0 : j = 0
            · subst h0
              omega
            · have := hreach j (by omega) (by omega)
              rw [wrap64, Nat.mod_eq_of_lt hprev] at this
              omega
      rw [wrap64, Nat.mod_eq_of_lt (hno k (le_refl k))]
      omega
  | resume p err env => trivial
  | release r => trivial
  | ioabort r => trivial
  | mount m => trivial
  | eblank heap => trivial
  | finalize r => trivial
  | complete t ret => trivial
  | flush => trivial
  | flushNext => trivial
  | flushed => trivial

/-- Safe and orderly events keep the lists exact. -/
theorem cache_exact {cce : Mem → Cce} {alinks clinks : Links Mem} {tok : Nat → AioToken}
    {tlinks : Links Nat} {es : List CacheEvent}
    (h : ((cache conf).restrict fun s e => SafeEvent conf s e ∧ Orderly conf s e).Run
      (shfsAllocCache conf cce alinks clinks tok tlinks) es s) :
    Sound DList.Exact (· ≠ 0) conf s := by
  refine h.invariant (I := Sound DList.Exact (· ≠ 0) conf) (fun s₁ e s₂ hg hstep => ?_)
    (sound_init DList.exact_discipline conf cce alinks clinks tok tlinks)
  obtain ⟨hs, hsafe, ho⟩ := Machine.restrict_step.1 hstep
  exact (cache_step DList.exact_discipline hg hs ho hsafe.addrOk (hsafe.loseOk hg hs.1)).1

/-- Both kinds of lists are right in every state that is reached by safe and orderly events. A list is right
if its links run through it in both directions; the collision lists are those of the entries by their chunk,
and the available entries are those with a chunk and without a reference, each once. Safe leaves out a
release that destroys an entry while another one is available, orderly an event that gets in the way of a
request that is being set up. -/
theorem cache_lists_ok {cce : Mem → Cce} {alinks clinks : Links Mem} {tok : Nat → AioToken}
    {tlinks : Links Nat} {es : List CacheEvent}
    (h : ((cache conf).restrict fun s e => SafeEvent conf s e ∧ Orderly conf s e).Run
      (shfsAllocCache conf cce alinks clinks tok tlinks) es s) : ListsOk conf s :=
  (cache_exact h).listsOk

end Lists

/-! ## A release that loses the available entries -/

/-- Two chunks are read, the first request ends with `ret`, and both are released. -/
def readBoth (ret : Int) : List CacheEvent :=
  [readEvent 5 0 10, readEvent 6 1 11, .complete 0 ret, .complete 1 0,
    .release ⟨.pobj 1, some 11, 1, false⟩, .release ⟨.pobj 0, some 10, 0, false⟩]

/-- The request for the first chunk fails while it is held, and its release loses the second chunk, which
is good and available. -/
theorem release_loses_available : ∃ s, (cache tinyCache).Run tinyInit (readBoth (-5)) s ∧
    ¬ ListsOk tinyCache s := by
  have hexec : ((cache tinyCache).exec tinyInit (readBoth (-5))).any (fun s =>
      s.alist.first = none ∧ .pobj 1 ∈ s.entries ∧ (s.cce (.pobj 1)).addr = 6 ∧
        (s.cce (.pobj 1)).refcount = 0) = true := by decide
  obtain ⟨s, hrun, hs⟩ := Machine.Run.of_exec_any hexec
  obtain ⟨hfirst, hin, ha, h0⟩ := of_decide_eq_true hs
  refine ⟨s, hrun, fun hok => ?_⟩
  obtain ⟨l, ⟨htr, -, -⟩, hmem⟩ := hok.alist
  have hl : Mem.pobj 1 ∈ l := (hmem _).2 ⟨hin, by rw [ha]; decide, .inl h0⟩
  rw [hfirst] at htr
  cases l with
  | nil => cases hl
  | cons c l => exact htr

/-- If the request succeeds, both chunks are there. -/
theorem cache_lists_ok_both : ∃ s, (cache tinyCache).Run tinyInit (readBoth 0) s ∧
    s.alist.first = some (.pobj 1) ∧ s.alist.last = some (.pobj 0) ∧ ListsOk tinyCache s := by
  have hexec : (((cache tinyCache).restrict fun s e => SafeEvent tinyCache s e ∧
      Orderly tinyCache s e).exec tinyInit (readBoth 0)).any
      (fun s => s.alist.first = some (.pobj 1) ∧ s.alist.last = some (.pobj 0)) = true := by decide
  obtain ⟨s, hrun, hs⟩ := Machine.Run.of_exec_any hexec
  obtain ⟨hfirst, hlast⟩ := of_decide_eq_true hs
  exact ⟨s, hrun.mono fun _ _ _ h => (Machine.restrict_step.1 h).1, hfirst, hlast,
    cache_lists_ok hrun⟩

end Minipython.Shfs
