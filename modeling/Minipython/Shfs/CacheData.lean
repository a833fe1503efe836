/-
# Minipython.Shfs.CacheData — what the buffers of the chunk cache hold

The memory behind the buffers is added to the cache: a request that completes without an error leaves the
chunk that it was started for in the buffer of its entry. Beside that anything may be written to memory
that is no buffer of an entry, to the buffer of an entry whose request is in flight or being set up, and by
a caller to its blank buffer.

In every orderly run the buffers of valid entries hold their chunks (`LoadedInv`). A caller whose token is
done with a return value of 0 finds the chunk in the buffer of its entry, whatever else happened meanwhile
(`Watched`). Both rest on the request of an entry being for the chunk that the entry names. Where an entry
is taken from under a call that waits for a slot this fails: the new request and the old one are for two
chunks, and the one that the call assigns to `cce->t` ends both.
-/
import Minipython.Shfs.CacheOwner

namespace Minipython.Shfs

open Minipython.Lib
open Cache

/-- The cache with the memory behind its buffers. -/
structure Loaded where
  cache : Cache
  data : Mem → Bytes

inductive LoadedEvent where
  | call (e : CacheEvent)
  /-- somebody writes to memory -/
  | store (m : Mem) (b : Bytes)

/-- Memory that may be written to: an entry whose buffer it is has a request in flight or being set up, or
is held as a blank buffer. -/
def Writable (s : Cache) (m : Mem) : Prop :=
  ∀ c ∈ s.entries, (s.cce c).buffer = m →
    (s.cce c).t ≠ none ∨ s.SetUp c ∨ ∃ r ∈ s.refs, r.cce = c ∧ r.blank = true

instance (s : Cache) (m : Mem) : Decidable (Writable s m) :=
  inferInstanceAs (Decidable (∀ c ∈ s.entries, _))

/-- What a completed request leaves in memory; `vol` is what the chunks of the volume hold. -/
def deliver (chunksize : Nat) (vol : Nat → Bytes) (s : Cache) (data : Mem → Bytes) :
    CacheEvent → Mem → Bytes
  | .complete t ret =>
      match (s.tok t).cb with
      | some (.cce c) =>
          if ret < 0 then data
          else Function.update data (s.cce c).buffer
            (Bytes.blit (data (s.cce c).buffer) 0 (vol (s.tok t).chunk) chunksize)
      | _ => data
  | _ => data

def loadedEnabled (s : Loaded) : LoadedEvent → Prop
  | .call e => cacheEnabled s.cache e
  | .store m _ => Writable s.cache m

def loadedNext (conf : CacheConf) (chunksize : Nat) (vol : Nat → Bytes) (s : Loaded) :
    LoadedEvent → Except Fault Loaded
  | .call e => do
      let cache ← cacheNext conf s.cache e
      return ⟨cache, deliver chunksize vol s.cache s.data e⟩
  | .store m b => .ok { s with data := Function.update s.data m b }

/-- The cache on a volume. -/
def loaded (conf : CacheConf) (chunksize : Nat) (vol : Nat → Bytes) : Machine Loaded LoadedEvent Fault :=
  ⟨loadedEnabled, loadedNext conf chunksize vol⟩

instance (s : Loaded) (e : LoadedEvent) : Decidable (loadedEnabled s e) :=
  match e with
  | .call e => inferInstanceAs (Decidable (cacheEnabled s.cache e))
  | .store m _ => inferInstanceAs (Decidable (Writable s.cache m))

instance (conf : CacheConf) (chunksize : Nat) (vol : Nat → Bytes) (s : Loaded) (e : LoadedEvent) :
    Decidable ((loaded conf chunksize vol).Enabled s e) :=
  inferInstanceAs (Decidable (loadedEnabled s e))

/-- Which events there are. -/
abbrev Allowed := Loaded → LoadedEvent → Prop

/-- Any event. -/
def anyEvent : Allowed := fun _ _ => True

instance (s : Loaded) (e : LoadedEvent) : Decidable (anyEvent s e) := inferInstanceAs (Decidable True)

/-- Orderly events of the cache. -/
def orderly (conf : CacheConf) : Allowed
  | s, .call e => Orderly conf s.cache e
  | _, .store _ _ => True

instance (conf : CacheConf) (s : Loaded) (e : LoadedEvent) : Decidable (orderly conf s e) :=
  match e with
  | .call e => inferInstanceAs (Decidable (Orderly conf s.cache e))
  | .store _ _ => inferInstanceAs (Decidable True)

/-- The cache on a volume where only some events occur. -/
def within (conf : CacheConf) (chunksize : Nat) (vol : Nat → Bytes) (allowed : Allowed) :
    Machine Loaded LoadedEvent Fault := (loaded conf chunksize vol).restrict allowed

instance (conf : CacheConf) (chunksize : Nat) (vol : Nat → Bytes) (allowed : Allowed)
    [∀ s e, Decidable (allowed s e)] (s : Loaded) (e : LoadedEvent) :
    Decidable ((within conf chunksize vol allowed).Enabled s e) :=
  inferInstanceAs (Decidable ((loaded conf chunksize vol).Enabled s e ∧ allowed s e))

/-- The holder of a reference gives it back, or finalizes its token. -/
def LoadedEvent.touches (r : Ref) : LoadedEvent → Bool
  | .call (.release r') | .call (.ioabort r') | .call (.finalize r') => r' = r
  | _ => false

/-- The call that waits for a slot goes on. -/
def LoadedEvent.wakes (p : Pending) : LoadedEvent → Bool
  | .call (.resume p' _ _) => p' = p
  | _ => false

/-- What others do while the holder of `r` waits. -/
def others (conf : CacheConf) (chunksize : Nat) (vol : Nat → Bytes) (allowed : Allowed) (r : Ref) :
    Machine Loaded LoadedEvent Fault :=
  (within conf chunksize vol allowed).restrict fun _ e => e.touches r = false

instance (conf : CacheConf) (chunksize : Nat) (vol : Nat → Bytes) (allowed : Allowed)
    [∀ s e, Decidable (allowed s e)] (r : Ref) (s : Loaded) (e : LoadedEvent) :
    Decidable ((others conf chunksize vol allowed r).Enabled s e) :=
  inferInstanceAs (Decidable ((within conf chunksize vol allowed).Enabled s e ∧ e.touches r = false))

/-- What others do while the call `p` waits for a slot. -/
def asleep (conf : CacheConf) (chunksize : Nat) (vol : Nat → Bytes) (allowed : Allowed) (p : Pending) :
    Machine Loaded LoadedEvent Fault :=
  (within conf chunksize vol allowed).restrict fun _ e => e.wakes p = false

instance (conf : CacheConf) (chunksize : Nat) (vol : Nat → Bytes) (allowed : Allowed)
    [∀ s e, Decidable (allowed s e)] (p : Pending) (s : Loaded) (e : LoadedEvent) :
    Decidable ((asleep conf chunksize vol allowed p).Enabled s e) :=
  inferInstanceAs (Decidable ((within conf chunksize vol allowed).Enabled s e ∧ e.wakes p = false))

/-! ## The invariant -/

/-- The buffer of the entry holds the chunk that the entry names. -/
def HoldsChunk (chunksize : Nat) (vol : Nat → Bytes) (s : Loaded) (c : Mem) : Prop :=
  ∀ k < chunksize, s.data (s.cache.cce c).buffer k = vol (s.cache.cce c).addr k

/-- Valid entries hold their chunks. -/
structure LoadedInv (conf : CacheConf) (chunksize : Nat) (vol : Nat → Bytes) (s : Loaded) : Prop where
  owned : Owned conf s.cache
  data : ∀ c, Valid s.cache c → HoldsChunk chunksize vol s c

/-- A reference on the entry of the chunk `addr`. Once its token is done and returns 0, the buffer holds
the chunk. -/
structure Watched (chunksize : Nat) (vol : Nat → Bytes) (addr : Nat) (r : Ref) (s : Loaded) : Prop where
  held : r ∈ s.cache.refs
  mine : r.blank = false
  names : (s.cache.cce r.cce).addr = addr
  done : ∀ t, r.tok = some t → (s.cache.tok t).infly = 0 → 0 ≤ (s.cache.tok t).ret →
    HoldsChunk chunksize vol s r.cce

section Loaded

variable {conf : CacheConf} {cs addr : Nat} {vol : Nat → Bytes} {s s' : Loaded} {c : Mem} {r : Ref}

/-- A step of the cache. -/
theorem loaded_call {e : CacheEvent} (h : (loaded conf cs vol).Step s (.call e) s') :
    (cache conf).Step s.cache e s'.cache ∧ s'.data = deliver cs vol s.cache s.data e := by
  obtain ⟨he, hn⟩ := h
  obtain ⟨u, hu, hn⟩ := ok_of_bind hn
  obtain rfl := Except.ok.inj hn
  exact ⟨⟨he, hu⟩, rfl⟩

/-- Only completions move data. -/
theorem deliver_same {e : CacheEvent} (he : ∀ t ret, e ≠ .complete t ret) :
    deliver cs vol s.cache s.data e = s.data := by
  cases e with
  | complete t ret => exact absurd rfl (he t ret)
  | _ => rfl

/-- What a completion delivers. -/
theorem deliver_complete {t : Nat} {ret : Int} (hcb : (s.cache.tok t).cb = some (.cce c)) :
    deliver cs vol s.cache s.data (.complete t ret) =
      if ret < 0 then s.data
      else Function.update s.data (s.cache.cce c).buffer
        (Bytes.blit (s.data (s.cache.cce c).buffer) 0 (vol (s.cache.tok t).chunk) cs) := by
  simp only [deliver, hcb]

/-- A buffer with the data as before, and the names as before. -/
theorem HoldsChunk.congr (h : HoldsChunk cs vol s c) (ha : (s'.cache.cce c).addr = (s.cache.cce c).addr)
    (hb : (s'.cache.cce c).buffer = (s.cache.cce c).buffer)
    (hd : s'.data (s.cache.cce c).buffer = s.data (s.cache.cce c).buffer) : HoldsChunk cs vol s' c := by
  intro k hk
  rw [hb, ha, hd]
  exact h k hk

/-- A buffer whose request, for the chunk that its entry names, was completed. -/
theorem HoldsChunk.delivered {t : Nat} {ret : Int} (hcb : (s.cache.tok t).cb = some (.cce c))
    (hchunk : (s.cache.tok t).chunk = (s.cache.cce c).addr) (hret : 0 ≤ ret)
    (ha : (s'.cache.cce c).addr = (s.cache.cce c).addr)
    (hb : (s'.cache.cce c).buffer = (s.cache.cce c).buffer)
    (hd : s'.data = deliver cs vol s.cache s.data (.complete t ret)) : HoldsChunk cs vol s' c := by
  intro k hk
  rw [hd, deliver_complete hcb, if_neg (not_lt.2 hret), hb, ha, Function.update_self, hchunk]
  have hin := @Bytes.blit_inside (s.data (s.cache.cce c).buffer) (vol (s.cache.cce c).addr) 0 cs k hk
  rw [Nat.zero_add] at hin
  exact hin

/-- A completion leaves the buffers of other entries alone. -/
theorem deliver_other (h : Memory s.cache) {t : Nat} {ret : Int} {d : Mem}
    (hcb : (s.cache.tok t).cb = some (.cce c)) (hc : c ∈ s.cache.entries) (hd : d ∈ s.cache.entries)
    (hdc : d ≠ c) : deliver cs vol s.cache s.data (.complete t ret) (s.cache.cce d).buffer =
      s.data (s.cache.cce d).buffer := by
  rw [deliver_complete hcb]
  split
  · rfl
  · apply Function.update_of_ne
    intro he
    exact hdc (h.buffers d hd c hc he)

/-- The request that completes is for the chunk that its entry names. -/
theorem LoadedInv.request (h : LoadedInv conf cs vol s) {t : Nat} (ht : t ∈ s.cache.tokens)
    (hcb : (s.cache.tok t).cb = some (.cce c)) (hcalm : ∀ p ∈ s.cache.adds, p.tok ≠ t) :
    c ∈ s.cache.entries ∧ (s.cache.tok t).chunk = (s.cache.cce c).addr := by
  obtain ⟨hc, hct, -⟩ := h.owned.sound.inv.privates.of_token ht hcb hcalm
  exact ⟨hc, (h.owned.sound.inv.privates.own c hc t hct).2.2.2⟩

/-- Nobody may write to the buffer of a valid entry. -/
theorem LoadedInv.not_writable (h : LoadedInv conf cs vol s) (hc : Valid s.cache c) :
    ¬ Writable s.cache (s.cache.cce c).buffer := by
  obtain ⟨hin, ht, hok, hup⟩ := hc
  intro hw
  obtain hbusy | hset | ⟨r, hr, rfl, hb⟩ := hw c hin rfl
  · exact hbusy ht
  · exact hup hset
  · have haddr := h.owned.blank r hr hb
    have hinvalid := (h.owned.sound.inv.blank _ (refsOn_pos hr) haddr).2.2
    rw [hok] at hinvalid
    cases hinvalid

theorem LoadedInv.step {e : LoadedEvent} (h : LoadedInv conf cs vol s)
    (hs : (within conf cs vol (orderly conf)).Step s e s') : LoadedInv conf cs vol s' := by
  obtain ⟨hs, ho⟩ := Machine.restrict_step.1 hs
  cases e with
  | store m b =>
      obtain ⟨hw, hn⟩ := hs
      obtain rfl := Except.ok.inj hn
      refine ⟨h.owned, fun c hc => (h.data c hc).congr rfl rfl ?_⟩
      apply Function.update_of_ne
      rintro rfl
      exact h.not_writable hc hw
  | call e =>
      obtain ⟨hstep, hdata⟩ := loaded_call hs
      refine ⟨(h.owned.step hstep ho).1, fun c hc => ?_⟩
      by_cases hcomplete : ∃ t ret, e = .complete t ret
      · obtain ⟨t, ret, rfl⟩ := hcomplete
        obtain ⟨⟨-, ht, ⟨c₀, hcb⟩, -⟩, hn⟩ := hstep
        obtain ⟨hc₀, hchunk⟩ := h.request ht hcb ho.1
        obtain ⟨ha, hb, hin, ⟨rfl, hret⟩ | ⟨hne, hold⟩⟩ :=
          (complete_valid h.owned.sound ht hcb ho.1 hn).1 c hc
        · exact HoldsChunk.delivered hcb hchunk hret ha hb hdata
        · refine (h.data c hold).congr ha hb ?_
          rw [hdata]
          exact deliver_other h.owned.sound.inv.memory hcb hc₀ hin hne
      · have hno : ∀ t ret, e ≠ .complete t ret := fun t ret he => hcomplete ⟨t, ret, he⟩
        obtain ⟨hold, ha, hb⟩ := (valid_step h.owned.sound hstep hno).1 c (by simp) hc
        refine (h.data c hold).congr ha hb ?_
        rw [hdata, deliver_same hno]

/-- In a new cache nothing is valid. -/
theorem loadedInv_init (conf : CacheConf) (cs : Nat) (vol : Nat → Bytes) (cce : Mem → Cce)
    (alinks clinks : Links Mem) (tok : Nat → AioToken) (tlinks : Links Nat) (data : Mem → Bytes) :
    LoadedInv conf cs vol ⟨shfsAllocCache conf cce alinks clinks tok tlinks, data⟩ :=
  ⟨(owned_init conf cce alinks clinks tok tlinks).1, fun c hc => absurd hc.1 (Finset.notMem_empty c)⟩

/-- Every orderly run keeps the invariant. -/
theorem LoadedInv.run {es : List LoadedEvent} (h : LoadedInv conf cs vol s)
    (hrun : (within conf cs vol (orderly conf)).Run s es s') : LoadedInv conf cs vol s' :=
  hrun.invariant (I := LoadedInv conf cs vol) (fun _ _ _ hI hs => hI.step hs) h

/-! ## A caller that waits -/

/-- A reference that is not given back stays. -/
theorem Recorded.stays {s s' : Cache} {e : CacheEvent} (h : Recorded s e s') (hr : r ∈ s.refs)
    (he : (LoadedEvent.call e).touches r = false) : r ∈ s'.refs := by
  cases e with
  | aread | resume =>
      obtain ⟨hrefs, -⟩ | ⟨c, t, hrefs, -⟩ := h
      · exact hrefs ▸ hr
      · exact hrefs ▸ List.mem_append_left _ hr
  | eblank heap =>
      obtain ⟨hrefs, -⟩ | ⟨c, hrefs, -⟩ := h
      · exact hrefs ▸ hr
      · exact hrefs ▸ List.mem_append_left _ hr
  | release r' =>
      have hne : r ≠ r' := fun h => (of_decide_eq_false he) h.symm
      exact h.1 ▸ (List.mem_erase_of_ne hne).2 hr
  | ioabort r' =>
      have hne : r ≠ r' := fun h => (of_decide_eq_false he) h.symm
      exact h.1 ▸ (List.mem_erase_of_ne hne).2 hr
  | finalize r' =>
      have hne : r ≠ r' := fun h => (of_decide_eq_false he) h.symm
      rw [h.1]
      exact List.mem_map.2 ⟨r, hr, if_neg hne⟩
  | complete t ret => exact h.1 ▸ hr
  | mount m => exact h.1 ▸ hr
  | flush => exact h.1 ▸ hr
  | flushNext => exact h.1 ▸ hr
  | flushed => exact h.1 ▸ hr

/-- What others do leaves the entry with its address and its buffer. -/
theorem LoadedInv.kept {e : CacheEvent} (h : LoadedInv conf cs vol s) (hr : r ∈ s.cache.refs)
    (hs : (cache conf).Step s.cache e s'.cache) (ho : Orderly conf s.cache e)
    (he : e ≠ .release r ∧ e ≠ .ioabort r) : Kept s.cache s'.cache r.cce :=
  (h.owned.step hs ho).2.1 _ (h.owned.sound.held hr) (.inl ⟨r, hr, rfl, he.1, he.2⟩)

/-- Nobody sets up the request of an entry that somebody holds. -/
theorem Sound.not_setUp {P : Set Mem → Links Mem → Ends Mem → Prop} {Z : Nat → Prop} {s : Cache}
    (h : Sound P Z conf s) (hr : r ∈ s.refs) : ¬ s.SetUp r.cce := by
  rintro ⟨p, hp, hc⟩
  have havail := (h.inv.setups.entry p hp).1.2
  rw [hc] at havail
  exact refsOn_pos hr havail

/-- What others do does not take the chunk from under a caller. -/
theorem Watched.step {e : LoadedEvent} (h : LoadedInv conf cs vol s) (hw : Watched cs vol addr r s)
    (hs : (others conf cs vol (orderly conf) r).Step s e s') : Watched cs vol addr r s' := by
  obtain ⟨hs, htouch⟩ := Machine.restrict_step.1 hs
  obtain ⟨hs, ho⟩ := Machine.restrict_step.1 hs
  have hentry := h.owned.sound.held hw.held
  cases e with
  | store m b =>
      obtain ⟨hwrite, hn⟩ := hs
      obtain rfl := Except.ok.inj hn
      refine ⟨hw.held, hw.mine, hw.names, fun t ht hfly hret => ?_⟩
      refine (hw.done t ht hfly hret).congr rfl rfl (Function.update_of_ne ?_ _ _)
      rintro rfl
      -- the request is done, and a blank buffer has one reference only
      have hdone : s.cache.aioIsDone r.tok = true := by
        rw [ht]
        simpa [Cache.aioIsDone] using hfly
      obtain hbusy | hset | ⟨r', hr', hc, hb⟩ := hwrite r.cce hentry rfl
      · exact hbusy ((h.owned.sound.toks.isDone hw.held).1 hdone)
      · exact h.owned.sound.not_setUp hw.held hset
      · have hsame := (h.owned.blankRefs r' hr' hb).2 r hw.held hc.symm
        rw [← hsame, hw.mine] at hb
        cases hb
  | call e =>
      obtain ⟨hstep, hdata⟩ := loaded_call hs
      have hkeep : e ≠ .release r ∧ e ≠ .ioabort r := by
        constructor
        · rintro rfl
          exact (of_decide_eq_false htouch) rfl
        · rintro rfl
          exact (of_decide_eq_false htouch) rfl
      obtain ⟨-, ha, hb, -⟩ := h.kept hw.held hstep ho hkeep
      have hrec := (h.owned.step hstep ho).2.2
      refine ⟨hrec.stays hw.held htouch, hw.mine, ha.trans hw.names, fun t ht hfly hret => ?_⟩
      obtain ⟨htok, huser, -⟩ := h.owned.sound.toks.refTok r hw.held t ht
      by_cases hcomplete : ∃ k ret, e = .complete k ret
      · obtain ⟨k, ret, rfl⟩ := hcomplete
        obtain ⟨⟨-, hk, ⟨c, hcb⟩, -⟩, hn⟩ := hstep
        obtain ⟨hc, hchunk⟩ := h.request hk hcb ho.1
        by_cases hrc : r.cce = c
        · -- this completion notifies the caller
          subst hrc
          have hnew := (hrec.2 r.cce hcb).2 t (mem_toksOn.2 ⟨r, hw.held, rfl, ht⟩)
          rw [hnew] at hret
          have hok : 0 ≤ ret := by
            by_contra hneg
            simp only [if_pos (not_le.1 hneg)] at hret
            exact hneg hret
          exact HoldsChunk.delivered hcb hchunk hok ha hb hdata
        · have hsame := (complete_valid h.owned.sound hk hcb ho.1 hn).2 r hw.held t ht hrc
          rw [hsame] at hfly hret
          refine (hw.done t ht hfly hret).congr ha hb ?_
          rw [hdata]
          exact deliver_other h.owned.sound.inv.memory hcb hc hentry hrc
      · have hno : ∀ k ret, e ≠ .complete k ret := fun k ret he => hcomplete ⟨k, ret, he⟩
        have hsame := (valid_step h.owned.sound hstep hno).2 t htok huser
        rw [hsame] at hfly hret
        refine (hw.done t ht hfly hret).congr ha hb ?_
        rw [hdata, deliver_same hno]

/-- A whole wait. -/
theorem Watched.run {es : List LoadedEvent} (h : LoadedInv conf cs vol s) (hw : Watched cs vol addr r s)
    (hrun : (others conf cs vol (orderly conf) r).Run s es s') :
    LoadedInv conf cs vol s' ∧ Watched cs vol addr r s' := by
  apply hrun.invariant (I := fun u => LoadedInv conf cs vol u ∧ Watched cs vol addr r u) _ ⟨h, hw⟩
  intro u e u' hu hstep
  exact ⟨hu.1.step (Machine.restrict_step.1 hstep).1, hu.2.step hu.1 hstep⟩

end Loaded

end Minipython.Shfs
