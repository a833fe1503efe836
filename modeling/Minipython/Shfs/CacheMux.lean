/-
# Minipython.Shfs.CacheMux — one device request for any number of callers

Every token that a read hands out is notified once, by the completion of the request of its entry, or
aborted once, or still on the chain of an entry whose request is in flight. The assertions that guard
this are met in no orderly run.

`shfs_cache_add` assigns `cce->t` only when `shfs_aread_chunk` has returned. That function waits where a
device has no free slot, and if the parts of the request that it has handed over are done by then,
`_cce_aiocb` runs with `t != cce->t`. The other way to an assertion is a count that has wrapped:
`shfs_cache_release` of one of `2 ^ 32` references finds none.

`TokInv` ties references, tokens and chains together: the tokens on the chain of an entry are those that
were handed out with its references, in that order. The completion of a request takes the chain of its entry
and notifies it from the front, once each; `shfs_cache_release_ioabort` takes one token off. `Notifies` is
what a step may do: a completion notifies the tokens of its entry with the result of the request, and no
other step notifies anybody.

The runs are `Orderly`: nobody takes the buffer of a call that waits, no part of its request is done before
the whole of it was handed over, no flush comes to it, and no count is full. Callers keep the contract of
the header; one whose token is pending gives its reference back with `shfs_cache_release_ioabort`.
-/
import Minipython.Shfs.CacheComplete

namespace Minipython.Shfs

open Minipython.Lib
open Cache

/-- The token with the serial number `n` was notified, once, and not aborted. -/
def NotifiedOnce (s : Cache) (n : Nat) : Prop :=
  s.log.countP (isNotified n) = 1 ∧ s.log.count (.aborted n) = 0

/-- It was aborted, once, and not notified. -/
def AbortedOnce (s : Cache) (n : Nat) : Prop :=
  s.log.countP (isNotified n) = 0 ∧ s.log.count (.aborted n) = 1

/-- It is on the chain of an entry whose request is in flight, and was neither notified nor aborted. -/
def Waits (s : Cache) (n : Nat) : Prop :=
  (s.log.countP (isNotified n) = 0 ∧ s.log.count (.aborted n) = 0) ∧
    ∃ r ∈ s.refs, ∃ k t, r.tok = some k ∧ (s.tok k).serial = n ∧ (s.tok k).infly ≠ 0 ∧
      (s.cce r.cce).t = some t ∧ (s.tok t).infly ≠ 0 ∧
      ∃ l, DList.Rep s.tlinks (s.cce r.cce).aioChain l ∧ k ∈ l

/-- Only a completion notifies: the tokens on the chain of its entry, in the order of the chain, which is
that in which they were handed out, each with the result of the request. -/
def Notifies (s : Cache) (e : CacheEvent) (s' : Cache) : Prop :=
  match e with
  | .complete t ret => ∃ c l, (s.tok t).cb = some (.cce c) ∧ DList.Rep s.tlinks (s.cce c).aioChain l ∧
      (l.Pairwise fun k k' => (s.tok k).serial < (s.tok k').serial) ∧
      s'.log = s.log ++ l.map (fun k =>
        .notified (s.tok k).serial (if ret < 0 then ret else 0) (s.tok k).cb) ∧
      ∀ k ∈ l, (s'.tok k).infly = 0 ∧ (s'.tok k).ret = if ret < 0 then ret else 0
  | _ => ∀ n ret cb, .notified n ret cb ∈ s'.log → .notified n ret cb ∈ s.log

section Mux

variable {P : Set Mem → Links Mem → Ends Mem → Prop} {Z : Nat → Prop} {conf : CacheConf}
  {s s' : Cache} {e : CacheEvent} {c : Mem} {α β : Type}

/-! ## Tokens -/

/-- A token that was handed out met one of three fates. -/
theorem Sound.fate (h : Sound P Z conf s) {n : Nat} (hn : .issued n ∈ s.log) :
    NotifiedOnce s n ∨ AbortedOnce s n ∨ Waits s n := by
  have hone : s.log.count (.issued n) = 1 := by
    have := List.count_pos_iff.2 hn
    have := h.log.once n
    omega
  have hsum := h.log.settled n
  rw [hone] at hsum
  by_cases howed : owed s n = 0
  · rw [howed] at hsum
    by_cases h0 : s.log.countP (isNotified n) = 0
    · exact .inr (.inl ⟨h0, by omega⟩)
    · exact .inl ⟨by omega, by omega⟩
  · refine .inr (.inr ⟨⟨by omega, by omega⟩, ?_⟩)
    obtain ⟨r, hr, hp⟩ := List.countP_pos_iff.1 (Nat.pos_of_ne_zero howed)
    obtain ⟨rfl, hdone⟩ := of_decide_eq_true hp
    have ht : (s.cce r.cce).t ≠ none := fun ht => by
      rw [(h.toks.isDone hr).2 ht] at hdone
      cases hdone
    obtain ⟨t, ht'⟩ := Option.ne_none_iff_exists'.1 ht
    obtain ⟨k, hk, hfly⟩ := h.toks.pending r hr ht
    have hc := h.held hr
    have hchain := h.toks.chain r.cce hc
    rw [waiting, if_neg ht] at hchain
    exact ⟨r, hr, k, t, hk, (h.toks.refTok r hr k hk).2.2, hfly, ht',
      (h.inv.privates.own _ hc t ht').2.2.1, _, hchain, mem_toksOn.2 ⟨r, hr, rfl, hk⟩⟩

/-- Tokens on a chain are in the order in which they were handed out. -/
theorem TokInv.ordered (h : TokInv s) (c : Mem) :
    (toksOn s.refs c).Pairwise fun k k' => (s.tok k).serial < (s.tok k').serial := by
  unfold toksOn
  rw [List.pairwise_filterMap]
  refine (h.serials.sublist List.filter_sublist).imp_of_mem ?_
  intro r r' hr hr' hlt k hk k' hk'
  rw [(h.refTok r (List.mem_filter.1 hr).1 k hk).2.2, (h.refTok r' (List.mem_filter.1 hr').1 k' hk').2.2]
  exact hlt

/-- A call of `shfs_cache_aread` notifies nobody. -/
theorem Called.notifies (h : Called s s') (n : Nat) (ret : Int) (cb : Option AioCb)
    (hm : .notified n ret cb ∈ s'.log) : .notified n ret cb ∈ s.log := by
  rcases h with ⟨-, hlog⟩ | ⟨c, t, -, hlog⟩
  · exact hlog ▸ hm
  · rw [hlog, List.mem_append] at hm
    rcases hm with hm | hm
    · exact hm
    · split at hm
      · cases hm
      · cases List.mem_singleton.1 hm

/-- What a step does to the tokens. -/
theorem Recorded.notifies (h : Recorded s e s') (hg : Sound P Z conf s) (he : cacheEnabled s e)
    (ho : CalmEvent conf s e) :
    Notifies s e s' := by
  have hsame : s'.log = s.log → ∀ n ret cb, TokEvent.notified n ret cb ∈ s'.log →
      .notified n ret cb ∈ s.log := fun hl n ret cb hm => hl ▸ hm
  cases e with
  | complete t ret =>
      obtain ⟨-, ht, ⟨c, hcb⟩, -⟩ := he
      obtain ⟨hlog, htok⟩ := h.2 c hcb
      obtain ⟨hc, hct, -⟩ := hg.inv.privates.of_token ht hcb ho
      have hchain := hg.toks.chain c hc
      rw [waiting, if_neg (by rw [hct]; exact Option.some_ne_none t)] at hchain
      refine ⟨c, _, hcb, hchain, hg.toks.ordered c, hlog, fun k hk => ?_⟩
      rw [htok k hk]
      exact ⟨rfl, rfl⟩
  | aread addr cb env => exact h.notifies
  | resume p err env => exact h.notifies
  | eblank heap =>
      rcases h with ⟨-, hlog⟩ | ⟨c, -, -, hlog⟩
      · exact hsame hlog
      · exact hsame hlog
  | ioabort r =>
      intro n ret cb hm
      rw [h.2, List.mem_append] at hm
      rcases hm with hm | hm
      · exact hm
      · split at hm
        · cases hm
        · cases List.mem_singleton.1 hm
  | release r => exact hsame h.2
  | finalize r => exact hsame h.2
  | mount m => exact hsame h.2
  | flush => exact hsame h.2
  | flushNext => exact hsame h.2
  | flushed => exact hsame h.2

/-! ## Assertions -/

/-- No `BUG_ON` is met. -/
def NoBug (x : Except Fault α) : Prop := x ≠ .error .bugOn

theorem NoBug.ok (a : α) : NoBug (.ok a) := fun h => by cases h

theorem NoBug.bind {x : Except Fault α} {f : α → Except Fault β} (hx : NoBug x)
    (hf : ∀ a, x = .ok a → NoBug (f a)) : NoBug (x >>= f) := by
  cases x with
  | error e => exact fun h => hx (by cases h; rfl)
  | ok a => exact hf a rfl

theorem noBug_alistAppend (s : Cache) (c : Mem) : NoBug (s.alistAppend c) := by
  unfold Cache.alistAppend
  split
  · exact fun h => by cases h
  · exact .ok _

theorem noBug_clistAppend (s : Cache) (c : Mem) (addr : Nat) : NoBug (s.clistAppend conf c addr) := by
  unfold Cache.clistAppend
  simp only
  split
  · exact fun h => by cases h
  · exact .ok _

theorem noBug_unlink (s : Cache) (c : Mem) : NoBug (shfsCacheUnlink conf s c) := by
  unfold shfsCacheUnlink
  split
  · exact fun h => by cases h
  · exact .ok _

theorem noBug_destroy (s : Cache) (c : Mem) : NoBug (shfsCacheDestroy conf s c) := by
  unfold shfsCacheDestroy
  split
  · exact (noBug_unlink s c).bind fun _ _ => .ok _
  · exact .ok _

theorem noBug_dropRef {gone : Cache → Except Fault Cache} (hg : ∀ s, NoBug (gone s)) (s : Cache)
    (c : Mem) : NoBug (s.dropRef c gone) := by
  unfold Cache.dropRef
  simp only
  split
  · exact hg _
  · exact .ok _

theorem noBug_addEnd (s : Cache) (c : Mem) (k addr : Nat) (err : Option Errno) :
    NoBug (shfsCacheAddEnd conf s c k addr err) := by
  cases err with
  | some e => exact .ok _
  | none => exact (noBug_clistAppend _ _ _).bind fun _ _ => .ok _

theorem noBug_add (s : Cache) (addr : Nat) (env : AddEnv) : NoBug (shfsCacheAdd conf s addr env) := by
  unfold shfsCacheAdd
  refine NoBug.bind ?_ fun y _ => ?_
  · unfold shfsCacheAddBuffer
    split
    · exact (noBug_alistAppend _ _).bind fun _ _ => .ok _
    · split
      · exact .ok _
      · exact (noBug_alistAppend _ _).bind fun _ _ => .ok _
  · rcases y with ⟨_ | c, s₁⟩
    · exact .ok _
    · show NoBug (shfsCacheAddRequest conf s₁ c addr env.io)
      unfold shfsCacheAddRequest
      simp only
      split
      · exact .ok _
      · exact .ok _
      · exact noBug_addEnd _ _ _ _ _

theorem noBug_readahead (addr : Nat) (env : Nat → AddEnv) (n i : Nat) (s : Cache) :
    NoBug (shfsCacheReadahead conf addr env n i s) := by
  induction n generalizing i s with
  | zero => exact .ok _
  | succ n ih =>
      rw [shfsCacheReadahead]
      split
      · exact .ok _
      · split
        · exact ih _ _
        · refine (noBug_add _ _ _).bind fun y _ => ?_
          rcases y with ⟨_ | c | ⟨c, k⟩, s₁⟩
          · exact .ok _
          · exact ih _ _
          · exact .ok _

theorem noBug_areadAhead (s : Cache) (addr : Nat) (cb : Option Nat) (c : Mem) (n i : Nat)
    (env : AreadEnv) : NoBug (shfsCacheAreadAhead conf s addr cb c n i env) := by
  refine (noBug_readahead _ _ _ _ _).bind fun y _ => ?_
  rcases y with ⟨_ | ⟨j, d, k⟩, s₁⟩
  · refine NoBug.bind ?_ fun _ _ => .ok _
    unfold shfsCacheAreadChain
    split
    · exact .ok _
    · split
      · exact (noBug_dropRef (fun s => noBug_alistAppend s c) _ _).bind fun _ _ => .ok _
      · exact .ok _
  · exact .ok _

theorem noBug_aread (s : Cache) (addr : Nat) (cb : Option Nat) (env : AreadEnv) :
    NoBug (shfsCacheAread conf s addr cb env) := by
  unfold shfsCacheAread
  split
  · exact .ok _
  split
  · exact .ok _
  refine NoBug.bind ?_ fun y _ => ?_
  · unfold shfsCacheGet
    split
    · exact .ok _
    · exact noBug_add _ _ _
  · rcases y with ⟨_ | c | ⟨c, k⟩, s₁⟩
    · exact .ok _
    · exact noBug_areadAhead _ _ _ _ _ _ _
    · exact .ok _

theorem noBug_resume (s : Cache) (p : Pending) (err : Option Errno) (env : AreadEnv) :
    NoBug (shfsCacheResume conf s p err env) := by
  refine (noBug_addEnd _ _ _ _ _).bind fun y _ => ?_
  rcases y with ⟨_ | c | ⟨c, k⟩, s₁⟩ <;> cases p.ahead with
  | none =>
      first
      | exact .ok _
      | exact noBug_areadAhead _ _ _ _ _ _ _
  | some z => exact noBug_areadAhead _ _ _ _ _ _ _

theorem noBug_eblank (s : Cache) (heap : Option (Nat × Nat)) : NoBug (shfsCacheEblank conf s heap) := by
  unfold shfsCacheEblank
  split
  · exact .ok _
  refine NoBug.bind ?_ fun y _ => ?_
  · unfold shfsCacheEblankBuffer
    split
    · exact .ok _
    · split
      · exact .ok _
      · exact (noBug_unlink _ _).bind fun _ _ => .ok _
  · rcases y with ⟨_ | c, s₁⟩ <;> exact .ok _

/-- The count of an entry that a caller holds is not zero. -/
theorem Sound.refcount_ne (h : Sound P Z conf s) {r : Ref} (hpc : s.pc = .idle) (hr : r ∈ s.refs) :
    (s.cce r.cce).refcount ≠ 0 := by
  intro h0
  refine refsOn_pos hr ?_
  rw [← h.inv.refcount_eq hpc (h.held hr)]
  exact Word.count_eq_zero.1 h0

/-- A caller that is done may release its reference. -/
theorem Sound.noBug_release (h : Sound P Z conf s) {r : Ref} (hpc : s.pc = .idle) (hr : r ∈ s.refs)
    (hdone : s.aioIsDone r.tok = true) : NoBug (shfsCacheRelease conf s r.cce) := by
  have hcount := h.refcount_ne hpc hr
  have ht : s.aioIsDone (s.cce r.cce).t = true := by
    rw [(h.toks.isDone hr).1 hdone]
    rfl
  unfold shfsCacheRelease
  rw [if_neg hcount, if_neg (by rw [ht]; simp)]
  refine noBug_dropRef (fun s => ?_) _ _
  split
  · exact noBug_alistAppend _ _
  · exact noBug_destroy _ _

/-- A caller may abort whenever it holds a reference. -/
theorem Sound.noBug_ioabort (h : Sound P Z conf s) {r : Ref} (hpc : s.pc = .idle) (hr : r ∈ s.refs) :
    NoBug (shfsCacheReleaseIoabort conf s r.cce r.tok) := by
  have hcount := h.refcount_ne hpc hr
  -- the caller has a token exactly while the request is in flight, so the two are done together
  have hboth : s.aioIsDone (s.cce r.cce).t = s.aioIsDone r.tok := by
    rw [Bool.eq_iff_iff, h.inv.privates.isDone (h.held hr), h.toks.isDone hr]
  have h1 : ¬(s.aioIsDone (s.cce r.cce).t = false ∧ r.tok = none) := by
    rintro ⟨hd, hn⟩
    rw [hboth, hn] at hd
    cases hd
  have h2 : ¬(s.aioIsDone (s.cce r.cce).t = true ∧ s.aioIsDone r.tok = false) := by
    rintro ⟨hd, hd'⟩
    rw [hboth, hd'] at hd
    cases hd
  unfold shfsCacheReleaseIoabort
  rw [if_neg hcount, if_neg h1, if_neg h2]
  refine noBug_dropRef (fun s => ?_) _ _
  split
  · exact noBug_destroy _ _
  · exact noBug_alistAppend _ _

/-- No calm event leads to a `BUG_ON`. -/
theorem Sound.noBug (h : Sound P Z conf s) (he : cacheEnabled s e) (ho : CalmEvent conf s e) :
    NoBug (cacheNext conf s e) := by
  cases e with
  | mount m => exact .ok _
  | aread addr cb env => exact (noBug_aread s addr cb env).bind fun _ _ => .ok _
  | resume p err env => exact (noBug_resume _ p err env).bind fun _ _ => .ok _
  | eblank heap =>
      refine (noBug_eblank s heap).bind fun y _ => ?_
      rcases y with ⟨_ | _, s₁⟩ <;> exact .ok _
  | release r => exact (h.noBug_release he.1 he.2.1 he.2.2).bind fun _ _ => .ok _
  | ioabort r => exact (h.noBug_ioabort he.1 he.2).bind fun _ _ => .ok _
  | finalize r =>
      simp only [cacheNext]
      split <;> exact .ok _
  | complete t ret =>
      obtain ⟨-, ht, ⟨c, hcb⟩, -⟩ := he
      rw [complete_eq hcb, cceAiocb_eq h ht hcb ho]
      split <;> exact .ok _
  | flush => exact .ok _
  | flushNext =>
      show NoBug (flushNext conf s)
      unfold flushNext
      split
      · exact .ok _
      · split
        · exact .ok _
        · exact (noBug_unlink _ _).bind fun _ _ => .ok _
  | flushed =>
      simp only [cacheNext]
      split
      · exact (noBug_unlink _ _).bind fun _ _ => .ok _
      · exact .ok _

/-- Tokens are multiplexed in every run in which no step gets in the way of a request that is being set up,
and no count of references wraps. A token that was handed out was notified once, or aborted once, or is
still on the chain of an entry whose request is in flight; only a completion notifies, the tokens of its
entry in their order; and no assertion fails. -/
theorem tokens_multiplexed {cce : Mem → Cce} {alinks clinks : Links Mem} {tok : Nat → AioToken}
    {tlinks : Links Nat} {es : List CacheEvent}
    (h : ((cache conf).restrict (Orderly conf)).Run (shfsAllocCache conf cce alinks clinks tok tlinks)
      es s) :
    (∀ n, .issued n ∈ s.log → NotifiedOnce s n ∨ AbortedOnce s n ∨ Waits s n) ∧
      (∀ e s', ((cache conf).restrict (Orderly conf)).Step s e s' → Notifies s e s') ∧
      ¬ ((cache conf).restrict (Orderly conf)).Faults s .bugOn := by
  have hg := cache_sound h
  refine ⟨fun n hn => hg.fate hn, fun e s' hs => ?_, ?_⟩
  · obtain ⟨hs, ho⟩ := Machine.restrict_step.1 hs
    have hrec := (cache_step DList.coherent_discipline hg hs ho (addrOk_any e) (hg.loseOk e)).2.2
    exact hrec.notifies hg hs.1 ho.1
  · rintro ⟨e, ⟨he, ho⟩, hbug⟩
    exact hg.noBug he ho.1 hbug

end Mux

/-- A read waits for a slot with part of its request handed over, and that part is done first. -/
theorem early_completion_bug : ∃ s, (cache tinyCache).Run tinyInit [waitEvent 5 0] s ∧
    (cache tinyCache).Faults s .bugOn := by
  have hexec : ((cache tinyCache).exec tinyInit [waitEvent 5 0]).any (fun s =>
      decide (cacheEnabled s (.complete 0 0)) &&
        match cacheNext tinyCache s (.complete 0 0) with
        | .error .bugOn => true
        | _ => false) = true := by decide
  obtain ⟨s, hrun, hs⟩ := Machine.Run.of_exec_any hexec
  obtain ⟨he, hbug⟩ := Bool.and_eq_true_iff.1 hs
  refine ⟨s, hrun, .complete 0 0, of_decide_eq_true he, ?_⟩
  show cacheNext tinyCache s (.complete 0 0) = .error .bugOn
  split at hbug
  · assumption
  · cases hbug

/-- Two callers wait for one chunk: the first, which waits for a slot before, aborts, and the second is
notified of the failure. -/
theorem tokens_multiplexed_pair : ∃ s, ((cache tinyCache).restrict (Orderly tinyCache)).Run tinyInit
      [waitEvent 5 0, .resume ⟨5, none, .pobj 0, 0, none⟩ none ⟨⟨none, .error .eio⟩,
        fun _ => ⟨none, .error .eio⟩, some 10⟩, readEvent 5 1 11,
        .ioabort ⟨.pobj 0, some 10, 0, false⟩, .complete 0 (-5)] s ∧
    s.log = [.issued 0, .issued 1, .aborted 0, .notified 1 (-5) none] ∧
    ∀ n, .issued n ∈ s.log → NotifiedOnce s n ∨ AbortedOnce s n ∨ Waits s n := by
  have hexec : (((cache tinyCache).restrict (Orderly tinyCache)).exec tinyInit [waitEvent 5 0,
      .resume ⟨5, none, .pobj 0, 0, none⟩ none ⟨⟨none, .error .eio⟩, fun _ => ⟨none, .error .eio⟩,
        some 10⟩, readEvent 5 1 11, .ioabort ⟨.pobj 0, some 10, 0, false⟩, .complete 0 (-5)]).any
      (fun s => s.log = [.issued 0, .issued 1, .aborted 0, .notified 1 (-5) none]) = true := by
    decide +kernel
  obtain ⟨s, hrun, hs⟩ := Machine.Run.of_exec_any hexec
  exact ⟨s, hrun, of_decide_eq_true hs, (tokens_multiplexed hrun).1⟩

end Minipython.Shfs
