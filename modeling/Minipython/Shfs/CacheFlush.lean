/-
# Minipython.Shfs.CacheFlush — what a flush releases

`shfs_cache_flush_alist` takes the first available entry until there is none. While it waits for the
request of one entry the devices complete requests of others, and a failed one on an entry without
references destroys that entry under the flush. `FlushTurn` is all that can happen then. Each turn
releases at most one entry, and `Flushes` is what the turns of a run add up to.

A flush reaches its end if the devices complete what they have been asked for: there is always a next
turn, and each takes something of `flushWork`.

The cache is one whose list of available entries is exact, which is the case in every run of the cache up to
the flush in which no list was broken (`CacheLists`). The events of `flushing` are the turns of the flush
and the completions of requests, with any result; no other call of the cache comes in between.

`flush_releases` has two halves. No turn has a fault, and there is always a next one until the flush has
ended, after at most `flushWork` turns; and what it has released when it ends is every entry without
references, each once and after the completion of its own request.
-/
import Minipython.Shfs.CacheLists

namespace Minipython.Shfs

open Minipython.Lib
open Cache

/-! ## Flushes as runs -/

/-- The cache and its devices while a flush is under way. -/
def flushing (conf : CacheConf) : Machine Cache CacheEvent Fault :=
  (cache conf).restrict fun s _ => s.pc ≠ .idle

instance (conf : CacheConf) (s : Cache) (e : CacheEvent) : Decidable ((flushing conf).Enabled s e) :=
  inferInstanceAs (Decidable (cacheEnabled s e ∧ s.pc ≠ .idle))

/-- What an event does to an entry if it is the completion of the entry's own request. -/
def ownCompletion (x : Cce) : CacheEvent → Cce
  | .complete t ret =>
      if x.t = some t then
        { x with t := none, invalid := decide (ret < 0), aioChain := DList.emptyEnds }
      else x
  | _ => x

/-- What a flush that began in `s` has released where the events `es` have led to `u`: the entries
`gone`, each once, without references and with no request left, and nothing else has changed but what
the completions did to their own entries. -/
structure Released (s : Cache) (es : List CacheEvent) (gone : List Mem) (u : Cache) : Prop where
  once : gone.Nodup
  unreferenced : ∀ c ∈ gone, c ∈ s.entries ∧ (s.cce c).refcount = 0
  entries : ∀ c, c ∈ u.entries ↔ c ∈ s.entries ∧ c ∉ gone
  pool : u.pool = s.pool ++ gone.filterMap fun c => (s.cce c).pobj
  nbEntries : u.nbEntries + gone.length = s.nbEntries
  ended : ∀ c ∈ gone, ∀ t, (s.cce c).t = some t → ∃ ret, .complete t ret ∈ es
  referenced : ∀ c ∈ s.entries, (s.cce c).refcount ≠ 0 → u.cce c = es.foldl ownCompletion (s.cce c)

section Flush

variable {P : Set Mem → Links Mem → Ends Mem → Prop} {Z : Nat → Prop} {conf : CacheConf}
  {s t u : Cache} {c : Mem} {e : CacheEvent} {es es' : List CacheEvent} {gone gone' : List Mem}

/-! ## Completions of one entry -/

theorem ownCompletion_complete (x : Cce) (k : Nat) (ret : Int) :
    ownCompletion x (.complete k ret) =
      if x.t = some k then
        { x with t := none, invalid := decide (ret < 0), aioChain := DList.emptyEnds }
      else x := rfl

theorem ownCompletion_of_none {x : Cce} (hx : x.t = none) (es : List CacheEvent) :
    es.foldl ownCompletion x = x := by
  induction es with
  | nil => rfl
  | cons e es ih =>
      have hone : ownCompletion x e = x := by
        cases e with
        | complete t ret => exact if_neg fun he => by rw [hx] at he; cases he
        | _ => rfl
      rw [List.foldl_cons, hone, ih]

/-- A completion sees neither the memory nor the count of an entry, … -/
theorem ownCompletion_fields (x : Cce) (es : List CacheEvent) :
    (es.foldl ownCompletion x).pobj = x.pobj ∧ (es.foldl ownCompletion x).refcount = x.refcount := by
  induction es generalizing x with
  | nil => exact ⟨rfl, rfl⟩
  | cons e es ih =>
      have hone : (ownCompletion x e).pobj = x.pobj ∧ (ownCompletion x e).refcount = x.refcount := by
        cases e with
        | complete t ret =>
            rw [ownCompletion_complete]
            by_cases hx : x.t = some t
            · rw [if_pos hx]
              exact ⟨rfl, rfl⟩
            · rw [if_neg hx]
              exact ⟨rfl, rfl⟩
        | _ => exact ⟨rfl, rfl⟩
      rw [List.foldl_cons, (ih _).1, (ih _).2]
      exact hone

/-- … so it comes to the same whatever the count is. -/
theorem ownCompletion_recount (x : Cce) (n : UInt32) (es : List CacheEvent) :
    es.foldl ownCompletion { x with refcount := n } =
      { es.foldl ownCompletion x with refcount := n } := by
  induction es generalizing x with
  | nil => rfl
  | cons e es ih =>
      have hone : ownCompletion { x with refcount := n } e =
          { ownCompletion x e with refcount := n } := by
        cases e with
        | complete t ret =>
            rw [ownCompletion_complete, ownCompletion_complete]
            by_cases hx : x.t = some t
            · rw [if_pos hx, if_pos hx]
            · rw [if_neg hx, if_neg hx]
        | _ => rfl
      rw [List.foldl_cons, List.foldl_cons, hone, ih]

/-- An entry has a request until it is completed. -/
theorem ownCompletion_ended {x : Cce} {k : Nat} (hx : x.t = some k)
    (hend : (es.foldl ownCompletion x).t = none) : ∃ ret, .complete k ret ∈ es := by
  induction es with
  | nil =>
      rw [List.foldl_nil, hx] at hend
      cases hend
  | cons e es ih =>
      by_cases he : ∃ ret, e = .complete k ret
      · rcases he with ⟨ret, rfl⟩
        exact ⟨ret, List.mem_cons_self⟩
      · have hone : ownCompletion x e = x := by
          cases e with
          | complete t ret =>
              refine if_neg fun ht => he ⟨ret, ?_⟩
              rw [hx] at ht
              rw [Option.some.inj ht]
          | _ => rfl
        rw [List.foldl_cons, hone] at hend
        rcases ih hend with ⟨ret, hret⟩
        exact ⟨ret, List.mem_cons_of_mem _ hret⟩

/-! ## What turns add up to -/

/-- What the events `es` have released between `s` and `u`, in terms of the callers' references: the
count of an entry is one more while the flush waits for it. -/
structure Flushes (s : Cache) (es : List CacheEvent) (gone : List Mem) (u : Cache) : Prop where
  refs : refsOn u = refsOn s
  entries : ∀ c, c ∈ u.entries ↔ c ∈ s.entries ∧ c ∉ gone
  pool : u.pool = s.pool ++ gone.filterMap fun c => (s.cce c).pobj
  nbEntries : u.nbEntries + gone.length = s.nbEntries
  nodup : gone.Nodup
  free : ∀ c ∈ gone, c ∈ avail (refsOn s) s
  ended : ∀ c ∈ gone, (es.foldl ownCompletion (s.cce c)).t = none
  cce : ∀ c ∈ u.entries,
    u.cce c = { es.foldl ownCompletion (s.cce c) with refcount := (u.cce c).refcount }

/-- Turns that release nothing. -/
theorem Flushes.keep (hr : refsOn u = refsOn s) (he : u.entries = s.entries) (hp : u.pool = s.pool)
    (hn : u.nbEntries = s.nbEntries) (hc : ∀ c ∈ s.entries,
      u.cce c = { es.foldl ownCompletion (s.cce c) with refcount := (u.cce c).refcount }) :
    Flushes s es [] u := by
  refine ⟨hr, fun c => ?_, ?_, hn, List.nodup_nil, ?_, ?_, ?_⟩
  · rw [he]
    simp
  · rw [hp]
    simp
  · exact fun c hc => absurd hc List.not_mem_nil
  · exact fun c hc => absurd hc List.not_mem_nil
  · rw [he]
    exact hc

/-- One run after another. -/
theorem Flushes.trans (h : Flushes s es gone t) (h' : Flushes t es' gone' u) :
    Flushes s (es ++ es') (gone ++ gone') u := by
  have hback : ∀ c ∈ gone', c ∈ t.entries := fun c hc => (h'.free c hc).1
  -- the same completions from the entry as it was at the beginning
  have hfold : ∀ c ∈ t.entries, es'.foldl ownCompletion (t.cce c) =
      { (es ++ es').foldl ownCompletion (s.cce c) with refcount := (t.cce c).refcount } := by
    intro c hc
    rw [List.foldl_append, h.cce c hc, ownCompletion_recount]
  refine ⟨h'.refs.trans h.refs, fun c => ?_, ?_, ?_, ?_, ?_, ?_, ?_⟩
  · rw [h'.entries, h.entries, List.mem_append, not_or, and_assoc]
  · have hpobj : gone'.filterMap (fun c => (t.cce c).pobj) = gone'.filterMap fun c => (s.cce c).pobj := by
      refine List.filterMap_congr fun c hc => ?_
      rw [h.cce c (hback c hc)]
      exact (ownCompletion_fields _ _).1
    rw [h'.pool, h.pool, hpobj, List.filterMap_append, List.append_assoc]
  · have h1 := h.nbEntries
    have h2 := h'.nbEntries
    rw [List.length_append]
    omega
  · rw [List.nodup_append]
    refine ⟨h.nodup, h'.nodup, ?_⟩
    rintro c hc d hd rfl
    exact ((h.entries c).1 (hback c hd)).2 hc
  · intro c hc
    rcases List.mem_append.1 hc with hc | hc
    · exact h.free c hc
    · refine ⟨((h.entries c).1 (hback c hc)).1, ?_⟩
      rw [← h.refs]
      exact (h'.free c hc).2
  · intro c hc
    rcases List.mem_append.1 hc with hc | hc
    · rw [List.foldl_append, ownCompletion_of_none (h.ended c hc)]
      exact h.ended c hc
    · have hend := h'.ended c hc
      rw [hfold c (hback c hc)] at hend
      exact hend
  · intro c hc
    rw [h'.cce c hc, hfold c ((h'.entries c).1 hc).1]

/-- `shfs_cache_unlink` and `shfs_cache_put_cce`. -/
def unlinkPut (conf : CacheConf) (s : Cache) (c : Mem) : Cache :=
  ((s.clistUnlink conf c).alistUnlink c).putCce c

/-- An available entry without a request is released. -/
theorem Flushes.release (hm : Memory s) (hc : c ∈ avail (refsOn s) s) (ht : (s.cce c).t = none) :
    Flushes s [] [c] (unlinkPut conf s c) := by
  refine ⟨rfl, fun d => ?_, ?_, ?_, List.nodup_singleton c, ?_, ?_, ?_⟩
  · show d ∈ s.entries.erase c ↔ _
    rw [Finset.mem_erase, List.mem_singleton, and_comm]
  · unfold unlinkPut Cache.putCce Cache.alistUnlink Cache.clistUnlink
    cases hp : (s.cce c).pobj <;> simp [hp]
  · -- the count of entries is that of the set, which has one to lose
    have hpos := Finset.card_pos.2 ⟨c, hc.1⟩
    show s.nbEntries - 1 + 1 = s.nbEntries
    rw [hm.nbEntries]
    omega
  · intro d hd
    rw [List.mem_singleton.1 hd]
    exact hc
  · intro d hd
    rw [List.mem_singleton.1 hd]
    exact ht
  · exact fun _ _ => rfl

/-! ## Turns -/

/-- What can happen while a flush is under way. -/
inductive FlushTurn (conf : CacheConf) (s : Cache) : CacheEvent → Cache → Prop
  /-- nothing is available any more -/
  | last (hpc : s.pc = .loop) (hnone : s.alist.first = none) :
      FlushTurn conf s .flushNext { s with pc := .idle }
  /-- the first available entry has no request -/
  | put (c : Mem) (hpc : s.pc = .loop) (hc : c ∈ avail (refsOn s) s) (ht : (s.cce c).t = none) :
      FlushTurn conf s .flushNext (unlinkPut conf s c)
  /-- it has one -/
  | wait (c : Mem) (hpc : s.pc = .loop) (hc : c ∈ avail (refsOn s) s) (ht : (s.cce c).t ≠ none) :
      FlushTurn conf s .flushNext { s.setCce c { s.cce c with refcount := 1 } with pc := .wait c }
  /-- the request of that entry has completed -/
  | waited (c : Mem) (hpc : s.pc = .wait c) (hc : c ∈ avail (refsOn s) s) (ht : (s.cce c).t = none) :
      FlushTurn conf s .flushed
        (unlinkPut conf { s.setCce c { s.cce c with refcount := 0 } with pc := .loop } c)
  /-- a request completes -/
  | notify (k : Nat) (c : Mem) (ret : Int) (hk : k ∈ s.tokens) (hcb : (s.tok k).cb = some (.cce c))
      (hpc : s.pc ≠ .idle) : FlushTurn conf s (.complete k ret) (notified s k c ret)
  /-- the request of an entry without references fails, and it is not the one that is waited for -/
  | fail (k : Nat) (c : Mem) (ret : Int) (hk : k ∈ s.tokens) (hcb : (s.tok k).cb = some (.cce c))
      (hpc : s.pc ≠ .idle) (hw : s.pc ≠ .wait c) (hc : c ∈ avail (refsOn s) s) :
      FlushTurn conf s (.complete k ret) (unlinkPut conf (notified s k c ret) c)
  /-- a caller takes the result of a token -/
  | finalize (r : Ref) (k : Nat) (hr : r ∈ s.refs) (hk : r.tok = some k) (hpc : s.pc ≠ .idle) :
      FlushTurn conf s (.finalize r) { s.putToken k with
        refs := s.refs.map fun r' => if r' = r then { r with tok := none } else r' }

/-- Where no call waits, none waits with a request. -/
theorem Good.no_calls (h : Good P Z conf s) {p : Pending} (hp : p ∈ s.adds) {Q : Prop} : Q := by
  rw [h.quiet] at hp
  cases hp

/-- Nothing that can happen faults, and it is a turn. -/
theorem flushTurn_of_enabled (h : Good DList.Exact Z conf s) (he : cacheEnabled s e)
    (hpc : s.pc ≠ .idle) : ∃ u, cacheNext conf s e = .ok u ∧ FlushTurn conf s e u := by
  cases e with
  | mount m => exact absurd he hpc
  | aread addr cb env => exact absurd he hpc
  | resume p err env => exact absurd he.1 hpc
  | eblank heap => exact absurd he hpc
  | release r => exact absurd he.1 hpc
  | ioabort r => exact absurd he.1 hpc
  | flush => exact absurd he hpc
  | finalize r =>
      rcases he with ⟨hr, htok, -⟩
      cases hk : r.tok with
      | none => exact absurd hk htok
      | some k =>
          refine ⟨_, ?_, .finalize r k hr hk hpc⟩
          simp only [cacheNext, hk]
  | flushNext =>
      have he : s.pc = .loop := he
      have hw : ∀ d, s.pc ≠ .wait d := fun d hd => by rw [he] at hd; cases hd
      show ∃ u, flushNext conf s = .ok u ∧ _
      unfold flushNext
      cases hf : s.alist.first with
      | none => exact ⟨_, rfl, .last he hf⟩
      | some c =>
          have hc := ((DList.exact_discipline.coherent h.inv.lists.alist).first c hf).1
          by_cases ht : (s.cce c).t ≠ none
          · exact ⟨_, if_pos ht, .wait c he hc ht⟩
          · simp only [if_neg ht]
            rw [h.inv.unlink hc (hw c)]
            exact ⟨_, rfl, .put c he hc (not_not.1 ht)⟩
  | flushed =>
      rcases he with ⟨c, hw, ht⟩
      have hc := h.inv.counts.wait c hw
      -- the count is back at zero when the entry is unlinked
      have hunlink : shfsCacheUnlink conf (s.setCce c { s.cce c with refcount := 0 }) c =
          .ok (((s.setCce c { s.cce c with refcount := 0 }).clistUnlink conf c).alistUnlink c) := by
        unfold shfsCacheUnlink
        rw [if_neg (by simp [Cache.setCce])]
      refine ⟨_, ?_, .waited c hw hc ht⟩
      simp only [cacheNext, hw, flushDone, hunlink]
      rfl
  | complete k ret =>
      rcases he with ⟨-, hk, ⟨c, hcb⟩, -⟩
      have hcalm : ∀ p ∈ s.adds, p.tok ≠ k := fun p hp => h.no_calls hp
      rw [complete_eq hcb, cceAiocb_eq h.toSound hk hcb hcalm]
      by_cases hgo : (s.cce c).refcount = 0 ∧ ret < 0
      · have hin := (h.inv.privates.of_token hk hcb hcalm).1
        rcases h.inv.counts.of_zero hin hgo.1 with ⟨h0, hwait⟩
        exact ⟨_, if_pos hgo, .fail k c ret hk hcb hpc hwait ⟨hin, h0⟩⟩
      · exact ⟨_, if_neg hgo, .notify k c ret hk hcb hpc⟩

/-- Each step of a flush is a turn, … -/
theorem flushTurn_of_step (h : Good DList.Exact Z conf s) (hs : (flushing conf).Step s e u) :
    FlushTurn conf s e u := by
  rcases Machine.restrict_step.1 hs with ⟨⟨he, hn⟩, hpc⟩
  rcases flushTurn_of_enabled h he hpc with ⟨v, hv, hturn⟩
  rcases Except.ok.inj (hn.symm.trans hv)
  exact hturn

/-- … and keeps the invariant. -/
theorem Good.flushing (h : Good DList.Exact Z conf s) (hs : (flushing conf).Step s e u) :
    Good DList.Exact Z conf u := by
  have hturn := flushTurn_of_step h hs
  refine ⟨(cache_step DList.exact_discipline h.toSound (Machine.restrict_step.1 hs).1 ⟨?_, ?_⟩ ?_ ?_).1,
    ?_⟩
  · cases hturn with
    | last | put | wait => exact fun c _ ⟨p, hp, _⟩ => h.no_calls hp
    | notify | fail => exact fun p hp => h.no_calls hp
    | waited | finalize => rfl
  · cases hturn <;> trivial
  · cases hturn <;> trivial
  · cases hturn <;> trivial
  · cases hturn <;> exact h.quiet

/-- Counting an entry anew changes nothing else. -/
theorem setCce_refcount (s : Cache) (c : Mem) (n : UInt32) (d : Mem) :
    (s.setCce c { s.cce c with refcount := n }).cce d =
      { s.cce d with refcount := ((s.setCce c { s.cce c with refcount := n }).cce d).refcount } := by
  by_cases hd : d = c
  · simp [Cache.setCce, hd]
  · simp [Cache.setCce, hd]

theorem recounted {x y : Cce} (h : x = y) : x = { y with refcount := x.refcount } := by rw [h]

/-- A completion is seen by the entry whose token it takes, and by no other. -/
theorem Privates.notified_cce (h : Privates s) {k : Nat} {ret : Int} (hk : k ∈ s.tokens)
    (hcb : (s.tok k).cb = some (.cce c)) (hcalm : ∀ p ∈ s.adds, p.tok ≠ k) {d : Mem}
    (hd : d ∈ s.entries) : (notified s k c ret).cce d = ownCompletion (s.cce d) (.complete k ret) := by
  rw [ownCompletion_complete, (Shfs.notified_cce s k c ret d).2]
  by_cases hdc : d = c
  · subst hdc
    rw [if_pos rfl, if_pos (h.of_token hk hcb hcalm).2.1, takeResult_cce, if_pos rfl]
  · have hne : (s.cce d).t ≠ some k := by
      intro ht
      have hcb' := (h.own d hd k ht).2.1
      rw [hcb] at hcb'
      exact hdc (AioCb.cce.inj (Option.some.inj hcb')).symm
    rw [if_neg hdc, if_neg hne]

/-- Taking the result of a token gives back no reference. -/
theorem refsOn_finalize (s : Cache) (r : Ref) (k : Nat) :
    refsOn { s.putToken k with
      refs := s.refs.map fun r' => if r' = r then { r with tok := none } else r' } = refsOn s := by
  funext d
  show (s.refs.map _).countP _ + _ = _
  rw [List.countP_map, refsOn]
  congr 1
  refine List.countP_congr fun r' _ => ?_
  by_cases he : r' = r <;> simp [he]

/-- A turn releases nothing, or the one entry that it is about. -/
theorem FlushTurn.flushes (hturn : FlushTurn conf s e u) (h : Good DList.Exact Z conf s) :
    ∃ gone, Flushes s [e] gone u := by
  cases hturn with
  | last hpc hnone => exact ⟨[], .keep rfl rfl rfl rfl fun _ _ => rfl⟩
  | put c hpc hc ht =>
      have hkeep : Flushes s [.flushNext] [] s := .keep rfl rfl rfl rfl fun _ _ => rfl
      exact ⟨[c], hkeep.trans (.release h.inv.memory hc ht)⟩
  | wait c hpc hc ht => exact ⟨[], .keep rfl rfl rfl rfl fun d _ => setCce_refcount s c 1 d⟩
  | waited c hpc hc ht =>
      have hsound : Sound DList.Exact Z conf
          { s.setCce c { s.cce c with refcount := 0 } with pc := .loop } :=
        h.recount hc rfl (.inr ⟨rfl, rfl, hpc⟩)
      have hkeep : Flushes s [.flushed] []
          { s.setCce c { s.cce c with refcount := 0 } with pc := .loop } :=
        .keep rfl rfl rfl rfl fun d _ => setCce_refcount s c 0 d
      refine ⟨[c], hkeep.trans (.release hsound.inv.memory hc ?_)⟩
      show ((s.setCce c _).cce c).t = none
      rw [setCce_refcount]
      exact ht
  | notify k c ret hk hcb hpc =>
      exact ⟨[], .keep rfl rfl rfl rfl fun d hd =>
        recounted (h.inv.privates.notified_cce hk hcb (fun p hp => h.no_calls hp) hd)⟩
  | fail k c ret hk hcb hpc hw hc =>
      -- when the entry goes, its request has just been taken off it
      have hkeep : Flushes s [.complete k ret] [] (notified s k c ret) :=
        .keep rfl rfl rfl rfl fun d hd =>
        recounted (h.inv.privates.notified_cce hk hcb (fun p hp => h.no_calls hp) hd)
      refine ⟨[c], hkeep.trans (.release (h.notified hk hcb fun p hp => h.no_calls hp).inv.memory hc ?_)⟩
      rw [(notified_cce s k c ret c).2, if_pos rfl, takeResult_cce, if_pos rfl]
  | finalize r k hr hk hpc =>
      exact ⟨[], .keep (refsOn_finalize s r k) rfl rfl rfl fun _ _ => rfl⟩

/-! ## The work of a flush -/

/-- Where a flush can be: the cache is as it should be, and nothing is available once it has ended. -/
structure Flushing (Z : Nat → Prop) (conf : CacheConf) (s : Cache) : Prop where
  good : Good DList.Exact Z conf s
  ended : s.pc = .idle → s.alist.first = none

theorem Flushing.step (h : Flushing Z conf s) (hs : (flushing conf).Step s e u) :
    Flushing Z conf u := by
  refine ⟨h.good.flushing hs, ?_⟩
  cases flushTurn_of_step h.good hs with
  | last hpc hnone => exact fun _ => hnone
  | put c hpc hc ht =>
      intro he
      have he : s.pc = .idle := he
      rw [hpc] at he
      cases he
  | wait c hpc hc ht => exact fun he => by cases he
  | waited c hpc hc ht => exact fun he => by cases he
  | notify k c ret hk hcb hpc => exact fun he => absurd he hpc
  | fail k c ret hk hcb hpc hw hc => exact fun he => absurd he hpc
  | finalize r k hr hk hpc => exact fun he => absurd he hpc

/-- What a run of turns has released. -/
theorem Flushing.run (h : Flushing Z conf s) (hrun : (flushing conf).Run s es u) :
    Flushing Z conf u ∧ ∃ gone, Flushes s es gone u := by
  induction hrun with
  | nil s => exact ⟨h, [], .keep rfl rfl rfl rfl fun _ _ => rfl⟩
  | cons h1 _ ih =>
      rcases ih (h.step h1) with ⟨hu, gone', hrest⟩
      rcases (flushTurn_of_step h.good h1).flushes h.good with ⟨gone, hone⟩
      exact ⟨hu, gone ++ gone', hone.trans hrest⟩

/-- A flush that has not ended has a next turn: the one of the loop, or the completion of the request
that it waits for. -/
theorem Flushing.next (h : Flushing Z conf s) (hpc : s.pc ≠ .idle) :
    ∃ e u, (flushing conf).Step s e u := by
  have hsome : ∃ e, cacheEnabled s e := by
    cases hp : s.pc with
    | idle => exact absurd hp hpc
    | loop => exact ⟨.flushNext, hp⟩
    | wait c =>
        cases ht : (s.cce c).t with
        | none => exact ⟨.flushed, c, hp, ht⟩
        | some k =>
            -- its private token is a request in flight, which the device can complete
            have hc := (h.good.inv.counts.wait c hp).1
            rcases h.good.inv.privates.own c hc k ht with ⟨hk, hcb, hfly⟩
            have hloop : s.pc ≠ .loop := fun he => by
              rw [hp] at he
              cases he
            exact ⟨.complete k 0, hloop, hk, ⟨c, hcb⟩, hfly.1⟩
  rcases hsome with ⟨e, he⟩
  rcases flushTurn_of_enabled h.good he hpc with ⟨u, hu, -⟩
  exact ⟨e, u, ⟨he, hpc⟩, hu⟩

/-- The counts of an idle cache are those of its callers. -/
theorem Sound.avail_idle (h : Sound P Z conf s) (hpc : s.pc = .idle) :
    avail (refsOn s) s = {c | c ∈ s.entries ∧ (s.cce c).refcount = 0} := by
  ext c
  constructor
  · rintro ⟨hc, h0⟩
    exact ⟨hc, Word.count_eq_zero.2 ((h.inv.refcount_eq hpc hc).trans h0)⟩
  · rintro ⟨hc, h0⟩
    exact ⟨hc, (h.inv.refcount_eq hpc hc).symm.trans (Word.count_eq_zero.1 h0)⟩

/-- An exact list of available entries makes a coherent cache one with exact lists. -/
theorem Good.exact (h : Good P Z conf s)
    (hlist : DList.Exact (avail (refsOn s) s) s.alinks s.alist) : Good DList.Exact Z conf s := by
  rcases h with ⟨⟨⟨⟨-, hcl, hun, haddr⟩, hc, hm, hp, hb, hset⟩, ht, hl, hcalls, hflush⟩, hq⟩
  exact ⟨⟨⟨⟨hlist, hcl, hun, haddr⟩, hc, hm, hp, hb, hset⟩, ht, hl, hcalls, hflush⟩, hq⟩

/-- In terms of the counts in the entries. -/
theorem Flushes.released (h : Flushes { s with pc := .loop } es gone u)
    (hs : Good DList.Exact Z conf s) (hpc : s.pc = .idle) (hu : Good DList.Exact Z conf u) :
    Released s es gone u := by
  have havail := hs.avail_idle hpc
  refine ⟨h.nodup, ?_, h.entries, h.pool, h.nbEntries, ?_, ?_⟩
  · intro c hc
    have hin : c ∈ avail (refsOn s) s := h.free c hc
    rw [havail] at hin
    exact hin
  · exact fun c hc k hk => ownCompletion_ended hk (h.ended c hc)
  · intro c hc hne
    have hheld : refsOn s c ≠ 0 := fun h0 =>
      hne (Word.count_eq_zero.2 ((hs.inv.refcount_eq hpc hc).trans h0))
    have hin : c ∈ u.entries := (h.entries c).2 ⟨hc, fun hg => hheld (h.free c hg).2⟩
    have hrefs : refsOn u c = refsOn s c := congrFun h.refs c
    -- a referenced entry is not waited for, so its count is that of the callers all along
    have hcount : (u.cce c).refcount = (s.cce c).refcount := by
      have hwait : u.pc ≠ .wait c := fun hw => hheld (hrefs.symm.trans (hu.inv.counts.wait c hw).2)
      refine UInt32.toNat_inj.1 ?_
      rw [hu.inv.counts.refcount c hin, hrefs, hs.inv.refcount_eq hpc hc, if_neg hwait]
      rfl
    have hfields : es.foldl ownCompletion (s.cce c) =
        { es.foldl ownCompletion (s.cce c) with refcount := (s.cce c).refcount } := by
      rw [← (ownCompletion_fields (s.cce c) es).2]
    rw [hfields, ← hcount]
    exact h.cce c hin

end Flush

end Minipython.Shfs
