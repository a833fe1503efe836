/-
# Minipython.Shfs.CacheCalm — what can come between a call of shfs_cache_add and its request

`shfs_cache_add` puts the entry of a new request among the available ones before `shfs_aread_chunk`, and
assigns `cce->t` and lists the address only when that returns. While it waits for a slot of a device the
entry looks like one to evict, and three things go wrong:

* another `shfs_cache_add` or `shfs_cache_eblank` takes the entry, its buffer and its list links;
* a flush takes it off both lists, on one of which it is not, and gives it back;
* the parts that are handed over complete, and `_cce_aiocb` finds `t != cce->t`.

A step in which none of these happens is calm. Besides, `refcount` has 32 bits, and a read of an entry
with `2 ^ 32 - 1` references takes its count to zero: `RefRoom` is the condition that a read does not.
A chunk that is asked for while its request is set up is added a second time (`AddsApart`).

Reading ahead can come to `shfs_cache_add` several times in one step, each time in another state
(`aheadAdds`, `eventAdds`), so these are conditions on the whole step.
-/
import Minipython.Shfs.Cache

namespace Minipython.Shfs

open Minipython.Lib
open Cache

/-- A buffer comes from the pool or the heap, or it is not one whose request is being set up. -/
def calmPick (s : Cache) (heap : Option (Nat × Nat)) : Bool :=
  (s.pickCce heap).isSome || s.findDone.all fun c => !decide (s.SetUp c)

/-- `A` holds wherever reading ahead comes to `shfs_cache_add`. -/
def aheadAdds (A : Cache → Nat → AddEnv → Bool) (conf : CacheConf) (addr : Nat) (env : Nat → AddEnv) :
    Nat → Nat → Cache → Bool
  | 0, _, _ => true
  | n + 1, i, s =>
      let addri := wrap64 (addr + i)
      if conf.volsize ≤ addri then true
      else
        match shfsCacheFind conf s addri with
        | some _ => aheadAdds A conf addr env n (i + 1) s
        | none => A s addri (env i) &&
            match shfsCacheAdd conf s addri (env i) with
            | .ok (.added _, s) => aheadAdds A conf addr env n (i + 1) s
            | _ => true

/-- `A` holds wherever the event comes to `shfs_cache_add`. -/
def eventAdds (A : Cache → Nat → AddEnv → Bool) (conf : CacheConf) (s : Cache) : CacheEvent → Bool
  | .aread addr _ env =>
      if s.mounted = false ∨ addr = 0 ∨ conf.volsize < addr then true
      else
        match shfsCacheFind conf s addr with
        | some c => aheadAdds A conf addr env.ahead conf.readahead 1 (s.takeRef c)
        | none => A s addr env.demand &&
            match shfsCacheAdd conf s addr env.demand with
            | .ok (.added c, s) => aheadAdds A conf addr env.ahead conf.readahead 1 (s.takeRef c)
            | _ => true
  | .resume p err env =>
      match shfsCacheAddEnd conf (s.goOn p) p.cce p.tok p.target err, p.ahead with
      | .ok (.added c, s), none => aheadAdds A conf p.addr env.ahead conf.readahead 1 (s.takeRef c)
      | .ok (.added _, s), some (_, i) =>
          aheadAdds A conf p.addr env.ahead (conf.readahead - i) (i + 1) s
      | _, _ => true
  | _ => true

/-- The event leaves the requests that are being set up alone. -/
def CalmEvent (conf : CacheConf) (s : Cache) : CacheEvent → Prop
  | .eblank heap => s.mounted = true → calmPick s heap = true
  | .complete t _ => ∀ p ∈ s.adds, p.tok ≠ t
  | .flushNext => ∀ c ∈ s.alist.first, ¬ s.SetUp c
  | e => eventAdds (fun s _ env => calmPick s env.heap) conf s e = true

/-- A read finds room in the count of the entry that it finds. -/
def RefRoom (conf : CacheConf) (s : Cache) : CacheEvent → Prop
  | .aread addr _ _ => ∀ c ∈ shfsCacheFind conf s addr, s.mounted = true → addr ≠ 0 →
      addr ≤ conf.volsize → (s.cce c).refcount.toNat + 1 < u32Size
  | _ => True

/-- No chunk is added while its request is being set up. -/
def AddsApart (conf : CacheConf) (s : Cache) (e : CacheEvent) : Prop :=
  eventAdds (fun s addr _ => decide (∀ p ∈ s.adds, p.target ≠ addr)) conf s e = true

/-- The operation is atomic: no call waits when it is over. -/
def Atomic (conf : CacheConf) (s : Cache) (e : CacheEvent) : Prop :=
  ∀ s' ∈ (cacheNext conf s e).toOption, s'.adds = []

/-- A calm event for which there is room. -/
def Orderly (conf : CacheConf) (s : Cache) (e : CacheEvent) : Prop := CalmEvent conf s e ∧ RefRoom conf s e

instance (conf : CacheConf) (s : Cache) (e : CacheEvent) : Decidable (CalmEvent conf s e) :=
  match e with
  | .eblank _ => inferInstanceAs (Decidable (_ → _ = true))
  | .complete t _ => inferInstanceAs (Decidable (∀ p ∈ s.adds, p.tok ≠ t))
  | .flushNext => inferInstanceAs (Decidable (∀ c ∈ s.alist.first, ¬ s.SetUp c))
  | .mount _ | .aread _ _ _ | .resume _ _ _ | .release _ | .ioabort _ | .finalize _ | .flush
  | .flushed => inferInstanceAs (Decidable (_ = true))

instance (conf : CacheConf) (s : Cache) (e : CacheEvent) : Decidable (RefRoom conf s e) :=
  match e with
  | .aread addr _ _ => inferInstanceAs (Decidable (∀ c ∈ shfsCacheFind conf s addr, _))
  | .mount _ | .resume _ _ _ | .eblank _ | .release _ | .ioabort _ | .finalize _ | .complete _ _
  | .flush | .flushNext | .flushed => inferInstanceAs (Decidable True)

instance (conf : CacheConf) (s : Cache) (e : CacheEvent) : Decidable (AddsApart conf s e) :=
  inferInstanceAs (Decidable (_ = true))

instance (conf : CacheConf) (s : Cache) (e : CacheEvent) : Decidable (Atomic conf s e) :=
  inferInstanceAs (Decidable (∀ s' ∈ _, _ = _))

instance (conf : CacheConf) (s : Cache) (e : CacheEvent) : Decidable (Orderly conf s e) :=
  inferInstanceAs (Decidable (_ ∧ _))

section Calm

variable {conf : CacheConf} {s s' : Cache} {c : Mem} {heap : Option (Nat × Nat)} {e : CacheEvent}

/-- An available entry is taken only if nobody sets up its request. -/
theorem calmPick_done (h : calmPick s heap = true) (hpick : s.pickCce heap = none)
    (hc : s.findDone = some c) : ¬ s.SetUp c := by
  unfold calmPick at h
  rw [hpick, hc] at h
  simpa using h

/-! ## Where no call waits -/

theorem alistAppend_adds (h : s.alistAppend c = .ok s') : s'.adds = s.adds := by
  unfold Cache.alistAppend at h
  split at h
  · cases h
  · rw [← Except.ok.inj h]

theorem clistAppend_adds {addr : Nat} (h : s.clistAppend conf c addr = .ok s') : s'.adds = s.adds := by
  unfold Cache.clistAppend at h
  simp only at h
  split at h
  · cases h
  · rw [← Except.ok.inj h]

theorem pickCce_adds (h : s.pickCce heap = some (c, s')) : s'.adds = s.adds := by
  unfold Cache.pickCce at h
  split at h
  · obtain ⟨-, rfl⟩ := Prod.mk.inj (Option.some.inj h)
    rfl
  · split at h
    · cases h
    · split at h
      · obtain ⟨-, rfl⟩ := Prod.mk.inj (Option.some.inj h)
        rfl
      · cases h

theorem addEnd_adds {t addr : Nat} {err : Option Errno} {x : AddRet}
    (h : shfsCacheAddEnd conf s c t addr err = .ok (x, s')) : s'.adds = s.adds := by
  cases err with
  | some e =>
      obtain ⟨-, rfl⟩ := Prod.mk.inj (Except.ok.inj h)
      rfl
  | none =>
      obtain ⟨u, happ, h⟩ := ok_of_bind h
      obtain ⟨-, rfl⟩ := Prod.mk.inj (Except.ok.inj h)
      have hadds := clistAppend_adds happ
      exact hadds

/-- `shfs_cache_add` is on behalf of one call and leaves the others that wait alone. -/
theorem add_adds {addr : Nat} {env : AddEnv} {x : AddRet}
    (h : shfsCacheAdd conf s addr env = .ok (x, s')) : s'.adds = s.adds := by
  obtain ⟨⟨b, s₁⟩, hbuf, hreq⟩ := ok_of_bind h
  have hbuffer : s₁.adds = s.adds := by
    rcases addBuffer_cases hbuf with ⟨-, rfl⟩ | ⟨c, u, -, hpick, happ⟩ | ⟨c, -, -, -, happ⟩
    · rfl
    · exact (alistAppend_adds happ).trans (pickCce_adds hpick)
    · have hadds := alistAppend_adds happ
      exact hadds
  rw [← hbuffer]
  cases b with
  | none =>
      obtain ⟨-, rfl⟩ := Prod.mk.inj (Except.ok.inj hreq)
      rfl
  | some d =>
      rcases addRequest_cases hreq rfl with ⟨e, -, rfl⟩ | ⟨t, -, ⟨-, rfl⟩ | hend⟩
      · rfl
      · rfl
      · have hadds := addEnd_adds hend
        exact hadds

section Quiet

variable {A : Cache → Nat → AddEnv → Bool}

theorem aheadAdds_of_quiet (hA : ∀ s addr env, s.adds = [] → A s addr env = true) {addr : Nat}
    {env : Nat → AddEnv} {n i : Nat} (h : s.adds = []) : aheadAdds A conf addr env n i s = true := by
  induction n generalizing i s with
  | zero => rfl
  | succ n ih =>
      unfold aheadAdds
      simp only
      split
      · rfl
      · split
        · exact ih h
        · rw [hA _ _ _ h, Bool.true_and]
          split
          · rename_i hadd
            exact ih ((add_adds hadd).trans h)
          · rfl

theorem eventAdds_of_quiet (hA : ∀ s addr env, s.adds = [] → A s addr env = true) (h : s.adds = []) :
    eventAdds A conf s e = true := by
  have href : ∀ {u : Cache} {d : Mem}, u.adds = [] → (u.takeRef d).adds = [] := by
    intro u d hu
    unfold Cache.takeRef
    split <;> exact hu
  cases e with
  | aread addr cb env =>
      simp only [eventAdds]
      split
      · rfl
      · split
        · exact aheadAdds_of_quiet hA (href h)
        · rw [hA _ _ _ h, Bool.true_and]
          split
          · rename_i hadd
            exact aheadAdds_of_quiet hA (href ((add_adds hadd).trans h))
          · rfl
  | resume p err env =>
      have hgo : (s.goOn p).adds = [] := by
        show s.adds.erase p = []
        rw [h]
        rfl
      simp only [eventAdds]
      split
      · rename_i hend _
        exact aheadAdds_of_quiet hA (href ((addEnd_adds hend).trans hgo))
      · rename_i hend _
        exact aheadAdds_of_quiet hA ((addEnd_adds hend).trans hgo)
      · rfl
  | _ => rfl

end Quiet

/-- Where no call waits, an event is calm and adds no chunk twice. -/
theorem calm_of_quiet (h : s.adds = []) : CalmEvent conf s e ∧ AddsApart conf s e := by
  have hno : ∀ {u : Cache}, u.adds = [] → ∀ d, ¬ u.SetUp d := by
    rintro u hu d ⟨p, hp, -⟩
    rw [hu] at hp
    cases hp
  have hpick : ∀ {u : Cache} {heap}, u.adds = [] → calmPick u heap = true := by
    intro u heap hu
    unfold calmPick
    cases hd : u.findDone with
    | none => exact Bool.or_true _
    | some d =>
        rw [Option.all_some, decide_eq_false (hno hu d)]
        exact Bool.or_true _
  refine ⟨?_, eventAdds_of_quiet (fun u addr _ hu => ?_) h⟩
  · have hadds : eventAdds (fun s _ env => calmPick s env.heap) conf s e = true :=
      eventAdds_of_quiet (fun _ _ _ hu => hpick hu) h
    cases e with
    | eblank heap => exact fun _ => hpick h
    | complete t ret =>
        intro p hp
        rw [h] at hp
        cases hp
    | flushNext => exact fun d _ => hno h d
    | _ => exact hadds
  · rw [decide_eq_true_eq, hu]
    exact fun p hp => by cases hp

end Calm

end Minipython.Shfs
