/-
# Minipython.Shfs.CacheRead — the file readers on the chunk cache (shfs_cache.h, shfs_fio.c)

`shfs_cache_read` tries to read until the cache has room, waits until its token is done, and hands out the
entry. The readers copy from its buffer and release it. Meanwhile other callers and the devices do with the
cache what they like, of the events that are allowed: they come in between two attempts, while an attempt
waits for a slot of a device, and while the token is awaited, as lists of events.

Where all events are orderly, a cached reader on the cache is the reader with outcomes of chunk reads
(`fioCacheReader_outcomes`), and these outcomes deliver the chunks that are asked for. So all four readers
store the file (`readers_store`), up to the one sum of theirs that is taken in 64 bits without a check:
`shfs_volchk_foff` adds the offset in the file to that of the file in its first chunk.

Where a call waits for a slot and another one takes its buffer, two requests are under way for one buffer,
and `cce->t` ends up with the older one. The caller of the newer one is notified when the older one is done,
with a return value of 0 and the chunk of somebody else in its buffer (`waiting_buffer_misread`).
-/
import Minipython.Shfs.CacheData
import Minipython.Shfs.FioRead

namespace Minipython.Shfs

open Minipython.Lib

/-- The return value for an error number. -/
def Errno.ret : Errno → ErrRet
  | .eio => .eio
  | .enoent => ⟨-2, by decide⟩
  | .ebusy => ⟨-16, by decide⟩
  | .ealready => ⟨-120, by decide⟩
  | .einval => .einval
  | .enodev => ⟨-19, by decide⟩
  | .enomem => .enomem
  | .eagain => ⟨-11, by decide⟩

/-- A wait for a slot in `shfs_cache_aread`: what others do, how it ends, and the answers behind it. -/
structure SlotEnv where
  others : List LoadedEvent
  err : Option Errno
  env : AreadEnv

/-- One attempt of `shfs_cache_read`: the answers up to the first wait for a slot, the waits, and what others
do before the next attempt. -/
structure Attempt where
  env : AreadEnv
  slots : List SlotEnv
  later : List LoadedEvent

/-- What one `shfs_cache_read` meets. -/
structure CacheReadEnv where
  tries : List Attempt
  /-- what others do until the token is done -/
  wait : List LoadedEvent

/-! ## Reading a chunk -/

namespace Loaded

/-- What a call of `shfs_cache_aread` without a callback hands out, or the call that waits. -/
def handedOut (u : Cache) : CallEnd → Except Pending (Except Errno Ref)
  | .ret (.err e) => .ok (.error e)
  | .ret (.ready c) => .ok (.ok ⟨c, none, u.issued, false⟩)
  | .ret (.pending c t) => .ok (.ok ⟨c, some t, u.issued, false⟩)
  | .waits p => .error p

section Reading

variable (conf : CacheConf) (chunksize : Nat) (vol : Nat → Bytes) (allowed : Allowed)
  [∀ s e, Decidable (allowed s e)]

/-- One operation of the cache. Here and below nothing comes out of an operation that is not allowed or does
not return. -/
def step (s : Loaded) (e : CacheEvent) : Option Loaded :=
  (within conf chunksize vol allowed).exec s [.call e]

/-- A part of a call, from one wait to the next. -/
def part (s : Loaded) (e : CacheEvent) (x : Except Fault (CallEnd × Cache)) :
    Option (Except Pending (Except Errno Ref) × Loaded) :=
  match s.step conf chunksize vol allowed e, x with
  | some s', .ok (y, u) => some (handedOut u y, s')
  | _, _ => none

/-- `shfs_cache_aread` up to its end or its first wait. -/
def aread (addr : Nat) (env : AreadEnv) (s : Loaded) :
    Option (Except Pending (Except Errno Ref) × Loaded) :=
  s.part conf chunksize vol allowed (.aread addr none env) (shfsCacheAread conf s.cache addr none env)

/-- The rest of it, wait by wait. -/
def areadSlots : List SlotEnv → Except Pending (Except Errno Ref) × Loaded →
    Option (Except Errno Ref × Loaded)
  | _, (.ok x, s) => some (x, s)
  | [], (.error _, _) => none
  | slot :: slots, (.error p, s) =>
      ((asleep conf chunksize vol allowed p).exec s slot.others).bind fun s =>
        (s.part conf chunksize vol allowed (.resume p slot.err slot.env)
          (shfsCacheResume conf (s.cache.goOn p) p slot.err slot.env)).bind (areadSlots slots)

/-- `do … while (ret == -EAGAIN)` of `shfs_cache_read`. -/
def areadRetry (addr : Nat) : List Attempt → Loaded → Option (Except Errno Ref × Loaded)
  | [], _ => none
  | a :: tries, s =>
      match (aread conf chunksize vol allowed addr a.env s).bind
        (areadSlots conf chunksize vol allowed a.slots) with
      | none => none
      | some (.error .eagain, s) =>
          ((within conf chunksize vol allowed).exec s a.later).bind (areadRetry addr tries)
      | some x => some x

/-- The second half of `shfs_cache_read`: the token is done. -/
def finalizeRead (r : Ref) (t : Nat) (s : Loaded) : Option (Except ErrRet Ref × Loaded) :=
  if s.cache.aioIsDone (some t) = false then none
  else
    match s.step conf chunksize vol allowed (.finalize r) with
    | none => none
    | some s' =>
        if h : (s.cache.tok t).ret < 0 then
          (s'.step conf chunksize vol allowed (.release { r with tok := none })).map fun s =>
            (.error ⟨_, h⟩, s)
        else some (.ok { r with tok := none }, s')

/-- `shfs_cache_read`. -/
def shfsCacheRead (addr : Nat) (env : CacheReadEnv) (s : Loaded) : Option (Except ErrRet Ref × Loaded) :=
  match areadRetry conf chunksize vol allowed addr env.tries s with
  | none => none
  | some (.error e, s) => some (.error e.ret, s)
  | some (.ok r, s) =>
      match r.tok with
      | some t =>
          ((others conf chunksize vol allowed r).exec s env.wait).bind
            (finalizeRead conf chunksize vol allowed r t)
      | none =>
          if (s.cache.cce r.cce).invalid then
            (s.step conf chunksize vol allowed (.release r)).map fun s => (.error .eio, s)
          else some (.ok r, s)

/-- `shfs_cache_read_nosched` does the same and lets only devices come in between. -/
def shfsCacheReadNosched (addr : Nat) (env : CacheReadEnv) (s : Loaded) :
    Option (Except ErrRet Ref × Loaded) :=
  shfsCacheRead conf chunksize vol allowed addr env s

/-- `while (left)` of the cached readers, with `read` of a chunk. -/
def fioCacheLoop (read : Nat → CacheReadEnv → Loaded → Option (Except ErrRet Ref × Loaded))
    (env : Nat → CacheReadEnv) :
    Nat → Nat → Nat → Nat → Nat → Nat → Reading → Loaded → Option ((Int × Reading) × Loaded)
  | 0, _, _, _, _, _, r, s => some ((0, r), s)
  | fuel + 1, i, chkOff, bytOff, bufOff, left, r, s =>
      if left = 0 then some ((0, r), s)
      else
        match read chkOff (env i) s with
        | none => none
        | some (.error e, s) => some ((e, r), s)
        | some (.ok ref, s) =>
            let rlen := min (wrap64 (chunksize + u64Size - bytOff)) left
            let r := r.copy (s.data (s.cache.cce ref.cce).buffer) ⟨chkOff, bytOff, bufOff, rlen⟩
            (s.step conf chunksize vol allowed (.release ref)).bind
              (fioCacheLoop read env fuel (i + 1) (wrap64 (chkOff + 1)) 0 (bufOff + rlen) (left - rlen) r)

/-- A cached reader. -/
def fioCacheReader (e : Hentry)
    (read : Nat → CacheReadEnv → Loaded → Option (Except ErrRet Ref × Loaded))
    (env : Nat → CacheReadEnv) (offset len : Nat) (buf : Bytes) (s : Loaded) :
    Option ((Int × Reading) × Loaded) :=
  if e.isLink then some ((ErrRet.einval, ⟨buf, []⟩), s)
  else if e.len < offset ∨ e.len < wrap64 (offset + len) then some ((ErrRet.einval, ⟨buf, []⟩), s)
  else fioCacheLoop conf chunksize vol allowed read env len 0 (shfsVolchkFoff chunksize e offset)
    (shfsVolchkoffFoff chunksize e offset) 0 len ⟨buf, []⟩ s

/-- `shfs_fio_cache_read`. -/
def shfsFioCacheRead (e : Hentry) (env : Nat → CacheReadEnv) (offset len : Nat) (buf : Bytes)
    (s : Loaded) : Option ((Int × Reading) × Loaded) :=
  fioCacheReader conf chunksize vol allowed e (shfsCacheRead conf chunksize vol allowed) env offset len buf s

/-- `shfs_fio_cache_read_nosched`. -/
def shfsFioCacheReadNosched (e : Hentry) (env : Nat → CacheReadEnv) (offset len : Nat) (buf : Bytes)
    (s : Loaded) : Option ((Int × Reading) × Loaded) :=
  fioCacheReader conf chunksize vol allowed e (shfsCacheReadNosched conf chunksize vol allowed) env offset
    len buf s

end Reading

end Loaded

section Spec

variable {conf : CacheConf} {cs addr : Nat} {vol : Nat → Bytes} {s s' : Loaded}

open Loaded

section Step

variable {allowed : Allowed} [∀ s e, Decidable (allowed s e)]

theorem step_run {e : CacheEvent} (h : s.step conf cs vol allowed e = some s') :
    (within conf cs vol allowed).Step s (.call e) s' := by
  have hrun : (within conf cs vol allowed).Run s [.call e] s' := .of_exec h
  cases hrun with
  | cons hstep hnil =>
      cases hnil
      exact hstep

/-- A part of a call is a step of the cache. -/
theorem part_step {e : CacheEvent} {x : Except Fault (CallEnd × Cache)}
    {y : Except Pending (Except Errno Ref)} (h : s.part conf cs vol allowed e x = some (y, s')) :
    (within conf cs vol allowed).Step s (.call e) s' ∧ ∃ z u, x = .ok (z, u) ∧ y = handedOut u z := by
  unfold part at h
  split at h
  · rename_i t z u hstep
    obtain ⟨rfl, rfl⟩ := Prod.mk.inj (Option.some.inj h)
    exact ⟨step_run hstep, z, u, rfl, rfl⟩
  · cases h

end Step

/-- A reference on the entry of the chunk was handed out. Without a token the entry holds the chunk or is
invalid. -/
def HandedOut (cs : Nat) (vol : Nat → Bytes) (addr : Nat) (s : Loaded) (x : Except Errno Ref) : Prop :=
  ∀ r, x = .ok r → Watched cs vol addr r s ∧
    (r.tok = none → (s.cache.cce r.cce).invalid = false → HoldsChunk cs vol s r.cce)

/-- A part of a call for the chunk hands out a reference on its entry, or the call waits on. -/
def PartSpec (cs : Nat) (vol : Nat → Bytes) (addr : Nat) (s : Loaded) :
    Except Pending (Except Errno Ref) → Prop
  | .ok x => HandedOut cs vol addr s x
  | .error p => p.addr = addr

/-- What a call says of its entry is so in the state behind it. -/
theorem PartSpec.of_entry {u : Cache} {z : CallEnd} {cb : Option Nat} (h : LoadedInv conf cs vol s')
    (hcache : s'.cache = u.endCall z) (hentry : EntryOf addr cb u z)
    (hfly : ∀ c t, z = .ret (.pending c t) → (u.tok t).infly ≠ 0) :
    PartSpec cs vol addr s' (handedOut u z) := by
  obtain ⟨v, data⟩ := s'
  obtain rfl : v = u.endCall z := hcache
  cases z with
  | waits p => exact hentry.1
  | ret x =>
      cases x with
      | err e => exact fun r hr => by cases hr
      | ready c =>
          rintro r hr
          obtain rfl := Except.ok.inj hr
          obtain ⟨haddr, hdone⟩ := hentry
          have hmem : (⟨c, none, u.issued, false⟩ : Ref) ∈ (u.giveRef c none false).refs :=
            List.mem_append_right _ List.mem_cons_self
          have hin := h.owned.sound.held hmem
          have hnone := (h.owned.sound.inv.privates.isDone hin).1 hdone
          exact ⟨⟨hmem, rfl, haddr, fun t ht => by cases ht⟩,
            fun _ hok => h.data c ⟨hin, hnone, hok, h.owned.sound.not_setUp hmem⟩⟩
      | pending c t =>
          rintro r hr
          obtain rfl := Except.ok.inj hr
          refine ⟨⟨List.mem_append_right _ List.mem_cons_self, rfl, hentry, ?_⟩, fun ht => by cases ht⟩
          intro t' ht' h0
          obtain rfl := Option.some.inj ht'
          exact absurd h0 (hfly c t rfl)

/-- The state that a call leads to is that of the cache behind it. -/
theorem endCall_cache {e : CacheEvent} {z : CallEnd} {u : Cache}
    (hs : (loaded conf cs vol).Step s (.call e) s')
    (hn : cacheNext conf s.cache e = .ok (u.endCall z)) : s'.cache = u.endCall z :=
  Except.ok.inj ((loaded_call hs).1.2.symm.trans hn)

theorem aread_spec (h : LoadedInv conf cs vol s) {env : AreadEnv} {y : Except Pending (Except Errno Ref)}
    (hread : aread conf cs vol (orderly conf) addr env s = some (y, s')) :
    LoadedInv conf cs vol s' ∧ PartSpec cs vol addr s' y := by
  obtain ⟨hs, z, u, hcall, rfl⟩ := part_step hread
  have hinv := h.step hs
  obtain ⟨hs, ho⟩ := Machine.restrict_step.1 hs
  have hcache : s'.cache = u.endCall z := by
    refine endCall_cache hs ?_
    show (shfsCacheAread conf s.cache addr none env >>= fun y => Except.ok (y.2.endCall y.1)) = _
    rw [hcall]
    rfl
  have hentry := (aread_call DList.coherent_discipline h.owned.sound (loaded_call hs).1.1
    (addrOk_any (.aread addr none env)) ho hcall).entry
  exact ⟨hinv, .of_entry hinv hcache hentry (aread_valid hcall).2⟩

theorem resume_spec (h : LoadedInv conf cs vol s) {p : Pending} {err : Option Errno} {env : AreadEnv}
    {y : Except Pending (Except Errno Ref)}
    (hread : s.part conf cs vol (orderly conf) (.resume p err env)
      (shfsCacheResume conf (s.cache.goOn p) p err env) = some (y, s')) :
    LoadedInv conf cs vol s' ∧ PartSpec cs vol p.addr s' y := by
  obtain ⟨hs, z, u, hcall, rfl⟩ := part_step hread
  have hinv := h.step hs
  obtain ⟨hs, ho⟩ := Machine.restrict_step.1 hs
  have hcache : s'.cache = u.endCall z := by
    refine endCall_cache hs ?_
    show (shfsCacheResume conf (s.cache.goOn p) p err env >>= fun y => Except.ok (y.2.endCall y.1)) = _
    rw [hcall]
    rfl
  obtain ⟨hpc, hp⟩ := (loaded_call hs).1.1
  have hentry := (resume_call DList.coherent_discipline h.owned.sound hpc hp ho.1 hcall).entry
  exact ⟨hinv, .of_entry hinv hcache hentry (resume_valid hcall).2⟩

/-- The waits of an attempt. -/
theorem areadSlots_spec {slots : List SlotEnv} {y : Except Pending (Except Errno Ref)}
    {x : Except Errno Ref} (h : LoadedInv conf cs vol s) (hy : PartSpec cs vol addr s y)
    (hread : areadSlots conf cs vol (orderly conf) slots (y, s) = some (x, s')) :
    LoadedInv conf cs vol s' ∧ HandedOut cs vol addr s' x := by
  induction slots generalizing y s with
  | nil =>
      cases y with
      | ok x₀ =>
          obtain ⟨rfl, rfl⟩ := Prod.mk.inj (Option.some.inj hread)
          exact ⟨h, hy⟩
      | error p => cases hread
  | cons slot slots ih =>
      cases y with
      | ok x₀ =>
          obtain ⟨rfl, rfl⟩ := Prod.mk.inj (Option.some.inj hread)
          exact ⟨h, hy⟩
      | error p =>
          obtain rfl : p.addr = addr := hy
          obtain ⟨u, hexec, hread⟩ := Option.bind_eq_some_iff.1 hread
          obtain ⟨⟨y', v⟩, hpart, hread⟩ := Option.bind_eq_some_iff.1 hread
          have hu : LoadedInv conf cs vol u :=
            h.run ((Machine.Run.of_exec hexec).mono fun _ _ _ hs => (Machine.restrict_step.1 hs).1)
          obtain ⟨hv, hspec⟩ := resume_spec hu hpart
          exact ih hv hspec hread

theorem areadRetry_spec {tries : List Attempt} {x : Except Errno Ref} (h : LoadedInv conf cs vol s)
    (hread : areadRetry conf cs vol (orderly conf) addr tries s = some (x, s')) :
    LoadedInv conf cs vol s' ∧ HandedOut cs vol addr s' x := by
  -- an attempt is its first part and its waits
  have hattempt : ∀ {a : Attempt} {s u : Loaded} {x : Except Errno Ref}, LoadedInv conf cs vol s →
      (aread conf cs vol (orderly conf) addr a.env s).bind
        (areadSlots conf cs vol (orderly conf) a.slots) = some (x, u) →
      LoadedInv conf cs vol u ∧ HandedOut cs vol addr u x := by
    intro a s u x h hx
    obtain ⟨⟨y, v⟩, hfirst, hx⟩ := Option.bind_eq_some_iff.1 hx
    obtain ⟨hv, hy⟩ := aread_spec h hfirst
    exact areadSlots_spec hv hy hx
  induction tries generalizing s with
  | nil => cases hread
  | cons a tries ih =>
      rw [areadRetry] at hread
      split at hread
      · cases hread
      · rename_i u hagain
        obtain ⟨v, hexec, hread⟩ := Option.bind_eq_some_iff.1 hread
        exact ih ((hattempt h hagain).1.run (.of_exec hexec)) hread
      · rename_i y _ hy
        obtain rfl := Option.some.inj hread
        exact hattempt h hy

/-- A reference without a token on an entry that holds the chunk `addr`. -/
structure Ready (cs : Nat) (vol : Nat → Bytes) (addr : Nat) (r : Ref) (s : Loaded) : Prop where
  names : (s.cache.cce r.cce).addr = addr
  holds : HoldsChunk cs vol s r.cce

/-- The end of a wait. -/
theorem finalizeRead_spec {r : Ref} {t : Nat} {x : Except ErrRet Ref} (h : LoadedInv conf cs vol s)
    (hw : Watched cs vol addr r s) (ht : r.tok = some t)
    (hread : finalizeRead conf cs vol (orderly conf) r t s = some (x, s')) :
    LoadedInv conf cs vol s' ∧ ∀ r', x = .ok r' → Ready cs vol addr r' s' := by
  unfold finalizeRead at hread
  split at hread
  · cases hread
  · rename_i hdone
    split at hread
    · cases hread
    · rename_i u hfin
      have hstep := step_run hfin
      have hu := h.step hstep
      split at hread
      · obtain ⟨v, hrel, hread⟩ := Option.map_eq_some_iff.1 hread
        obtain ⟨rfl, rfl⟩ := Prod.mk.inj hread
        exact ⟨hu.step (step_run hrel), fun r' hr' => by cases hr'⟩
      · rename_i hret
        obtain ⟨rfl, rfl⟩ := Prod.mk.inj (Option.some.inj hread)
        refine ⟨hu, fun r' hr' => ?_⟩
        obtain rfl := Except.ok.inj hr'
        obtain ⟨hstep, ho⟩ := Machine.restrict_step.1 hstep
        obtain ⟨hcall, hdata⟩ := loaded_call hstep
        obtain ⟨-, ha, hb, -⟩ :=
          h.kept hw.held hcall ho ⟨fun he => (by cases he), fun he => by cases he⟩
        have hfly : (s.cache.tok t).infly = 0 := by
          simpa [Cache.aioIsDone] using hdone
        refine ⟨ha.trans hw.names, (hw.done t ht hfly (not_lt.1 hret)).congr ha hb ?_⟩
        rw [hdata]
        rfl

/-- A cached read of a chunk hands out an entry whose buffer holds it. -/
theorem shfsCacheRead_spec {env : CacheReadEnv} {x : Except ErrRet Ref} (h : LoadedInv conf cs vol s)
    (hread : shfsCacheRead conf cs vol (orderly conf) addr env s = some (x, s')) :
    LoadedInv conf cs vol s' ∧ ∀ r, x = .ok r → Ready cs vol addr r s' := by
  unfold shfsCacheRead at hread
  split at hread
  · cases hread
  · rename_i e u htry
    obtain ⟨rfl, rfl⟩ := Prod.mk.inj (Option.some.inj hread)
    exact ⟨(areadRetry_spec h htry).1, fun r hr => by cases hr⟩
  · rename_i r u htry
    obtain ⟨hu, hgot⟩ := areadRetry_spec h htry
    obtain ⟨hw, hready⟩ := hgot r rfl
    split at hread
    · rename_i t ht
      obtain ⟨v, hexec, hread⟩ := Option.bind_eq_some_iff.1 hread
      obtain ⟨hv, hw⟩ := hw.run hu (.of_exec hexec)
      exact finalizeRead_spec hv hw ht hread
    · rename_i ht
      split at hread
      · obtain ⟨v, hrel, hread⟩ := Option.map_eq_some_iff.1 hread
        obtain ⟨rfl, rfl⟩ := Prod.mk.inj hread
        exact ⟨hu.step (step_run hrel), fun r' hr' => by cases hr'⟩
      · rename_i hok
        obtain ⟨rfl, rfl⟩ := Prod.mk.inj (Option.some.inj hread)
        refine ⟨hu, fun r' hr' => ?_⟩
        obtain rfl := Except.ok.inj hr'
        exact ⟨hw.names, hready ht (by simpa using hok)⟩

/-! ## Reading a file -/

/-- Chunk reads deliver the chunks that they are asked for. -/
def Delivers (cs : Nat) (vol : Nat → Bytes) (read : Nat → Nat → ChunkRead) : Prop :=
  ∀ i c chk, read i c = .ok chk → ∀ k < cs, chk k = vol c k

/-- A read of a chunk on the cache. -/
def ReadSpec (conf : CacheConf) (cs : Nat) (vol : Nat → Bytes)
    (read : Nat → CacheReadEnv → Loaded → Option (Except ErrRet Ref × Loaded)) : Prop :=
  ∀ addr env s x s', LoadedInv conf cs vol s → read addr env s = some (x, s') →
    LoadedInv conf cs vol s' ∧ ∀ r, x = .ok r → Ready cs vol addr r s'

/-- The loop on the cache is the loop with outcomes of chunk reads, which deliver. -/
theorem fioCacheLoop_outcomes {read : Nat → CacheReadEnv → Loaded → Option (Except ErrRet Ref × Loaded)}
    (hspec : ReadSpec conf cs vol read) {env : Nat → CacheReadEnv}
    {fuel i chkOff bytOff bufOff left : Nat} {r : Reading} {out : Int × Reading}
    (h : LoadedInv conf cs vol s)
    (hloop : fioCacheLoop conf cs vol (orderly conf) read env fuel i chkOff bytOff bufOff left r s = some (out, s')) :
    LoadedInv conf cs vol s' ∧ ∃ outcomes, Delivers cs vol outcomes ∧
      fioLoop cs outcomes fuel i chkOff bytOff bufOff left r = out := by
  -- nothing is delivered where nothing is read
  have hnone : Delivers cs vol fun _ _ => .error .eio := fun _ _ _ hread => by cases hread
  induction fuel generalizing i chkOff bytOff bufOff left r s with
  | zero =>
      obtain ⟨rfl, rfl⟩ := Prod.mk.inj (Option.some.inj hloop)
      exact ⟨h, _, hnone, rfl⟩
  | succ fuel ih =>
      rw [fioCacheLoop] at hloop
      split at hloop
      · rename_i hleft
        obtain ⟨rfl, rfl⟩ := Prod.mk.inj (Option.some.inj hloop)
        refine ⟨h, _, hnone, ?_⟩
        rw [fioLoop, if_pos hleft]
      · rename_i hleft
        split at hloop
        · cases hloop
        · rename_i e u hread
          obtain ⟨rfl, rfl⟩ := Prod.mk.inj (Option.some.inj hloop)
          refine ⟨(hspec _ _ _ _ _ h hread).1, fun _ _ => .error e, fun _ _ _ he => (by cases he), ?_⟩
          rw [fioLoop, if_neg hleft]
        · rename_i ref u hread
          obtain ⟨v, hrel, hloop⟩ := Option.bind_eq_some_iff.1 hloop
          obtain ⟨hu, hready⟩ := hspec _ _ _ _ _ h hread
          obtain ⟨hv, later, hdelivers, hlater⟩ := ih (hu.step (step_run hrel)) hloop
          -- this turn reads what the entry holds, and the later turns what they read
          refine ⟨hv, fun j c => if j = i then
            if c = chkOff then .ok (u.data (u.cache.cce ref.cce).buffer) else .error .eio
            else later j c, ?_, ?_⟩
          · intro j c chk hchk k hk
            simp only at hchk
            split at hchk
            · split at hchk
              · rename_i hc
                obtain rfl := Except.ok.inj hchk
                obtain ⟨hnames, hholds⟩ := hready ref rfl
                rw [hholds k hk, hnames, hc]
              · cases hchk
            · exact hdelivers j c chk hchk k hk
          · rw [fioLoop, if_neg hleft, if_pos rfl, if_pos rfl, ← hlater]
            apply fioLoop_congr
            intro j hj c
            rw [if_neg (by omega)]

/-- A cached reader on the cache is the reader with outcomes of chunk reads, which deliver. -/
theorem fioCacheReader_outcomes {read : Nat → CacheReadEnv → Loaded → Option (Except ErrRet Ref × Loaded)}
    (hspec : ReadSpec conf cs vol read) {e : Hentry} {env : Nat → CacheReadEnv} {offset len : Nat}
    {buf : Bytes} {out : Int × Reading} (h : LoadedInv conf cs vol s)
    (hread : fioCacheReader conf cs vol (orderly conf) e read env offset len buf s = some (out, s')) :
    ∃ outcomes, Delivers cs vol outcomes ∧ fioReader cs e true outcomes offset len buf = out := by
  have hnone : Delivers cs vol fun _ _ => .error .eio := fun _ _ _ hread => by cases hread
  unfold fioCacheReader at hread
  unfold fioReader
  by_cases hlink : e.isLink = true
  · rw [if_pos hlink] at hread
    obtain ⟨rfl, -⟩ := Prod.mk.inj (Option.some.inj hread)
    exact ⟨_, hnone, if_pos hlink⟩
  · rw [if_neg hlink] at hread
    by_cases hrange : e.len < offset ∨ e.len < wrap64 (offset + len)
    · rw [if_pos hrange] at hread
      obtain ⟨rfl, -⟩ := Prod.mk.inj (Option.some.inj hread)
      refine ⟨_, hnone, ?_⟩
      rw [if_neg hlink, if_pos hrange]
    · rw [if_neg hrange] at hread
      obtain ⟨-, outcomes, hdelivers, hout⟩ := fioCacheLoop_outcomes hspec h hread
      refine ⟨outcomes, hdelivers, ?_⟩
      rw [if_neg hlink, if_neg hrange, if_neg (by decide)]
      exact hout

end Spec

/-! ## The four readers -/

/-- The byte `n` of the volume. -/
def volByte (chunksize : Nat) (vol : Nat → Bytes) (n : Nat) : UInt8 := vol (n / chunksize) (n % chunksize)

/-- The buffer holds `len` bytes of the volume from byte `start` on, and behind them what it held. -/
def Stored (chunksize : Nat) (vol : Nat → Bytes) (start len : Nat) (buf buf' : Bytes) : Prop :=
  (∀ k < len, buf' k = volByte chunksize vol (start + k)) ∧ ∀ k, len ≤ k → buf' k = buf k

/-- The container of the entry lies in the chunks from 1 to `volsize`. -/
def ContainerWithin (chunksize volsize : Nat) (e : Hentry) : Prop :=
  ∀ i, i * chunksize < e.offset + e.len → 1 ≤ e.chunk + i ∧ e.chunk + i ≤ volsize

/-- The first byte of the range, counted from the start of the volume. -/
def rangeStart (chunksize : Nat) (e : Hentry) (offset : Nat) : Nat :=
  e.chunk * chunksize + e.offset + offset

/-- A reader whose chunk reads deliver stores the range when it returns 0. -/
theorem fioReader_stores {cs volsize offset len : Nat} {vol : Nat → Bytes} {e : Hentry} {mem : Bool}
    {read : Nat → Nat → ChunkRead} {buf : Bytes} (hcs : 0 < cs) (hcs64 : cs < u64Size)
    (hlink : e.isLink = false) (hin : ContainerWithin cs volsize e) (hvol : volsize < u64Size)
    (hrange : offset + len ≤ e.len) (hsum : len = 0 ∨ e.offset + offset < u64Size)
    (hread : Delivers cs vol read) (hret : (fioReader cs e mem read offset len buf).1 = 0) :
    Stored cs vol (rangeStart cs e offset) len buf (fioReader cs e mem read offset len buf).2.buf := by
  have hlen := e.len_lt
  rw [fioReader_passes hlink (by omega) hlen (.inl hrange)] at hret ⊢
  cases mem with
  | false => cases hret
  | true =>
      rw [if_pos rfl] at hret ⊢
      by_cases hpos : len = 0
      · subst hpos
        exact ⟨fun k hk => absurd hk (Nat.not_lt_zero k), fun _ _ => rfl⟩
      · have hwrap := hsum.resolve_left hpos
        have hdiv := Nat.div_add_mod' (e.offset + offset) cs
        have hmod := Nat.mod_lt (e.offset + offset) hcs
        -- the chunks of the range belong to the container, so no address wraps
        have hchunk : ∀ j, j * cs < (e.offset + offset) % cs + len →
            e.chunk + (e.offset + offset) / cs + j < u64Size := by
          intro j hj
          have hmem := (hin ((e.offset + offset) / cs + j) (by rw [Nat.add_mul]; omega)).2
          omega
        have hfirst := hchunk 0 (by omega)
        have haddr : shfsVolchkFoff cs e offset = e.chunk + (e.offset + offset) / cs := by
          rw [shfsVolchkFoff, wrap64_of_lt hwrap, Nat.add_comm, wrap64_of_lt (by omega)]
        have hbyte : shfsVolchkoffFoff cs e offset = (e.offset + offset) % cs := by
          rw [shfsVolchkoffFoff, wrap64_of_lt hwrap]
        rw [haddr, hbyte] at hret ⊢
        obtain ⟨hstored, hrest⟩ := fioLoop_buf (fun j chk _ hok => hread _ _ _ hok) hmod hcs64
          (by omega) (le_refl len) hret
        constructor
        · intro k hk
          have hlast := Nat.div_mul_le_self ((e.offset + offset) % cs + k) cs
          have hk' := hstored k hk
          have hstart : rangeStart cs e offset + k =
              cs * (e.chunk + (e.offset + offset) / cs) + ((e.offset + offset) % cs + k) := by
            rw [rangeStart, Nat.mul_add, Nat.mul_comm cs, Nat.mul_comm cs]
            omega
          rw [Nat.zero_add, wrap64_of_lt (hchunk _ (by omega))] at hk'
          rw [hk', volByte, hstart, Nat.mul_add_div hcs, Nat.mul_add_mod]
        · intro k hk
          exact hrest k (.inr (by omega))

/-- A reader that returns 0 has stored the range and nothing else. -/
def ReadsRange (chunksize : Nat) (vol : Nat → Bytes) (e : Hentry) (offset len : Nat) (buf : Bytes)
    (out : Int × Reading) : Prop :=
  out.1 = 0 → Stored chunksize vol (rangeStart chunksize e offset) len buf out.2.buf

/-- Where the sum of the offsets wraps, a volume has other bytes where a direct reader looks for the range
than in the range, and the reader returns 0. -/
theorem fioReader_misses {cs volsize offset len : Nat} {e : Hentry} (hcs : 0 < cs) (hcs64 : cs < u64Size)
    (hlink : e.isLink = false) (hin : ContainerWithin cs volsize e) (hvol : volsize < u64Size)
    (hrange : offset + len ≤ e.len) (hpos : len ≠ 0) (hwrap : u64Size ≤ e.offset + offset) :
    ∃ vol read, Delivers cs vol read ∧
      ¬ ReadsRange cs vol e offset len Bytes.zeros (fioReader cs e true read offset len Bytes.zeros) := by
  have hlen := e.len_lt
  have hoff : e.offset < u64Size := Bytes.le_lt e 72 8
  set w := e.offset + offset - u64Size with hw
  -- the chunk of the first byte, and the one that the reader begins with
  set right := e.chunk + (e.offset + offset) / cs with hright
  have hmem : right ≤ volsize := by
    refine (hin ((e.offset + offset) / cs) ?_).2
    have hle := Nat.div_mul_le_self (e.offset + offset) cs
    omega
  have hwrong : e.chunk + w / cs < right := by
    have hsum : e.offset + offset = u64Size + w := by omega
    have hstep : w / cs + 1 ≤ (u64Size + w) / cs := by
      rw [← Nat.add_div_right w hcs]
      exact Nat.div_le_div_right (by omega)
    rw [hright, hsum]
    omega
  have hw64 : wrap64 (e.offset + offset) = w := by
    rw [wrap64, Nat.mod_eq_sub_mod hwrap, Nat.mod_eq_of_lt (by omega)]
  have haddr : shfsVolchkFoff cs e offset = e.chunk + w / cs := by
    rw [shfsVolchkFoff, hw64, Nat.add_comm, wrap64_of_lt (by omega)]
  have hbyte : shfsVolchkoffFoff cs e offset = w % cs := by
    rw [shfsVolchkoffFoff, hw64]
  let vol : Nat → Bytes := fun c _ => if c = right then 1 else 0
  refine ⟨vol, fun _ c => .ok (vol c), fun _ _ _ hok k _ => by rw [← Except.ok.inj hok], fun hreads => ?_⟩
  rw [fioReader_passes hlink (by omega) hlen (.inl hrange), if_pos rfl, haddr, hbyte] at hreads
  have hmod := Nat.mod_lt w hcs
  have hret := @fioLoop_ret cs (fun _ c => .ok (vol c)) len 0 (e.chunk + w / cs) (w % cs) 0 len
    ⟨Bytes.zeros, []⟩ (fun _ _ => ⟨_, rfl⟩) hmod hcs64 (by omega)
  have hgot := (@fioLoop_buf cs (fun _ c => .ok (vol c)) len 0 (e.chunk + w / cs) (w % cs) 0 len
    ⟨Bytes.zeros, []⟩ vol (fun j chk _ hok k _ => by rw [← Except.ok.inj hok]) hmod hcs64 (by omega)
    (le_refl len) hret).1 0 (by omega)
  have hwant := (hreads hret).1 0 (by omega)
  have hstart : volByte cs vol (rangeStart cs e offset + 0) = 1 := by
    have hr : (rangeStart cs e offset + 0) / cs = right := by
      rw [Nat.add_zero, rangeStart, Nat.add_assoc, Nat.mul_comm, Nat.mul_add_div hcs]
    rw [volByte, hr]
    exact if_pos rfl
  rw [Nat.add_zero, Nat.add_zero, Nat.div_eq_of_lt hmod, Nat.add_zero, wrap64_of_lt (by omega)] at hgot
  rw [hstart, hgot] at hwant
  have hzero : vol (e.chunk + w / cs) (w % cs % cs) = 0 := if_neg (by omega)
  rw [hzero] at hwant
  cases hwant

/-- A run of allowed events leads to the state, from a new cache in memory that holds anything. -/
def Reachable (conf : CacheConf) (chunksize : Nat) (vol : Nat → Bytes) (allowed : Allowed) (s : Loaded) :
    Prop :=
  ∃ cce alinks clinks tok tlinks data es, (within conf chunksize vol allowed).Run
    ⟨shfsAllocCache conf cce alinks clinks tok tlinks, data⟩ es s

theorem Reachable.inv {conf : CacheConf} {cs : Nat} {vol : Nat → Bytes} {s : Loaded}
    (h : Reachable conf cs vol (orderly conf) s) : LoadedInv conf cs vol s := by
  obtain ⟨cce, alinks, clinks, tok, tlinks, data, es, hrun⟩ := h
  exact (loadedInv_init conf cs vol cce alinks clinks tok tlinks data).run hrun

/-- A cached reader whose events are orderly, on a cache that an orderly run leads to, stores the range where
the sum of the offsets does not wrap. -/
theorem cached_reads {conf : CacheConf} {cs offset len : Nat} {vol : Nat → Bytes} {e : Hentry} {buf : Bytes}
    {s s' : Loaded} {env : Nat → CacheReadEnv} {out : Int × Reading} (hcs : 0 < cs) (hcs64 : cs < u64Size)
    (hlink : e.isLink = false) (hin : ContainerWithin cs conf.volsize e) (hrange : offset + len ≤ e.len)
    (hsum : len = 0 ∨ e.offset + offset < u64Size) (hs : Reachable conf cs vol (orderly conf) s)
    (hread : Loaded.fioCacheReader conf cs vol (orderly conf) e
      (Loaded.shfsCacheRead conf cs vol (orderly conf)) env offset len buf s = some (out, s')) :
    ReadsRange cs vol e offset len buf out := by
  have hspec : ReadSpec conf cs vol (Loaded.shfsCacheRead conf cs vol (orderly conf)) :=
    fun _ _ _ _ _ h hread => shfsCacheRead_spec h hread
  obtain ⟨outcomes, hdelivers, rfl⟩ := fioCacheReader_outcomes hspec hs.inv hread
  exact fun hret => fioReader_stores hcs hcs64 hlink hin conf.volsize_lt hrange hsum hdelivers hret

/-- When the four readers store the range and nothing else wherever they return 0. The direct readers, given
chunk reads that deliver, do so on every volume if and only if the sum of the offsets does not wrap. Then the
cached readers do so as well, whatever happens on the cache in between, as long as every event is orderly. -/
theorem readers_store (conf : CacheConf) (vconf : VolConf) (e : Hentry) (offset len : Nat)
    (hlink : e.isLink = false) (hin : ContainerWithin vconf.geom.chunksize conf.volsize e)
    (hrange : offset + len ≤ e.len) :
    ((∀ vol buf mem read, Delivers vconf.geom.chunksize vol read →
        ReadsRange vconf.geom.chunksize vol e offset len buf
          (shfsFioRead vconf e mem read offset len buf)) ↔ len = 0 ∨ e.offset + offset < u64Size) ∧
    ((∀ vol buf mem read, Delivers vconf.geom.chunksize vol read →
        ReadsRange vconf.geom.chunksize vol e offset len buf
          (shfsFioReadNosched vconf e mem read offset len buf)) ↔ len = 0 ∨ e.offset + offset < u64Size) ∧
    (len = 0 ∨ e.offset + offset < u64Size → ∀ vol buf s env out s',
      Reachable conf vconf.geom.chunksize vol (orderly conf) s →
      Loaded.shfsFioCacheRead conf vconf.geom.chunksize vol (orderly conf) e env offset len buf s =
        some (out, s') →
      ReadsRange vconf.geom.chunksize vol e offset len buf out) ∧
    (len = 0 ∨ e.offset + offset < u64Size → ∀ vol buf s env out s',
      Reachable conf vconf.geom.chunksize vol (orderly conf) s →
      Loaded.shfsFioCacheReadNosched conf vconf.geom.chunksize vol (orderly conf) e env offset len buf s =
        some (out, s') →
      ReadsRange vconf.geom.chunksize vol e offset len buf out) := by
  obtain ⟨hcs, hcs'⟩ := vconf.geom.chunksize_bounds
  have hpos : 0 < vconf.geom.chunksize := by omega
  have hlt : vconf.geom.chunksize < u64Size := lt_of_le_of_lt hcs' (by decide)
  have hdirect : (∀ vol buf mem read, Delivers vconf.geom.chunksize vol read →
      ReadsRange vconf.geom.chunksize vol e offset len buf
        (fioReader vconf.geom.chunksize e mem read offset len buf)) ↔
      len = 0 ∨ e.offset + offset < u64Size := by
    constructor
    · intro hall
      by_contra hno
      obtain ⟨hne, hwrap⟩ := not_or.1 hno
      obtain ⟨vol, read, hread, hmiss⟩ :=
        fioReader_misses hpos hlt hlink hin conf.volsize_lt hrange hne (not_lt.1 hwrap)
      exact hmiss (hall vol _ true read hread)
    · intro hsum vol buf mem read hread hret
      exact fioReader_stores hpos hlt hlink hin conf.volsize_lt hrange hsum hread hret
  exact ⟨hdirect, hdirect,
    fun hsum _ _ _ _ _ _ hs hread => cached_reads hpos hlt hlink hin hrange hsum hs hread,
    fun hsum _ _ _ _ _ _ hs hread => cached_reads hpos hlt hlink hin hrange hsum hs hread⟩

/-- A read of a chunk into an empty cache: the tokens are `t` for the device and 10 for the caller, and the
request completes during the wait. -/
def lonelyRead (t : Nat) : CacheReadEnv :=
  ⟨[⟨⟨⟨none, .started t⟩, fun _ => ⟨none, .started t⟩, some 10⟩, [], []⟩], [.call (.complete t 0)]⟩

/-- The same where the device has no slot at first. -/
def slowRead (t : Nat) : CacheReadEnv :=
  ⟨[⟨⟨⟨none, .wait t⟩, fun _ => ⟨none, .wait t⟩, none⟩,
    [⟨[], none, ⟨⟨none, .error .eio⟩, fun _ => ⟨none, .error .eio⟩, some 10⟩⟩], []⟩],
    [.call (.complete t 0)]⟩

/-- A volume whose chunks hold their number in every byte. -/
def numbered (c : Nat) : Bytes := fun _ => UInt8.ofNat c

theorem twoChunkFile_within : ContainerWithin tinyConf.geom.chunksize tinyCache.volsize twoChunkFile := by
  intro i hi
  have hi : i * 4096 < 4102 := hi
  have hle : i ≤ 1 := by omega
  show 1 ≤ 2 + i ∧ 2 + i ≤ 100
  omega

/-- A file over two chunks is read through the cache, and the read of the first one waits for a slot. -/
theorem readers_store_two : ∃ out s', Loaded.shfsFioCacheRead tinyCache 4096 numbered (orderly tinyCache)
      twoChunkFile (fun i => if i = 0 then slowRead 0 else lonelyRead 1) 1 10 Bytes.zeros
        ⟨tinyInit, fun _ => Bytes.zeros⟩ = some (out, s') ∧
    out.1 = 0 ∧ out.2.buf 4 = 2 ∧ out.2.buf 5 = 3 ∧
    ReadsRange tinyConf.geom.chunksize numbered twoChunkFile 1 10 Bytes.zeros out := by
  have hread : (Loaded.shfsFioCacheRead tinyCache 4096 numbered (orderly tinyCache) twoChunkFile
      (fun i => if i = 0 then slowRead 0 else lonelyRead 1) 1 10 Bytes.zeros
        ⟨tinyInit, fun _ => Bytes.zeros⟩).any
      (fun x => x.1.1 = 0 ∧ x.1.2.buf 4 = 2 ∧ x.1.2.buf 5 = 3) = true := by decide +kernel
  obtain ⟨⟨out, s'⟩, hout, hp⟩ := (Option.any_eq_true _ _).1 hread
  obtain ⟨hret, hfirst, hsecond⟩ := of_decide_eq_true hp
  exact ⟨out, s', hout, hret, hfirst, hsecond, (readers_store tinyCache tinyConf twoChunkFile 1 10 (by decide)
    twoChunkFile_within (by decide)).2.2.1 (.inr (by decide)) _ _ _ _ _ _
    ⟨_, _, _, _, _, _, _, .nil _⟩ hout⟩

/-! ## A buffer that is taken from under a call -/

/-- A cache with one buffer. -/
def oneBuffer : CacheConf := { tinyCache with poolNbBuffers := 1 }

/-- The read of chunk 2 finds the buffer of a read of chunk 5 that waits for a slot. While it waits for its
own request, the other call goes on and the request for chunk 5 completes. -/
def takenBuffer : CacheReadEnv :=
  ⟨[⟨⟨⟨none, .started 1⟩, fun _ => ⟨none, .started 1⟩, some 11⟩, [], []⟩],
    [.call (.resume ⟨5, none, .pobj 0, 0, none⟩ none
      ⟨⟨none, .error .eio⟩, fun _ => ⟨none, .error .eio⟩, some 10⟩), .call (.complete 0 0)]⟩

/-- The reader returns 0 with a byte of chunk 5. -/
theorem waiting_buffer_misread : ∃ s out s', Reachable oneBuffer 4096 numbered anyEvent s ∧
    Loaded.shfsFioCacheRead oneBuffer 4096 numbered anyEvent oneByte (fun _ => takenBuffer) 0 1 Bytes.zeros s =
      some (out, s') ∧
    (oneByte.isLink = false ∧ ContainerWithin 4096 oneBuffer.volsize oneByte ∧ 0 + 1 ≤ oneByte.len) ∧
    out.1 = 0 ∧ out.2.buf 0 = 5 ∧ ¬ ReadsRange 4096 numbered oneByte 0 1 Bytes.zeros out := by
  have hread : ((within oneBuffer 4096 numbered anyEvent).exec ⟨newCache oneBuffer, fun _ => Bytes.zeros⟩
      [.call (waitEvent 5 0)]).any (fun s => (Loaded.shfsFioCacheRead oneBuffer 4096 numbered anyEvent oneByte
        (fun _ => takenBuffer) 0 1 Bytes.zeros s).any
        (fun x => x.1.1 = 0 ∧ x.1.2.buf 0 = 5)) = true := by decide +kernel
  obtain ⟨s, hrun, hs⟩ := Machine.Run.of_exec_any hread
  obtain ⟨⟨out, s'⟩, hout, hp⟩ := (Option.any_eq_true _ _).1 hs
  obtain ⟨hret, hbyte⟩ := of_decide_eq_true hp
  have hin : ContainerWithin 4096 oneBuffer.volsize oneByte := by
    intro i hi
    have hi : i * 4096 < 1 := hi
    obtain rfl : i = 0 := by omega
    decide
  refine ⟨s, out, s', ⟨_, _, _, _, _, _, _, hrun⟩, hout, ⟨by decide, hin, by decide⟩, hret, hbyte,
    fun hreads => ?_⟩
  have hwant := (hreads hret).1 0 Nat.one_pos
  rw [hbyte] at hwant
  exact absurd hwant (by decide)

end Minipython.Shfs
