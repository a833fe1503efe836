/-
# Minipython.Shfs.CacheValid — which entries hold the chunk that they name

An entry is valid once its request has completed without an error. Only a completion makes an entry
valid: every other operation of the cache leaves a valid entry alone or takes its address away, and in
the latter case the entry is not valid until its new request has completed (`ValidKept`). Tokens in use
change in completions only (`TokensKept`).

An entry whose request is being set up is not valid either, although it may have no request and the data
of another chunk without an error. While `shfs_cache_add` is under way no call is counted as waiting with
it yet, so inside an operation validity is kept but for that entry (`ValidBut`).

Operations that bring in no new address leave the entries as they are, but for counts and chains and
those that go (`Leaves`).
-/
import Minipython.Shfs.CacheComplete

namespace Minipython.Shfs

open Minipython.Lib
open Cache

/-- The request of the entry has completed, and without an error. -/
def Valid (s : Cache) (c : Mem) : Prop :=
  c ∈ s.entries ∧ (s.cce c).t = none ∧ (s.cce c).invalid = false ∧ ¬ s.SetUp c

/-- What is valid afterwards was valid before, with the same address and buffer, but for the entry `w`. -/
def ValidBut (w : Option Mem) (s s' : Cache) : Prop :=
  ∀ c, w ≠ some c → Valid s' c →
    Valid s c ∧ (s'.cce c).addr = (s.cce c).addr ∧ (s'.cce c).buffer = (s.cce c).buffer

/-- The same without an exception. -/
def ValidKept (s s' : Cache) : Prop := ValidBut none s s'

/-- The tokens in use are still in use, and as they were. -/
def TokensKept (s s' : Cache) : Prop := ∀ t ∈ s.tokens, t ∈ s'.tokens ∧ s'.tok t = s.tok t

/-- What is left of the entries is as it was, but for counts and chains. -/
structure Leaves (s s' : Cache) : Prop where
  entries : ∀ c ∈ s'.entries, c ∈ s.entries
  fields : ∀ c, (s'.cce c).addr = (s.cce c).addr ∧ (s'.cce c).t = (s.cce c).t ∧
    (s'.cce c).invalid = (s.cce c).invalid ∧ (s'.cce c).buffer = (s.cce c).buffer
  adds : s'.adds = s.adds

/-- Neither of the events that give an entry another address or another state. -/
def CacheEvent.leaves : CacheEvent → Bool
  | .aread _ _ _ | .resume _ _ _ | .eblank _ | .complete _ _ => false
  | _ => true

section Relations

variable {s s₁ s₂ s' : Cache} {c : Mem} {w : Option Mem}

theorem Leaves.refl (s : Cache) : Leaves s s := ⟨fun _ hc => hc, fun _ => ⟨rfl, rfl, rfl, rfl⟩, rfl⟩

theorem Leaves.trans (h : Leaves s s₁) (h' : Leaves s₁ s₂) : Leaves s s₂ := by
  refine ⟨fun c hc => h.entries c (h'.entries c hc), fun c => ?_, h'.adds.trans h.adds⟩
  obtain ⟨a, t, v, b⟩ := h.fields c
  obtain ⟨a', t', v', b'⟩ := h'.fields c
  exact ⟨a'.trans a, t'.trans t, v'.trans v, b'.trans b⟩

theorem Leaves.of_cce (hent : ∀ c ∈ s'.entries, c ∈ s.entries) (hcce : s'.cce = s.cce)
    (hadds : s'.adds = s.adds) : Leaves s s' :=
  ⟨hent, fun _ => by rw [hcce]; exact ⟨rfl, rfl, rfl, rfl⟩, hadds⟩

theorem Leaves.same (h : SameBut c s s') : Leaves s s' := by
  refine ⟨fun d hd => h.entries ▸ hd, fun d => ?_, h.adds⟩
  obtain ⟨h1, h2, h3, -, h5⟩ := h.fields d
  exact ⟨h1, h2, h3, h5⟩

/-- Chains of tokens do not matter. -/
theorem Leaves.of_unchained (hent : s'.entries = s.entries)
    (hcce : ∀ d, unchained (s'.cce d) = unchained (s.cce d)) (hadds : s'.adds = s.adds) :
    Leaves s s' := by
  refine ⟨fun _ hd => hent ▸ hd, fun d => ?_, hadds⟩
  obtain ⟨h1, -, -, h4, h5, h6, -⟩ := unchained_eq (hcce d)
  exact ⟨h1, h6, h5, h4⟩

theorem Leaves.valid (h : Leaves s s') : ValidKept s s' := by
  intro c _ hc
  obtain ⟨ha, ht, hv, hb⟩ := h.fields c
  obtain ⟨hin, hnone, hok, hup⟩ := hc
  exact ⟨⟨h.entries c hin, ht ▸ hnone, hv ▸ hok, (setUp_congr h.adds c).not.1 hup⟩, ha, hb⟩

theorem ValidKept.refl (s : Cache) : ValidKept s s := (Leaves.refl s).valid

theorem ValidKept.trans (h : ValidKept s s₁) (h' : ValidBut w s₁ s₂) : ValidBut w s s₂ := by
  intro c hw hc
  obtain ⟨hc₁, ha, hb⟩ := h' c hw hc
  obtain ⟨hc₀, ha', hb'⟩ := h c (Option.some_ne_none c).symm hc₁
  exact ⟨hc₀, ha.trans ha', hb.trans hb'⟩

/-- A change of one entry, which is not valid afterwards. -/
theorem ValidBut.of_ne (hent : ∀ d ∈ s'.entries, d ≠ c → d ∈ s.entries)
    (hcce : ∀ d, d ≠ c → s'.cce d = s.cce d) (hup : ∀ d, d ≠ c → s.SetUp d → s'.SetUp d)
    (hc : w ≠ some c → ¬ Valid s' c) : ValidBut w s s' := by
  intro d hw hd
  have hdc : d ≠ c := by
    rintro rfl
    exact hc hw hd
  have he := hcce d hdc
  obtain ⟨hin, hnone, hok, hset⟩ := hd
  refine ⟨⟨hent d hin hdc, ?_, ?_, fun h => hset (hup d hdc h)⟩, by rw [he], by rw [he]⟩
  · rw [← he]
    exact hnone
  · rw [← he]
    exact hok

/-- A call that waits with the entry that is the exception. -/
theorem ValidBut.waits {p : Pending} (h : ValidBut (some p.cce) s s₁) :
    ValidKept s { s₁ with adds := s₁.adds ++ [p] } := by
  intro d _ hd
  obtain ⟨hin, hnone, hok, hset⟩ := hd
  refine h d (fun he => hset ⟨p, List.mem_append_right _ List.mem_cons_self, Option.some.inj he⟩)
    ⟨hin, hnone, hok, ?_⟩
  rintro ⟨q, hq, hqd⟩
  exact hset ⟨q, List.mem_append_left _ hq, hqd⟩

theorem TokensKept.refl (s : Cache) : TokensKept s s := fun _ h => ⟨h, rfl⟩

theorem TokensKept.trans (h : TokensKept s s₁) (h' : TokensKept s₁ s₂) : TokensKept s s₂ := by
  intro t ht
  obtain ⟨ht₁, he⟩ := h t ht
  obtain ⟨ht₂, he'⟩ := h' t ht₁
  exact ⟨ht₂, he'.trans he⟩

theorem TokensKept.of_eq (ht : s'.tokens = s.tokens) (hk : s'.tok = s.tok) : TokensKept s s' := by
  intro t hin
  rw [ht, hk]
  exact ⟨hin, rfl⟩

/-- A token that was not in use. -/
theorem TokensKept.insert {t : Nat} (hnew : t ∉ s.tokens) (ht : s'.tokens = insert t s.tokens)
    {x : AioToken} (hk : s'.tok = Function.update s.tok t x) : TokensKept s s' := by
  intro k hin
  have hne : k ≠ t := by
    rintro rfl
    exact hnew hin
  rw [ht, hk, Function.update_of_ne hne]
  exact ⟨Finset.mem_insert_of_mem hin, rfl⟩

end Relations

section Ops

variable {conf : CacheConf} {s s' : Cache} {c : Mem}

/-! ## New requests -/

theorem pickCce_valid {heap : Option (Nat × Nat)} (h : s.pickCce heap = some (c, s')) :
    ValidKept s s' ∧ TokensKept s s' := by
  have hinit : ∀ (pobj : Option Nat) (buffer : Mem) (pool : List Nat),
      ValidKept s { s.initCce c pobj buffer with pool := pool } := by
    intro pobj buffer pool
    apply ValidBut.of_ne (c := c)
    · intro d hd hdc
      exact (Finset.mem_insert.1 hd).resolve_left hdc
    · intro d hdc
      exact Function.update_of_ne hdc _ _
    · exact fun _ _ hup => hup
    · rintro - ⟨-, -, hok, -⟩
      simp [Cache.initCce, Cache.setCce] at hok
  unfold Cache.pickCce at h
  split at h
  · obtain ⟨rfl, rfl⟩ := Prod.mk.inj (Option.some.inj h)
    exact ⟨hinit _ _ _, .of_eq rfl rfl⟩
  · split at h
    · cases h
    · split at h
      · obtain ⟨rfl, rfl⟩ := Prod.mk.inj (Option.some.inj h)
        exact ⟨hinit _ _ s.pool, .of_eq rfl rfl⟩
      · cases h

/-- Memory that is handed out is the only one that changes. -/
theorem pickCce_other {heap : Option (Nat × Nat)} (h : s.pickCce heap = some (c, s')) {d : Mem}
    (hd : d ∈ s'.entries) (hdc : d ≠ c) : d ∈ s.entries ∧ s'.cce d = s.cce d := by
  unfold Cache.pickCce at h
  split at h
  · obtain ⟨rfl, rfl⟩ := Prod.mk.inj (Option.some.inj h)
    exact ⟨(Finset.mem_insert.1 hd).resolve_left hdc, Function.update_of_ne hdc _ _⟩
  · split at h
    · cases h
    · split at h
      · obtain ⟨rfl, rfl⟩ := Prod.mk.inj (Option.some.inj h)
        exact ⟨(Finset.mem_insert.1 hd).resolve_left hdc, Function.update_of_ne hdc _ _⟩
      · cases h

theorem alistAppend_keeps (c : Mem) (s s' : Cache) (h : s.alistAppend c = .ok s') :
    Leaves s s' ∧ s'.tokens = s.tokens ∧ s'.tok = s.tok := by
  obtain ⟨L, E, -, rfl⟩ := alistAppend_ok h
  exact ⟨.of_cce (fun _ hd => hd) rfl rfl, rfl, rfl⟩

theorem addBuffer_valid {heap : Option (Nat × Nat)} {x : Option Mem}
    (h : shfsCacheAddBuffer conf s heap = .ok (x, s')) : ValidKept s s' ∧ TokensKept s s' := by
  rcases addBuffer_cases h with ⟨-, rfl⟩ | ⟨c, u, -, hpick, happ⟩ | ⟨c, -, -, -, happ⟩
  · exact ⟨.refl _, .refl _⟩
  · obtain ⟨hv, ht⟩ := pickCce_valid hpick
    obtain ⟨hl, ht', hk⟩ := alistAppend_keeps _ _ _ happ
    exact ⟨hv.trans hl.valid, ht.trans (.of_eq ht' hk)⟩
  · obtain ⟨L, E, -, rfl⟩ := alistAppend_ok happ
    exact ⟨(Leaves.of_cce (fun _ hd => hd) rfl rfl).valid, .of_eq rfl rfl⟩

/-- The entry with which a `shfs_cache_add` waits. -/
def AddRet.waiting : AddRet → Option Mem
  | .waits c _ => some c
  | _ => none

/-- The entry that gets a new address has a request from then on, or waits for one, or goes. -/
theorem addRequest_valid {addr : Nat} {io : IoStart} {x : AddRet}
    (h : shfsCacheAddRequest conf s c addr io = .ok (x, s')) :
    ValidBut x.waiting s s' ∧ TokensKept s s' := by
  set s₁ := s.setCce c { s.cce c with addr := addr, gen := (s.cce c).gen + 1 } with hs₁
  have hother : ∀ d, d ≠ c → s₁.cce d = s.cce d := fun d hdc => Function.update_of_ne hdc _ _
  rcases addRequest_cases h hs₁ with ⟨e, rfl, rfl⟩ | ⟨t, ht, ⟨rfl, rfl⟩ | hend⟩
  · refine ⟨ValidBut.of_ne (c := c) ?_ ?_ ?_ ?_, .of_eq rfl rfl⟩
    · intro d hd _
      exact Finset.mem_of_mem_erase hd
    · intro d hdc
      exact (Function.update_of_ne hdc _ _).trans (hother d hdc)
    · exact fun _ _ hup => hup
    · rintro - ⟨hin, -⟩
      exact Finset.notMem_erase c _ hin
  · exact ⟨ValidBut.of_ne (c := c) (fun d hd _ => hd) hother (fun d _ hup => hup) fun hw => absurd rfl hw,
      .insert ht rfl rfl⟩
  · obtain ⟨L, E, rfl, rfl⟩ := addEnd_ok hend
    refine ⟨ValidBut.of_ne (c := c) (fun d hd _ => hd) ?_ (fun d _ hup => hup) ?_, .insert ht rfl rfl⟩
    · intro d hdc
      exact (Function.update_of_ne hdc _ _).trans (hother d hdc)
    · rintro - ⟨-, hnone, -⟩
      have hnone : ((Function.update s₁.cce c { s₁.cce c with t := some t }) c).t = none := hnone
      rw [Function.update_self] at hnone
      cases hnone

theorem add_valid {addr : Nat} {env : AddEnv} {x : AddRet}
    (h : shfsCacheAdd conf s addr env = .ok (x, s')) : ValidBut x.waiting s s' ∧ TokensKept s s' := by
  obtain ⟨⟨b, s₁⟩, hbuf, hreq⟩ := ok_of_bind h
  obtain ⟨hv, ht⟩ := addBuffer_valid hbuf
  cases b with
  | none =>
      obtain ⟨rfl, rfl⟩ := Prod.mk.inj (Except.ok.inj hreq)
      exact ⟨hv, ht⟩
  | some c =>
      obtain ⟨hv', ht'⟩ := addRequest_valid hreq
      exact ⟨hv.trans hv', ht.trans ht'⟩

theorem readahead_valid {addr : Nat} {env : Nat → AddEnv} {n i : Nat} {w : Option (Nat × Mem × Nat)}
    (h : shfsCacheReadahead conf addr env n i s = .ok (w, s')) :
    ValidBut (w.map fun x => x.2.1) s s' ∧ TokensKept s s' := by
  induction n generalizing i s with
  | zero =>
      obtain ⟨rfl, rfl⟩ := Prod.mk.inj (Except.ok.inj h)
      exact ⟨ValidKept.refl s, .refl s⟩
  | succ n ih =>
      rw [shfsCacheReadahead] at h
      split at h
      · obtain ⟨rfl, rfl⟩ := Prod.mk.inj (Except.ok.inj h)
        exact ⟨ValidKept.refl s, .refl s⟩
      · split at h
        · exact ih h
        · obtain ⟨⟨x, s₁⟩, hadd, h⟩ := ok_of_bind h
          obtain ⟨hv, ht⟩ := add_valid hadd
          cases x with
          | failed e =>
              obtain ⟨rfl, rfl⟩ := Prod.mk.inj (Except.ok.inj h)
              exact ⟨hv, ht⟩
          | added c =>
              obtain ⟨hv', ht'⟩ := ih h
              exact ⟨ValidKept.trans hv hv', ht.trans ht'⟩
          | waits c t =>
              obtain ⟨rfl, rfl⟩ := Prod.mk.inj (Except.ok.inj h)
              exact ⟨hv, ht⟩

/-- The end of a wait: the entry gets its request, or goes. -/
theorem addEnd_valid {p : Pending} {err : Option Errno} {x : AddRet}
    (h : shfsCacheAddEnd conf (s.goOn p) p.cce p.tok p.target err = .ok (x, s')) :
    ValidKept s s' ∧ s'.tok = s.tok := by
  have hup : ∀ d, d ≠ p.cce → s.SetUp d → (s.goOn p).SetUp d := by
    rintro d hd ⟨q, hq, rfl⟩
    refine ⟨q, (List.mem_erase_of_ne ?_).2 hq, rfl⟩
    rintro rfl
    exact hd rfl
  cases err with
  | some e =>
      obtain ⟨-, rfl⟩ := Prod.mk.inj (Except.ok.inj h)
      refine ⟨ValidBut.of_ne (c := p.cce) ?_ ?_ hup ?_, rfl⟩
      · intro d hd _
        exact Finset.mem_of_mem_erase hd
      · intro d hdc
        exact Function.update_of_ne hdc _ _
      · rintro - ⟨hin, -⟩
        exact Finset.notMem_erase p.cce _ hin
  | none =>
      obtain ⟨L, E, -, rfl⟩ := addEnd_ok h
      refine ⟨ValidBut.of_ne (c := p.cce) (fun _ hd _ => hd) ?_ hup ?_, rfl⟩
      · intro d hdc
        exact Function.update_of_ne hdc _ _
      · rintro - ⟨-, hnone, -⟩
        have hnone : ((Function.update s.cce p.cce { s.cce p.cce with t := some p.tok }) p.cce).t =
          none := hnone
        rw [Function.update_self] at hnone
        cases hnone

/-! ## References -/

theorem takeRef_valid (s : Cache) (c : Mem) : ValidKept s (s.takeRef c) ∧ TokensKept s (s.takeRef c) := by
  have hs := takeRef_same s c
  exact ⟨(Leaves.same hs).valid, .of_eq hs.tokens.1 hs.tokens.2⟩

/-- Counting one reference less. -/
theorem dropRef_keeps {gone : Cache → Except Fault Cache}
    (hgone : ∀ s s', gone s = .ok s' → Leaves s s' ∧ s'.tokens = s.tokens ∧ s'.tok = s.tok)
    (h : s.dropRef c gone = .ok s') : Leaves s s' ∧ s'.tokens = s.tokens ∧ s'.tok = s.tok := by
  have hcount : ∀ n k, Leaves s
      { s.setCce c { s.cce c with refcount := n } with nbRefEntries := k } := fun n k =>
    .same (.of_setCce rfl rfl ⟨rfl, rfl⟩ ⟨rfl, rfl⟩ ⟨rfl, rfl⟩ ⟨rfl, rfl, rfl, rfl⟩ rfl rfl)
  unfold Cache.dropRef at h
  simp only at h
  split at h
  · obtain ⟨hl, ht, hk⟩ := hgone _ _ h
    exact ⟨(hcount _ _).trans hl, ht, hk⟩
  · obtain rfl := Except.ok.inj h
    exact ⟨hcount _ s.nbRefEntries, rfl, rfl⟩

/-- Unlinking an entry and putting it back. -/
theorem unlinkPut_keeps (c : Mem) (s s' : Cache)
    (h : (do let s ← shfsCacheUnlink conf s c; return s.putCce c : Except Fault Cache) = .ok s') :
    Leaves s s' ∧ s'.tokens = s.tokens ∧ s'.tok = s.tok := by
  obtain ⟨s₁, hunlink, h⟩ := ok_of_bind h
  obtain rfl := Except.ok.inj h
  unfold shfsCacheUnlink at hunlink
  split at hunlink
  · cases hunlink
  · obtain rfl := Except.ok.inj hunlink
    exact ⟨.of_cce (fun d hd => Finset.mem_of_mem_erase hd) rfl rfl, rfl, rfl⟩

theorem destroy_keeps (c : Mem) (s s' : Cache) (h : shfsCacheDestroy conf s c = .ok s') :
    Leaves s s' ∧ s'.tokens = s.tokens ∧ s'.tok = s.tok := by
  unfold shfsCacheDestroy at h
  split at h
  · exact unlinkPut_keeps c s s' h
  · obtain rfl := Except.ok.inj h
    exact ⟨.of_cce (fun d hd => Finset.mem_of_mem_erase hd) rfl rfl, rfl, rfl⟩

theorem chainAppend_keeps (s : Cache) (c : Mem) (t : Nat) :
    Leaves s (s.chainAppend c t) ∧ (s.chainAppend c t).tokens = s.tokens ∧
      (s.chainAppend c t).tok = s.tok := by
  have hset : ∀ E, ∀ d, unchained ((s.setCce c { s.cce c with aioChain := E }).cce d) =
      unchained (s.cce d) := by
    intro E d
    by_cases hd : d = c
    · subst hd
      simp [Cache.setCce, unchained]
    · simp [Cache.setCce, hd]
  unfold Cache.chainAppend
  split
  · exact ⟨.of_unchained rfl (hset _) rfl, rfl, rfl⟩
  · exact ⟨.of_unchained rfl (hset _) rfl, rfl, rfl⟩

theorem abortToken_keeps (s : Cache) (c : Mem) (t : Option Nat) :
    Leaves s (abortToken s c t) ∧ (abortToken s c t).tok = s.tok := by
  cases t with
  | none => exact ⟨.refl s, rfl⟩
  | some t =>
      unfold abortToken
      simp only
      split
      · exact ⟨.of_unchained rfl (fun d => chainUnlink_unchained s c t d) rfl, rfl⟩
      · exact ⟨.of_cce (fun _ hd => hd) rfl rfl, rfl⟩

/-- A new token for a caller is in flight. -/
theorem areadChain_keeps {cb token : Option Nat} {x : AreadRet}
    (h : shfsCacheAreadChain s c cb token = .ok (x, s')) :
    (Leaves s s' ∧ TokensKept s s') ∧ ∀ d t, x = .pending d t → (s'.tok t).infly ≠ 0 := by
  unfold shfsCacheAreadChain at h
  split at h
  · obtain ⟨rfl, rfl⟩ := Prod.mk.inj (Except.ok.inj h)
    exact ⟨⟨.refl s, .refl s⟩, fun d t hx => by cases hx⟩
  · split at h
    · obtain ⟨s₁, hdrop, h⟩ := ok_of_bind h
      obtain ⟨rfl, rfl⟩ := Prod.mk.inj (Except.ok.inj h)
      obtain ⟨hl, ht, hk⟩ := dropRef_keeps (alistAppend_keeps c) hdrop
      exact ⟨⟨hl, .of_eq ht hk⟩, fun d t hx => by cases hx⟩
    · rename_i t hpick
      obtain ⟨rfl, rfl⟩ := Prod.mk.inj (Except.ok.inj h)
      have hnew : t ∉ s.tokens := by
        have := (Option.filter_eq_some_iff.1 hpick).2
        exact of_decide_eq_true this
      have hset : ∀ y : AioToken,
          Leaves s { s.setTok t y with tokens := insert t s.tokens } ∧
            TokensKept s { s.setTok t y with tokens := insert t s.tokens } :=
        fun y => ⟨.of_cce (fun _ hd => hd) rfl rfl, .insert hnew rfl rfl⟩
      obtain ⟨hl, ht⟩ := hset { infly := 1, ret := 0, cb := cb.map .user, serial := s.issued, chunk := 0 }
      obtain ⟨hl', ht', hk'⟩ := chainAppend_keeps { s.setTok t
        { infly := 1, ret := 0, cb := cb.map .user, serial := s.issued, chunk := 0 } with
        tokens := insert t s.tokens } c t
      refine ⟨⟨hl.trans hl', ht.trans (.of_eq ht' hk')⟩, fun d t' hx => ?_⟩
      obtain ⟨-, rfl⟩ := AreadRet.pending.inj hx
      rw [hk']
      simp [Cache.setTok]

/-- What a call of `shfs_cache_aread` returns is handed out. -/
theorem endCall_leaves (s : Cache) (x : AreadRet) : Leaves s (s.endCall (.ret x)) := by
  cases x with
  | err e => exact .refl s
  | ready c => exact .of_cce (fun _ hd => hd) rfl rfl
  | pending c t => exact .of_cce (fun _ hd => hd) rfl rfl

theorem endCall_tokens (s : Cache) (x : CallEnd) :
    (s.endCall x).tokens = s.tokens ∧ (s.endCall x).tok = s.tok := by
  cases x with
  | waits p => exact ⟨rfl, rfl⟩
  | ret x => cases x <;> exact ⟨rfl, rfl⟩

/-- What is known about the end of a call of `shfs_cache_aread`. -/
def CallValid (s : Cache) (x : CallEnd) (s' : Cache) : Prop :=
  (ValidKept s (s'.endCall x) ∧ TokensKept s (s'.endCall x)) ∧
    ∀ d t, x = .ret (.pending d t) → (s'.tok t).infly ≠ 0

theorem CallValid.err (h : ValidKept s s') (ht : TokensKept s s') (e : Errno) :
    CallValid s (.ret (.err e)) s' :=
  ⟨⟨h, ht⟩, fun d t hx => by cases hx⟩

theorem CallValid.trans {s₁ : Cache} {x : CallEnd} (h : ValidKept s s₁) (ht : TokensKept s s₁)
    (h' : CallValid s₁ x s') : CallValid s x s' :=
  ⟨⟨h.trans h'.1.1, ht.trans h'.1.2⟩, h'.2⟩

theorem areadAhead_valid {addr n i : Nat} {cb : Option Nat} {env : AreadEnv} {x : CallEnd}
    (h : shfsCacheAreadAhead conf s addr cb c n i env = .ok (x, s')) : CallValid s x s' := by
  obtain ⟨⟨w, s₁⟩, hahead, h⟩ := ok_of_bind h
  obtain ⟨hv, ht⟩ := readahead_valid hahead
  cases w with
  | none =>
      obtain ⟨⟨y, s₂⟩, hchain, h⟩ := ok_of_bind h
      obtain ⟨rfl, rfl⟩ := Prod.mk.inj (Except.ok.inj h)
      obtain ⟨⟨hl, ht'⟩, hfly⟩ := areadChain_keeps hchain
      have htok := endCall_tokens s₂ (.ret y)
      refine ⟨⟨ValidKept.trans hv (hl.trans (endCall_leaves s₂ y)).valid,
        (ht.trans ht').trans (.of_eq htok.1 htok.2)⟩, fun d t hx => ?_⟩
      obtain rfl := CallEnd.ret.inj hx
      exact hfly d t rfl
  | some y =>
      obtain ⟨j, d, t⟩ := y
      obtain ⟨rfl, rfl⟩ := Prod.mk.inj (Except.ok.inj h)
      exact ⟨⟨ValidBut.waits (p := ⟨addr, cb, d, t, some (c, j)⟩) hv, ht⟩, fun d t hx => by cases hx⟩

theorem areadRef_valid {addr : Nat} {cb : Option Nat} {env : AreadEnv} {x : CallEnd}
    (h : shfsCacheAreadRef conf s addr cb c env = .ok (x, s')) : CallValid s x s' := by
  obtain ⟨hv, ht⟩ := takeRef_valid s c
  exact (areadAhead_valid h).trans hv ht

theorem aread_valid {addr : Nat} {cb : Option Nat} {env : AreadEnv} {x : CallEnd}
    (h : shfsCacheAread conf s addr cb env = .ok (x, s')) : CallValid s x s' := by
  unfold shfsCacheAread at h
  split at h
  · obtain ⟨rfl, rfl⟩ := Prod.mk.inj (Except.ok.inj h)
    exact .err (.refl s) (.refl s) _
  split at h
  · obtain ⟨rfl, rfl⟩ := Prod.mk.inj (Except.ok.inj h)
    exact .err (.refl s) (.refl s) _
  obtain ⟨⟨y, s₁⟩, hget, h⟩ := ok_of_bind h
  have hgot : ValidBut y.waiting s s₁ ∧ TokensKept s s₁ := by
    unfold shfsCacheGet at hget
    split at hget
    · obtain ⟨rfl, rfl⟩ := Prod.mk.inj (Except.ok.inj hget)
      exact ⟨ValidKept.refl s, .refl s⟩
    · exact add_valid hget
  cases y with
  | failed e =>
      obtain ⟨rfl, rfl⟩ := Prod.mk.inj (Except.ok.inj h)
      exact .err hgot.1 hgot.2 e
  | added c => exact (areadRef_valid h).trans hgot.1 hgot.2
  | waits c t =>
      obtain ⟨rfl, rfl⟩ := Prod.mk.inj (Except.ok.inj h)
      exact ⟨⟨ValidBut.waits (p := ⟨addr, cb, c, t, none⟩) hgot.1, hgot.2⟩, fun d t hx => by cases hx⟩

/-- The token of the request that was set up may go, and go to the caller. -/
theorem resume_valid {p : Pending} {err : Option Errno} {env : AreadEnv} {x : CallEnd}
    (h : shfsCacheResume conf (s.goOn p) p err env = .ok (x, s')) :
    (ValidKept s (s'.endCall x) ∧ ∀ t ∈ s.tokens, t ≠ p.tok → (s'.endCall x).tok t = s.tok t) ∧
      ∀ d t, x = .ret (.pending d t) → (s'.tok t).infly ≠ 0 := by
  obtain ⟨⟨y, s₁⟩, hend, h⟩ := ok_of_bind h
  obtain ⟨hv, hk⟩ := addEnd_valid hend
  have hin : ∀ t ∈ s.tokens, t ≠ p.tok → t ∈ s₁.tokens := by
    intro t ht hne
    cases err with
    | some e =>
        obtain ⟨-, rfl⟩ := Prod.mk.inj (Except.ok.inj hend)
        exact Finset.mem_erase.2 ⟨hne, ht⟩
    | none =>
        obtain ⟨L, E, -, rfl⟩ := addEnd_ok hend
        exact ht
  have hcall : CallValid s₁ x s' := by
    cases hah : p.ahead with
    | none =>
        cases y with
        | failed e =>
            rw [hah] at h
            obtain ⟨rfl, rfl⟩ := Prod.mk.inj (Except.ok.inj h)
            exact .err (.refl _) (.refl _) e
        | added c =>
            rw [hah] at h
            exact areadRef_valid h
        | waits d t =>
            -- the end of `shfs_cache_add` does not wait
            cases err with
            | some e => cases (Prod.mk.inj (Except.ok.inj hend)).1
            | none =>
                obtain ⟨u, -, hend⟩ := ok_of_bind hend
                cases (Prod.mk.inj (Except.ok.inj hend)).1
    | some z =>
        obtain ⟨c, i⟩ := z
        cases y with
        | failed e | waits d t =>
            rw [hah] at h
            exact areadAhead_valid h
        | added d =>
            rw [hah] at h
            exact areadAhead_valid h
  refine ⟨⟨hv.trans hcall.1.1, fun t ht hne => ?_⟩, hcall.2⟩
  rw [(hcall.1.2 t (hin t ht hne)).2, hk]

theorem eblank_valid {heap : Option (Nat × Nat)} {x : Except Errno Mem}
    (h : shfsCacheEblank conf s heap = .ok (x, s')) : ValidKept s s' ∧ TokensKept s s' := by
  unfold shfsCacheEblank at h
  split at h
  · obtain ⟨-, rfl⟩ := Prod.mk.inj (Except.ok.inj h)
    exact ⟨.refl s, .refl s⟩
  obtain ⟨⟨y, s₁⟩, hbuf, h⟩ := ok_of_bind h
  have hfound : ValidKept s s₁ ∧ TokensKept s s₁ := by
    unfold shfsCacheEblankBuffer at hbuf
    split at hbuf
    · rename_i c s₂ hpick
      obtain ⟨-, rfl⟩ := Prod.mk.inj (Except.ok.inj hbuf)
      exact pickCce_valid hpick
    · split at hbuf
      · obtain ⟨-, rfl⟩ := Prod.mk.inj (Except.ok.inj hbuf)
        exact ⟨.refl s, .refl s⟩
      · obtain ⟨s₂, hunlink, hbuf⟩ := ok_of_bind hbuf
        obtain ⟨-, rfl⟩ := Prod.mk.inj (Except.ok.inj hbuf)
        unfold shfsCacheUnlink at hunlink
        split at hunlink
        · cases hunlink
        · obtain rfl := Except.ok.inj hunlink
          exact ⟨(Leaves.of_cce (fun _ hd => hd) rfl rfl).valid, .of_eq rfl rfl⟩
  cases y with
  | none =>
      obtain ⟨-, rfl⟩ := Prod.mk.inj (Except.ok.inj h)
      exact hfound
  | some c =>
      obtain ⟨-, rfl⟩ := Prod.mk.inj (Except.ok.inj h)
      refine ⟨hfound.1.trans (ValidBut.of_ne (c := c) (fun d hd _ => hd) ?_ (fun _ _ hup => hup) ?_),
        hfound.2.trans (.of_eq rfl rfl)⟩
      · intro d hdc
        exact Function.update_of_ne hdc _ _
      · rintro - ⟨-, -, hok, -⟩
        simp [Cache.setCce] at hok

/-! ## Steps -/

/-- Most events leave the entries alone, and the tokens. -/
theorem leaves_step {e : CacheEvent} (hs : (cache conf).Step s e s') (hl : e.leaves = true) :
    Leaves s s' ∧ s'.tok = s.tok := by
  obtain ⟨he, hn⟩ := hs
  cases e with
  | aread | resume | eblank | complete => cases hl
  | mount m =>
      obtain rfl := Except.ok.inj hn
      exact ⟨.of_cce (fun _ hd => hd) rfl rfl, rfl⟩
  | release r =>
      obtain ⟨s₁, hrel, hn⟩ := ok_of_bind hn
      obtain rfl := Except.ok.inj hn
      unfold shfsCacheRelease at hrel
      split at hrel
      · cases hrel
      split at hrel
      · cases hrel
      have hgone := dropRef_keeps (fun u u' hu => by
        split at hu
        · exact alistAppend_keeps r.cce u u' hu
        · exact destroy_keeps r.cce u u' hu) hrel
      exact ⟨hgone.1.trans (.of_cce (fun _ hd => hd) rfl rfl), hgone.2.2⟩
  | ioabort r =>
      obtain ⟨s₁, hrel, hn⟩ := ok_of_bind hn
      obtain rfl := Except.ok.inj hn
      unfold shfsCacheReleaseIoabort at hrel
      split at hrel
      · cases hrel
      split at hrel
      · cases hrel
      split at hrel
      · cases hrel
      obtain ⟨hv, hk⟩ := abortToken_keeps s r.cce r.tok
      have hgone := dropRef_keeps (fun u u' hu => by
        split at hu
        · exact destroy_keeps r.cce u u' hu
        · exact alistAppend_keeps r.cce u u' hu) hrel
      exact ⟨(hv.trans hgone.1).trans (.of_cce (fun _ hd => hd) rfl rfl), hgone.2.2.trans hk⟩
  | finalize r =>
      simp only [cache, cacheNext] at hn
      split at hn
      · obtain rfl := Except.ok.inj hn
        exact ⟨.refl s, rfl⟩
      · obtain rfl := Except.ok.inj hn
        exact ⟨.of_cce (fun _ hd => hd) rfl rfl, rfl⟩
  | flush =>
      obtain rfl := Except.ok.inj hn
      exact ⟨.of_cce (fun _ hd => hd) rfl rfl, rfl⟩
  | flushNext =>
      have hn : flushNext conf s = .ok s' := hn
      unfold flushNext at hn
      split at hn
      · obtain rfl := Except.ok.inj hn
        exact ⟨.of_cce (fun _ hd => hd) rfl rfl, rfl⟩
      · rename_i c hfirst
        split at hn
        · obtain rfl := Except.ok.inj hn
          refine ⟨⟨fun _ hd => hd, fun d => ?_, rfl⟩, rfl⟩
          by_cases hd : d = c
          · subst hd
            simp [Cache.setCce]
          · simp [Cache.setCce, hd]
        · obtain ⟨hv, -, hk⟩ := unlinkPut_keeps c s s' hn
          exact ⟨hv, hk⟩
  | flushed =>
      obtain ⟨c, hpc, -⟩ := he
      have hn : flushDone conf s c = .ok s' := by
        simp only [cache, cacheNext, hpc] at hn
        exact hn
      obtain ⟨u, hu, hn⟩ := ok_of_bind hn
      obtain rfl := Except.ok.inj hn
      have hput := @unlinkPut_keeps conf c _ (u.putCce c) (by rw [hu]; rfl)
      have hcount : Leaves s (s.setCce c { s.cce c with refcount := 0 }) :=
        .same (.of_setCce rfl rfl ⟨rfl, rfl⟩ ⟨rfl, rfl⟩ ⟨rfl, rfl⟩ ⟨rfl, rfl, rfl, rfl⟩ rfl rfl)
      exact ⟨(hcount.trans hput.1).trans (.of_cce (fun _ hd => hd) rfl rfl), hput.2.2⟩

section Step

variable {P : Set Mem → Links Mem → Ends Mem → Prop} {Z : Nat → Prop} {t : Nat} {ret : Int}

/-- A step that is no completion makes no entry valid, and changes no token of a caller. -/
theorem valid_step {e : CacheEvent} (h : Sound P Z conf s) (hs : (cache conf).Step s e s')
    (hno : ∀ t ret, e ≠ .complete t ret) : ValidKept s s' ∧
      ∀ t ∈ s.tokens, (∀ c, (s.tok t).cb ≠ some (.cce c)) → s'.tok t = s.tok t := by
  cases e with
  | aread addr cb env =>
      obtain ⟨⟨x, s₁⟩, hread, hn⟩ := ok_of_bind hs.2
      obtain rfl := Except.ok.inj hn
      obtain ⟨⟨hv, ht⟩, -⟩ := aread_valid hread
      exact ⟨hv, fun k hk _ => (ht k hk).2⟩
  | resume p err env =>
      obtain ⟨⟨x, s₁⟩, hread, hn⟩ := ok_of_bind hs.2
      obtain rfl := Except.ok.inj hn
      obtain ⟨⟨hv, ht⟩, -⟩ := resume_valid hread
      refine ⟨hv, fun k hk huser => ht k hk ?_⟩
      rintro rfl
      exact huser p.cce (h.inv.setups.token p hs.1.2).2.1
  | eblank heap =>
      obtain ⟨⟨x, s₁⟩, hblank, hn⟩ := ok_of_bind hs.2
      obtain ⟨hv, ht⟩ := eblank_valid hblank
      cases x with
      | error e =>
          obtain rfl := Except.ok.inj hn
          exact ⟨hv, fun k hk _ => (ht k hk).2⟩
      | ok c =>
          obtain rfl := Except.ok.inj hn
          exact ⟨hv.trans (Leaves.of_cce (fun _ hd => hd) rfl rfl).valid, fun k hk _ => (ht k hk).2⟩
  | complete t ret => exact absurd rfl (hno t ret)
  | _ =>
      obtain ⟨hl, hk⟩ := leaves_step hs rfl
      exact ⟨hl.valid, fun k _ _ => congrFun hk k⟩

/-- Both ways out of a completion leave entries and tokens as the notification does. -/
theorem complete_out (h : Sound P Z conf s) (ht : t ∈ s.tokens) (hcb : (s.tok t).cb = some (.cce c))
    (ho : CalmEvent conf s (.complete t ret)) (hn : cacheNext conf s (.complete t ret) = .ok s') :
    (∀ d ∈ s'.entries, d ∈ s.entries) ∧ s'.cce = (notified s t c ret).cce ∧
      s'.tok = (notified s t c ret).tok ∧ s'.adds = s.adds := by
  rw [complete_eq hcb, cceAiocb_eq h ht hcb ho] at hn
  split at hn
  · obtain rfl := Except.ok.inj hn
    exact ⟨fun d hd => Finset.mem_of_mem_erase hd, rfl, rfl, rfl⟩
  · obtain rfl := Except.ok.inj hn
    exact ⟨fun d hd => hd, rfl, rfl, rfl⟩

/-- A completion without an error makes its entry valid, and no completion makes another one valid. The
tokens of references on other entries are as before. -/
theorem complete_valid (h : Sound P Z conf s) (ht : t ∈ s.tokens) (hcb : (s.tok t).cb = some (.cce c))
    (ho : CalmEvent conf s (.complete t ret)) (hn : cacheNext conf s (.complete t ret) = .ok s') :
    (∀ d, Valid s' d → (s'.cce d).addr = (s.cce d).addr ∧ (s'.cce d).buffer = (s.cce d).buffer ∧
      d ∈ s.entries ∧ (d = c ∧ 0 ≤ ret ∨ d ≠ c ∧ Valid s d)) ∧
    ∀ r ∈ s.refs, ∀ k, r.tok = some k → r.cce ≠ c → s'.tok k = s.tok k := by
  obtain ⟨hent, hcce, htok, hadds⟩ := complete_out h ht hcb ho hn
  constructor
  · intro d hd
    obtain ⟨hin, hnone, hok, hup⟩ := hd
    rw [setUp_congr hadds] at hup
    rw [hcce] at hnone hok ⊢
    obtain ⟨h1, -, -, h4, h5, -⟩ := unchained_eq (notified_cce s t c ret d).1
    obtain ⟨f1, -, -, f4, -⟩ := takeResult_fields s t c ret d
    refine ⟨h1.trans f1, h4.trans f4, hent d hin, ?_⟩
    by_cases hdc : d = c
    · left
      rw [h5, takeResult_cce, if_pos hdc] at hok
      exact ⟨hdc, not_lt.1 (of_decide_eq_false hok)⟩
    · right
      rw [(notified_cce s t c ret d).2, if_neg hdc] at hnone hok
      exact ⟨hdc, hent d hin, hnone, hok, hup⟩
  · intro r hr k hk hrc
    have hkt : k ≠ t := by
      rintro rfl
      exact (h.toks.refTok r hr k hk).2.1 c hcb
    have hout : k ∉ toksOn s.refs c := by
      intro hin
      obtain ⟨r', hr', hc', hk'⟩ := mem_toksOn.1 hin
      exact hrc ((h.toks.tok_inj hr hr' hk hk').symm ▸ hc')
    rw [htok, notified_tok hkt, if_neg hout]

end Step

end Ops

end Minipython.Shfs
