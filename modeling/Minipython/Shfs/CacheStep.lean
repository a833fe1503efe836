/-
# Minipython.Shfs.CacheStep — one step of the cache under its callers

`Sound` is what every orderly step keeps, whichever discipline ties the list of available entries to
them. Two more things have to be known about a step: that it asks for addresses that may be listed
(`AddrOk`), and that a release which unlinks its entry twice does not destroy the tie (`LoseOk`).

A call of `shfs_cache_aread` goes through three kinds of states: before it has its entry (`Sound`), once
it has counted its reference (`InCall`), and while it waits, when what its stack frame says of the entries
is part of the invariant (`CallOk`). The end of a wait leads back to one of the first two.

Along the way each event shows what it leaves alone (`Kept`).
-/
import Minipython.Shfs.CacheLog

namespace Minipython.Shfs

open Minipython.Lib
open Cache

/-- The iteration of reading ahead that a call comes to after its wait. -/
def Pending.next (p : Pending) : Nat := (p.ahead.map fun x => x.2 + 1).getD 1

/-- What the stack frame of a call that waits says. -/
structure CallOk (Z : Nat → Prop) (conf : CacheConf) (s : Cache) (p : Pending) : Prop where
  addr : p.addr ≠ 0
  next : p.next ≤ 1 + conf.readahead
  ahead : AheadOk Z conf p.addr p.next (1 + conf.readahead)
  holds : ∀ c, p.holds = some c → (s.cce c).addr = p.addr

/-- The invariant of the cache under its callers. -/
structure Sound (P : Set Mem → Links Mem → Ends Mem → Prop) (Z : Nat → Prop) (conf : CacheConf)
    (s : Cache) : Prop where
  inv : CacheInv P Z conf (refsOn s) s
  toks : TokInv s
  log : LogInv s
  calls : ∀ p ∈ s.adds, CallOk Z conf s p
  flush : ∀ c, s.pc = .wait c → ¬ s.SetUp c

/-- The same inside a call that has counted its reference on the entry `c`. -/
structure InCall (P : Set Mem → Links Mem → Ends Mem → Prop) (Z : Nat → Prop) (conf : CacheConf)
    (c : Mem) (s : Cache) : Prop where
  inv : CacheInv P Z conf (bump (refsOn s) c) s
  toks : TokInv s
  log : LogInv s
  calls : ∀ p ∈ s.adds, CallOk Z conf s p

/-- The invariant where no call waits. -/
structure Good (P : Set Mem → Links Mem → Ends Mem → Prop) (Z : Nat → Prop) (conf : CacheConf)
    (s : Cache) : Prop extends Sound P Z conf s where
  quiet : s.adds = []

/-- The addresses that an event asks for. -/
def AddrOk (Z : Nat → Prop) (conf : CacheConf) : CacheEvent → Prop
  | .aread addr _ _ => addr ≠ 0 → addr ≤ conf.volsize → Z addr ∧ AheadOk Z conf addr 1 (1 + conf.readahead)
  | _ => True

/-- The release of the last reference on an entry with an address whose I/O failed. -/
def Wrecks (s : Cache) (r : Ref) : Prop :=
  (s.cce r.cce).refcount = 1 ∧ (s.cce r.cce).t = none ∧ (s.cce r.cce).invalid = true ∧
    (s.cce r.cce).addr ≠ 0

/-- What such a release must not destroy. -/
def LoseOk (P : Set Mem → Links Mem → Ends Mem → Prop) (s : Cache) : CacheEvent → Prop
  | .release r => Wrecks s r → P (avail (refsOn s) s) s.alinks DList.emptyEnds
  | .ioabort r => Wrecks s r → P (avail (refsOn s) s) s.alinks DList.emptyEnds
  | _ => True

/-- An entry was not handed to anybody else: it was not given back, and its address and buffer are as
before. -/
def Kept (s s' : Cache) (c : Mem) : Prop :=
  c ∈ s'.entries ∧ (s'.cce c).addr = (s.cce c).addr ∧ (s'.cce c).buffer = (s.cce c).buffer ∧
    (s'.cce c).gen = (s.cce c).gen

/-- An entry has a reference that the event does not give back, or a request that it does not end, or a
call waits with it or with a reference on it and does not go on. -/
def InUse (s : Cache) (e : CacheEvent) (c : Mem) : Prop :=
  (∃ r ∈ s.refs, r.cce = c ∧ e ≠ .release r ∧ e ≠ .ioabort r) ∨
    (∃ t, (s.cce c).t = some t ∧ ∀ ret, e ≠ .complete t ret) ∨
    ∃ p ∈ s.adds, (p.cce = c ∨ p.holds = some c) ∧ ∀ err env, e ≠ .resume p err env

/-- The notification of the tokens on an entry, in the order in which they were given out. -/
def notices (s : Cache) (c : Mem) (ret : Int) : List TokEvent :=
  (toksOn s.refs c).map fun k =>
    .notified (s.tok k).serial (if ret < 0 then ret else 0) (s.tok k).cb

/-- What a call of `shfs_cache_aread` does to the references and to the log, up to its end or wait. -/
def Called (s s' : Cache) : Prop :=
  s'.refs = s.refs ∧ s'.log = s.log ∨
    ∃ c t, s'.refs = s.refs ++ [⟨c, t, s.issued, false⟩] ∧
      s'.log = s.log ++ if t = none then [] else [.issued s.issued]

/-- What a call of `shfs_cache_aread` of the chunk `addr` comes to: an entry of that chunk, whose request is
done if there is no token, or a wait of this call. -/
def EntryOf (addr : Nat) (cb : Option Nat) (s : Cache) : CallEnd → Prop
  | .ret (.err _) => True
  | .ret (.ready c) => (s.cce c).addr = addr ∧ s.aioIsDone (s.cce c).t = true
  | .ret (.pending c _) => (s.cce c).addr = addr
  | .waits p => p.addr = addr ∧ p.cb = cb

/-- What an event does to the references and to the log. -/
def Recorded (s : Cache) (e : CacheEvent) (s' : Cache) : Prop :=
  match e with
  | .aread _ _ _ => Called s s'
  | .resume _ _ _ => Called s s'
  | .eblank _ => s'.refs = s.refs ∧ s'.log = s.log ∨
      ∃ c, s'.refs = s.refs ++ [⟨c, none, s.issued, true⟩] ∧ (s'.cce c).addr = 0 ∧ s'.log = s.log
  | .release r => s'.refs = s.refs.erase r ∧ s'.log = s.log
  | .ioabort r => s'.refs = s.refs.erase r ∧
      s'.log = s.log ++ if s.aioIsDone r.tok = true then [] else [.aborted r.serial]
  | .finalize r => s'.refs = (s.refs.map fun r' => if r' = r then { r with tok := none } else r') ∧
      s'.log = s.log
  | .complete t ret => s'.refs = s.refs ∧
      ∀ c, (s.tok t).cb = some (.cce c) → s'.log = s.log ++ notices s c ret ∧
        ∀ k ∈ toksOn s.refs c,
          s'.tok k = { s.tok k with ret := if ret < 0 then ret else 0, infly := 0 }
  | _ => s'.refs = s.refs ∧ s'.log = s.log

theorem Kept.refl {s : Cache} {c : Mem} (hc : c ∈ s.entries) : Kept s s c := ⟨hc, rfl, rfl, rfl⟩

theorem Kept.of_eq {s s' : Cache} {c : Mem} (hc : c ∈ s'.entries) (he : s'.cce c = s.cce c) :
    Kept s s' c := ⟨hc, by rw [he], by rw [he], by rw [he]⟩

theorem Kept.trans {s₁ s₂ s₃ : Cache} {c : Mem} (h : Kept s₁ s₂ c) (h' : Kept s₂ s₃ c) :
    Kept s₁ s₃ c :=
  ⟨h'.1, h'.2.1.trans h.2.1, h'.2.2.1.trans h.2.2.1, h'.2.2.2.trans h.2.2.2⟩

section Step

variable {P : Set Mem → Links Mem → Ends Mem → Prop} {Z : Nat → Prop} {conf : CacheConf}
  {R : Mem → Nat} {s s' : Cache} {c : Mem} {r : Ref}

/-- The callers' references are on entries. -/
theorem Sound.held (h : Sound P Z conf s) (hr : r ∈ s.refs) : r.cce ∈ s.entries :=
  h.inv.counts.held _ (refsOn_pos hr)

theorem isDone_congr {k : Option Nat} (h : ∀ t, k = some t → s'.tok t = s.tok t) :
    s'.aioIsDone k = s.aioIsDone k := by
  cases k with
  | none => rfl
  | some t => simp [Cache.aioIsDone, h t rfl]

/-- Outside a flush no entry is waited for. -/
theorem not_flushing (hpc : s.pc = .idle) : ∀ c, s.pc = .wait c → ¬ s.SetUp c := by
  intro c hw
  rw [hpc] at hw
  cases hw

/-- A change that only callers can tell. -/
theorem SameDevice.refl (s : Cache) : SameDevice s s :=
  ⟨fun _ ht _ _ => ⟨ht, rfl⟩, fun _ ht _ _ => ⟨ht, rfl⟩⟩

theorem CacheInv.callers (h : CacheInv P Z conf R s) {refs : List Ref} {issued : Nat}
    {log : List TokEvent} :
    CacheInv P Z conf R { s with refs := refs, issued := issued, log := log } :=
  h.congr rfl rfl ⟨rfl, rfl⟩ ⟨rfl, rfl⟩ ⟨rfl, rfl⟩ rfl rfl (fun _ => rfl) (SameDevice.refl s)

/-- A stack frame says the same while the entry that its call holds keeps its address. -/
theorem CallOk.congr {p : Pending} (h : CallOk Z conf s p)
    (hc : ∀ c, p.holds = some c → (s'.cce c).addr = (s.cce c).addr) : CallOk Z conf s' p :=
  ⟨h.addr, h.next, h.ahead, fun c hp => (hc c hp).trans (h.holds c hp)⟩

/-! ## Reading -/

/-- The entry of a chunk, in the cache or with a new request. -/
theorem areadGet (hP : DList.Discipline P) (h : Sound P Z conf s) (hpc : s.pc = .idle)
    {addr : Nat} (hZ : Z addr) {env : AddEnv}
    (hroom : ∀ c, shfsCacheFind conf s addr = some c → (s.cce c).refcount.toNat + 1 < u32Size)
    (hcalm : shfsCacheFind conf s addr = none → calmPick s env.heap = true) {x : AddRet}
    (hx : shfsCacheGet conf s addr env = .ok (x, s')) :
    AddOk P Z conf (refsOn s) addr s' x ∧ Grows (refsOn s) s s' := by
  unfold shfsCacheGet at hx
  cases hf : shfsCacheFind conf s addr with
  | some c =>
      rw [hf] at hx
      obtain ⟨rfl, rfl⟩ := Prod.mk.inj (Except.ok.inj hx)
      obtain ⟨hc, he⟩ := h.inv.lists.find_some (fun _ hd => hd.1) hf
      exact ⟨⟨h.inv, hc.1, he, hc.2.2, hroom c hf⟩, Grows.refl _ _⟩
  | none =>
      rw [hf] at hx
      exact h.inv.add hP hpc hZ (hcalm hf) hx

/-- What is left alone by operations that bring in entries is kept. -/
theorem Grows.kept (hg : Grows R s s') (hc : c ∈ s.entries) (hbusy : Busy R s c) : Kept s s' c :=
  Kept.of_eq (hg.frozen c hc hbusy).1 (hg.frozen c hc hbusy).2

theorem LogInv.grows (h : LogInv s) (ht : TokInv s) (hg : Grows R s s') : LogInv s' := by
  refine h.congr hg.callers.2.2.1 (le_of_eq hg.callers.2.1.symm) fun n => ?_
  refine owed_congr hg.callers.1 (fun r hr => isDone_congr fun t hrt => ?_) n
  exact (hg.tokens t (ht.refTok r hr t hrt).1).2

theorem LogInv.same (h : LogInv s) (hs : SameBut c s s') : LogInv s' :=
  h.congr hs.callers.2.2.1 (le_of_eq hs.callers.2.1.symm) fun n =>
    owed_congr hs.callers.1 (fun r _ => isDone_congr fun t _ => by rw [hs.tokens.2]) n

theorem LogInv.settle {p : Pending} (h : LogInv s) (hs : CallSettled p s s') : LogInv s' :=
  h.congr hs.callers.2.2.1 (le_of_eq hs.callers.2.1.symm) fun n =>
    owed_congr hs.callers.1 (fun r _ => isDone_congr fun t _ => by rw [hs.tok]) n

theorem SameBut.kept (hs : SameBut c s s') {d : Mem} (hd : d ∈ s.entries) : Kept s s' d := by
  obtain ⟨n, he, -⟩ := hs.cce d
  refine ⟨by rw [hs.entries]; exact hd, ?_, ?_, ?_⟩ <;> rw [he]

/-- The stack frames of calls that wait, in a state with new entries and requests. -/
theorem CallOk.grows {p : Pending} (h : CallOk Z conf s p) (hinv : CacheInv P Z conf R s)
    (hR : ∀ d, p.holds = some d → R d ≠ 0) (hg : Grows R s s') : CallOk Z conf s' p :=
  h.congr fun d hd => by rw [(hg.frozen d (hinv.counts.held d (hR d hd)) (.inl (hR d hd))).2]

/-- A read whose request is done hands out the entry. -/
theorem InCall.ready (h : InCall P Z conf c s) (hpc : s.pc = .idle)
    (hdone : s.aioIsDone (s.cce c).t = true) : Sound P Z conf (s.giveRef c none false) := by
  obtain ⟨hinv, ht, hl, hcalls⟩ := h
  have hc := hinv.counts.held c (bump_self_ne _ _)
  refine ⟨?_, ht.giveDone ((hinv.privates.isDone hc).1 hdone) false, hl.giveDone false,
    fun p hp => (hcalls p hp).congr fun _ _ => rfl, not_flushing hpc⟩
  rw [refsOn_give]
  exact hinv.callers

/-- A read without a token gives its reference back. -/
theorem InCall.turnedAway (hP : DList.Discipline P) (h : InCall P Z conf c s) (hpc : s.pc = .idle)
    (ha : (s.cce c).addr ≠ 0) (hdrop : s.dropRef c (·.alistAppend c) = .ok s') :
    Sound P Z conf s' ∧ ∀ d ∈ s.entries, Kept s s' d := by
  obtain ⟨hinv, ht, hl, hcalls⟩ := h
  have hback : CacheInv P Z conf (unbump (bump (refsOn s) c) c) s' ∧ SameBut c s s' := by
    rcases hinv.dropRef hpc (bump_self_ne _ _) hdrop with ⟨-, hi, hs⟩ | ⟨s₂, hd, happ⟩
    · exact ⟨hi, hs⟩
    · exact hd.append hP ha happ
  obtain ⟨hi, hs⟩ := hback
  rw [unbump_bump] at hi
  refine ⟨⟨?_, ht.same hs, hl.same hs, fun p hp => ?_, not_flushing (hs.pc.trans hpc)⟩,
    fun d hd => hs.kept hd⟩
  · rw [refsOn_congr hs.callers.1 hs.adds]
    exact hi
  · exact (hcalls p (hs.adds ▸ hp)).congr fun d _ => (hs.fields d).1

/-- A read whose request is in flight hands out a token at the end of the chain. -/
theorem InCall.pending (h : InCall P Z conf c s) (hpc : s.pc = .idle)
    (hdone : ¬ s.aioIsDone (s.cce c).t = true) {cb : Option Nat} {t : Nat} (hnew : t ∉ s.tokens)
    {s₁ : Cache} (hs₁ : s₁ = { s.setTok t
        { infly := 1, ret := 0, cb := cb.map .user, serial := s.issued, chunk := 0 }
      with tokens := insert t s.tokens }) :
    Sound P Z conf ((s₁.chainAppend c t).giveRef c (some t) false) ∧
      ∀ d ∈ s.entries, Kept s ((s₁.chainAppend c t).giveRef c (some t) false) d := by
  obtain ⟨hinv, ht, hl, hcalls⟩ := h
  have hc := hinv.counts.held c (bump_self_ne _ _)
  have hfly : (s.cce c).t ≠ none := fun he => hdone ((hinv.privates.isDone hc).2 he)
  obtain ⟨htok, L, E, heq⟩ := ht.givePending hc hfly hnew cb rfl
  rw [← hs₁] at htok heq
  have hold : ∀ k ∈ s.tokens, s₁.tok k = s.tok k := by
    intro k hk
    rw [hs₁]
    refine Function.update_of_ne ?_ _ _
    rintro rfl
    exact hnew hk
  have hself : s₁.tok t =
      { infly := 1, ret := 0, cb := cb.map .user, serial := s.issued, chunk := 0 } := by
    rw [hs₁]
    exact Function.update_self _ _ _
  -- the chain of the entry is longer, and there is a token more
  have hframe : (s₁.chainAppend c t).log = s.log ∧ (s₁.chainAppend c t).issued = s.issued ∧
      (s₁.chainAppend c t).refs = s.refs ∧ (s₁.chainAppend c t).tok = s₁.tok ∧
      (s₁.chainAppend c t).adds = s.adds ∧ (s₁.chainAppend c t).pc = s.pc ∧
      (s₁.chainAppend c t).entries = s.entries ∧ (s₁.chainAppend c t).tokens = insert t s.tokens := by
    rw [heq, hs₁]
    exact ⟨rfl, rfl, rfl, rfl, rfl, rfl, rfl, rfl⟩
  obtain ⟨hlog, hissued, hrefs, htoks, hadds, hpc', hent, htokens⟩ := hframe
  have hcce : ∀ d, unchained ((s₁.chainAppend c t).cce d) = unchained (s.cce d) := by
    intro d
    rw [heq, hs₁]
    show unchained ((Function.update s.cce c _) d) = _
    by_cases hd : d = c
    · subst hd
      rw [Function.update_self]
      rfl
    · rw [Function.update_of_ne hd]
  have hchained : CacheInv P Z conf (bump (refsOn s) c) (s₁.chainAppend c t) := by
    have hlists : ((s₁.chainAppend c t).alinks = s.alinks ∧ (s₁.chainAppend c t).alist = s.alist) ∧
        ((s₁.chainAppend c t).clinks = s.clinks ∧ (s₁.chainAppend c t).htable = s.htable) ∧
        ((s₁.chainAppend c t).pool = s.pool ∧ (s₁.chainAppend c t).nbEntries = s.nbEntries) ∧
        (s₁.chainAppend c t).nbRefEntries = s.nbRefEntries := by
      rw [heq, hs₁]
      exact ⟨⟨rfl, rfl⟩, ⟨rfl, rfl⟩, ⟨rfl, rfl⟩, rfl⟩
    obtain ⟨ha, hcl, hm, hn⟩ := hlists
    refine hinv.congr hent hadds ha hcl hm hn hpc' hcce ⟨?_, ?_⟩
    · intro k hk d _
      rw [htokens, htoks]
      exact ⟨Finset.mem_insert_of_mem hk, hold k hk⟩
    · intro k hk d hcb
      rw [htokens] at hk
      rw [htoks] at hcb ⊢
      rcases Finset.mem_insert.1 hk with rfl | hk
      · rw [hself] at hcb
        cases cb with
        | none => cases hcb
        | some _ => cases hcb
      · exact ⟨hk, hold k hk⟩
  refine ⟨⟨?_, htok, ?_, fun p hp => ?_, not_flushing (hpc'.trans hpc)⟩, fun d hd => ?_⟩
  · rw [refsOn_give, refsOn_congr hrefs hadds]
    exact hchained.callers
  · refine hl.givePending hlog hissued hrefs (fun r hr => ?_) ?_
    · refine isDone_congr fun k hk => ?_
      rw [htoks, hold k (ht.refTok r hr k hk).1]
    · show (((s₁.chainAppend c t).tok t).infly == 0) = false
      rw [htoks, hself]
      rfl
  · refine (hcalls p ?_).congr fun d _ => (unchained_eq (hcce d)).1
    rw [← hadds]
    exact hp
  · obtain ⟨h1, -, -, h4, -, -, h7⟩ := unchained_eq (hcce d)
    refine ⟨?_, h1, h4, h7⟩
    show d ∈ (s₁.chainAppend c t).entries
    rw [hent]
    exact hd

/-- The end of a read: done already, out of tokens, or a token for the caller. -/
theorem areadChain (hP : DList.Discipline P) (h : InCall P Z conf c s) (hpc : s.pc = .idle)
    (ha : (s.cce c).addr ≠ 0) {cb token : Option Nat} {x : AreadRet}
    (hx : shfsCacheAreadChain s c cb token = .ok (x, s')) :
    Sound P Z conf (s'.endCall (.ret x)) ∧ ∀ d ∈ s.entries, Kept s (s'.endCall (.ret x)) d := by
  unfold shfsCacheAreadChain at hx
  by_cases hdone : s.aioIsDone (s.cce c).t = true
  · rw [if_pos hdone] at hx
    obtain ⟨rfl, rfl⟩ := Prod.mk.inj (Except.ok.inj hx)
    exact ⟨h.ready hpc hdone, fun d hd => Kept.refl hd⟩
  · rw [if_neg hdone] at hx
    cases hp : s.pickToken token with
    | none =>
        rw [hp] at hx
        obtain ⟨s₁, hdrop, hx⟩ := ok_of_bind hx
        obtain ⟨rfl, rfl⟩ := Prod.mk.inj (Except.ok.inj hx)
        exact h.turnedAway hP hpc ha hdrop
    | some t =>
        rw [hp] at hx
        obtain ⟨rfl, rfl⟩ := Prod.mk.inj (Except.ok.inj hx)
        have hnew : t ∉ s.tokens := by
          have := Option.mem_filter_iff.1 (show t ∈ token.filter (· ∉ s.tokens) from hp)
          simpa using this.2
        exact h.pending hpc hdone hnew rfl

/-- The end of a read leaves the records of the callers alone. -/
theorem areadChain_records {cb token : Option Nat} {x : AreadRet}
    (hx : shfsCacheAreadChain s c cb token = .ok (x, s')) :
    s'.refs = s.refs ∧ s'.issued = s.issued ∧ s'.log = s.log := by
  unfold shfsCacheAreadChain at hx
  split at hx
  · obtain ⟨-, rfl⟩ := Prod.mk.inj (Except.ok.inj hx)
    exact ⟨rfl, rfl, rfl⟩
  · cases hp : s.pickToken token with
    | none =>
        rw [hp] at hx
        obtain ⟨s₁, hdrop, hx⟩ := ok_of_bind hx
        obtain ⟨-, rfl⟩ := Prod.mk.inj (Except.ok.inj hx)
        unfold Cache.dropRef at hdrop
        simp only at hdrop
        split at hdrop
        · obtain ⟨L, E, -, rfl⟩ := alistAppend_ok hdrop
          exact ⟨rfl, rfl, rfl⟩
        · obtain rfl := Except.ok.inj hdrop
          exact ⟨rfl, rfl, rfl⟩
    | some t =>
        rw [hp] at hx
        obtain ⟨-, rfl⟩ := Prod.mk.inj (Except.ok.inj hx)
        unfold Cache.chainAppend
        split <;> exact ⟨rfl, rfl, rfl⟩

/-- What a call hands out is recorded. -/
theorem Called.endCall (hrefs : s'.refs = s.refs) (hissued : s'.issued = s.issued)
    (hlog : s'.log = s.log) (x : CallEnd) : Called s (s'.endCall x) := by
  cases x with
  | waits p => exact .inl ⟨hrefs, hlog⟩
  | ret x =>
      cases x with
      | err e => exact .inl ⟨hrefs, hlog⟩
      | ready c => exact .inr ⟨c, none, by rw [← hrefs, ← hissued]; rfl, by rw [← hlog, ← hissued]; rfl⟩
      | pending c t =>
          exact .inr ⟨c, some t, by rw [← hrefs, ← hissued]; rfl, by rw [← hlog, ← hissued]; rfl⟩

theorem Called.of_eq (hrefs : s₁.refs = s.refs) (hissued : s₁.issued = s.issued)
    (hlog : s₁.log = s.log) (h : Called s₁ s') : Called s s' := by
  unfold Called at h ⊢
  rwa [hrefs, hissued, hlog] at h

/-- What the end of a read says of its entry. -/
theorem areadChain_entry {addr : Nat} {cb cb' token : Option Nat} {x : AreadRet}
    (ha : (s.cce c).addr = addr) (h : shfsCacheAreadChain s c cb token = .ok (x, s')) :
    EntryOf addr cb' s' (.ret x) := by
  unfold shfsCacheAreadChain at h
  split at h
  · rename_i hdone
    obtain ⟨rfl, rfl⟩ := Prod.mk.inj (Except.ok.inj h)
    exact ⟨ha, hdone⟩
  · split at h
    · obtain ⟨s₁, -, h⟩ := ok_of_bind h
      obtain ⟨rfl, rfl⟩ := Prod.mk.inj (Except.ok.inj h)
      trivial
    · obtain ⟨rfl, rfl⟩ := Prod.mk.inj (Except.ok.inj h)
      show (Cache.cce (Cache.chainAppend _ _ _) c).addr = addr
      unfold Cache.chainAppend
      split
      · simpa [Cache.setCce, Cache.setTok] using ha
      · simpa [Cache.setCce, Cache.setTok] using ha

/-- What a call of `shfs_cache_aread` of the chunk `addr` does, up to its end or to a wait: the invariant
is kept, and the entries in `B` are left alone. -/
structure CallStep (P : Set Mem → Links Mem → Ends Mem → Prop) (Z : Nat → Prop) (conf : CacheConf)
    (addr : Nat) (cb : Option Nat) (B : Mem → Prop) (s : Cache) (x : CallEnd) (s' : Cache) : Prop where
  sound : Sound P Z conf (s'.endCall x)
  kept : ∀ d ∈ s.entries, B d → Kept s (s'.endCall x) d
  called : Called s (s'.endCall x)
  entry : EntryOf addr cb s' x

/-- A call goes on from a state in which the references and the log are the same. -/
theorem CallStep.after {addr : Nat} {cb : Option Nat} {B B' : Mem → Prop} {x : CallEnd} {u : Cache}
    (h : CallStep P Z conf addr cb B' s₁ x u)
    (hcall : s₁.refs = s.refs ∧ s₁.issued = s.issued ∧ s₁.log = s.log)
    (hk : ∀ d ∈ s.entries, B d → Kept s s₁ d ∧ B' d) : CallStep P Z conf addr cb B s x u := by
  refine ⟨h.sound, fun d hd hb => ?_, h.called.of_eq hcall.1 hcall.2.1 hcall.2.2, h.entry⟩
  exact (hk d hd hb).1.trans (h.kept d (hk d hd hb).1.1 (hk d hd hb).2)

/-- A call that fails has done nothing more. -/
theorem Sound.failed (h : Sound P Z conf s) {addr : Nat} {cb : Option Nat} {B : Mem → Prop} (e : Errno) :
    CallStep P Z conf addr cb B s (.ret (.err e)) s :=
  ⟨h, fun _ hd _ => Kept.refl hd, .inl ⟨rfl, rfl⟩, trivial⟩

/-- A call that has counted its reference reads ahead, and returns or waits. -/
theorem InCall.ahead (hP : DList.Discipline P) (h : InCall P Z conf c s) (hpc : s.pc = .idle)
    {addr n i m : Nat} (ha : (s.cce c).addr = addr) (ha0 : addr ≠ 0) (him : i + n = m)
    (hm : n = 0 ∨ m = 1 + conf.readahead) (hZ : AheadOk Z conf addr i m) {cb : Option Nat}
    {env : AreadEnv}
    (hcalm : aheadAdds (fun s _ env => calmPick s env.heap) conf addr env.ahead n i s = true)
    {x : CallEnd} (hr : shfsCacheAreadAhead conf s addr cb c n i env = .ok (x, s')) :
    CallStep P Z conf addr cb (Busy (bump (refsOn s) c) s) s x s' := by
  obtain ⟨⟨w, s₁⟩, hahead, hr⟩ := ok_of_bind hr
  obtain ⟨hok, hg⟩ := h.inv.readahead hP hpc him hZ hcalm hahead
  have hrefs₁ : refsOn s₁ = refsOn s := refsOn_congr hg.callers.1 hg.adds
  have ht₁ : TokInv s₁ := h.toks.grows hg fun r hr =>
    ⟨bump_ne (refsOn_pos hr), h.inv.counts.held _ (bump_ne (refsOn_pos hr))⟩
  have hl₁ := h.log.grows h.toks hg
  have hcalls₁ : ∀ p ∈ s₁.adds, CallOk Z conf s₁ p := fun p hp =>
    (h.calls p (hg.adds ▸ hp)).grows h.inv (fun d hd => bump_ne (refsOn_call (hg.adds ▸ hp) hd)) hg
  have hcself := hg.frozen c (h.inv.counts.held c (bump_self_ne _ _)) (.inl (bump_self_ne _ _))
  have ha₁ : (s₁.cce c).addr = addr := by rw [hcself.2, ha]
  cases w with
  | none =>
      obtain ⟨⟨y, s₂⟩, hchain, hr⟩ := ok_of_bind hr
      obtain ⟨rfl, rfl⟩ := Prod.mk.inj (Except.ok.inj hr)
      have hw : InCall P Z conf c s₁ := ⟨hrefs₁.symm ▸ hok, ht₁, hl₁, hcalls₁⟩
      obtain ⟨hs, hk⟩ := areadChain hP hw (hg.pc.trans hpc) (by rw [ha₁]; exact ha0) hchain
      obtain ⟨r₁, r₂, r₃⟩ := areadChain_records hchain
      refine ⟨hs, fun d hd hb => (hg.kept hd hb).trans (hk d (hg.kept hd hb).1), ?_,
        areadChain_entry ha₁ hchain⟩
      exact Called.endCall (r₁.trans hg.callers.1) (r₂.trans hg.callers.2.1)
        (r₃.trans hg.callers.2.2.1) _
  | some y =>
      obtain ⟨j, d, t⟩ := y
      obtain ⟨rfl, rfl⟩ := Prod.mk.inj (Except.ok.inj hr)
      obtain ⟨hij, hjm, hZ', hadd⟩ := hok
      have hjr : j < 1 + conf.readahead := by omega
      obtain rfl : m = 1 + conf.readahead := by omega
      refine ⟨⟨?_, ?_, ?_, fun p hp => ?_, not_flushing (hg.pc.trans hpc)⟩,
        fun d' hd' hb => hg.kept hd' hb, .inl ⟨hg.callers.1, hg.callers.2.2.1⟩, rfl, rfl⟩
      · show CacheInv P Z conf (refsOn { s₁ with
          adds := s₁.adds ++ [⟨addr, cb, d, t, some (c, j)⟩] }) _
        rw [refsOn_waits, hrefs₁]
        exact hadd ⟨addr, cb, d, t, some (c, j)⟩ rfl rfl rfl
      · exact ⟨ht₁.refTok, ht₁.pending, ht₁.done, ht₁.chain, ht₁.serials, ht₁.issued⟩
      · exact ⟨hl₁.settled, hl₁.once, hl₁.fresh⟩
      · rcases List.mem_append.1 hp with hp | hp
        · exact (hcalls₁ p hp).congr fun _ _ => rfl
        · obtain rfl := List.mem_singleton.1 hp
          refine ⟨ha0, ?_, hZ', fun c' hc' => ?_⟩
          · show j + 1 ≤ _
            omega
          · obtain rfl := Option.some.inj hc'
            exact ha₁

/-- A call that has come to the entry of its chunk, in the cache or new. -/
structure Found (P : Set Mem → Links Mem → Ends Mem → Prop) (Z : Nat → Prop) (conf : CacheConf)
    (addr : Nat) (c : Mem) (s : Cache) : Prop where
  sound : Sound P Z conf s
  idle : s.pc = .idle
  mem : c ∈ s.entries
  names : (s.cce c).addr = addr
  ne : addr ≠ 0
  free : ¬ s.SetUp c
  room : (s.cce c).refcount.toNat + 1 < u32Size
  ahead : AheadOk Z conf addr 1 (1 + conf.readahead)

/-- It takes its reference. -/
theorem Found.takeRef (hP : DList.Discipline P) {addr : Nat} (h : Found P Z conf addr c s) :
    InCall P Z conf c (s.takeRef c) := by
  have hs := takeRef_same s c
  refine ⟨?_, h.sound.toks.same hs, h.sound.log.same hs, fun p hp => ?_⟩
  · rw [refsOn_congr hs.callers.1 hs.adds]
    exact h.sound.inv.takeRef hP h.idle h.mem (by rw [h.names]; exact h.ne) h.free h.room
  · exact (h.sound.calls p (hs.adds ▸ hp)).congr fun d _ => (hs.fields d).1

/-- A call with the entry of its chunk takes its reference, reads ahead, and returns or waits. -/
theorem Found.areadRef (hP : DList.Discipline P) {addr : Nat} (h : Found P Z conf addr c s)
    {cb : Option Nat} {env : AreadEnv}
    (hcalm : aheadAdds (fun s _ env => calmPick s env.heap) conf addr env.ahead conf.readahead 1
      (s.takeRef c) = true)
    {x : CallEnd} (hr : shfsCacheAreadRef conf s addr cb c env = .ok (x, s')) :
    CallStep P Z conf addr cb (Busy (refsOn s) s) s x s' := by
  have hs := takeRef_same s c
  have hcall := (h.takeRef hP).ahead hP (hs.pc.trans h.idle) ((hs.fields c).1.trans h.names) h.ne rfl
    (.inr rfl) h.ahead hcalm hr
  refine hcall.after ⟨hs.callers.1, hs.callers.2.1, hs.callers.2.2.1⟩ fun d hd hb => ⟨hs.kept hd, ?_⟩
  rw [refsOn_congr hs.callers.1 hs.adds]
  rcases hb with hb | hb | hb
  · exact .inl (bump_ne hb)
  · exact .inr (.inl (by rw [(hs.fields d).2.1]; exact hb))
  · exact .inr (.inr ((setUp_congr hs.adds d).2 hb))

/-- A state with new entries and requests only. -/
theorem Sound.grows (h : Sound P Z conf s) (hpc : s.pc = .idle) (hg : Grows (refsOn s) s s')
    (hinv : CacheInv P Z conf (refsOn s) s') : Sound P Z conf s' := by
  refine ⟨?_, h.toks.grows hg fun r hr => ⟨refsOn_pos hr, h.held hr⟩, h.log.grows h.toks hg,
    fun p hp => ?_, not_flushing (hg.pc.trans hpc)⟩
  · rw [refsOn_congr hg.callers.1 hg.adds]
    exact hinv
  · rw [hg.adds] at hp
    exact (h.calls p hp).grows h.inv (fun d hd => refsOn_call hp hd) hg

/-- What a call comes to that asks for the entry of its chunk. -/
theorem Sound.get (hP : DList.Discipline P) (h : Sound P Z conf s) (hpc : s.pc = .idle) {addr : Nat}
    {cb : Option Nat} {env : AreadEnv} (hZ : AddrOk Z conf (.aread addr cb env))
    (ho : Orderly conf s (.aread addr cb env)) (hm : s.mounted ≠ false)
    (ha : ¬ (addr = 0 ∨ conf.volsize < addr)) {y : AddRet}
    (hget : shfsCacheGet conf s addr env.demand = .ok (y, s')) :
    AddOk P Z conf (refsOn s) addr s' y ∧ Grows (refsOn s) s s' ∧
      ∀ c, y = .added c → Found P Z conf addr c s' ∧
        aheadAdds (fun s _ env => calmPick s env.heap) conf addr env.ahead conf.readahead 1
          (s'.takeRef c) = true := by
  obtain ⟨hcalm, hroom⟩ := ho
  obtain ⟨hZa, hZr⟩ := hZ (by omega) (by omega)
  have hcalm : eventAdds (fun s _ env => calmPick s env.heap) conf s (.aread addr cb env) = true := hcalm
  simp only [eventAdds, if_neg (show ¬ (s.mounted = false ∨ addr = 0 ∨ conf.volsize < addr) by tauto)]
    at hcalm
  have hroom : ∀ c, shfsCacheFind conf s addr = some c → (s.cce c).refcount.toNat + 1 < u32Size :=
    fun c hc => hroom c hc (by simpa using hm) (by omega) (by omega)
  have hpick : shfsCacheFind conf s addr = none → calmPick s env.demand.heap = true := by
    intro hf
    rw [hf] at hcalm
    exact (Bool.and_eq_true_iff.1 hcalm).1
  obtain ⟨hok, hg⟩ := areadGet hP h hpc hZa hroom hpick hget
  refine ⟨hok, hg, ?_⟩
  rintro c rfl
  obtain ⟨hinv, hc, hac, hfree, hrc⟩ := hok
  refine ⟨⟨h.grows hpc hg hinv, hg.pc.trans hpc, hc, hac, by omega, hfree, hrc, hZr⟩, ?_⟩
  unfold shfsCacheGet at hget
  cases hf : shfsCacheFind conf s addr with
  | some d =>
      rw [hf] at hcalm hget
      obtain ⟨hd, rfl⟩ := Prod.mk.inj (Except.ok.inj hget)
      obtain rfl := AddRet.added.inj hd
      exact hcalm
  | none =>
      rw [hf] at hcalm hget
      have hget : shfsCacheAdd conf s addr env.demand = .ok (.added c, s') := hget
      rw [hget] at hcalm
      exact (Bool.and_eq_true_iff.1 hcalm).2

/-- An orderly `shfs_cache_aread`, up to its end or its first wait. -/
theorem aread_call (hP : DList.Discipline P) (h : Sound P Z conf s) (hpc : s.pc = .idle)
    {addr : Nat} {cb : Option Nat} {env : AreadEnv} (hZ : AddrOk Z conf (.aread addr cb env))
    (ho : Orderly conf s (.aread addr cb env)) {x : CallEnd}
    (hread : shfsCacheAread conf s addr cb env = .ok (x, s')) :
    CallStep P Z conf addr cb (Busy (refsOn s) s) s x s' := by
  unfold shfsCacheAread at hread
  by_cases hm : s.mounted = false
  · rw [if_pos hm] at hread
    obtain ⟨rfl, rfl⟩ := Prod.mk.inj (Except.ok.inj hread)
    exact h.failed _
  rw [if_neg hm] at hread
  by_cases ha : addr = 0 ∨ conf.volsize < addr
  · rw [if_pos ha] at hread
    obtain ⟨rfl, rfl⟩ := Prod.mk.inj (Except.ok.inj hread)
    exact h.failed _
  rw [if_neg ha] at hread
  obtain ⟨⟨y, s₂⟩, hget, hread⟩ := ok_of_bind hread
  obtain ⟨hok, hg, hfound⟩ := h.get hP hpc hZ ho hm ha hget
  have hcallers : s₂.refs = s.refs ∧ s₂.issued = s.issued ∧ s₂.log = s.log :=
    ⟨hg.callers.1, hg.callers.2.1, hg.callers.2.2.1⟩
  cases y with
  | failed e =>
      obtain ⟨rfl, rfl⟩ := Prod.mk.inj (Except.ok.inj hread)
      exact ((h.grows hpc hg hok).failed (B := fun _ => True) e).after hcallers
        fun d hd hb => ⟨hg.kept hd hb, trivial⟩
  | added c =>
      obtain ⟨hf, hcalm⟩ := hfound c rfl
      refine (hf.areadRef hP hcalm hread).after hcallers fun d hd hb => ⟨hg.kept hd hb, ?_⟩
      rw [refsOn_congr hg.callers.1 hg.adds]
      exact hb.congr (hg.frozen d hd hb).2 hg.adds
  | waits c t =>
      obtain ⟨rfl, rfl⟩ := Prod.mk.inj (Except.ok.inj hread)
      have ht := h.toks.grows hg fun r hr => ⟨refsOn_pos hr, h.held hr⟩
      have hl := h.log.grows h.toks hg
      refine ⟨⟨?_, ?_, ?_, fun p hp => ?_, not_flushing (hg.pc.trans hpc)⟩,
        fun d hd hb => hg.kept hd hb, .inl ⟨hg.callers.1, hg.callers.2.2.1⟩, rfl, rfl⟩
      · show CacheInv P Z conf (refsOn { s₂ with adds := s₂.adds ++ [⟨addr, cb, c, t, none⟩] }) _
        rw [refsOn_waits, refsOn_congr hg.callers.1 hg.adds]
        exact hok ⟨addr, cb, c, t, none⟩ rfl rfl rfl
      · exact ⟨ht.refTok, ht.pending, ht.done, ht.chain, ht.serials, ht.issued⟩
      · exact ⟨hl.settled, hl.once, hl.fresh⟩
      · rcases List.mem_append.1 hp with hp | hp
        · rw [hg.adds] at hp
          have hcall := (h.calls p hp).grows h.inv (fun d hd => refsOn_call hp hd) hg
          exact hcall.congr fun _ _ => rfl
        · obtain rfl := List.mem_singleton.1 hp
          exact ⟨fun h0 => ha (.inl h0), Nat.le_add_right _ _, (hZ (by omega) (by omega)).2,
            fun c' hc' => by cases hc'⟩

/-! ## The end of a wait -/

/-- A call that goes on gives up its own reference, if any, and no other. -/
theorem CallSettled.refsOn_goOn {p : Pending} (hs : CallSettled p s s') : refsOn s' = refsOn (s.goOn p) :=
  refsOn_congr (s := s.goOn p) hs.callers.1 hs.adds

/-- What stays as it is when a call goes on. -/
theorem CallSettled.kept {p : Pending} (hs : CallSettled p s s') {d : Mem} (hd : d ∈ s.entries)
    (hne : d ≠ p.cce) : Kept s s' d :=
  Kept.of_eq ((hs.entries d hne).2 hd) (hs.cce d hne)

/-- A call that goes on, before it does anything else. -/
theorem Sound.settle (hP : DList.Discipline P) (h : Sound P Z conf s) (hpc : s.pc = .idle) {p : Pending}
    (hp : p ∈ s.adds) {err : Option Errno} {x : AddRet}
    (hr : shfsCacheAddEnd conf (s.goOn p) p.cce p.tok p.target err = .ok (x, s')) :
    CacheInv P Z conf (refsOn s) s' ∧ CallSettled p s s' ∧ TokInv s' ∧ LogInv s' ∧
      (∀ q ∈ s'.adds, CallOk Z conf s' q) ∧ refsOn s = withCall (refsOn s') p := by
  have hend : CacheInv P Z conf (refsOn s) s' ∧ CallSettled p s s' := by
    cases err with
    | none =>
        obtain ⟨-, hinv, hs⟩ := h.inv.addDone hp hr
        exact ⟨hinv, hs⟩
    | some e =>
        obtain ⟨-, rfl⟩ := Prod.mk.inj (Except.ok.inj hr)
        exact h.inv.addFailed hP hpc hp rfl
  obtain ⟨hinv, hs⟩ := hend
  have h0 := (h.inv.setups.entry p hp).1.2
  refine ⟨hinv, hs, h.toks.settle hs (fun r hr he => ?_) (h.inv.setups.token p hp).2.1,
    h.log.settle hs, fun q hq => ?_, ?_⟩
  · exact refsOn_pos hr (he ▸ h0)
  · rw [hs.adds] at hq
    have hq := ((h.inv.setups.goOn hp).1 hq).1
    refine (h.calls q hq).congr fun d hd => ?_
    rw [hs.cce d fun he => refsOn_call hq hd (he ▸ h0)]
  · rw [refsOn_goOn hp, hs.refsOn_goOn]

/-- The end of `shfs_cache_add` adds the entry, or fails. -/
theorem addEnd_cases {d : Mem} {k addr : Nat} {err : Option Errno} {x : AddRet}
    (hr : shfsCacheAddEnd conf s d k addr err = .ok (x, s')) :
    (∃ L E, x = .added d ∧ s' = { s.setCce d { s.cce d with t := some k } with
        clinks := L, htable := E }) ∨
      ∃ e, x = .failed e ∧ s' = shfsCacheAddFail (s.putToken k) d := by
  cases err with
  | none =>
      obtain ⟨L, E, hend⟩ := addEnd_ok hr
      exact .inl ⟨L, E, hend⟩
  | some e =>
      obtain ⟨rfl, rfl⟩ := Prod.mk.inj (Except.ok.inj hr)
      exact .inr ⟨e, rfl, rfl⟩

/-- A call that waited for the request of its own chunk has come to its entry, or fails. -/
theorem Sound.settleDemand (hP : DList.Discipline P) (h : Sound P Z conf s) (hpc : s.pc = .idle)
    {p : Pending} (hp : p ∈ s.adds) (hah : p.ahead = none) {err : Option Errno} {x : AddRet}
    (hr : shfsCacheAddEnd conf (s.goOn p) p.cce p.tok p.target err = .ok (x, s')) :
    Sound P Z conf s' ∧ (x = .added p.cce ∧ Found P Z conf p.addr p.cce s' ∨ ∃ e, x = .failed e) := by
  obtain ⟨hinv, hs, ht, hl, hcalls, hrefs⟩ := h.settle hP hpc hp hr
  obtain ⟨hmem, hdone, haddr, -⟩ := h.inv.setups.entry p hp
  have hcall := h.calls p hp
  have hheld : withCall (refsOn s') p = refsOn s' := by simp [withCall, Pending.holds, hah]
  rw [hrefs, hheld] at hinv
  have hpc' : s'.pc = .idle := hs.pc.trans hpc
  have hsound : Sound P Z conf s' := ⟨hinv, ht, hl, hcalls, not_flushing hpc'⟩
  refine ⟨hsound, ?_⟩
  rcases addEnd_cases hr with ⟨L, E, rfl, he⟩ | ⟨e, rfl, -⟩
  · refine .inl ⟨rfl, ⟨hsound, hpc', ?_, ?_, hcall.addr, hs.free h.inv hp, ?_, ?_⟩⟩
    · rw [he]
      exact hmem.1
    · rw [he]
      show (Function.update s.cce p.cce _ p.cce).addr = _
      rw [Function.update_self]
      show (s.cce p.cce).addr = _
      rw [haddr, Pending.target, hah]
    · rw [he]
      show (Function.update s.cce p.cce _ p.cce).refcount.toNat + 1 < _
      rw [Function.update_self]
      show (s.cce p.cce).refcount.toNat + 1 < _
      rw [h.inv.refcount_eq hpc hmem.1, hmem.2]
      decide
    · have hnext := hcall.ahead
      rwa [Pending.next, hah] at hnext
  · exact .inr ⟨e, rfl⟩

/-- A call that waited while it reads ahead has its reference still. -/
theorem Sound.settleAhead (hP : DList.Discipline P) (h : Sound P Z conf s) (hpc : s.pc = .idle)
    {p : Pending} (hp : p ∈ s.adds) {i : Nat} (hah : p.ahead = some (c, i)) {err : Option Errno}
    {x : AddRet} (hr : shfsCacheAddEnd conf (s.goOn p) p.cce p.tok p.target err = .ok (x, s')) :
    InCall P Z conf c s' ∧ (s'.cce c).addr = p.addr := by
  obtain ⟨hinv, hs, ht, hl, hcalls, hrefs⟩ := h.settle hP hpc hp hr
  obtain ⟨hmem, -⟩ := h.inv.setups.entry p hp
  have hholds : p.holds = some c := by simp [Pending.holds, hah]
  have hheld : withCall (refsOn s') p = bump (refsOn s') c := by simp [withCall, hholds]
  rw [hrefs, hheld] at hinv
  refine ⟨⟨hinv, ht, hl, hcalls⟩, ?_⟩
  rw [hs.cce c fun he => refsOn_call hp hholds (he ▸ hmem.2)]
  exact (h.calls p hp).holds c hholds

/-- An entry is busy without the call `p`. -/
def BusyBut (s : Cache) (p : Pending) (d : Mem) : Prop :=
  refsOn (s.goOn p) d ≠ 0 ∨ (s.cce d).t ≠ none ∨ ∃ q ∈ s.adds, q ≠ p ∧ q.cce = d

/-- The entry of the request is busy through the call only, and what is busy without it stays so. -/
theorem CallSettled.busy (h : Sound P Z conf s) {p : Pending} (hp : p ∈ s.adds) (hs : CallSettled p s s')
    {d : Mem} (hd : d ∈ s.entries) (hb : BusyBut s p d) : Kept s s' d ∧ Busy (refsOn s') s' d := by
  obtain ⟨hmem, hdone, -⟩ := h.inv.setups.entry p hp
  have hne : d ≠ p.cce := by
    rintro rfl
    rcases hb with hb | hb | ⟨q, hq, hqp, hqc⟩
    · have hle : refsOn s p.cce = _ := congrFun (Shfs.refsOn_goOn hp) p.cce
      rw [withCall_apply, hmem.2] at hle
      omega
    · exact hb hdone
    · exact hqp (h.inv.setups.eq_of_cce hp hq hqc)
  refine ⟨hs.kept hd hne, ?_⟩
  rcases hb with hb | hb | ⟨q, hq, hqp, rfl⟩
  · exact .inl (by rw [hs.refsOn_goOn]; exact hb)
  · exact .inr (.inl (by rw [hs.cce d hne]; exact hb))
  · refine .inr (.inr ⟨q, ?_, rfl⟩)
    rw [hs.adds]
    exact (List.mem_erase_of_ne hqp).2 hq

/-- A calm end of a wait, whatever the call comes to next. -/
theorem resume_call (hP : DList.Discipline P) (h : Sound P Z conf s) (hpc : s.pc = .idle)
    {p : Pending} (hp : p ∈ s.adds) {err : Option Errno} {env : AreadEnv}
    (ho : CalmEvent conf s (.resume p err env)) {x : CallEnd}
    (hread : shfsCacheResume conf (s.goOn p) p err env = .ok (x, s')) :
    CallStep P Z conf p.addr p.cb (BusyBut s p) s x s' := by
  obtain ⟨⟨y, s₂⟩, hadd, hread⟩ := ok_of_bind hread
  have hcalm : eventAdds (fun s _ env => calmPick s env.heap) conf s (.resume p err env) = true := ho
  simp only [eventAdds, hadd] at hcalm
  obtain ⟨-, hs, -⟩ := h.settle hP hpc hp hadd
  have hcall := h.calls p hp
  have hpc₂ : s₂.pc = .idle := hs.pc.trans hpc
  have hafter : ∀ {u}, CallStep P Z conf p.addr p.cb (Busy (refsOn s₂) s₂) s₂ x u →
      CallStep P Z conf p.addr p.cb (BusyBut s p) s x u := fun hu =>
    hu.after ⟨hs.callers.1, hs.callers.2.1, hs.callers.2.2.1⟩ fun d hd hb => hs.busy h hp hd hb
  cases hah : p.ahead with
  | none =>
      obtain ⟨hsound, ⟨rfl, hfound⟩ | ⟨e, rfl⟩⟩ := h.settleDemand hP hpc hp hah hadd
      · rw [hah] at hread hcalm
        exact hafter (hfound.areadRef hP hcalm hread)
      · rw [hah] at hread
        obtain ⟨rfl, rfl⟩ := Prod.mk.inj (Except.ok.inj hread)
        exact hafter (hsound.failed e)
  | some z =>
      obtain ⟨c, i⟩ := z
      obtain ⟨hw, hca⟩ := h.settleAhead hP hpc hp hah hadd
      have hkeep : ∀ {u}, CallStep P Z conf p.addr p.cb (Busy (bump (refsOn s₂) c) s₂) s₂ x u →
          CallStep P Z conf p.addr p.cb (Busy (refsOn s₂) s₂) s₂ x u := fun hu =>
        hu.after ⟨rfl, rfl, rfl⟩ fun d hd hb => ⟨Kept.refl hd, hb.imp bump_ne id⟩
      have hnext : p.next = i + 1 := by simp [Pending.next, hah]
      have hle := hcall.next
      have hahead := hcall.ahead
      rw [hnext] at hle hahead
      rcases addEnd_cases hadd with ⟨L, E, rfl, -⟩ | ⟨e, rfl, -⟩
      · rw [hah] at hread hcalm
        exact hafter (hkeep (hw.ahead hP hpc₂ hca hcall.addr (m := 1 + conf.readahead) (by omega)
          (.inr rfl) hahead hcalm hread))
      · rw [hah] at hread
        exact hafter (hkeep (hw.ahead hP hpc₂ hca hcall.addr rfl (.inl rfl)
          (fun k _ hk => absurd hk (Nat.not_lt_zero k)) rfl hread))

/-! ## Blank buffers -/

theorem Loose.not_busy (h : Loose P Z conf R c s) : ¬ Busy R s c := by
  rintro (hb | hb | hb)
  · exact hb h.mem.2
  · exact hb h.done
  · exact h.free hb

/-- A loose entry becomes a blank buffer with one reference. -/
theorem Loose.toBlank (h : Loose P Z conf R c s) (hpc : s.pc = .idle) {s₁ : Cache}
    (hs₁ : s₁ = { s.setCce c { s.cce c with
        refcount := 1, t := none, addr := 0, invalid := true, gen := (s.cce c).gen + 1 } with
      nbRefEntries := s.nbRefEntries + 1 }) :
    CacheInv P Z conf (bump R c) s₁ ∧ Grows R s s₁ := by
  have hold : ∀ d, d ≠ c → s₁.cce d = s.cce d := fun d hd => by
    rw [hs₁]
    exact Function.update_of_ne hd _ _
  have hself : s₁.cce c = { s.cce c with
      refcount := 1, t := none, addr := 0, invalid := true, gen := (s.cce c).gen + 1 } := by
    rw [hs₁]
    exact Function.update_self _ _ _
  have hent : s₁.entries = s.entries := by rw [hs₁]; rfl
  have hpc₁ : s₁.pc = s.pc := by rw [hs₁]; rfl
  have hadds : s₁.adds = s.adds := by rw [hs₁]; rfl
  have htok : s₁.tokens = s.tokens ∧ s₁.tok = s.tok := by rw [hs₁]; exact ⟨rfl, rfl⟩
  have hR1 : bump R c c = 1 := by rw [bump_self, h.mem.2]
  have hA : avail (bump R c) s₁ = avail R s \ {c} := by
    ext d
    simp only [avail, hent, Set.mem_ofPred_eq, Set.mem_sdiff, Set.mem_singleton_iff]
    by_cases hd : d = c
    · subst hd
      simp [hR1]
    · simp [bump_of_ne _ hd, hd]
  have hH : listed (bump R c) s₁ = listed R s \ {c} := by
    ext d
    simp only [listed, hent, setUp_congr hadds, Set.mem_ofPred_eq, Set.mem_sdiff,
      Set.mem_singleton_iff]
    by_cases hd : d = c
    · subst hd
      simp [hR1, hself]
    · simp [bump_of_ne _ hd, hd, hold d hd]
  have hset : ∀ p ∈ s.adds, p.cce ≠ c := fun p hp he => h.free ⟨p, hp, he⟩
  refine ⟨⟨?_, ⟨?_, ?_, ?_, ?_⟩, ?_, ?_, ?_, ?_⟩, ?_⟩
  · rw [hA, hH]
    refine h.lists.congr ?_ ?_ fun d hd => by rw [hold d hd.2]
    · rw [hs₁]
      exact ⟨rfl, rfl⟩
    · rw [hs₁]
      exact ⟨rfl, rfl⟩
  · intro d hd
    rw [hent]
    by_cases hdc : d = c
    · exact hdc ▸ h.mem.1
    · rw [bump_of_ne _ hdc] at hd
      exact h.counts.held d hd
  · intro d hd
    rw [hent] at hd
    rw [hpc₁]
    by_cases hdc : d = c
    · subst hdc
      rw [hself, hR1, if_neg h.pc]
      rfl
    · rw [hold d hdc, bump_of_ne _ hdc]
      exact h.counts.refcount d hd
  · intro d hw
    rw [hpc₁, hpc] at hw
    cases hw
  · rw [hent, h.counts.nbRef_bump h.mem.1 h.mem.2, hs₁]
  · refine h.memory.congr ?_ hent ?_ fun d _ => ?_
    · rw [hs₁]
      rfl
    · rw [hs₁]
      rfl
    · by_cases hdc : d = c
      · subst hdc
        rw [hself]
        exact ⟨rfl, rfl⟩
      · rw [hold d hdc]
        exact ⟨rfl, rfl⟩
  · refine h.privates.congr hent hadds htok.1 (fun d _ => ?_) fun t _ => by rw [htok.2]
    by_cases hdc : d = c
    · subst hdc
      rw [hself]
      exact ⟨h.done.symm, fun hne => absurd h.done hne⟩
    · rw [hold d hdc]
      exact ⟨rfl, fun _ => rfl⟩
  · intro d hd ha
    by_cases hdc : d = c
    · subst hdc
      rw [hself]
      exact ⟨hR1, rfl, rfl⟩
    · rw [hold d hdc] at ha ⊢
      rw [bump_of_ne _ hdc] at hd ⊢
      exact h.blank d hd ha
  · refine h.setups.congr hent hadds htok.1 (fun p hp => bump_of_ne _ (hset p hp)) (fun p hp => ?_)
      fun t _ => by rw [htok.2]
    rw [hold _ (hset p hp)]
    exact ⟨rfl, rfl⟩
  · refine Grows.at (fun _ => h.not_busy) hold (fun d _ => by rw [hent]) (fun _ => .inr ?_) ?_ hadds hpc₁
      (fun t ht => by rw [htok.1, htok.2]; exact ⟨ht, rfl⟩) fun t ht hn => absurd (htok.1 ▸ ht) hn
    · rw [hself]
      exact ⟨h.mem.1, rfl⟩
    · rw [hs₁]
      exact ⟨rfl, rfl, rfl, rfl⟩

/-- The count of an available entry is zero, so unlinking it passes its assertion. -/
theorem CacheInv.unlink (h : CacheInv P Z conf R s) (hc : c ∈ avail R s) (hpc : s.pc ≠ .wait c) :
    shfsCacheUnlink conf s c = .ok ((s.clistUnlink conf c).alistUnlink c) := by
  unfold shfsCacheUnlink
  have h0 : (s.cce c).refcount.toNat = 0 := by rw [h.counts.refcount c hc.1, hc.2, if_neg hpc]
  rw [if_neg (not_not.2 (Word.count_eq_zero.2 h0))]

/-- `shfs_cache_eblank`, whatever it returns. -/
theorem eblank_step (hP : DList.Discipline P) (h : Sound P Z conf s) (hpc : s.pc = .idle)
    {heap : Option (Nat × Nat)} (ho : CalmEvent conf s (.eblank heap))
    (hr : cacheNext conf s (.eblank heap) = .ok s') : Sound P Z conf s' ∧
      (∀ d ∈ s.entries, Busy (refsOn s) s d → Kept s s' d) ∧
      Recorded s (.eblank heap) s' := by
  obtain ⟨⟨x, s₁⟩, hblank, hfin⟩ := ok_of_bind hr
  unfold shfsCacheEblank at hblank
  by_cases hm : s.mounted = false
  · rw [if_pos hm] at hblank
    obtain ⟨rfl, rfl⟩ := Prod.mk.inj (Except.ok.inj hblank)
    obtain rfl := Except.ok.inj hfin
    exact ⟨h, fun d hd _ => Kept.refl hd, .inl ⟨rfl, rfl⟩⟩
  rw [if_neg hm] at hblank
  have hcalm : calmPick s heap = true := ho (by simpa using hm)
  obtain ⟨⟨y, s₂⟩, hbuf, hout⟩ := ok_of_bind hblank
  have hbuffer : (y = none ∧ s₂ = s) ∨
      ∃ c, y = some c ∧ Loose P Z conf (refsOn s) c s₂ ∧ Grows (refsOn s) s s₂ := by
    unfold shfsCacheEblankBuffer at hbuf
    cases hp : s.pickCce heap with
    | some z =>
        obtain ⟨c, s₃⟩ := z
        rw [hp] at hbuf
        obtain ⟨rfl, rfl⟩ := Prod.mk.inj (Except.ok.inj hbuf)
        obtain ⟨hc, hm, pobj, buffer, pool, he⟩ := h.inv.memory.pick hp
        obtain ⟨hloose, hg⟩ := h.inv.fresh hpc hc he hm
        exact .inr ⟨c, rfl, hloose, hg⟩
    | none =>
        rw [hp] at hbuf
        cases hd : s.findDone with
        | none =>
            rw [hd] at hbuf
            obtain ⟨rfl, rfl⟩ := Prod.mk.inj (Except.ok.inj hbuf)
            exact .inl ⟨rfl, rfl⟩
        | some c =>
            rw [hd] at hbuf
            obtain ⟨s₃, hu, hbuf⟩ := ok_of_bind hbuf
            obtain ⟨rfl, rfl⟩ := Prod.mk.inj (Except.ok.inj hbuf)
            obtain ⟨hc, ht⟩ := h.inv.lists.findDone hP (fun _ hx => hx.1) hd
            have hw : s.pc ≠ .wait c := by
              rw [hpc]
              exact fun he => by cases he
            rw [h.inv.unlink hc hw] at hu
            obtain rfl := Except.ok.inj hu
            exact .inr ⟨c, rfl, h.inv.loosen hP hc (calmPick_done hcalm hp hd) ht hw,
              Grows.links rfl rfl ⟨rfl, rfl, rfl, rfl⟩ rfl rfl ⟨rfl, rfl⟩⟩
  rcases hbuffer with ⟨rfl, rfl⟩ | ⟨c, rfl, hloose, hg⟩
  · obtain ⟨rfl, rfl⟩ := Prod.mk.inj (Except.ok.inj hout)
    obtain rfl := Except.ok.inj hfin
    exact ⟨h, fun d hd _ => Kept.refl hd, .inl ⟨rfl, rfl⟩⟩
  · obtain ⟨rfl, rfl⟩ := Prod.mk.inj (Except.ok.inj hout)
    obtain rfl := Except.ok.inj hfin
    obtain ⟨hi, hg'⟩ := hloose.toBlank (hg.pc.trans hpc) rfl
    have hg₁ := hg.trans hg'
    have ht := h.toks.grows hg₁ fun r hr => ⟨refsOn_pos hr, h.held hr⟩
    refine ⟨⟨?_, ht.giveDone ?_ true, (h.log.grows h.toks hg₁).giveDone true, fun p hp => ?_,
      not_flushing (hg₁.pc.trans hpc)⟩, fun d hd hb => hg₁.kept hd hb, .inr ⟨c, ?_, ?_, ?_⟩⟩
    · rw [refsOn_give]
      have hrefs : refsOn { s₂.setCce c { s₂.cce c with
          refcount := 1, t := none, addr := 0, invalid := true, gen := (s₂.cce c).gen + 1 } with
          nbRefEntries := s₂.nbRefEntries + 1 } = refsOn s := refsOn_congr hg₁.callers.1 hg₁.adds
      rw [hrefs]
      exact hi.callers
    · simp [Cache.setCce]
    · have hp : p ∈ s.adds := hg₁.adds ▸ hp
      have hcall := (h.calls p hp).grows h.inv (fun d hd => refsOn_call hp hd) hg₁
      exact hcall.congr fun _ _ => rfl
    · rw [← hg₁.callers.1, ← hg₁.callers.2.1]
      rfl
    · show ((Function.update s₂.cce c _) c).addr = 0
      rw [Function.update_self]
    · rw [← hg₁.callers.2.2.1]
      exact List.append_nil _

/-! ## Releasing -/

/-- The end of a release: `s₁` is the state in which the count is taken down, `u` the same without the
reference. -/
theorem sound_drop (hr : r ∈ s.refs) {s₁ s₂ : Cache} {log : List TokEvent}
    (hpc : s₁.pc = .idle) (hrefs : s₁.refs = s.refs) (hadds : s₁.adds = s.adds)
    (ht : TokInv { s₁ with refs := s.refs.erase r })
    (hl : LogInv { s₁ with refs := s.refs.erase r, log := log })
    (hcalls : ∀ p ∈ s.adds, CallOk Z conf s₁ p)
    (hdrop : CacheInv P Z conf (unbump (refsOn s) r.cce) s₂ ∧
      (SameBut r.cce s₁ s₂ ∨ Gone r.cce s₁ s₂ ∧ unbump (refsOn s) r.cce r.cce = 0)) :
    Sound P Z conf { s₂.takeBack r with log := log } := by
  obtain ⟨hi, hs⟩ := hdrop
  have hsame : s₂.refs = s.refs ∧ s₂.adds = s.adds ∧ s₂.tok = s₁.tok ∧ s₂.issued = s₁.issued ∧
      s₂.pc = s₁.pc := by
    rcases hs with hs | ⟨hs, -⟩
    · exact ⟨hs.callers.1.trans hrefs, hs.adds.trans hadds, hs.tokens.2, hs.callers.2.1, hs.pc⟩
    · exact ⟨hs.callers.1.trans hrefs, hs.adds.trans hadds, hs.tokens.2, hs.callers.2.1, hs.pc⟩
  obtain ⟨hrefs₂, hadds₂, htok, hiss, hpc₂⟩ := hsame
  have herase : s₂.refs.erase r = s.refs.erase r := by rw [hrefs₂]
  have hcount : refsOn { s₂.takeBack r with log := log } = unbump (refsOn s) r.cce :=
    refsOn_erase hr herase hadds₂
  have hless : refsOn { s with refs := s.refs.erase r } = unbump (refsOn s) r.cce :=
    refsOn_erase hr rfl rfl
  refine ⟨?_, ?_, ?_, fun p hp => ?_, not_flushing (hpc₂.trans hpc)⟩
  · rw [hcount]
    exact hi.callers
  · rcases hs with hs | ⟨hs, h0⟩
    · have hsame : SameBut r.cce { s₁ with refs := s.refs.erase r } (s₂.takeBack r) :=
        ⟨hs.cce, hs.entries, hs.clists, hs.memory, hs.tokens, ⟨herase, hs.callers.2⟩, hs.adds, hs.pc⟩
      have := ht.same hsame
      exact ⟨this.refTok, this.pending, this.done, this.chain, this.serials, this.issued⟩
    · have hgone : Gone r.cce { s₁ with refs := s.refs.erase r } (s₂.takeBack r) :=
        ⟨hs.entries, hs.cce, hs.tokens, ⟨herase, hs.callers.2⟩, hs.adds, hs.pc⟩
      have hno : ∀ r' ∈ s.refs.erase r, r'.cce ≠ r.cce := by
        intro r' hr' he
        have hpos := refsOn_pos (s := { s with refs := s.refs.erase r }) hr'
        rw [hless, he] at hpos
        exact hpos h0
      have := ht.gone hgone hno
      exact ⟨this.refTok, this.pending, this.done, this.chain, this.serials, this.issued⟩
  · refine hl.congr rfl (le_of_eq hiss.symm) fun n => ?_
    refine owed_congr herase (fun r' _ => isDone_congr fun t _ => ?_) n
    show s₂.tok t = s₁.tok t
    rw [htok]
  · have hp : p ∈ s.adds := hadds₂ ▸ hp
    refine (hcalls p hp).congr fun d hd => ?_
    show (s₂.cce d).addr = _
    rcases hs with hs | ⟨hs, h0⟩
    · exact (hs.fields d).1
    · -- the entry that is gone had one reference, which was not that of the call
      rw [hs.cce d fun he => ?_]
      have hpos := refsOn_call (s := { s with refs := s.refs.erase r }) hp hd
      rw [hless, he] at hpos
      exact hpos h0

/-- What taking the count down did, whichever way the entry went. -/
theorem CacheInv.release (hP : DList.Discipline P) {s₁ s₂ : Cache}
    (h : CacheInv P Z conf R s₁) (hpc : s₁.pc = .idle) (hR : R c ≠ 0)
    (hlose : R c = 1 → (s₁.cce c).t = none → (s₁.cce c).invalid = true → (s₁.cce c).addr ≠ 0 →
      P (avail R s₁) s₁.alinks DList.emptyEnds)
    {gone : Cache → Except Fault Cache} (hr : s₁.dropRef c gone = .ok s₂)
    (hgone : ∀ s, (s.cce c).t = (s₁.cce c).t → (s.cce c).invalid = (s₁.cce c).invalid →
      s.tok = s₁.tok → gone s =
        if (s₁.cce c).t = none ∧ (s₁.cce c).invalid = true then shfsCacheDestroy conf s c
        else s.alistAppend c) :
    CacheInv P Z conf (unbump R c) s₂ ∧
      (SameBut c s₁ s₂ ∨ Gone c s₁ s₂ ∧ unbump R c c = 0 ∧ (s₁.cce c).t = none) := by
  rcases h.dropRef hpc hR hr with ⟨-, hi, hs⟩ | ⟨s₃, hd, hg⟩
  · exact ⟨hi, .inl hs⟩
  · rw [hgone s₃ (hd.same.fields c).2.1 (hd.same.fields c).2.2.1 hd.same.tokens.2] at hg
    by_cases hbad : (s₁.cce c).t = none ∧ (s₁.cce c).invalid = true
    · rw [if_pos hbad] at hg
      obtain ⟨hi, hgone⟩ := hd.destroy hpc hbad.1 (hlose hd.last hbad.1 hbad.2) hg
      exact ⟨hi, .inr ⟨hgone, by rw [unbump_self, hd.last], hbad.1⟩⟩
    · rw [if_neg hbad] at hg
      have ha : (s₁.cce c).addr ≠ 0 := fun ha => hbad (h.blank c hR ha).2
      obtain ⟨hi, hs⟩ := hd.append hP ha hg
      exact ⟨hi, .inl hs⟩

/-- Entries that stay in use stay what they are when a count is taken down. -/
theorem kept_release {s₁ s₂ : Cache} (hs : SameBut c s₁ s₂ ∨
      Gone c s₁ s₂ ∧ unbump R c c = 0 ∧ (s₁.cce c).t = none) {d : Mem} (hd : d ∈ s₁.entries)
    (hset : ¬ s₁.SetUp c)
    (huse : (R d ≠ 0 ∧ unbump R c d ≠ 0) ∨ (s₁.cce d).t ≠ none ∨ s₁.SetUp d) : Kept s₁ s₂ d := by
  rcases hs with hs | ⟨hs, h0, ht⟩
  · exact hs.kept hd
  · have hdc : d ≠ c := by
      rintro rfl
      rcases huse with hu | hu | hu
      · exact hu.2 h0
      · exact hu ht
      · exact hset hu
    exact Kept.of_eq (by rw [hs.entries]; exact Finset.mem_erase.2 ⟨hdc, hd⟩) (hs.cce d hdc)

/-- `shfs_cache_release` of a caller whose I/O is done. -/
theorem release_step (hP : DList.Discipline P) (h : Sound P Z conf s) (hpc : s.pc = .idle)
    (hr : r ∈ s.refs) (hdone : s.aioIsDone r.tok = true) (hlose : LoseOk P s (.release r))
    (hn : cacheNext conf s (.release r) = .ok s') : Sound P Z conf s' ∧
      (∀ d ∈ s.entries, (refsOn s d ≠ 0 ∧ unbump (refsOn s) r.cce d ≠ 0) ∨ (s.cce d).t ≠ none ∨
        s.SetUp d → Kept s s' d) ∧
      Recorded s (.release r) s' := by
  obtain ⟨s₂, hrel, hn⟩ := ok_of_bind hn
  obtain rfl := Except.ok.inj hn
  have hc := h.held hr
  have hR := refsOn_pos hr
  have hcount := h.inv.refcount_eq hpc hc
  have ht := (h.toks.isDone hr).1 hdone
  unfold shfsCacheRelease at hrel
  rw [if_neg fun h0 => hR (hcount.symm.trans (Word.count_eq_zero.1 h0)),
    if_neg (by rw [ht]; exact Bool.true_eq_false_eq_False)] at hrel
  obtain ⟨hi, hs⟩ := h.inv.release hP hpc hR
    (fun h1 h2 h3 h4 => hlose ⟨Word.count_eq_one.2 (hcount.trans h1), h2, h3, h4⟩) hrel (by
      intro s₃ _ hinv _
      rw [hinv]
      cases hv : (s.cce r.cce).invalid <;> simp [ht])
  have hu : TokInv { s with refs := s.refs.erase r } :=
    h.toks.takeDone hr hdone (T := s.tokens) fun k hk _ => hk
  have hl : LogInv { s with refs := s.refs.erase r, log := s.log } :=
    h.log.takeDone hr hdone rfl rfl rfl fun _ _ => rfl
  have hlog : s₂.log = s.log := by
    rcases hs with hs | ⟨hs, -⟩
    · exact hs.callers.2.2.1
    · exact hs.callers.2.2.1
  have hsound := sound_drop hr hpc rfl rfl hu hl h.calls ⟨hi, hs.imp id fun hs => ⟨hs.1, hs.2.1⟩⟩
  have heq : ({ s₂.takeBack r with log := s.log } : Cache) = s₂.takeBack r := by
    rw [← hlog]
    rfl
  rw [heq] at hsound
  have herase : (s₂.takeBack r).refs = s.refs.erase r := by
    show s₂.refs.erase r = _
    rcases hs with hs | ⟨hs, -⟩
    · rw [hs.callers.1]
    · rw [hs.callers.1]
  exact ⟨hsound, fun d hd huse => kept_release hs hd (h.inv.not_setUp hR) huse, herase, hlog⟩

/-- What the abort of a token leaves alone. -/
structure Aborted (s s₁ : Cache) : Prop where
  cce : ∀ d, unchained (s₁.cce d) = unchained (s.cce d)
  entries : s₁.entries = s.entries
  callers : s₁.refs = s.refs ∧ s₁.issued = s.issued ∧ s₁.log = s.log
  tok : s₁.tok = s.tok
  alinks : s₁.alinks = s.alinks
  adds : s₁.adds = s.adds
  pc : s₁.pc = s.pc

theorem chainUnlink_unchained (s : Cache) (c : Mem) (t : Nat) (d : Mem) :
    unchained ((s.chainUnlink c t).cce d) = unchained (s.cce d) := by
  show unchained ((Function.update s.cce c _) d) = _
  by_cases hd : d = c
  · subst hd
    rw [Function.update_self]
    rfl
  · rw [Function.update_of_ne hd]

/-- Aborting the token of a reference. -/
theorem Sound.abort (h : Sound P Z conf s) (hr : r ∈ s.refs) :
    CacheInv P Z conf (refsOn s) (abortToken s r.cce r.tok) ∧
      TokInv { abortToken s r.cce r.tok with refs := s.refs.erase r } ∧
      Aborted s (abortToken s r.cce r.tok) := by
  cases htok : r.tok with
  | none =>
      refine ⟨h.inv, h.toks.takeDone hr (by rw [htok]; rfl) (T := s.tokens) fun k hk _ => hk,
        ⟨fun _ => rfl, rfl, ⟨rfl, rfl, rfl⟩, rfl, rfl, rfl, rfl⟩⟩
  | some t =>
      have huser := (h.toks.refTok r hr t htok).2.1
      -- putting back a caller's token is not seen by any device request
      have hdev : ∀ s₁ : Cache, s₁.tokens = s.tokens.erase t → s₁.tok = s.tok → SameDevice s s₁ := by
        intro s₁ hT hK
        constructor
        · intro k hk d hcb
          rw [hT, hK]
          refine ⟨Finset.mem_erase.2 ⟨?_, hk⟩, rfl⟩
          rintro rfl
          exact huser d hcb
        · intro k hk d _
          rw [hT] at hk
          exact ⟨(Finset.mem_erase.1 hk).2, by rw [hK]⟩
      unfold abortToken
      by_cases hfly : (s.tok t).infly ≠ 0
      · simp only [if_pos hfly]
        refine ⟨?_, h.toks.takePending hr (h.held hr) htok hfly,
          ⟨fun d => chainUnlink_unchained s r.cce t d, rfl, ⟨rfl, rfl, rfl⟩, rfl, rfl, rfl, rfl⟩⟩
        exact h.inv.congr rfl rfl ⟨rfl, rfl⟩ ⟨rfl, rfl⟩ ⟨rfl, rfl⟩ rfl rfl
          (fun d => chainUnlink_unchained s r.cce t d) (hdev _ rfl rfl)
      · simp only [if_neg hfly]
        have hdone : s.aioIsDone r.tok = true := by
          rw [htok]
          simpa [Cache.aioIsDone] using hfly
        refine ⟨?_, ?_, ⟨fun _ => rfl, rfl, ⟨rfl, rfl, rfl⟩, rfl, rfl, rfl, rfl⟩⟩
        · exact h.inv.congr rfl rfl ⟨rfl, rfl⟩ ⟨rfl, rfl⟩ ⟨rfl, rfl⟩ rfl rfl (fun _ => rfl)
            (hdev _ rfl rfl)
        · refine h.toks.takeDone hr hdone (T := s.tokens.erase t) fun k hk hne => ?_
          refine Finset.mem_erase.2 ⟨?_, hk⟩
          rintro rfl
          exact hne htok

/-- `shfs_cache_release_ioabort` with the token of the reference. -/
theorem ioabort_step (hP : DList.Discipline P) (h : Sound P Z conf s) (hpc : s.pc = .idle)
    (hr : r ∈ s.refs) (hlose : LoseOk P s (.ioabort r))
    (hn : cacheNext conf s (.ioabort r) = .ok s') : Sound P Z conf s' ∧
      (∀ d ∈ s.entries, (refsOn s d ≠ 0 ∧ unbump (refsOn s) r.cce d ≠ 0) ∨ (s.cce d).t ≠ none ∨
        s.SetUp d → Kept s s' d) ∧
      Recorded s (.ioabort r) s' := by
  obtain ⟨s₂, hrel, hn⟩ := ok_of_bind hn
  obtain rfl := Except.ok.inj hn
  have hc := h.held hr
  have hR := refsOn_pos hr
  have hcount := h.inv.refcount_eq hpc hc
  obtain ⟨hi₁, hu, hab⟩ := h.abort hr
  obtain ⟨haddr, -, -, -, hinv, htt, -⟩ := unchained_eq (hab.cce r.cce)
  unfold shfsCacheReleaseIoabort at hrel
  split at hrel
  · cases hrel
  split at hrel
  · cases hrel
  split at hrel
  · cases hrel
  set s₁ := abortToken s r.cce r.tok
  have hA : avail (refsOn s) s₁ = avail (refsOn s) s := avail_congr hab.entries fun _ => Iff.rfl
  obtain ⟨hi, hs⟩ := hi₁.release hP (hab.pc.trans hpc) hR
    (fun h1 h2 h3 h4 => by
      rw [hA, hab.alinks]
      exact hlose ⟨Word.count_eq_one.2 (hcount.trans h1), htt ▸ h2, hinv ▸ h3, haddr ▸ h4⟩) hrel (by
      intro s₃ ht₃ hinv₃ htok₃
      rw [hinv₃, ht₃, isDone_congr (s := s₁) fun t _ => by rw [htok₃]]
      have := hi₁.privates.isDone (c := r.cce) (by rw [hab.entries]; exact hc)
      simp only [this])
  have hl : LogInv { s₁ with
      refs := s.refs.erase r
      log := s.log ++ if s.aioIsDone r.tok = true then [] else [.aborted r.serial] } := by
    have hsame : ∀ k : Option Nat, s₁.aioIsDone k = s.aioIsDone k := fun k =>
      isDone_congr fun t _ => by rw [hab.tok]
    by_cases hdone : s.aioIsDone r.tok = true
    · exact h.log.takeDone hr hdone (by simp [hdone]) hab.callers.2.1 rfl fun r' _ => hsame r'.tok
    · exact h.log.takePending hr (by simpa using hdone) (by simp [hdone]) hab.callers.2.1 rfl
        fun r' _ => hsame r'.tok
  have herase : s₂.refs.erase r = s.refs.erase r := by
    rcases hs with hs | ⟨hs, -⟩
    · rw [hs.callers.1, hab.callers.1]
    · rw [hs.callers.1, hab.callers.1]
  refine ⟨sound_drop hr (hab.pc.trans hpc) hab.callers.1 hab.adds hu hl
      (fun p hp => (h.calls p hp).congr fun d _ => (unchained_eq (hab.cce d)).1)
      ⟨hi, hs.imp id fun hs => ⟨hs.1, hs.2.1⟩⟩,
    fun d hd huse => ?_, herase, rfl⟩
  obtain ⟨ha, -, -, hb, -, ht, hg⟩ := unchained_eq (hab.cce d)
  have hk₁ : Kept s s₁ d := ⟨by rw [hab.entries]; exact hd, ha, hb, hg⟩
  refine hk₁.trans (kept_release hs hk₁.1 ?_ ?_)
  · rw [setUp_congr hab.adds]
    exact h.inv.not_setUp hR
  · rw [ht, setUp_congr hab.adds]
    exact huse

/-- A caller finalizes its token. -/
theorem finalize_step (h : Sound P Z conf s) (hr : r ∈ s.refs) (hdone : s.aioIsDone r.tok = true)
    (hn : cacheNext conf s (.finalize r) = .ok s') (htok : r.tok ≠ none) : Sound P Z conf s' ∧
      (∀ d ∈ s.entries, Kept s s' d) ∧ Recorded s (.finalize r) s' := by
  cases ht : r.tok with
  | none => exact absurd ht htok
  | some t =>
      simp only [cacheNext, ht] at hn
      obtain rfl := Except.ok.inj hn
      have huser := (h.toks.refTok r hr t ht).2.1
      refine ⟨⟨?_, h.toks.finalize hr hdone ht, h.log.finalize hdone rfl rfl rfl rfl,
        fun p hp => (h.calls p hp).congr fun _ _ => rfl, h.flush⟩, fun d hd => ⟨hd, rfl, rfl, rfl⟩,
        rfl, rfl⟩
      have hcount : refsOn { s.putToken t with
          refs := s.refs.map fun r' => if r' = r then { r with tok := none } else r' } = refsOn s := by
        funext d
        show (s.refs.map _).countP _ + _ = _
        rw [List.countP_map, refsOn]
        congr 1
        refine List.countP_congr fun r' _ => ?_
        by_cases he : r' = r <;> simp [he]
      rw [hcount]
      refine h.inv.congr rfl rfl ⟨rfl, rfl⟩ ⟨rfl, rfl⟩ ⟨rfl, rfl⟩ rfl rfl (fun _ => rfl) ⟨?_, ?_⟩
      · intro k hk d hcb
        refine ⟨Finset.mem_erase.2 ⟨?_, hk⟩, rfl⟩
        rintro rfl
        exact huser d hcb
      · exact fun k hk d _ => ⟨(Finset.mem_erase.1 hk).2, rfl⟩

end Step

end Minipython.Shfs
