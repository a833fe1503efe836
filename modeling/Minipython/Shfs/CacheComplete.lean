/-
# Minipython.Shfs.CacheComplete — completions and flushes

A completion takes the private token off its entry. If nobody holds the entry and the request failed, the
entry goes; otherwise every token on its chain is notified.

A flush takes the available entries off the list one after another. It waits for an entry whose request
is in flight, with a count of one that belongs to no caller.

`cache_step` is the step lemma of the whole cache, by cases on the event: each operation keeps the
invariants that its own module is about, for any discipline of the list of available entries, and its record
tells what it has done to the tokens. The modules on lists, buffers, tokens and data read their results off
it.
-/
import Minipython.Shfs.CacheStep

namespace Minipython.Shfs

open Minipython.Lib
open Cache

section Complete

variable {P : Set Mem → Links Mem → Ends Mem → Prop} {Z : Nat → Prop} {conf : CacheConf}
  {R : Mem → Nat} {s s' : Cache} {c : Mem} {t : Nat} {ret : Int}

/-! ## Completions -/

/-- The device request of a private token has ended. -/
def deviceDone (s : Cache) (t : Nat) (ret : Int) : Cache :=
  s.setTok t { s.tok t with infly := 0, ret := if ret < 0 then ret else 0 }

/-- The private token is put back and the entry has none. -/
def takeResult (s : Cache) (t : Nat) (c : Mem) (ret : Int) : Cache :=
  { s with
    tokens := s.tokens.erase t
    tok := (deviceDone s t ret).tok
    cce := Function.update s.cce c { s.cce c with t := none, invalid := decide (ret < 0) } }

/-- A private token is that of its entry, unless its request is still being set up. -/
theorem Privates.of_token (h : Privates s) (ht : t ∈ s.tokens) (hcb : (s.tok t).cb = some (.cce c))
    (hcalm : ∀ p ∈ s.adds, p.tok ≠ t) :
    c ∈ s.entries ∧ (s.cce c).t = some t ∧ (s.tok t).infly ≠ 0 := by
  obtain ⟨hc, hct | ⟨p, hp, -, hpt⟩⟩ := h.device t ht c hcb
  · exact ⟨hc, hct, (h.own c hc t hct).2.2.1⟩
  · exact absurd hpt (hcalm p hp)

theorem takeResult_cce (s : Cache) (t : Nat) (c : Mem) (ret : Int) (d : Mem) :
    (takeResult s t c ret).cce d =
      if d = c then { s.cce c with t := none, invalid := decide (ret < 0) } else s.cce d := by
  show Function.update s.cce c _ d = _
  by_cases hd : d = c
  · rw [hd, Function.update_self, if_pos rfl]
  · rw [Function.update_of_ne hd, if_neg hd]

theorem takeResult_fields (s : Cache) (t : Nat) (c : Mem) (ret : Int) (d : Mem) :
    ((takeResult s t c ret).cce d).addr = (s.cce d).addr ∧
      ((takeResult s t c ret).cce d).refcount = (s.cce d).refcount ∧
      ((takeResult s t c ret).cce d).pobj = (s.cce d).pobj ∧
      ((takeResult s t c ret).cce d).buffer = (s.cce d).buffer ∧
      ((takeResult s t c ret).cce d).gen = (s.cce d).gen ∧
      ((takeResult s t c ret).cce d).aioChain = (s.cce d).aioChain := by
  rw [takeResult_cce]
  by_cases hd : d = c
  · subst hd
    rw [if_pos rfl]
    exact ⟨rfl, rfl, rfl, rfl, rfl, rfl⟩
  · rw [if_neg hd]
    exact ⟨rfl, rfl, rfl, rfl, rfl, rfl⟩

theorem takeResult_tok {k : Nat} (hk : k ≠ t) : (takeResult s t c ret).tok k = s.tok k :=
  Function.update_of_ne hk _ _

/-- Taking the result keeps the invariant. -/
theorem CacheInv.takeResult (h : CacheInv P Z conf R s) (ht : t ∈ s.tokens)
    (hcb : (s.tok t).cb = some (.cce c)) (hcalm : ∀ p ∈ s.adds, p.tok ≠ t) :
    CacheInv P Z conf R (takeResult s t c ret) := by
  obtain ⟨hc, hct, -⟩ := h.privates.of_token ht hcb hcalm
  have hf := takeResult_fields s t c ret
  have hother : ∀ d, d ≠ c → (Shfs.takeResult s t c ret).cce d = s.cce d := fun d hd => by
    rw [takeResult_cce, if_neg hd]
  have hself : ((Shfs.takeResult s t c ret).cce c).t = none := by
    rw [takeResult_cce, if_pos rfl]
  have hA : avail R (Shfs.takeResult s t c ret) = avail R s := rfl
  have hH : listed R (Shfs.takeResult s t c ret) = listed R s := by
    ext d
    show d ∈ s.entries ∧ (_ ∨ _) ∧ ¬ s.SetUp d ↔ d ∈ s.entries ∧ _ ∧ ¬ s.SetUp d
    rw [(hf d).1]
  -- an entry whose request is being set up has none in flight
  have hset : ∀ p ∈ s.adds, p.cce ≠ c := by
    rintro p hp rfl
    rw [(h.setups.entry p hp).2.1] at hct
    cases hct
  refine ⟨?_, ?_, ?_, ⟨?_, ?_⟩, ?_, ⟨h.setups.apart, fun p hp => ?_, fun p hp => ?_⟩⟩
  · rw [hA, hH]
    exact h.lists.congr ⟨rfl, rfl⟩ ⟨rfl, rfl⟩ fun d _ => (hf d).1
  · exact h.counts.congr rfl rfl rfl fun d _ => (hf d).2.1
  · exact h.memory.congr rfl rfl rfl fun d _ => ⟨(hf d).2.2.1, (hf d).2.2.2.1⟩
  · intro d hd k hk
    have hdc : d ≠ c := by
      rintro rfl
      rw [hself] at hk
      cases hk
    rw [hother d hdc] at hk
    obtain ⟨hin, hkcb, hfly⟩ := h.privates.own d hd k hk
    have hkt : k ≠ t := by
      rintro rfl
      rw [hcb] at hkcb
      exact hdc (AioCb.cce.inj (Option.some.inj hkcb)).symm
    rw [takeResult_tok hkt, (hf d).1]
    exact ⟨Finset.mem_erase.2 ⟨hkt, hin⟩, hkcb, hfly⟩
  · intro k hk d hkcb
    obtain ⟨hkt, hin⟩ := Finset.mem_erase.1 hk
    rw [takeResult_tok hkt] at hkcb
    obtain ⟨hd, hdt⟩ := h.privates.device k hin d hkcb
    have hdc : d ≠ c := by
      rintro rfl
      rcases hdt with hdt | ⟨p, hp, hpc, -⟩
      · rw [hct] at hdt
        exact hkt (Option.some.inj hdt).symm
      · exact hset p hp hpc
    rw [hother d hdc]
    exact ⟨hd, hdt⟩
  · intro d hd ha
    rw [(hf d).1] at ha
    have hb := h.blank d hd ha
    have hdc : d ≠ c := by
      rintro rfl
      rw [hct] at hb
      cases hb.2.1
    rw [hother d hdc]
    exact hb
  · rw [hA, hother _ (hset p hp)]
    exact h.setups.entry p hp
  · have htok := h.setups.token p hp
    rw [takeResult_tok (hcalm p hp)]
    exact ⟨Finset.mem_erase.2 ⟨hcalm p hp, htok.1⟩, htok.2⟩

/-- The state after the notification of all waiting tokens. -/
def notified (s : Cache) (t : Nat) (c : Mem) (ret : Int) : Cache :=
  { s with
    tokens := s.tokens.erase t
    cce := Function.update (takeResult s t c ret).cce c
      { (takeResult s t c ret).cce c with aioChain := DList.emptyEnds }
    tok := fun k => if k ∈ toksOn s.refs c then
      { (takeResult s t c ret).tok k with ret := if ret < 0 then ret else 0, infly := 0 }
      else (takeResult s t c ret).tok k
    log := s.log ++ notices s c ret }

/-- The tokens of references are tokens of callers. -/
theorem TokInv.user (h : TokInv s) {k : Nat} (hk : k ∈ toksOn s.refs c) :
    k ∈ s.tokens ∧ ∀ d, (s.tok k).cb ≠ some (.cce d) := by
  obtain ⟨r, hr, -, hrk⟩ := mem_toksOn.1 hk
  obtain ⟨hin, hcb, -⟩ := h.refTok r hr k hrk
  exact ⟨hin, hcb⟩

/-- The loop of `_cce_aiocb` meets the waiting tokens, each once. -/
theorem TokInv.notify (h : TokInv s) (hc : c ∈ s.entries) (hct : (s.cce c).t ≠ none)
    (hcb : (s.tok t).cb = some (.cce c)) {u : Cache}
    (hu : u = takeResult s t c ret) :
    (DList.walk u.tlinks.next u.tokens.card (u.cce c).aioChain.first).foldl
        (notifyToken (if ret < 0 then ret else 0))
        (u.setCce c { u.cce c with aioChain := DList.emptyEnds }) =
      notified s t c ret := by
  have hrep := h.chain c hc
  rw [waiting, if_neg hct] at hrep
  have huser := fun k (hk : k ∈ toksOn s.refs c) => h.user hk
  have hne : ∀ k ∈ toksOn s.refs c, k ≠ t := by
    rintro k hk rfl
    exact (huser k hk).2 c hcb
  have hch : (u.cce c).aioChain = (s.cce c).aioChain := by
    rw [hu]
    exact (takeResult_fields s t c ret c).2.2.2.2.2
  have hwalk : DList.walk u.tlinks.next u.tokens.card (u.cce c).aioChain.first = toksOn s.refs c := by
    rw [hch]
    have hlinks : u.tlinks = s.tlinks := by
      rw [hu]
      rfl
    rw [hlinks]
    refine DList.walk_traverses hrep.traverses.1 ?_
    rw [← List.toFinset_card_of_nodup (h.nodup c)]
    refine Finset.card_le_card fun k hk => ?_
    have hk := List.mem_toFinset.1 hk
    have htokens : u.tokens = s.tokens.erase t := by
      rw [hu]
      rfl
    rw [htokens]
    exact Finset.mem_erase.2 ⟨hne k hk, (huser k hk).1⟩
  rw [hwalk, notify_foldl _ (h.nodup c), hu]
  have hmap : ((toksOn s.refs c).map fun k => TokEvent.notified
        ((takeResult s t c ret).tok k).serial (if ret < 0 then ret else 0)
        ((takeResult s t c ret).tok k).cb) = notices s c ret := by
    refine List.map_congr_left fun k hk => ?_
    rw [takeResult_tok (hne k hk)]
  show ({ (takeResult s t c ret).setCce c _ with tok := _, log := s.log ++ _ } : Cache) = _
  rw [notified, ← hmap]
  rfl

theorem notified_cce (s : Cache) (t : Nat) (c : Mem) (ret : Int) (d : Mem) :
    unchained ((notified s t c ret).cce d) = unchained ((takeResult s t c ret).cce d) ∧
      (notified s t c ret).cce d = if d = c then
        { (takeResult s t c ret).cce c with aioChain := DList.emptyEnds } else s.cce d := by
  have hcce : (notified s t c ret).cce d = if d = c then
      { (takeResult s t c ret).cce c with aioChain := DList.emptyEnds } else s.cce d := by
    show Function.update (takeResult s t c ret).cce c _ d = _
    by_cases hd : d = c
    · rw [hd, Function.update_self, if_pos rfl]
    · rw [Function.update_of_ne hd, if_neg hd, takeResult_cce, if_neg hd]
  refine ⟨?_, hcce⟩
  rw [hcce]
  by_cases hd : d = c
  · rw [if_pos hd, hd]
    rfl
  · rw [if_neg hd, takeResult_cce, if_neg hd]

/-- What a notification does to a token other than the private one. -/
theorem notified_tok {k : Nat} (hk : k ≠ t) : (notified s t c ret).tok k =
    if k ∈ toksOn s.refs c then
      { s.tok k with ret := if ret < 0 then ret else 0, infly := 0 } else s.tok k := by
  show (if k ∈ toksOn s.refs c then
    { (takeResult s t c ret).tok k with ret := if ret < 0 then ret else 0, infly := 0 }
    else (takeResult s t c ret).tok k) = _
  rw [takeResult_tok hk]

/-- Notifying the callers keeps the invariant. -/
theorem Sound.notified (h : Sound P Z conf s) (ht : t ∈ s.tokens)
    (hcb : (s.tok t).cb = some (.cce c)) (hcalm : ∀ p ∈ s.adds, p.tok ≠ t) :
    Sound P Z conf (notified s t c ret) := by
  obtain ⟨hc, hct, -⟩ := h.inv.privates.of_token ht hcb hcalm
  have hct' : (s.cce c).t ≠ none := by
    rw [hct]
    exact fun he => by cases he
  have hself : ((Shfs.notified s t c ret).cce c).t = none ∧
      ((Shfs.notified s t c ret).cce c).aioChain = DList.emptyEnds := by
    rw [(notified_cce s t c ret c).2, if_pos rfl, takeResult_cce, if_pos rfl]
    exact ⟨rfl, rfl⟩
  have hother : ∀ d, d ≠ c → (Shfs.notified s t c ret).cce d = s.cce d := fun d hd => by
    rw [(notified_cce s t c ret d).2, if_neg hd]
  -- a token of a reference is a caller's, so it is not the private one
  have hne : ∀ r ∈ s.refs, ∀ k, r.tok = some k → k ≠ t := by
    rintro r hr k hk rfl
    exact (h.toks.refTok r hr k hk).2.1 c hcb
  -- it is on the chain if and only if its reference is on the entry
  have hon : ∀ r ∈ s.refs, ∀ k, r.tok = some k → (k ∈ toksOn s.refs c ↔ r.cce = c) := by
    intro r hr k hk
    constructor
    · intro hin
      obtain ⟨r', hr', hc', hk'⟩ := mem_toksOn.1 hin
      rw [h.toks.tok_inj hr hr' hk hk', hc']
    · exact fun he => mem_toksOn.2 ⟨r, hr, he, hk⟩
  have htok : ∀ r ∈ s.refs, ∀ k, r.tok = some k → (Shfs.notified s t c ret).tok k =
      if r.cce = c then { s.tok k with ret := if ret < 0 then ret else 0, infly := 0 }
      else s.tok k := by
    intro r hr k hk
    rw [notified_tok (hne r hr k hk)]
    by_cases hrc : r.cce = c
    · rw [if_pos ((hon r hr k hk).2 hrc), if_pos hrc]
    · rw [if_neg fun hin => hrc ((hon r hr k hk).1 hin), if_neg hrc]
  have haddr : ∀ d, ((Shfs.notified s t c ret).cce d).addr = (s.cce d).addr := fun d =>
    (unchained_eq (notified_cce s t c ret d).1).1.trans (takeResult_fields s t c ret d).1
  refine ⟨?_, .of_refs (fun r hr => ?_) ?_ h.toks.serials h.toks.issued, ?_,
    fun p hp => (h.calls p hp).congr fun d _ => haddr d, h.flush⟩
  · have htake : CacheInv P Z conf (refsOn s) (Shfs.takeResult s t c ret) :=
      h.inv.takeResult ht hcb hcalm
    refine htake.congr rfl rfl ⟨rfl, rfl⟩ ⟨rfl, rfl⟩ ⟨rfl, rfl⟩ rfl rfl
      (fun d => (notified_cce s t c ret d).1) ?_
    have hsame : ∀ k, (Shfs.notified s t c ret).tok k = (Shfs.takeResult s t c ret).tok k ∨
        k ∈ toksOn s.refs c := by
      intro k
      by_cases hin : k ∈ toksOn s.refs c
      · exact .inr hin
      · left
        show (if k ∈ toksOn s.refs c then _ else _) = _
        rw [if_neg hin]
    constructor
    · intro k hk d hkcb
      refine ⟨hk, ?_⟩
      rcases hsame k with he | hin
      · exact he
      · obtain ⟨hkt, -⟩ := Finset.mem_erase.1 hk
        rw [takeResult_tok hkt] at hkcb
        exact absurd hkcb ((h.toks.user hin).2 d)
    · intro k hk d hkcb
      refine ⟨hk, ?_⟩
      rcases hsame k with he | hin
      · exact he
      · obtain ⟨hkt, -⟩ := Finset.mem_erase.1 hk
        rw [notified_tok hkt, if_pos hin] at hkcb
        exact absurd hkcb ((h.toks.user hin).2 d)
  · by_cases hrc : r.cce = c
    · -- the reference is on the entry, whose request is over
      refine ⟨fun k hk => ?_, fun hct => absurd (hrc ▸ hself.1) hct, fun _ k hk => ?_⟩
      · obtain ⟨hin, hkcb, hser⟩ := h.toks.refTok r hr k hk
        rw [htok r hr k hk, if_pos hrc]
        exact ⟨Finset.mem_erase.2 ⟨hne r hr k hk, hin⟩, hkcb, hser⟩
      · rw [htok r hr k hk, if_pos hrc]
    · refine (h.toks.ref hr).congr (by rw [hother _ hrc]) fun k hk hin => ?_
      refine ⟨Finset.mem_erase.2 ⟨hne r hr k hk, hin⟩, ?_⟩
      rw [htok r hr k hk, if_neg hrc]
  · intro d hd
    by_cases hdc : d = c
    · subst hdc
      rw [waiting, if_pos hself.1, hself.2]
      exact DList.rep_empty _
    · have hwait : waiting (Shfs.notified s t c ret) d = waiting s d :=
        waiting_congr rfl (by rw [hother d hdc])
      rw [hwait, hother d hdc]
      exact h.toks.chain d hd
  · refine h.log.notify (c := c) (if ret < 0 then ret else 0) h.toks (fun r hr hrc => ?_) rfl rfl rfl
      fun r hr => ?_
    · exact h.toks.pending r hr (by rw [hrc]; exact hct')
    · cases hk : r.tok with
      | none => by_cases hrc : r.cce = c <;> simp [hrc, Cache.aioIsDone]
      | some k =>
          simp only [Cache.aioIsDone]
          rw [htok r hr k hk]
          by_cases hrc : r.cce = c <;> simp [hrc]

/-- An entry without references has nobody on its chain. -/
theorem toksOn_of_free (h0 : refsOn s c = 0) : toksOn s.refs c = [] := by
  refine toksOn_of_none fun r hr he => ?_
  subst he
  exact refsOn_pos hr h0

/-- The tokens of an entry that nobody holds need no notification. -/
theorem notified_of_free (h0 : refsOn s c = 0) (hch : (s.cce c).aioChain = DList.emptyEnds) :
    notified s t c ret = takeResult s t c ret := by
  have hnil := toksOn_of_free h0
  have hcce : ∀ d, (notified s t c ret).cce d = (takeResult s t c ret).cce d := by
    intro d
    rw [(notified_cce s t c ret d).2]
    by_cases hd : d = c
    · subst hd
      have hch' : ((takeResult s t d ret).cce d).aioChain = DList.emptyEnds :=
        (takeResult_fields s t d ret d).2.2.2.2.2.trans hch
      rw [if_pos rfl, ← hch']
    · rw [if_neg hd, takeResult_cce, if_neg hd]
  have htok : (notified s t c ret).tok = (takeResult s t c ret).tok := by
    funext k
    show (if k ∈ toksOn s.refs c then _ else _) = _
    rw [hnil, if_neg (List.not_mem_nil)]
  have hlog : (notified s t c ret).log = (takeResult s t c ret).log := by
    show s.log ++ (toksOn s.refs c).map _ = s.log
    rw [hnil, List.map_nil, List.append_nil]
  have hfun : (notified s t c ret).cce = (takeResult s t c ret).cce := funext hcce
  have heq : notified s t c ret = { takeResult s t c ret with
      cce := (notified s t c ret).cce, tok := (notified s t c ret).tok,
      log := (notified s t c ret).log } := rfl
  rw [heq, hfun, htok, hlog]

/-- The chain of an entry that nobody holds is empty. -/
theorem TokInv.chain_free (h : TokInv s) (hc : c ∈ s.entries) (h0 : refsOn s c = 0) :
    (s.cce c).aioChain = DList.emptyEnds := by
  have hrep := h.chain c hc
  have hw : waiting s c = [] := by
    unfold waiting
    rw [toksOn_of_free h0]
    split <;> rfl
  rw [hw] at hrep
  have h1 := hrep.first
  have h2 := hrep.last
  cases hE : (s.cce c).aioChain with
  | mk f l =>
      rw [hE] at h1 h2
      rw [show f = none from h1, show l = none from h2]
      rfl

/-- What `_cce_aiocb` does: an entry that nobody holds goes if its request failed; all others on whose
request tokens wait have these notified. -/
theorem cceAiocb_eq (h : Sound P Z conf s) (ht : t ∈ s.tokens) (hcb : (s.tok t).cb = some (.cce c))
    (hcalm : ∀ p ∈ s.adds, p.tok ≠ t) :
    cceAiocb conf (deviceDone s t ret) t c =
      if (s.cce c).refcount = 0 ∧ ret < 0 then
        .ok ((((notified s t c ret).clistUnlink conf c).alistUnlink c).putCce c)
      else .ok (notified s t c ret) := by
  obtain ⟨hc, hct, -⟩ := h.inv.privates.of_token ht hcb hcalm
  have hct' : (s.cce c).t ≠ none := by
    rw [hct]
    exact fun he => by cases he
  have hret : ((deviceDone s t ret).tok t).ret = if ret < 0 then ret else 0 := by
    simp [deviceDone, Cache.setTok]
  have hneg : ((if ret < 0 then ret else 0) < 0) ↔ ret < 0 := by
    split <;> simp_all
  have hstate : ((deviceDone s t ret).putToken t).setCce c
      { ((deviceDone s t ret).putToken t).cce c with
        t := none, invalid := decide ((if ret < 0 then ret else 0) < 0) } = takeResult s t c ret := by
    simp only [hneg]
    rfl
  have hfree : (s.cce c).refcount = 0 → refsOn s c = 0 := fun h0 => (h.inv.counts.of_zero hc h0).1
  unfold cceAiocb
  have h1 : ¬ (((deviceDone s t ret).cce c).refcount = 0 ∧
      ((deviceDone s t ret).cce c).aioChain.first ≠ none) := by
    rintro ⟨h0, hfirst⟩
    refine hfirst ?_
    show (s.cce c).aioChain.first = none
    rw [h.toks.chain_free hc (hfree h0)]
    rfl
  have h2 : ¬ ((deviceDone s t ret).cce c).t ≠ some t := fun hn => hn hct
  have h3 : ¬ ((deviceDone s t ret).tok t).infly ≠ 0 := by
    simp [deviceDone, Cache.setTok]
  rw [if_neg h1, if_neg h2, if_neg h3, hret]
  simp only [hstate]
  have hcount : ((takeResult s t c ret).cce c).refcount = (s.cce c).refcount :=
    (takeResult_fields s t c ret c).2.1
  have hinv : ((takeResult s t c ret).cce c).invalid = decide (ret < 0) := by
    rw [takeResult_cce, if_pos rfl]
  have hcond : ((takeResult s t c ret).cce c).refcount = 0 ∧
      ((takeResult s t c ret).cce c).invalid = true ↔ (s.cce c).refcount = 0 ∧ ret < 0 := by
    rw [hcount, hinv, decide_eq_true_eq]
  by_cases hgo : (s.cce c).refcount = 0 ∧ ret < 0
  · have h0 := hfree hgo.1
    rw [if_pos hgo, if_pos (hcond.2 hgo), notified_of_free h0 (h.toks.chain_free hc h0)]
    have hi : CacheInv P Z conf (refsOn s) (takeResult s t c ret) := h.inv.takeResult ht hcb hcalm
    have hwait : (takeResult s t c ret).pc ≠ .wait c := (h.inv.counts.of_zero hc hgo.1).2
    rw [hi.unlink ⟨hc, h0⟩ hwait]
    rfl
  · rw [if_neg hgo, if_neg fun hh => hgo (hcond.1 hh), h.toks.notify hc hct' hcb rfl]
    rfl

/-- The completion of a request runs the callback of its entry. -/
theorem complete_eq (hcb : (s.tok t).cb = some (.cce c)) :
    cacheNext conf s (.complete t ret) = cceAiocb conf (deviceDone s t ret) t c := by
  simp only [cacheNext]
  split
  · rename_i hcb'
    obtain rfl := AioCb.cce.inj (Option.some.inj (hcb.symm.trans hcb'))
    rfl
  · exact absurd hcb (‹∀ c, (s.tok t).cb = some (.cce c) → False› c)

/-- Giving back an available entry that has no request. -/
theorem Sound.discard (hP : DList.Discipline P) (h : Sound P Z conf s) (hc : c ∈ avail (refsOn s) s)
    (hfree : ¬ s.SetUp c) (hct : (s.cce c).t = none) (hw : s.pc ≠ .wait c) :
    Sound P Z conf (((s.clistUnlink conf c).alistUnlink c).putCce c) := by
  have hgone : Gone c s (((s.clistUnlink conf c).alistUnlink c).putCce c) :=
    ⟨rfl, fun _ _ => rfl, ⟨rfl, rfl⟩, ⟨rfl, rfl, rfl, rfl⟩, rfl, rfl⟩
  refine ⟨(h.inv.loosen hP hc hfree hct hw).put, h.toks.gone hgone ?_, ?_,
    fun p hp => (h.calls p hp).congr fun _ _ => rfl, h.flush⟩
  · rintro r hr rfl
    exact refsOn_pos hr hc.2
  · exact h.log.congr rfl (le_refl _) fun n =>
      owed_congr rfl (fun _ _ => isDone_congr fun _ _ => rfl) n

/-- The request of an entry ends. -/
theorem complete_step (hP : DList.Discipline P) (h : Sound P Z conf s) (ht : t ∈ s.tokens)
    (hcb : (s.tok t).cb = some (.cce c)) (ho : CalmEvent conf s (.complete t ret))
    (hn : cacheNext conf s (.complete t ret) = .ok s') : Sound P Z conf s' ∧
      (∀ d ∈ s.entries, refsOn s d ≠ 0 ∨ (∃ k, (s.cce d).t = some k ∧ k ≠ t) ∨ s.SetUp d →
        Kept s s' d) ∧
      Recorded s (.complete t ret) s' := by
  have hcalm : ∀ p ∈ s.adds, p.tok ≠ t := ho
  obtain ⟨hc, hct, -⟩ := h.inv.privates.of_token ht hcb hcalm
  have hfree : ¬ s.SetUp c := by
    rintro ⟨p, hp, rfl⟩
    rw [(h.inv.setups.entry p hp).2.1] at hct
    cases hct
  have hsound : Sound P Z conf (notified s t c ret) := h.notified ht hcb hcalm
  have hrec : ∀ u : Cache, u.refs = s.refs → u.log = s.log ++ notices s c ret →
      u.tok = (notified s t c ret).tok → Recorded s (.complete t ret) u := by
    intro u hu hl hk
    refine ⟨hu, fun c' hc' => ?_⟩
    rw [hcb] at hc'
    obtain rfl := AioCb.cce.inj (Option.some.inj hc')
    refine ⟨hl, fun k hin => ?_⟩
    have hkt : k ≠ t := by
      rintro rfl
      exact (h.toks.user hin).2 c hcb
    rw [hk, notified_tok hkt, if_pos hin]
  have hkept : ∀ d ∈ s.entries, Kept s (notified s t c ret) d := by
    intro d hd
    obtain ⟨h1, -, -, h4, -, -, h7⟩ := unchained_eq (notified_cce s t c ret d).1
    obtain ⟨f1, -, -, f4, f5, -⟩ := takeResult_fields s t c ret d
    exact ⟨hd, h1.trans f1, h4.trans f4, h7.trans f5⟩
  have hnext := hn
  rw [complete_eq hcb, cceAiocb_eq h ht hcb hcalm] at hnext
  by_cases hgo : (s.cce c).refcount = 0 ∧ ret < 0
  · rw [if_pos hgo] at hnext
    obtain rfl := Except.ok.inj hnext
    obtain ⟨h0, hwait⟩ := h.inv.counts.of_zero hc hgo.1
    have hself : ((notified s t c ret).cce c).t = none := by
      rw [(notified_cce s t c ret c).2, if_pos rfl, takeResult_cce, if_pos rfl]
    refine ⟨hsound.discard hP ⟨hc, h0⟩ hfree hself hwait, fun d hd huse => ?_, hrec _ rfl rfl rfl⟩
    have hdc : d ≠ c := by
      rintro rfl
      rcases huse with hu | ⟨k, hk, hkt⟩ | hu
      · exact hu h0
      · rw [hct] at hk
        exact hkt (Option.some.inj hk).symm
      · exact hfree hu
    exact (hkept d hd).trans (Kept.of_eq (Finset.mem_erase.2 ⟨hdc, hd⟩) rfl)
  · rw [if_neg hgo] at hnext
    obtain rfl := Except.ok.inj hnext
    exact ⟨hsound, fun d hd _ => hkept d hd, hrec _ rfl rfl rfl⟩

/-! ## Flushes -/

/-- Where a flush is, and the count that it holds, are no concern of the callers. -/
theorem TokInv.flush (h : TokInv s) {s' : Cache} {n : UInt32} {pc : FlushPc}
    (hs : s' = { s.setCce c { s.cce c with refcount := n } with pc := pc }) : TokInv s' := by
  have hcce : ∀ d, (s'.cce d).t = (s.cce d).t ∧ (s'.cce d).aioChain = (s.cce d).aioChain := by
    intro d
    rw [hs]
    show ((Function.update s.cce c _) d).t = _ ∧ ((Function.update s.cce c _) d).aioChain = _
    by_cases hd : d = c
    · subst hd
      rw [Function.update_self]
      exact ⟨rfl, rfl⟩
    · rw [Function.update_of_ne hd]
      exact ⟨rfl, rfl⟩
  have hr : s'.refs = s.refs := by rw [hs]; rfl
  have htok : s'.tokens = s.tokens ∧ s'.tok = s.tok := by
    rw [hs]
    exact ⟨rfl, rfl⟩
  have hent : s'.entries = s.entries := by rw [hs]; rfl
  refine h.sublist (by rw [hr]) (by rw [hs]; rfl) (by rw [hs]; rfl) (fun d hd => ?_) fun r hm => ?_
  · rw [hent] at hd
    exact ⟨hd, (hcce d).2, waiting_congr hr (hcce d).1⟩
  · rw [hr] at hm
    refine ⟨(hcce _).1, fun k hk => ?_⟩
    rw [htok.1, htok.2]
    exact ⟨(h.refTok r hm k hk).1, rfl⟩

/-- A flush starts to wait for an entry, or is done with waiting. -/
theorem Sound.recount (h : Sound P Z conf s) (hc : c ∈ avail (refsOn s) s) {s' : Cache} {n : UInt32}
    {pc : FlushPc} (hs : s' = { s.setCce c { s.cce c with refcount := n } with pc := pc })
    (hpc : pc = .wait c ∧ n = 1 ∧ ¬ s.SetUp c ∧ (∀ d, s.pc ≠ .wait d) ∨
      pc = .loop ∧ n = 0 ∧ s.pc = .wait c) : Sound P Z conf s' := by
  have hself : s'.cce c = { s.cce c with refcount := n } := by
    rw [hs]
    exact Function.update_self _ _ _
  have hother : ∀ d, d ≠ c → s'.cce d = s.cce d := fun d hd => by
    rw [hs]
    exact Function.update_of_ne hd _ _
  have hf : ∀ d, (s'.cce d).addr = (s.cce d).addr ∧ (s'.cce d).t = (s.cce d).t ∧
      (s'.cce d).invalid = (s.cce d).invalid ∧ (s'.cce d).pobj = (s.cce d).pobj ∧
      (s'.cce d).buffer = (s.cce d).buffer := by
    intro d
    by_cases hd : d = c
    · subst hd
      rw [hself]
      exact ⟨rfl, rfl, rfl, rfl, rfl⟩
    · rw [hother d hd]
      exact ⟨rfl, rfl, rfl, rfl, rfl⟩
  have hR : refsOn s' = refsOn s := by
    rw [hs]
    rfl
  have hent : s'.entries = s.entries := by rw [hs]; rfl
  have hadds : s'.adds = s.adds := by rw [hs]; rfl
  have hpc' : s'.pc = pc := by rw [hs]
  have hA : avail (refsOn s) s' = avail (refsOn s) s := avail_congr hent fun _ => Iff.rfl
  have hH : listed (refsOn s) s' = listed (refsOn s) s :=
    listed_congr hent hadds (fun _ => Iff.rfl) fun d => (hf d).1
  have hwait : ∀ d, d ≠ c → (s'.pc = .wait d ↔ s.pc = .wait d) := by
    intro d hd
    rw [hpc']
    rcases hpc with ⟨rfl, -, -, hno⟩ | ⟨rfl, -, hw⟩
    · constructor
      · intro he
        exact absurd (FlushPc.wait.inj he).symm hd
      · exact fun he => absurd he (hno d)
    · constructor
      · intro he
        cases he
      · intro he
        rw [hw] at he
        exact absurd (FlushPc.wait.inj he).symm hd
  refine ⟨?_, h.toks.flush hs, ?_, fun p hp => ?_, fun d hw => ?_⟩
  · rw [hR]
    refine ⟨?_, ⟨?_, ?_, ?_, ?_⟩, ?_, ?_, ?_, ?_⟩
    · rw [hA, hH]
      refine h.inv.lists.congr ?_ ?_ fun d _ => (hf d).1
      · rw [hs]
        exact ⟨rfl, rfl⟩
      · rw [hs]
        exact ⟨rfl, rfl⟩
    · rw [hent]
      exact h.inv.counts.held
    · intro d hd
      rw [hent] at hd
      by_cases hdc : d = c
      · subst hdc
        rw [hself, hc.2, hpc']
        rcases hpc with ⟨rfl, rfl, -⟩ | ⟨rfl, rfl, -⟩
        · rw [if_pos rfl]
          rfl
        · rw [if_neg (fun he => by cases he)]
          rfl
      · rw [hother d hdc, h.inv.counts.refcount d hd]
        simp only [hwait d hdc]
    · intro d hw
      rw [hA]
      by_cases hdc : d = c
      · exact hdc ▸ hc
      · exact h.inv.counts.wait d ((hwait d hdc).1 hw)
    · rw [hent, ← h.inv.counts.nbRef, hs]
      rfl
    · refine h.inv.memory.congr ?_ hent ?_ fun d _ => ⟨(hf d).2.2.2.1, (hf d).2.2.2.2⟩
      · rw [hs]
        rfl
      · rw [hs]
        rfl
    · exact h.inv.privates.congr hent hadds (by rw [hs]; rfl)
        (fun d _ => ⟨(hf d).2.1, fun _ => (hf d).1⟩) fun k _ => by rw [hs]; rfl
    · intro d hd ha
      rw [(hf d).1] at ha
      rw [(hf d).2.1, (hf d).2.2.1]
      exact h.inv.blank d hd ha
    · exact h.inv.setups.congr hent hadds (by rw [hs]; rfl) (fun _ _ => rfl)
        (fun p _ => ⟨(hf p.cce).2.1, (hf p.cce).1⟩) fun k _ => by rw [hs]; rfl
  · refine h.log.congr (by rw [hs]; rfl) (le_of_eq (by rw [hs]; rfl)) fun n =>
      owed_congr (by rw [hs]; rfl) (fun _ _ => isDone_congr fun _ _ => by rw [hs]; rfl) n
  · rw [hadds] at hp
    exact (h.calls p hp).congr fun d _ => (hf d).1
  · rw [setUp_congr hadds]
    rw [hpc'] at hw
    rcases hpc with ⟨rfl, -, hfree, -⟩ | ⟨rfl, -⟩
    · exact FlushPc.wait.inj hw ▸ hfree
    · cases hw

/-- Moving between the turns of a flush. -/
theorem Sound.setPc (h : Sound P Z conf s) {pc : FlushPc} (hpc : ∀ d, pc ≠ .wait d)
    (hpc' : ∀ d, s.pc ≠ .wait d) : Sound P Z conf { s with pc := pc } := by
  obtain ⟨⟨hl, ⟨hh, hcn, hw, hn⟩, hm, hp, hb, hset⟩, ht, hg, hcalls, -⟩ := h
  refine ⟨⟨?_, ⟨hh, ?_, ?_, hn⟩, ?_, ?_, hb, ?_⟩, ?_, ?_, fun p hp => (hcalls p hp).congr fun _ _ => rfl,
    fun d he => absurd he (hpc d)⟩
  · show Lists P Z conf (avail (refsOn s) s) (listed (refsOn s) s) _
    exact hl.congr ⟨rfl, rfl⟩ ⟨rfl, rfl⟩ fun _ _ => rfl
  · intro d hd
    show (s.cce d).refcount.toNat = refsOn s d + if pc = .wait d then 1 else 0
    rw [hcn d hd, if_neg (hpc d), if_neg (hpc' d)]
  · exact fun d he => absurd he (hpc d)
  · exact hm.congr rfl rfl rfl fun _ _ => ⟨rfl, rfl⟩
  · exact hp.links rfl rfl rfl ⟨rfl, rfl⟩
  · exact hset.links rfl rfl rfl ⟨rfl, rfl⟩
  · exact ht.sublist (List.Sublist.refl _) rfl rfl (fun d hd => ⟨hd, rfl, rfl⟩)
      fun r hr => ⟨rfl, fun k hk => ⟨(ht.refTok r hr k hk).1, rfl⟩⟩
  · exact hg.congr rfl (le_refl _) fun n =>
      owed_congr rfl (fun _ _ => isDone_congr fun _ _ => rfl) n

/-- One turn of a flush. -/
theorem flushNext_step (hP : DList.Discipline P) (h : Sound P Z conf s) (hpc : s.pc = .loop)
    (ho : CalmEvent conf s .flushNext) (hn : cacheNext conf s .flushNext = .ok s') : Sound P Z conf s' ∧
      (∀ d ∈ s.entries, Busy (refsOn s) s d → Kept s s' d) ∧
      Recorded s .flushNext s' := by
  have hno : ∀ d, s.pc ≠ .wait d := by
    intro d
    rw [hpc]
    exact fun he => by cases he
  have hn : flushNext conf s = .ok s' := hn
  unfold flushNext at hn
  cases hf : s.alist.first with
  | none =>
      rw [hf] at hn
      obtain rfl := Except.ok.inj hn
      exact ⟨h.setPc (fun d he => by cases he) hno, (fun d hd _ => ⟨hd, rfl, rfl, rfl⟩), rfl, rfl⟩
  | some c =>
      rw [hf] at hn
      have hc : c ∈ avail (refsOn s) s := ((hP.coherent h.inv.lists.alist).first c hf).1
      have hfree : ¬ s.SetUp c := ho c hf
      by_cases hct : (s.cce c).t ≠ none
      · simp only [if_pos hct] at hn
        obtain rfl := Except.ok.inj hn
        refine ⟨h.recount hc rfl (.inl ⟨rfl, rfl, hfree, hno⟩), fun d hd _ => ?_, rfl, rfl⟩
        show d ∈ s.entries ∧ ((Function.update s.cce c _) d).addr = _ ∧
          ((Function.update s.cce c _) d).buffer = _ ∧ ((Function.update s.cce c _) d).gen = _
        by_cases hdc : d = c
        · subst hdc
          rw [Function.update_self]
          exact ⟨hd, rfl, rfl, rfl⟩
        · rw [Function.update_of_ne hdc]
          exact ⟨hd, rfl, rfl, rfl⟩
      · simp only [if_neg hct] at hn
        rw [h.inv.unlink hc (hno c)] at hn
        obtain rfl := Except.ok.inj hn
        refine ⟨h.discard hP hc hfree (not_not.1 hct) (hno c), fun d hd huse => ?_, rfl, rfl⟩
        have hdc : d ≠ c := by
          rintro rfl
          rcases huse with hu | hu | hu
          · exact hu hc.2
          · exact hct hu
          · exact hfree hu
        exact Kept.of_eq (Finset.mem_erase.2 ⟨hdc, hd⟩) rfl

/-- The entry that a flush waited for is put back. -/
theorem flushed_step (hP : DList.Discipline P) (h : Sound P Z conf s) (hpc : s.pc = .wait c)
    (hct : (s.cce c).t = none) (hn : cacheNext conf s .flushed = .ok s') : Sound P Z conf s' ∧
      (∀ d ∈ s.entries, Busy (refsOn s) s d → Kept s s' d) ∧
      Recorded s .flushed s' := by
  have hc := h.inv.counts.wait c hpc
  have hn : flushDone conf s c = .ok s' := by
    simp only [cacheNext, hpc] at hn
    exact hn
  have hfree := h.flush c hpc
  have h₁ : Sound P Z conf { s.setCce c { s.cce c with refcount := 0 } with pc := .loop } :=
    h.recount hc rfl (.inr ⟨rfl, rfl, hpc⟩)
  set s₁ : Cache := { s.setCce c { s.cce c with refcount := 0 } with pc := .loop } with hs₁
  have hself : s₁.cce c = { s.cce c with refcount := 0 } := Function.update_self _ _ _
  have hct₁ : (s₁.cce c).t = none := by
    rw [hself]
    exact hct
  have hsound := h₁.discard hP (c := c) hc hfree hct₁ (fun he => by cases he)
  obtain ⟨u, hu, hn⟩ := ok_of_bind hn
  unfold shfsCacheUnlink at hu
  have hz : ¬ ((s.setCce c { s.cce c with refcount := 0 }).cce c).refcount ≠ 0 := by
    simp [Cache.setCce]
  rw [if_neg hz] at hu
  obtain rfl := Except.ok.inj hu
  obtain rfl := Except.ok.inj hn
  refine ⟨hsound, fun d hd huse => ?_, rfl, rfl⟩
  have hdc : d ≠ c := by
    rintro rfl
    rcases huse with hu | hu | hu
    · exact hu hc.2
    · exact hu hct
    · exact hfree hu
  exact Kept.of_eq (Finset.mem_erase.2 ⟨hdc, hd⟩) (Function.update_of_ne hdc _ _)

/-- A volume is mounted or unmounted. -/
theorem Sound.mount (h : Sound P Z conf s) (m : Bool) : Sound P Z conf { s with mounted := m } := by
  obtain ⟨hi, ht, hg, hcalls, hflush⟩ := h
  refine ⟨?_, ?_, ?_, fun p hp => (hcalls p hp).congr fun _ _ => rfl, hflush⟩
  · exact hi.congr rfl rfl ⟨rfl, rfl⟩ ⟨rfl, rfl⟩ ⟨rfl, rfl⟩ rfl rfl (fun _ => rfl) (SameDevice.refl s)
  · exact ht.sublist (List.Sublist.refl _) rfl rfl (fun d hd => ⟨hd, rfl, rfl⟩)
      fun r hr => ⟨rfl, fun k hk => ⟨(ht.refTok r hr k hk).1, rfl⟩⟩
  · exact hg.congr rfl (le_refl _) fun n =>
      owed_congr rfl (fun _ _ => isDone_congr fun _ _ => rfl) n

/-! ## Every step -/

/-- What is in use has references, or a request, or one that is being set up. -/
theorem InUse.busy {e : CacheEvent} {d : Mem} (h : InUse s e d) : Busy (refsOn s) s d := by
  rcases h with ⟨r, hr, rfl, -⟩ | ⟨t, ht, -⟩ | ⟨p, hp, rfl | hh, -⟩
  · exact .inl (refsOn_pos hr)
  · refine .inr (.inl ?_)
    rw [ht]
    exact Option.some_ne_none t
  · exact .inr (.inr ⟨p, hp, rfl⟩)
  · exact .inl (refsOn_call hp hh)

/-- It still is when another call goes on, … -/
theorem InUse.busyBut {p : Pending} {err : Option Errno} {env : AreadEnv} {d : Mem}
    (h : InUse s (.resume p err env) d) : BusyBut s p d := by
  rcases h with ⟨r, hr, rfl, -⟩ | ⟨t, ht, -⟩ | ⟨q, hq, hqd, hne⟩
  · exact .inl (refsOn_pos (s := s.goOn p) hr)
  · refine .inr (.inl ?_)
    rw [ht]
    exact Option.some_ne_none t
  · have hqp : q ≠ p := by
      rintro rfl
      exact hne err env rfl
    rcases hqd with rfl | hh
    · exact .inr (.inr ⟨q, hq, hqp, rfl⟩)
    · exact .inl (refsOn_call (s := s.goOn p) ((List.mem_erase_of_ne hqp).2 hq) hh)

/-- … and when another reference is released. -/
theorem InUse.released {r : Ref} {e : CacheEvent} {d : Mem} (hr : r ∈ s.refs) (h : InUse s e d)
    (he : e = .release r ∨ e = .ioabort r) :
    (refsOn s d ≠ 0 ∧ unbump (refsOn s) r.cce d ≠ 0) ∨ (s.cce d).t ≠ none ∨ s.SetUp d := by
  have hless : refsOn { s with refs := s.refs.erase r } = unbump (refsOn s) r.cce :=
    refsOn_erase hr rfl rfl
  rcases h with ⟨r', hr', rfl, hne, hne'⟩ | ⟨t, ht, -⟩ | ⟨p, hp, rfl | hh, -⟩
  · have hrr : r' ≠ r := by
      rintro rfl
      rcases he with rfl | rfl
      · exact hne rfl
      · exact hne' rfl
    refine .inl ⟨refsOn_pos hr', ?_⟩
    rw [← hless]
    exact refsOn_pos (s := { s with refs := s.refs.erase r }) ((List.mem_erase_of_ne hrr).2 hr')
  · refine .inr (.inl ?_)
    rw [ht]
    exact Option.some_ne_none t
  · exact .inr (.inr ⟨p, hp, rfl⟩)
  · refine .inl ⟨refsOn_call hp hh, ?_⟩
    rw [← hless]
    exact refsOn_call (s := { s with refs := s.refs.erase r }) hp hh

/-- Whatever an orderly event is: the invariant is kept, what is in use is left alone, and the records
of the callers change as they should. -/
theorem cache_step (hP : DList.Discipline P) (h : Sound P Z conf s) {e : CacheEvent}
    (hs : (cache conf).Step s e s') (ho : Orderly conf s e) (hZ : AddrOk Z conf e)
    (hlose : LoseOk P s e) :
    Sound P Z conf s' ∧ (∀ d ∈ s.entries, InUse s e d → Kept s s' d) ∧ Recorded s e s' := by
  obtain ⟨he, hn⟩ := hs
  cases e with
  | mount m =>
      obtain rfl := Except.ok.inj hn
      exact ⟨h.mount m, fun d hd _ => ⟨hd, rfl, rfl, rfl⟩, rfl, rfl⟩
  | aread addr cb env =>
      obtain ⟨⟨x, s₁⟩, hread, hn⟩ := ok_of_bind hn
      obtain rfl := Except.ok.inj hn
      obtain ⟨hg, hk, hr, -⟩ := aread_call hP h he hZ ho hread
      exact ⟨hg, fun d hd hu => hk d hd hu.busy, hr⟩
  | resume p err env =>
      obtain ⟨hpc, hp⟩ := he
      obtain ⟨⟨x, s₁⟩, hread, hn⟩ := ok_of_bind hn
      obtain rfl := Except.ok.inj hn
      obtain ⟨hg, hk, hr, -⟩ := resume_call hP h hpc hp ho.1 hread
      exact ⟨hg, fun d hd hu => hk d hd hu.busyBut, hr⟩
  | eblank heap =>
      obtain ⟨hg, hk, hr⟩ := eblank_step hP h he ho.1 hn
      exact ⟨hg, fun d hd hu => hk d hd hu.busy, hr⟩
  | release r =>
      obtain ⟨hpc, hin, hdone⟩ := he
      obtain ⟨hg, hk, hr⟩ := release_step hP h hpc hin hdone hlose hn
      exact ⟨hg, fun d hd hu => hk d hd (hu.released hin (.inl rfl)), hr⟩
  | ioabort r =>
      obtain ⟨hpc, hin⟩ := he
      obtain ⟨hg, hk, hr⟩ := ioabort_step hP h hpc hin hlose hn
      exact ⟨hg, fun d hd hu => hk d hd (hu.released hin (.inr rfl)), hr⟩
  | finalize r =>
      obtain ⟨hin, htok, hdone⟩ := he
      obtain ⟨hg, hk, hr⟩ := finalize_step h hin hdone hn htok
      exact ⟨hg, fun d hd _ => hk d hd, hr⟩
  | complete t ret =>
      obtain ⟨-, ht, ⟨c, hcb⟩, -⟩ := he
      obtain ⟨hg, hk, hr⟩ := complete_step hP h ht hcb ho.1 hn
      refine ⟨hg, fun d hd hu => hk d hd ?_, hr⟩
      rcases hu with ⟨r, hr, rfl, -⟩ | ⟨k, hk, hne⟩ | ⟨p, hp, rfl | hh, -⟩
      · exact .inl (refsOn_pos hr)
      · refine .inr (.inl ⟨k, hk, ?_⟩)
        rintro rfl
        exact hne ret rfl
      · exact .inr (.inr ⟨p, hp, rfl⟩)
      · exact .inl (refsOn_call hp hh)
  | flush =>
      obtain rfl := Except.ok.inj hn
      have he : s.pc = .idle := he
      refine ⟨h.setPc (fun d hh => by cases hh) ?_, fun d hd _ => ⟨hd, rfl, rfl, rfl⟩, rfl, rfl⟩
      intro d
      rw [he]
      exact fun hh => by cases hh
  | flushNext =>
      obtain ⟨hg, hk, hr⟩ := flushNext_step hP h he ho.1 hn
      exact ⟨hg, fun d hd hu => hk d hd hu.busy, hr⟩
  | flushed =>
      obtain ⟨c, hpc, hct⟩ := he
      obtain ⟨hg, hk, hr⟩ := flushed_step hP h hpc hct hn
      exact ⟨hg, fun d hd hu => hk d hd hu.busy, hr⟩

/-- A new cache has the invariant, whatever its memory holds. -/
theorem sound_init (hP : DList.Discipline P) (conf : CacheConf) (cce : Mem → Cce)
    (alinks clinks : Links Mem) (tok : Nat → AioToken) (tlinks : Links Nat) :
    Sound P Z conf (shfsAllocCache conf cce alinks clinks tok tlinks) := by
  set s := shfsAllocCache conf cce alinks clinks tok tlinks with hs
  have hA : avail (refsOn s) s = ∅ := by
    ext d
    simp [avail, hs, shfsAllocCache]
  have hH : listed (refsOn s) s = ∅ := by
    ext d
    simp [listed, hs, shfsAllocCache]
  have hno : ∀ c, c ∉ s.entries := fun c => Finset.notMem_empty c
  have hrefs : ∀ r, r ∉ s.refs := fun r => List.not_mem_nil
  have htok : ∀ t, t ∉ s.tokens := fun t => Finset.notMem_empty t
  have hR : ∀ c, refsOn s c = 0 := fun c => rfl
  have hadds : ∀ p, p ∉ s.adds := fun p => List.not_mem_nil
  refine ⟨⟨?_, ⟨?_, ?_, ?_, rfl⟩, ⟨List.nodup_range, ?_, ?_, ?_, rfl⟩, ⟨?_, ?_⟩, ?_,
      ⟨List.Pairwise.nil, fun p hp => absurd hp (hadds p), fun p hp => absurd hp (hadds p)⟩⟩,
    ⟨?_, ?_, ?_, ?_, List.Pairwise.nil, ?_⟩, ⟨fun _ => rfl, fun _ => Nat.zero_le _, fun _ _ => rfl⟩,
    fun p hp => absurd hp (hadds p), not_flushing rfl⟩
  · rw [hA, hH]
    refine ⟨hP.empty _, DList.sorted_empty _ _, ?_, ?_⟩
    · exact fun c hc => absurd hc (Set.notMem_empty c)
    · exact fun c hc => absurd hc (Set.notMem_empty c)
  · exact fun c hc => absurd (hR c) hc
  · exact fun c hc => absurd hc (hno c)
  · intro c hc
    cases hc
  · exact fun n _ => hno _
  · exact fun c hc => absurd hc (hno c)
  · exact fun c hc => absurd hc (hno c)
  · exact fun c hc => absurd hc (hno c)
  · exact fun t ht => absurd ht (htok t)
  · exact fun c hc => absurd (hR c) hc
  · exact fun r hr => absurd hr (hrefs r)
  · exact fun r hr => absurd hr (hrefs r)
  · exact fun r hr => absurd hr (hrefs r)
  · exact fun c hc => absurd hc (hno c)
  · exact fun r hr => absurd hr (hrefs r)

/-- Nothing has to be known of the addresses in the lists, … -/
theorem addrOk_any (e : CacheEvent) : AddrOk (fun _ => True) conf e := by
  cases e with
  | aread addr cb env => exact fun _ _ => ⟨trivial, fun _ _ _ _ => trivial⟩
  | _ => trivial

/-- … and a coherent list may lose its ends. -/
theorem Sound.loseOk (h : Sound DList.Coherent (fun _ => True) conf s) (e : CacheEvent) :
    LoseOk DList.Coherent s e := by
  cases e with
  | release r => exact fun _ => h.inv.lists.alist.lose
  | ioabort r => exact fun _ => h.inv.lists.alist.lose
  | _ => trivial

/-- In every orderly run the lists are at least coherent. -/
theorem cache_sound {cce : Mem → Cce} {alinks clinks : Links Mem} {tok : Nat → AioToken}
    {tlinks : Links Nat} {es : List CacheEvent}
    (h : ((cache conf).restrict (Orderly conf)).Run (shfsAllocCache conf cce alinks clinks tok tlinks)
      es s) : Sound DList.Coherent (fun _ => True) conf s := by
  refine h.invariant (I := Sound DList.Coherent (fun _ => True) conf) (fun s₁ e s₂ hg hs => ?_)
    (sound_init DList.coherent_discipline conf cce alinks clinks tok tlinks)
  obtain ⟨hs, ho⟩ := Machine.restrict_step.1 hs
  exact (cache_step DList.coherent_discipline hg hs ho (addrOk_any e) (hg.loseOk e)).1

end Complete

/-! ## A small cache -/

/-- Two buffers, and one collision list. -/
def tinyCache : CacheConf := ⟨2, 0, 0, 100, by decide⟩

/-- A new cache in memory that is all zero. -/
def newCache (conf : CacheConf) : Cache :=
  shfsAllocCache conf (fun _ => ⟨none, 0, 0, .heap 0, false, none, DList.emptyEnds, 0⟩)
    ⟨fun _ => none, fun _ => none⟩ ⟨fun _ => none, fun _ => none⟩ (fun _ => ⟨0, 0, none, 0, 0⟩)
    ⟨fun _ => none, fun _ => none⟩

def tinyInit : Cache := newCache tinyCache

/-- A read that finds a free buffer, where the tokens are `t` for the device and `u` for the caller. -/
def readEvent (addr t u : Nat) : CacheEvent :=
  .aread addr none ⟨⟨none, .started t⟩, fun _ => ⟨none, .started t⟩, some u⟩

/-- The same read where the device has no free slot. -/
def waitEvent (addr t : Nat) : CacheEvent :=
  .aread addr none ⟨⟨none, .wait t⟩, fun _ => ⟨none, .wait t⟩, none⟩

end Minipython.Shfs
