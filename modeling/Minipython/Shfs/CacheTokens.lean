/-
# Minipython.Shfs.CacheTokens — the chains of callers' tokens

While the request of an entry is in flight, every reference on it has a token that is not done, and the
chain of the entry links exactly these tokens, in the order in which they were given out. Once it has
completed, the chain is empty and every token of a reference on it is done.

A reference is given out with a token or without. With a token it is linked to the end of the chain, and its
serial number is larger than all on the chain; taking a reference back unlinks its token if it is still
there. `TokInv` is kept by both, and `LogInv` of `CacheLog` counts what became of each number.
-/
import Mathlib.Data.List.Pairwise
import Minipython.Shfs.CacheAdd
import Minipython.Shfs.CacheRefs

namespace Minipython.Shfs

open Minipython.Lib
open Cache

/-! ## References and their tokens -/

/-- The references on an entry: those that callers hold, and those of calls that wait while they read
ahead. -/
def refsOn (s : Cache) (c : Mem) : Nat :=
  s.refs.countP (fun r => r.cce = c) + s.adds.countP fun p => p.holds = some c

/-- References with that of a call that waits. -/
def withCall (R : Mem → Nat) (p : Pending) : Mem → Nat := (p.holds.map (bump R)).getD R

/-- The tokens of the references on an entry, in the order of the references. -/
def toksOn (refs : List Ref) (c : Mem) : List Nat :=
  (refs.filter fun r => r.cce = c).filterMap fun r => r.tok

/-- The tokens that wait for the request of an entry. -/
def waiting (s : Cache) (c : Mem) : List Nat :=
  if (s.cce c).t = none then [] else toksOn s.refs c

/-- What ties references, tokens and chains together. -/
structure TokInv (s : Cache) : Prop where
  refTok : ∀ r ∈ s.refs, ∀ t, r.tok = some t →
    t ∈ s.tokens ∧ (∀ c, (s.tok t).cb ≠ some (.cce c)) ∧ (s.tok t).serial = r.serial
  pending : ∀ r ∈ s.refs, (s.cce r.cce).t ≠ none → ∃ t, r.tok = some t ∧ (s.tok t).infly ≠ 0
  done : ∀ r ∈ s.refs, (s.cce r.cce).t = none → ∀ t, r.tok = some t → (s.tok t).infly = 0
  chain : ∀ c ∈ s.entries, DList.Rep s.tlinks (s.cce c).aioChain (waiting s c)
  serials : s.refs.Pairwise fun r r' => r.serial < r'.serial
  issued : ∀ r ∈ s.refs, r.serial < s.issued

theorem refsOn_congr {s s' : Cache} (h : s'.refs = s.refs) (ha : s'.adds = s.adds) :
    refsOn s' = refsOn s := by
  funext c
  rw [refsOn, refsOn, h, ha]

theorem refsOn_pos {s : Cache} {r : Ref} (h : r ∈ s.refs) : refsOn s r.cce ≠ 0 := by
  have hpos : 0 < s.refs.countP fun r' => r'.cce = r.cce := List.countP_pos_iff.2 ⟨r, h, by simp⟩
  unfold refsOn
  omega

/-- A call that reads ahead holds the entry of its chunk. -/
theorem refsOn_call {s : Cache} {p : Pending} {c : Mem} (h : p ∈ s.adds) (hc : p.holds = some c) :
    refsOn s c ≠ 0 := by
  have hpos : 0 < s.adds.countP fun q => q.holds = some c :=
    List.countP_pos_iff.2 ⟨p, h, by simpa using hc⟩
  unfold refsOn
  omega

theorem withCall_apply (R : Mem → Nat) (p : Pending) (c : Mem) :
    withCall R p c = R c + if p.holds = some c then 1 else 0 := by
  unfold withCall
  cases hp : p.holds with
  | none => simp
  | some d =>
      by_cases hd : c = d
      · subst hd
        simp [bump_self]
      · simp [bump_of_ne R hd, Ne.symm hd]

/-- A call starts to wait. -/
theorem refsOn_waits (s : Cache) (p : Pending) :
    refsOn { s with adds := s.adds ++ [p] } = withCall (refsOn s) p := by
  funext c
  rw [withCall_apply]
  show s.refs.countP _ + (s.adds ++ [p]).countP _ = _
  rw [List.countP_append, refsOn]
  by_cases hp : p.holds = some c <;> simp [hp, Nat.add_assoc]

/-- A call goes on. -/
theorem refsOn_goOn {s : Cache} {p : Pending} (h : p ∈ s.adds) :
    refsOn s = withCall (refsOn (s.goOn p)) p := by
  funext c
  rw [withCall_apply]
  show s.refs.countP _ + s.adds.countP _ = s.refs.countP _ + (s.adds.erase p).countP _ + _
  obtain ⟨l, l', -, hl, he⟩ := List.exists_erase_eq h
  rw [he, hl, List.countP_append, List.countP_append, List.countP_cons]
  by_cases hp : p.holds = some c
  · simp [hp]
    omega
  · simp [hp]

theorem toksOn_append (refs refs' : List Ref) (c : Mem) :
    toksOn (refs ++ refs') c = toksOn refs c ++ toksOn refs' c := by
  simp [toksOn]

theorem mem_toksOn {refs : List Ref} {c : Mem} {t : Nat} :
    t ∈ toksOn refs c ↔ ∃ r ∈ refs, r.cce = c ∧ r.tok = some t := by
  simp only [toksOn, List.mem_filterMap, List.mem_filter, decide_eq_true_eq, and_assoc]

theorem toksOn_of_none {refs : List Ref} {c : Mem} (h : ∀ r ∈ refs, r.cce ≠ c) :
    toksOn refs c = [] := by
  rw [List.eq_nil_iff_forall_not_mem]
  intro t ht
  obtain ⟨r, hr, hc, -⟩ := mem_toksOn.1 ht
  exact h r hr hc

section TokInv

variable {s s' : Cache} {c : Mem} {r : Ref}

/-- A reference is done with its token when the request of its entry is. -/
theorem TokInv.isDone (h : TokInv s) (hr : r ∈ s.refs) :
    s.aioIsDone r.tok = true ↔ (s.cce r.cce).t = none := by
  constructor
  · intro hd
    by_contra ht
    obtain ⟨t, htok, hfly⟩ := h.pending r hr ht
    rw [htok] at hd
    simp [Cache.aioIsDone, hfly] at hd
  · intro ht
    cases htok : r.tok with
    | none => rfl
    | some t =>
        have := h.done r hr ht t htok
        simp [Cache.aioIsDone, this]

/-- Serial numbers tell references apart. -/
theorem TokInv.serial_inj (h : TokInv s) {r' : Ref} (hr : r ∈ s.refs) (hr' : r' ∈ s.refs)
    (he : r.serial = r'.serial) : r = r' := by
  by_contra hne
  have : Std.Symm fun a b : Ref => a.serial ≠ b.serial := ⟨fun _ _ hab => hab.symm⟩
  have hp : s.refs.Pairwise fun a b => a.serial ≠ b.serial := h.serials.imp fun hab => Nat.ne_of_lt hab
  exact hp.forall hr hr' hne he

theorem TokInv.refs_nodup (h : TokInv s) : s.refs.Nodup := by
  refine h.serials.imp ?_
  rintro a b hab rfl
  exact Nat.lt_irrefl _ hab

/-- Two references with one token are one reference. -/
theorem TokInv.tok_inj (h : TokInv s) {r' : Ref} {t : Nat} (hr : r ∈ s.refs) (hr' : r' ∈ s.refs)
    (ht : r.tok = some t) (ht' : r'.tok = some t) : r = r' := by
  refine h.serial_inj hr hr' ?_
  rw [← (h.refTok r hr t ht).2.2, ← (h.refTok r' hr' t ht').2.2]

theorem TokInv.nodup (h : TokInv s) (c : Mem) : (toksOn s.refs c).Nodup := by
  unfold toksOn
  rw [List.Nodup, List.pairwise_filterMap]
  refine (h.serials.sublist (List.filter_sublist)).imp_of_mem ?_
  intro r r' hr hr' hlt t ht t' ht' he
  subst he
  have := h.tok_inj (List.mem_filter.1 hr).1 (List.mem_filter.1 hr').1 ht ht'
  rw [this] at hlt
  exact Nat.lt_irrefl _ hlt

/-- Chains share no token. -/
theorem TokInv.disjoint (h : TokInv s) {d : Mem} {t : Nat} (hc : t ∈ waiting s c)
    (hd : t ∈ waiting s d) : c = d := by
  have mem : ∀ e, t ∈ waiting s e → ∃ r ∈ s.refs, r.cce = e ∧ r.tok = some t := by
    intro e he
    unfold waiting at he
    split at he
    · cases he
    · exact mem_toksOn.1 he
  obtain ⟨r, hr, rfl, ht⟩ := mem c hc
  obtain ⟨r', hr', rfl, ht'⟩ := mem d hd
  rw [h.tok_inj hr hr' ht ht']

/-- What the invariant says of one reference. -/
structure RefOk (s : Cache) (r : Ref) : Prop where
  refTok : ∀ t, r.tok = some t →
    t ∈ s.tokens ∧ (∀ c, (s.tok t).cb ≠ some (.cce c)) ∧ (s.tok t).serial = r.serial
  pending : (s.cce r.cce).t ≠ none → ∃ t, r.tok = some t ∧ (s.tok t).infly ≠ 0
  done : (s.cce r.cce).t = none → ∀ t, r.tok = some t → (s.tok t).infly = 0

theorem TokInv.ref (h : TokInv s) (hr : r ∈ s.refs) : RefOk s r :=
  ⟨h.refTok r hr, h.pending r hr, h.done r hr⟩

/-- The invariant, reference by reference. -/
theorem TokInv.of_refs (href : ∀ r ∈ s.refs, RefOk s r)
    (hchain : ∀ c ∈ s.entries, DList.Rep s.tlinks (s.cce c).aioChain (waiting s c))
    (hserials : s.refs.Pairwise fun r r' => r.serial < r'.serial)
    (hissued : ∀ r ∈ s.refs, r.serial < s.issued) : TokInv s where
  refTok r hr := (href r hr).refTok
  pending r hr := (href r hr).pending
  done r hr := (href r hr).done
  chain := hchain
  serials := hserials
  issued := hissued

/-- A reference depends on its own token, and on whether the request of its entry is in flight. -/
theorem RefOk.congr (h : RefOk s r) (ht : (s'.cce r.cce).t = (s.cce r.cce).t)
    (htok : ∀ t, r.tok = some t → t ∈ s.tokens → t ∈ s'.tokens ∧ s'.tok t = s.tok t) : RefOk s' r := by
  have hsame : ∀ t, r.tok = some t → t ∈ s'.tokens ∧ s'.tok t = s.tok t := fun t hrt =>
    htok t hrt (h.refTok t hrt).1
  refine ⟨fun t hrt => ?_, fun hct => ?_, fun hct t hrt => ?_⟩
  · rw [(hsame t hrt).2]
    exact ⟨(hsame t hrt).1, (h.refTok t hrt).2⟩
  · rw [ht] at hct
    rcases h.pending hct with ⟨t, hrt, hfly⟩
    refine ⟨t, hrt, ?_⟩
    rw [(hsame t hrt).2]
    exact hfly
  · rw [ht] at hct
    rw [(hsame t hrt).2]
    exact h.done hct t hrt

/-- Nothing about the remaining references changed but the chains. -/
theorem TokInv.fewer (h : TokInv s) (hsub : s'.refs.Sublist s.refs) (hi : s'.issued = s.issued)
    (hchain : ∀ d ∈ s'.entries, DList.Rep s'.tlinks (s'.cce d).aioChain (waiting s' d))
    (href : ∀ r ∈ s'.refs, (s'.cce r.cce).t = (s.cce r.cce).t ∧
      ∀ t, r.tok = some t → t ∈ s.tokens → t ∈ s'.tokens ∧ s'.tok t = s.tok t) : TokInv s' := by
  apply TokInv.of_refs
  · exact fun r hr => (h.ref (hsub.subset hr)).congr (href r hr).1 (href r hr).2
  · exact hchain
  · exact h.serials.sublist hsub
  · intro r hr
    rw [hi]
    exact h.issued r (hsub.subset hr)

/-- Nothing about the remaining references changed. -/
theorem TokInv.sublist (h : TokInv s) (hsub : s'.refs.Sublist s.refs) (hi : s'.issued = s.issued)
    (hl : s'.tlinks = s.tlinks) (hent : ∀ d ∈ s'.entries, d ∈ s.entries ∧
      (s'.cce d).aioChain = (s.cce d).aioChain ∧ waiting s' d = waiting s d)
    (href : ∀ r ∈ s'.refs, (s'.cce r.cce).t = (s.cce r.cce).t ∧
      ∀ t, r.tok = some t → t ∈ s'.tokens ∧ s'.tok t = s.tok t) : TokInv s' := by
  refine h.fewer hsub hi (fun d hd => ?_) fun r hr => ⟨(href r hr).1, fun t ht _ => (href r hr).2 t ht⟩
  obtain ⟨hd', hch, hw⟩ := hent d hd
  rw [hl, hch, hw]
  exact h.chain d hd'

theorem waiting_congr (hr : s'.refs = s.refs) (ht : (s'.cce c).t = (s.cce c).t) :
    waiting s' c = waiting s c := by
  rw [waiting, waiting, hr, ht]

/-- Counting references leaves the tokens alone. -/
theorem TokInv.same (h : TokInv s) (hs : SameBut c s s') : TokInv s' := by
  obtain ⟨hr, hi, -, hl⟩ := hs.callers
  refine h.sublist (by rw [hr]) hi hl (fun d hd => ?_) fun r _ => ?_
  · refine ⟨hs.entries ▸ hd, ?_, waiting_congr hr (hs.fields d).2.1⟩
    obtain ⟨n, he, -⟩ := hs.cce d
    rw [he]
  · refine ⟨(hs.fields r.cce).2.1, fun t ht => ?_⟩
    rw [hs.tokens.1, hs.tokens.2]
    exact ⟨(h.refTok r (by rw [← hr]; assumption) t ht).1, rfl⟩

/-- An entry that nobody holds may go. -/
theorem TokInv.gone (h : TokInv s) (hg : Gone c s s') (hno : ∀ r ∈ s.refs, r.cce ≠ c) :
    TokInv s' := by
  obtain ⟨hr, hi, -, hl⟩ := hg.callers
  refine h.sublist (by rw [hr]) hi hl (fun d hd => ?_) fun r hm => ?_
  · rw [hg.entries, Finset.mem_erase] at hd
    have he := hg.cce d hd.1
    exact ⟨hd.2, by rw [he], waiting_congr hr (by rw [he])⟩
  · rw [hr] at hm
    refine ⟨by rw [hg.cce _ (hno r hm)], fun t ht => ?_⟩
    rw [hg.tokens.1, hg.tokens.2]
    exact ⟨(h.refTok r hm t ht).1, rfl⟩

/-- New entries and requests leave the callers' tokens alone. -/
theorem TokInv.grows {R : Mem → Nat} (h : TokInv s) (hg : Grows R s s')
    (hR : ∀ r ∈ s.refs, R r.cce ≠ 0 ∧ r.cce ∈ s.entries) : TokInv s' := by
  obtain ⟨hr, hi, -, hl⟩ := hg.callers
  have hfix : ∀ r ∈ s.refs, s'.cce r.cce = s.cce r.cce := fun r hm =>
    (hg.frozen r.cce (hR r hm).2 (.inl (hR r hm).1)).2
  apply h.fewer
  · rw [hr]
  · exact hi
  · intro d hd
    by_cases hheld : ∃ r ∈ s.refs, r.cce = d
    · obtain ⟨r, hm, rfl⟩ := hheld
      rw [hl, hfix r hm, waiting_congr hr (by rw [hfix r hm])]
      exact h.chain _ (hR r hm).2
    · -- nobody holds the entry, so its chain was and is empty
      have hno : ∀ r ∈ s.refs, r.cce ≠ d := fun r hm he => hheld ⟨r, hm, he⟩
      have hw : ∀ u : Cache, u.refs = s.refs → waiting u d = [] := by
        intro u hu
        unfold waiting
        rw [hu, toksOn_of_none hno]
        split <;> rfl
      have hempty : (s'.cce d).aioChain = DList.emptyEnds := by
        rcases hg.chain d hd with he | ⟨hd', he⟩
        · exact he
        · have hrep := h.chain d hd'
          rw [hw s rfl] at hrep
          rw [he]
          have h1 := hrep.first
          have h2 := hrep.last
          cases hE : (s.cce d).aioChain with
          | mk f l =>
              rw [hE] at h1 h2
              rw [show f = none from h1, show l = none from h2]
              rfl
      rw [hempty, hw s' hr]
      exact DList.rep_empty _
  · rw [hr]
    exact fun r hm => ⟨by rw [hfix r hm], fun t _ hin => hg.tokens t hin⟩

/-- The end of a wait leaves the callers' tokens alone: nobody holds the entry of its request. -/
theorem TokInv.settle {p : Pending} (h : TokInv s) (hs : CallSettled p s s')
    (hno : ∀ r ∈ s.refs, r.cce ≠ p.cce) (hcb : (s.tok p.tok).cb = some (.cce p.cce)) : TokInv s' := by
  obtain ⟨hr, hi, -, hl⟩ := hs.callers
  have hw : ∀ u : Cache, u.refs = s.refs → waiting u p.cce = [] := by
    intro u hu
    unfold waiting
    rw [hu, toksOn_of_none hno]
    split <;> rfl
  refine h.sublist (by rw [hr]) hi hl (fun d hd => ?_) fun r hm => ?_
  · refine ⟨hs.fewer d hd, ?_⟩
    by_cases hdc : d = p.cce
    · subst hdc
      exact ⟨hs.chain, (hw s' hr).trans (hw s rfl).symm⟩
    · exact ⟨by rw [hs.cce d hdc], waiting_congr hr (by rw [hs.cce d hdc])⟩
  · rw [hr] at hm
    refine ⟨by rw [hs.cce _ (hno r hm)], fun t ht => ?_⟩
    obtain ⟨hin, huser, -⟩ := h.refTok r hm t ht
    refine ⟨hs.tokens t hin ?_, by rw [hs.tok]⟩
    rintro rfl
    exact huser p.cce hcb

/-- Appending to a chain is `dlist_append`. -/
theorem chainAppend_eq {l : List Nat} {t : Nat} (hrep : DList.Rep s.tlinks (s.cce c).aioChain l)
    (ht : t ∉ l) : ∃ L E, DList.Rep L E (l ++ [t]) ∧
      (∀ x, x ∉ l → x ≠ t → L.next x = s.tlinks.next x ∧ L.prev x = s.tlinks.prev x) ∧
      s.chainAppend c t = { s.setCce c { s.cce c with aioChain := E } with tlinks := L } := by
  obtain ⟨L, E, happ, hrep', hframe⟩ := hrep.append ht
  refine ⟨L, E, hrep', hframe, ?_⟩
  have hfirst := hrep.first
  have hlast := hrep.last
  unfold DList.append at happ
  unfold Cache.chainAppend
  rcases List.eq_nil_or_concat l with rfl | ⟨k, z, rfl⟩
  · simp only [List.head?_nil] at hfirst
    simp only [List.getLast?_nil] at hlast
    rw [hfirst] at happ
    rw [hlast]
    obtain ⟨rfl, rfl⟩ := Prod.mk.inj (Option.some.inj happ)
    rfl
  · simp only [List.concat_eq_append, List.getLast?_append, List.getLast?_singleton,
      Option.some_or] at hlast
    obtain ⟨w, hw⟩ : ∃ w, (s.cce c).aioChain.first = some w := by
      rw [hfirst]
      cases k <;> simp
    rw [hw] at happ
    simp only [hlast] at happ
    obtain ⟨rfl, rfl⟩ := Prod.mk.inj (Option.some.inj happ)
    simp only [hlast, hw]

/-! ## Handing references out -/

/-- A new reference is behind the others. -/
theorem waiting_give {d : Mem} (hrefs : s'.refs = s.refs ++ [r]) (ht : (s'.cce d).t = (s.cce d).t) :
    waiting s' d =
      waiting s d ++ if r.cce = d ∧ (s.cce d).t ≠ none then r.tok.toList else [] := by
  unfold waiting
  rw [ht, hrefs, toksOn_append]
  by_cases hct : (s.cce d).t = none
  · simp [hct]
  · by_cases hd : r.cce = d
    · cases htok : r.tok <;> simp [hct, hd, toksOn, htok]
    · simp [hct, hd, toksOn]

/-- One more reference, with the next serial number. -/
theorem TokInv.give (h : TokInv s) (hrefs : s'.refs = s.refs ++ [r]) (hserial : r.serial = s.issued)
    (hi : s'.issued = s.issued + 1) (ht : ∀ d, (s'.cce d).t = (s.cce d).t)
    (htok : ∀ t ∈ s.tokens, t ∈ s'.tokens ∧ s'.tok t = s.tok t) (hr : RefOk s' r)
    (hchain : ∀ d ∈ s'.entries, DList.Rep s'.tlinks (s'.cce d).aioChain (waiting s' d)) : TokInv s' := by
  apply TokInv.of_refs
  · intro r' hr'
    rw [hrefs, List.mem_append, List.mem_singleton] at hr'
    rcases hr' with hr' | rfl
    · exact (h.ref hr').congr (ht _) fun t _ hin => htok t hin
    · exact hr
  · exact hchain
  · rw [hrefs, List.pairwise_append]
    refine ⟨h.serials, List.pairwise_singleton _ _, fun r' hr' r'' hr'' => ?_⟩
    rcases List.mem_singleton.1 hr''
    rw [hserial]
    exact h.issued r' hr'
  · intro r' hr'
    rw [hi]
    rw [hrefs, List.mem_append, List.mem_singleton] at hr'
    rcases hr' with hr' | rfl
    · exact Nat.lt_succ_of_lt (h.issued r' hr')
    · rw [hserial]
      exact Nat.lt_succ_self _

/-- Waiting tokens are tokens that were handed out. -/
theorem TokInv.mem_waiting (h : TokInv s) {d : Mem} {t : Nat} (ht : t ∈ waiting s d) : t ∈ s.tokens := by
  unfold waiting at ht
  split at ht
  · cases ht
  · rcases mem_toksOn.1 ht with ⟨r, hr, -, hrt⟩
    exact (h.refTok r hr t hrt).1

/-- A token for a reference on an entry whose request is in flight. -/
theorem TokInv.givePending (h : TokInv s) (hc : c ∈ s.entries) (ht : (s.cce c).t ≠ none) {t : Nat}
    (hnew : t ∉ s.tokens) (cb : Option Nat) {s₁ : Cache}
    (hs₁ : s₁ = { s.setTok t { infly := 1, ret := 0, cb := cb.map .user, serial := s.issued, chunk := 0 } with
      tokens := insert t s.tokens }) :
    TokInv ((s₁.chainAppend c t).giveRef c (some t) false) ∧
      ∃ L E, s₁.chainAppend c t = { s₁.setCce c { s₁.cce c with aioChain := E } with tlinks := L } := by
  have hcce : s₁.cce = s.cce := by rw [hs₁]; rfl
  have hlinks : s₁.tlinks = s.tlinks := by rw [hs₁]; rfl
  have hent : s₁.entries = s.entries := by rw [hs₁]; rfl
  have hrefs : s₁.refs = s.refs := by rw [hs₁]; rfl
  have hiss : s₁.issued = s.issued := by rw [hs₁]; rfl
  have htoks : s₁.tokens = insert t s.tokens := by rw [hs₁]
  have hself : s₁.tok t = { infly := 1, ret := 0, cb := cb.map .user, serial := s.issued, chunk := 0 } := by
    rw [hs₁]
    exact Function.update_self _ _ _
  have hold : ∀ k ∈ s.tokens, k ∈ s₁.tokens ∧ s₁.tok k = s.tok k := by
    intro k hk
    refine ⟨htoks ▸ Finset.mem_insert_of_mem hk, ?_⟩
    rw [hs₁]
    refine Function.update_of_ne ?_ _ _
    rintro rfl
    exact hnew hk
  have hrep : DList.Rep s₁.tlinks (s₁.cce c).aioChain (waiting s c) := by
    rw [hlinks, hcce]
    exact h.chain c hc
  obtain ⟨L, E, hrep', hframe, heq⟩ := chainAppend_eq hrep fun hm => hnew (h.mem_waiting hm)
  refine ⟨?_, L, E, heq⟩
  rw [heq]
  set s₂ : Cache := ({ s₁.setCce c { s₁.cce c with aioChain := E } with tlinks := L } : Cache).giveRef
    c (some t) false with hs₂
  have hrefs₂ : s₂.refs = s.refs ++ [⟨c, some t, s.issued, false⟩] := by
    show s₁.refs ++ [⟨c, some t, s₁.issued, false⟩] = _
    rw [hrefs, hiss]
  have hself₂ : s₂.cce c = { s.cce c with aioChain := E } := by
    show Function.update s₁.cce c _ c = _
    rw [Function.update_self, hcce]
  have hother : ∀ d, d ≠ c → s₂.cce d = s.cce d := by
    intro d hd
    show Function.update s₁.cce c _ d = _
    rw [Function.update_of_ne hd, hcce]
  have ht₂ : ∀ d, (s₂.cce d).t = (s.cce d).t := by
    intro d
    by_cases hd : d = c
    · rw [hd, hself₂]
    · rw [hother d hd]
  apply h.give hrefs₂ rfl
  · show s₁.issued + 1 = _
    rw [hiss]
  · exact ht₂
  · exact hold
  · -- the new reference has the new token, which is in flight
    refine ⟨fun k hk => ?_, fun _ => ⟨t, rfl, ?_⟩, fun hct => absurd ((ht₂ c).symm.trans hct) ht⟩
    · rcases Option.some.inj hk
      refine ⟨htoks ▸ Finset.mem_insert_self _ _, fun d => ?_, ?_⟩
      · show (s₁.tok t).cb ≠ _
        rw [hself]
        cases cb <;> simp
      · show (s₁.tok t).serial = _
        rw [hself]
    · show (s₁.tok t).infly ≠ 0
      rw [hself]
      exact Nat.one_ne_zero
  · intro d hd
    have hd : d ∈ s.entries := hent ▸ hd
    rw [waiting_give hrefs₂ (ht₂ d)]
    show DList.Rep L _ _
    by_cases hdc : d = c
    · subst hdc
      rw [hself₂, if_pos ⟨rfl, ht⟩]
      exact hrep'
    · rw [hother d hdc, if_neg fun hand => hdc hand.1.symm, List.append_nil]
      -- the other chains have other tokens
      have hout : ∀ k ∈ waiting s d, k ∉ waiting s c ∧ k ≠ t := fun k hk =>
        ⟨fun hk' => hdc (h.disjoint hk hk'), fun he => hnew (he ▸ h.mem_waiting hk)⟩
      refine (h.chain d hd).congr (fun k hk => ?_) fun k hk => ?_
      · rw [← hlinks]
        exact (hframe k (hout k hk).1 (hout k hk).2).1
      · rw [← hlinks]
        exact (hframe k (hout k hk).1 (hout k hk).2).2

/-- A reference without a token, on an entry without a request. -/
theorem TokInv.giveDone (h : TokInv s) (ht : (s.cce c).t = none) (blank : Bool) :
    TokInv (s.giveRef c none blank) := by
  have hrefs : (s.giveRef c none blank).refs = s.refs ++ [⟨c, none, s.issued, blank⟩] := rfl
  apply h.give hrefs rfl rfl
  · exact fun _ => rfl
  · exact fun t hin => ⟨hin, rfl⟩
  · refine ⟨fun t hrt => ?_, fun hct => absurd ht hct, fun _ t hrt => ?_⟩
    · cases hrt
    · cases hrt
  · intro d hd
    rw [waiting_give hrefs rfl, Option.toList_none, ite_self, List.append_nil]
    exact h.chain d hd

/-! ## Taking references back -/

theorem toksOn_erase_of_ne {refs : List Ref} {d : Mem} (hr : r ∈ refs) (hd : r.cce ≠ d) :
    toksOn (refs.erase r) d = toksOn refs d := by
  obtain ⟨p, q, -, rfl, he⟩ := List.exists_erase_eq hr
  rw [he, toksOn_append, show r :: q = [r] ++ q from rfl, toksOn_append, toksOn_append]
  simp [toksOn, hd]

theorem refsOn_erase (hr : r ∈ s.refs) (hs' : s'.refs = s.refs.erase r) (ha : s'.adds = s.adds) :
    refsOn s' = unbump (refsOn s) r.cce := by
  funext d
  have hcount : refsOn s' d = refsOn s d - if r.cce = d then 1 else 0 := by
    obtain ⟨p, q, -, hpq, he⟩ := List.exists_erase_eq hr
    rw [refsOn, refsOn, hs', he, hpq, ha, List.countP_append, List.countP_append, List.countP_cons]
    by_cases hd : r.cce = d
    · simp [hd]
      omega
    · simp [hd]
  rw [hcount]
  by_cases hd : d = r.cce
  · subst hd
    rw [unbump_self, if_pos rfl]
  · rw [unbump_of_ne _ hd, if_neg (fun he => hd he.symm)]
    rfl

theorem refsOn_give (s : Cache) (c : Mem) (t : Option Nat) (blank : Bool) :
    refsOn (s.giveRef c t blank) = bump (refsOn s) c := by
  funext d
  have hcount : refsOn (s.giveRef c t blank) d = refsOn s d + if c = d then 1 else 0 := by
    show (s.refs ++ [(⟨c, t, s.issued, blank⟩ : Ref)]).countP (fun r => r.cce = d) +
      s.adds.countP (fun p => p.holds = some d) = _
    rw [List.countP_append, refsOn]
    by_cases hd : c = d
    · simp [hd]
      omega
    · simp [hd]
  rw [hcount]
  by_cases hd : d = c
  · subst hd
    rw [bump_self, if_pos rfl]
  · rw [bump_of_ne _ hd, if_neg (fun he => hd he.symm)]
    rfl

/-- A reference that is done with its token is taken back, and with it the token. -/
theorem TokInv.takeDone (h : TokInv s) (hr : r ∈ s.refs) (hd : s.aioIsDone r.tok = true)
    {T : Finset Nat} (hT : ∀ k ∈ s.tokens, r.tok ≠ some k → k ∈ T) :
    TokInv { s with refs := s.refs.erase r, tokens := T } := by
  have ht := (h.isDone hr).1 hd
  have hsub : (s.refs.erase r).Sublist s.refs := List.erase_sublist
  refine h.sublist hsub rfl rfl (fun d hin => ⟨hin, rfl, ?_⟩) fun r' hr' => ⟨rfl, fun k hk => ?_⟩
  · by_cases hdc : r.cce = d
    · subst hdc
      simp [waiting, ht]
    · unfold waiting
      rw [show ({ s with refs := s.refs.erase r, tokens := T } : Cache).refs = s.refs.erase r from rfl,
        toksOn_erase_of_ne hr hdc]
  · refine ⟨hT k (h.refTok r' (hsub.subset hr') k hk).1 fun hrk => ?_, rfl⟩
    -- the token is that of `r` alone, and `r` occurs once
    have he := h.tok_inj (hsub.subset hr') hr hk hrk
    subst he
    exact (h.refs_nodup.mem_erase_iff.1 hr').1 rfl

/-- A reference whose token is still chained is taken back: the token leaves the chain. -/
theorem TokInv.takePending (h : TokInv s) (hr : r ∈ s.refs) (hc : r.cce ∈ s.entries) {t : Nat}
    (htok : r.tok = some t) (hfly : (s.tok t).infly ≠ 0) :
    TokInv { (s.chainUnlink r.cce t).putToken t with refs := s.refs.erase r } := by
  have ht : (s.cce r.cce).t ≠ none := by
    intro ht
    exact hfly (h.done r hr ht t htok)
  have hnd := h.refs_nodup
  have hsub : (s.refs.erase r).Sublist s.refs := List.erase_sublist
  obtain ⟨p, q, -, hpq, he⟩ := List.exists_erase_eq hr
  -- the chain around the token
  have hsplit : waiting s r.cce = toksOn p r.cce ++ t :: toksOn q r.cce := by
    rw [waiting, if_neg ht, hpq, toksOn_append, show r :: q = [r] ++ q from rfl, toksOn_append]
    simp [toksOn, htok]
  have hrep := h.chain r.cce hc
  rw [hsplit] at hrep
  set u : Cache := { (s.chainUnlink r.cce t).putToken t with refs := s.refs.erase r } with hu
  have ht_u : ∀ d, (u.cce d).t = (s.cce d).t := by
    intro d
    show ((Function.update s.cce r.cce _) d).t = _
    by_cases hd : d = r.cce
    · subst hd
      rw [Function.update_self]
    · rw [Function.update_of_ne hd]
  have hlinks : u.tlinks = (DList.unlink s.tlinks (s.cce r.cce).aioChain t).1 := rfl
  have hother : ∀ r' ∈ s.refs.erase r, r'.tok ≠ some t := by
    intro r' hr' hk
    have := h.tok_inj (hsub.subset hr') hr hk htok
    subst this
    exact (hnd.mem_erase_iff.1 hr').1 rfl
  have htoks : ∀ r' ∈ s.refs.erase r, ∀ k, r'.tok = some k → k ∈ s.tokens → k ∈ u.tokens := by
    intro r' hr' k hk hin
    refine Finset.mem_erase.2 ⟨?_, hin⟩
    rintro rfl
    exact hother r' hr' hk
  refine h.fewer hsub rfl ?_ fun r' hr' => ⟨ht_u _, fun k hk hin => ⟨htoks r' hr' k hk hin, rfl⟩⟩
  · intro d hd
    by_cases hdc : d = r.cce
    · subst hdc
      have hw : waiting u r.cce = toksOn p r.cce ++ toksOn q r.cce := by
        rw [waiting, ht_u, if_neg ht, show u.refs = p ++ q from he, toksOn_append]
      have hch : (u.cce r.cce).aioChain = (DList.unlink s.tlinks (s.cce r.cce).aioChain t).2 := by
        show ((Function.update s.cce r.cce _) r.cce).aioChain = _
        rw [Function.update_self]
      rw [hw, hch, hlinks]
      exact hrep.unlink
    · have hw : waiting u d = waiting s d := by
        unfold waiting
        rw [ht_u, show u.refs = s.refs.erase r from rfl, toksOn_erase_of_ne hr fun he => hdc he.symm]
      have hch : u.cce d = s.cce d := Function.update_of_ne hdc _ _
      rw [hw, hch, hlinks]
      have hout : ∀ k ∈ waiting s d, k ∉ toksOn p r.cce ++ toksOn q r.cce := by
        intro k hk hk'
        refine hdc (h.disjoint hk ?_)
        rw [hsplit]
        rcases List.mem_append.1 hk' with hk' | hk' <;> simp [hk']
      exact (h.chain d hd).congr (fun k hk => (hrep.unlink_frame (hout k hk)).1)
        fun k hk => (hrep.unlink_frame (hout k hk)).2

/-- Changing references one by one without moving them between entries. -/
theorem toksOn_map {f : Ref → Ref} {refs : List Ref} {d : Mem}
    (hc : ∀ r ∈ refs, (f r).cce = r.cce) (hf : ∀ r ∈ refs, r.cce = d → f r = r) :
    toksOn (refs.map f) d = toksOn refs d := by
  induction refs with
  | nil => rfl
  | cons a refs ih =>
      have ih' := ih (fun r hr => hc r (by simp [hr])) fun r hr => hf r (by simp [hr])
      rw [List.map_cons, show f a :: refs.map f = [f a] ++ refs.map f from rfl,
        show a :: refs = [a] ++ refs from rfl, toksOn_append, toksOn_append, ih']
      congr 1
      have h1 := hc a (by simp)
      by_cases ha : a.cce = d
      · rw [hf a (by simp) ha]
      · simp [toksOn, h1, ha]

/-- A caller finalizes its token and keeps the reference. -/
theorem TokInv.finalize (h : TokInv s) (hr : r ∈ s.refs) (hd : s.aioIsDone r.tok = true) {t : Nat}
    (htok : r.tok = some t) : TokInv { s.putToken t with
      refs := s.refs.map fun r' => if r' = r then { r with tok := none } else r' } := by
  have ht := (h.isDone hr).1 hd
  set f : Ref → Ref := fun r' => if r' = r then { r with tok := none } else r' with hf
  have hcce : ∀ r', (f r').cce = r'.cce ∧ (f r').serial = r'.serial := by
    intro r'
    by_cases he : r' = r
    · subst he
      simp [hf]
    · simp [hf, he]
  apply TokInv.of_refs
  · intro a ha
    rcases List.mem_map.1 ha with ⟨r', hr', rfl⟩
    by_cases he : r' = r
    · have hfr : f r' = { r with tok := none } := if_pos he
      rw [hfr]
      refine ⟨fun k hk => ?_, fun hct => absurd ht hct, fun _ k hk => ?_⟩
      · cases hk
      · cases hk
    · have hfr : f r' = r' := if_neg he
      rw [hfr]
      refine (h.ref hr').congr rfl fun k hk hin => ⟨Finset.mem_erase.2 ⟨?_, hin⟩, rfl⟩
      rintro rfl
      exact he (h.tok_inj hr' hr hk htok)
  · intro d hin
    have hw : waiting { s.putToken t with refs := s.refs.map f } d = waiting s d := by
      by_cases hdn : (s.cce d).t = none
      · simp [waiting, hdn, Cache.putToken]
      · have hmap := toksOn_map (f := f) (d := d) (fun r' (_ : r' ∈ s.refs) => (hcce r').1) (by
          intro r' _ hrd
          have hne : r' ≠ r := by
            rintro rfl
            exact hdn (hrd ▸ ht)
          simp [hf, hne])
        simp only [waiting, Cache.putToken, if_neg hdn, hmap]
    rw [hw]
    exact h.chain d hin
  · rw [List.pairwise_map]
    exact h.serials.imp fun hab => by rw [(hcce _).2, (hcce _).2]; exact hab
  · intro a ha
    obtain ⟨r', hr', rfl⟩ := List.mem_map.1 ha
    rw [(hcce r').2]
    exact h.issued r' hr'

end TokInv

end Minipython.Shfs
