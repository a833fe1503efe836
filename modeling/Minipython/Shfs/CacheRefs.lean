/-
# Minipython.Shfs.CacheRefs — counting references

The first reference takes an entry off the available ones. The last one puts it back, or destroys it if
its data is no good.

The count on an entry is compared with a function `R` that says how many references are out. Taking one more
is `bump R`, and one less is `unbump R`. The lemmas are about one entry and say that all others stay as they
are (`SameBut`), so that they can be used by every operation that takes or gives back a reference: a read, a
release, an abort, and a flush that waits.
-/
import Minipython.Shfs.CacheInv

namespace Minipython.Shfs

open Minipython.Lib
open Cache

/-! ## References -/

/-- One more reference on `c`. -/
def bump (R : Mem → Nat) (c : Mem) : Mem → Nat := Function.update R c (R c + 1)

/-- One reference on `c` less. -/
def unbump (R : Mem → Nat) (c : Mem) : Mem → Nat := Function.update R c (R c - 1)

theorem bump_self (R : Mem → Nat) (c : Mem) : bump R c c = R c + 1 := Function.update_self _ _ _

theorem bump_of_ne (R : Mem → Nat) {c d : Mem} (h : d ≠ c) : bump R c d = R d :=
  Function.update_of_ne h _ _

theorem bump_self_ne (R : Mem → Nat) (c : Mem) : bump R c c ≠ 0 := by
  rw [bump_self]
  exact Nat.succ_ne_zero _

theorem bump_ne {R : Mem → Nat} {c d : Mem} (h : R d ≠ 0) : bump R c d ≠ 0 := by
  by_cases hd : d = c
  · rw [hd]
    exact bump_self_ne R c
  · rw [bump_of_ne R hd]
    exact h

theorem unbump_self (R : Mem → Nat) (c : Mem) : unbump R c c = R c - 1 := Function.update_self _ _ _

theorem unbump_of_ne (R : Mem → Nat) {c d : Mem} (h : d ≠ c) : unbump R c d = R d :=
  Function.update_of_ne h _ _

section Ops

variable {P : Set Mem → Links Mem → Ends Mem → Prop} {Z : Nat → Prop} {conf : CacheConf}
  {R : Mem → Nat} {s s' : Cache} {c : Mem}

/-- Giving back the reference that was just taken. -/
theorem unbump_bump (R : Mem → Nat) (c : Mem) : unbump (bump R c) c = R := by
  funext d
  by_cases hd : d = c
  · subst hd
    rw [unbump_self, bump_self]
    rfl
  · rw [unbump_of_ne _ hd, bump_of_ne _ hd]

/-- The number of referenced entries grows with the first reference on one. -/
theorem Counts.nbRef_bump (h : Counts R s) (hc : c ∈ s.entries) (h0 : R c = 0) :
    (s.entries.filter fun d => bump R c d ≠ 0).card = s.nbRefEntries + 1 := by
  have : (s.entries.filter fun d => bump R c d ≠ 0) =
      insert c (s.entries.filter fun d => R d ≠ 0) := by
    ext d
    simp only [Finset.mem_filter, Finset.mem_insert]
    by_cases hd : d = c
    · subst hd
      simp [bump_self, hc]
    · simp [bump_of_ne _ hd, hd]
  rw [this, Finset.card_insert_of_notMem (by simp [h0]), h.nbRef]

/-- Counting references on an entry does not touch anything else about it. -/
structure SameBut (c : Mem) (s s' : Cache) : Prop where
  cce : ∀ d, ∃ n, s'.cce d = { s.cce d with refcount := n } ∧ (d ≠ c → n = (s.cce d).refcount)
  entries : s'.entries = s.entries
  clists : s'.clinks = s.clinks ∧ s'.htable = s.htable
  memory : s'.pool = s.pool ∧ s'.nbEntries = s.nbEntries
  tokens : s'.tokens = s.tokens ∧ s'.tok = s.tok
  callers : s'.refs = s.refs ∧ s'.issued = s.issued ∧ s'.log = s.log ∧ s'.tlinks = s.tlinks
  adds : s'.adds = s.adds
  pc : s'.pc = s.pc

theorem SameBut.fields (h : SameBut c s s') (d : Mem) : (s'.cce d).addr = (s.cce d).addr ∧
    (s'.cce d).t = (s.cce d).t ∧ (s'.cce d).invalid = (s.cce d).invalid ∧
    (s'.cce d).pobj = (s.cce d).pobj ∧ (s'.cce d).buffer = (s.cce d).buffer := by
  obtain ⟨n, he, -⟩ := h.cce d
  rw [he]
  exact ⟨rfl, rfl, rfl, rfl, rfl⟩

theorem SameBut.of_setCce {n : UInt32} (he : s'.cce = Function.update s.cce c
      { s.cce c with refcount := n }) (hent : s'.entries = s.entries)
    (hcl : s'.clinks = s.clinks ∧ s'.htable = s.htable)
    (hmem : s'.pool = s.pool ∧ s'.nbEntries = s.nbEntries)
    (htok : s'.tokens = s.tokens ∧ s'.tok = s.tok)
    (hcall : s'.refs = s.refs ∧ s'.issued = s.issued ∧ s'.log = s.log ∧ s'.tlinks = s.tlinks)
    (hadds : s'.adds = s.adds) (hpc : s'.pc = s.pc) : SameBut c s s' := by
  refine ⟨fun d => ?_, hent, hcl, hmem, htok, hcall, hadds, hpc⟩
  by_cases hd : d = c
  · subst hd
    exact ⟨n, by rw [he, Function.update_self], fun hne => absurd rfl hne⟩
  · exact ⟨(s.cce d).refcount, by rw [he, Function.update_of_ne hd], fun _ => rfl⟩

/-- What has to be seen about a step that changes the references on `c`. -/
theorem CacheInv.recount {R' : Mem → Nat} (h : CacheInv P Z conf R s) (hs : SameBut c s s')
    (hR : ∀ d, d ≠ c → R' d = R d) (hc : c ∈ s.entries) (hpc : s.pc ≠ .wait c)
    (hfree : ¬ s.SetUp c) (hcount : (s'.cce c).refcount.toNat = R' c)
    (hn : s'.nbRefEntries = (s.entries.filter fun d => R' d ≠ 0).card)
    (hb : R' c ≠ 0 → (s'.cce c).addr = 0 →
      R' c = 1 ∧ (s'.cce c).t = none ∧ (s'.cce c).invalid = true) :
    Counts R' s' ∧ Memory s' ∧ Privates s' ∧ Blank R' s' ∧ Setups Z R' s' := by
  refine ⟨⟨?_, ?_, ?_, ?_⟩, ?_, ?_, ?_, ?_⟩
  · intro d hd
    rw [hs.entries]
    by_cases hdc : d = c
    · exact hdc ▸ hc
    · rw [hR d hdc] at hd
      exact h.counts.held d hd
  · intro d hd
    rw [hs.pc]
    rw [hs.entries] at hd
    by_cases hdc : d = c
    · subst hdc
      rw [hcount, if_neg hpc]
      rfl
    · obtain ⟨n, he, hsame⟩ := hs.cce d
      rw [hR d hdc, he, hsame hdc]
      exact h.counts.refcount d hd
  · intro d hw
    rw [hs.pc] at hw
    have hdc : d ≠ c := fun he => hpc (he ▸ hw)
    obtain ⟨hd, hRd⟩ := h.counts.wait d hw
    refine ⟨?_, ?_⟩
    · rw [hs.entries]
      exact hd
    · rw [hR d hdc]
      exact hRd
  · rw [hs.entries]
    exact hn
  · exact h.memory.congr hs.memory.1 hs.entries hs.memory.2
      fun d _ => ⟨(hs.fields d).2.2.2.1, (hs.fields d).2.2.2.2⟩
  · exact h.privates.congr hs.entries hs.adds hs.tokens.1
      (fun d _ => ⟨(hs.fields d).2.1, fun _ => (hs.fields d).1⟩) fun t _ => by rw [hs.tokens.2]
  · intro d hd ha
    by_cases hdc : d = c
    · subst hdc
      exact hb hd ha
    · rw [hR d hdc] at hd ⊢
      rw [(hs.fields d).1] at ha
      rw [(hs.fields d).2.1, (hs.fields d).2.2.1]
      exact h.blank d hd ha
  · refine h.setups.congr hs.entries hs.adds hs.tokens.1 (fun p hp => ?_)
      (fun p _ => ⟨(hs.fields p.cce).2.1, (hs.fields p.cce).1⟩) fun t _ => by rw [hs.tokens.2]
    exact hR p.cce fun he => hfree ⟨p, hp, he⟩

/-- Outside operations and flushes the count of an entry is that of its references. -/
theorem CacheInv.refcount_eq (h : CacheInv P Z conf R s) (hpc : s.pc = .idle)
    (hc : c ∈ s.entries) : (s.cce c).refcount.toNat = R c := by
  rw [h.counts.refcount c hc, hpc]
  simp

/-- An entry whose request is being set up has no references. -/
theorem CacheInv.not_setUp (h : CacheInv P Z conf R s) (hR : R c ≠ 0) : ¬ s.SetUp c := by
  rintro ⟨p, hp, rfl⟩
  exact hR (h.setups.entry p hp).1.2

theorem takeRef_same (s : Cache) (c : Mem) : SameBut c s (s.takeRef c) := by
  unfold Cache.takeRef
  by_cases h0 : (s.cce c).refcount = 0
  · rw [if_pos h0]
    exact .of_setCce rfl rfl ⟨rfl, rfl⟩ ⟨rfl, rfl⟩ ⟨rfl, rfl⟩ ⟨rfl, rfl, rfl, rfl⟩ rfl rfl
  · rw [if_neg h0]
    exact .of_setCce rfl rfl ⟨rfl, rfl⟩ ⟨rfl, rfl⟩ ⟨rfl, rfl⟩ ⟨rfl, rfl, rfl, rfl⟩ rfl rfl

theorem takeRef_refcount (s : Cache) (c : Mem) :
    ((s.takeRef c).cce c).refcount = (s.cce c).refcount + 1 := by
  unfold Cache.takeRef
  by_cases h0 : (s.cce c).refcount = 0
  · rw [if_pos h0]
    simp [Cache.setCce, Cache.alistUnlink]
  · rw [if_neg h0]
    simp [Cache.setCce]

/-- The first reference takes the entry off the list of available ones. -/
theorem takeRef_first (h0 : (s.cce c).refcount = 0) :
    (s.takeRef c).alinks = (s.alistUnlink c).alinks ∧ (s.takeRef c).alist = (s.alistUnlink c).alist ∧
      (s.takeRef c).nbRefEntries = s.nbRefEntries + 1 := by
  unfold Cache.takeRef
  rw [if_pos h0]
  exact ⟨rfl, rfl, rfl⟩

theorem takeRef_next (h0 : (s.cce c).refcount ≠ 0) :
    (s.takeRef c).alinks = s.alinks ∧ (s.takeRef c).alist = s.alist ∧
      (s.takeRef c).nbRefEntries = s.nbRefEntries := by
  unfold Cache.takeRef
  rw [if_neg h0]
  exact ⟨rfl, rfl, rfl⟩

/-- Taking a reference on an entry that a lookup finds, while there is room in the count. -/
theorem CacheInv.takeRef (hP : DList.Discipline P) (h : CacheInv P Z conf R s)
    (hpc : s.pc = .idle) (hc : c ∈ s.entries) (ha : (s.cce c).addr ≠ 0) (hfree : ¬ s.SetUp c)
    (hroom : (s.cce c).refcount.toNat + 1 < u32Size) :
    CacheInv P Z conf (bump R c) (s.takeRef c) := by
  have hcount := h.refcount_eq hpc hc
  have hs := takeRef_same s c
  have hwait : s.pc ≠ .wait c := by
    rw [hpc]
    exact fun he => by cases he
  have hH : listed (bump R c) (s.takeRef c) = listed R s := by
    ext d
    simp only [listed, Set.mem_ofPred_eq, hs.entries, (hs.fields d).1, setUp_congr hs.adds]
    by_cases hd : d = c
    · subst hd
      simp [ha]
    · rw [bump_of_ne _ hd]
  have hself : ((s.takeRef c).cce c).refcount.toNat = bump R c c := by
    rw [takeRef_refcount, Word.count_up hroom, bump_self, hcount]
  have hb : bump R c c ≠ 0 → ((s.takeRef c).cce c).addr = 0 → bump R c c = 1 ∧
      ((s.takeRef c).cce c).t = none ∧ ((s.takeRef c).cce c).invalid = true := by
    intro _ ha'
    rw [(hs.fields c).1] at ha'
    exact absurd ha' ha
  by_cases h0 : (s.cce c).refcount = 0
  · obtain ⟨hl₁, hl₂, hn⟩ := takeRef_first h0
    have hR0 : R c = 0 := hcount.symm.trans (Word.count_eq_zero.1 h0)
    have hA : avail (bump R c) (s.takeRef c) = avail R s \ {c} := by
      ext d
      simp only [avail, hs.entries, Set.mem_ofPred_eq, Set.mem_sdiff, Set.mem_singleton_iff]
      by_cases hd : d = c
      · subst hd
        simp [bump_self]
      · simp [bump_of_ne _ hd, hd]
    obtain ⟨hct, hm, hp, hb, hset⟩ := h.recount hs (fun d hd => bump_of_ne _ hd) hc hwait hfree
      hself (by rw [h.counts.nbRef_bump hc hR0, hn]) hb
    refine ⟨?_, hct, hm, hp, hb, hset⟩
    rw [hH, hA]
    exact (h.lists.alistUnlink hP ⟨hc, hR0⟩).congr ⟨hl₁, hl₂⟩ hs.clists fun d _ => (hs.fields d).1
  · obtain ⟨hl₁, hl₂, hn⟩ := takeRef_next h0
    have hR0 : R c ≠ 0 := fun h => h0 (Word.count_eq_zero.2 (hcount.trans h))
    have hsame : ∀ d, bump R c d = 0 ↔ R d = 0 := by
      intro d
      by_cases hd : d = c
      · subst hd
        simp [bump_self, hR0]
      · rw [bump_of_ne _ hd]
    have hA : avail (bump R c) (s.takeRef c) = avail R s := avail_congr hs.entries hsame
    obtain ⟨hct, hm, hp, hb, hset⟩ := h.recount hs (fun d hd => bump_of_ne _ hd) hc hwait hfree hself
      (by
        rw [hn]
        simp only [ne_eq, hsame]
        exact h.counts.nbRef) hb
    refine ⟨?_, hct, hm, hp, hb, hset⟩
    rw [hH, hA]
    exact h.lists.congr ⟨hl₁, hl₂⟩ hs.clists fun d _ => (hs.fields d).1

/-- An entry was given back; everything else is as before. -/
structure Gone (c : Mem) (s s' : Cache) : Prop where
  entries : s'.entries = s.entries.erase c
  cce : ∀ d, d ≠ c → s'.cce d = s.cce d
  tokens : s'.tokens = s.tokens ∧ s'.tok = s.tok
  callers : s'.refs = s.refs ∧ s'.issued = s.issued ∧ s'.log = s.log ∧ s'.tlinks = s.tlinks
  adds : s'.adds = s.adds
  pc : s'.pc = s.pc

/-- The last reference on an entry is gone and nothing was done about it yet. -/
structure Dropped (P : Set Mem → Links Mem → Ends Mem → Prop) (Z : Nat → Prop) (conf : CacheConf)
    (R : Mem → Nat) (c : Mem) (s s₁ : Cache) : Prop where
  same : SameBut c s s₁
  last : R c = 1
  mem : c ∈ s₁.entries
  refcount : (s₁.cce c).refcount = 0
  lists : Lists P Z conf (avail R s) (listed R s) s₁
  counts : Counts (unbump R c) s₁
  memory : Memory s₁
  privates : Privates s₁
  blank : Blank (unbump R c) s₁
  setups : Setups Z (unbump R c) s₁
  free : ¬ s.SetUp c
  alist : s₁.alinks = s.alinks

/-- The number of referenced entries shrinks with the last reference on one. -/
theorem Counts.nbRef_unbump (h : Counts R s) (hc : c ∈ s.entries) (h1 : R c = 1) :
    (s.entries.filter fun d => unbump R c d ≠ 0).card = s.nbRefEntries - 1 := by
  have : (s.entries.filter fun d => unbump R c d ≠ 0) =
      (s.entries.filter fun d => R d ≠ 0).erase c := by
    ext d
    simp only [Finset.mem_filter, Finset.mem_erase]
    by_cases hd : d = c
    · subst hd
      simp [unbump_self, h1]
    · simp [unbump_of_ne _ hd, hd]
  rw [this, Finset.card_erase_of_mem (by simp [hc, h1]), h.nbRef]

/-- Giving a reference back: others remain, or it was the last one. -/
theorem CacheInv.dropRef (h : CacheInv P Z conf R s) (hpc : s.pc = .idle) (hR : R c ≠ 0)
    {gone : Cache → Except Fault Cache} (hr : s.dropRef c gone = .ok s') :
    (R c ≠ 1 ∧ CacheInv P Z conf (unbump R c) s' ∧ SameBut c s s') ∨
      ∃ s₁, Dropped P Z conf R c s s₁ ∧ gone s₁ = .ok s' := by
  have hc := h.counts.held c hR
  have hcount := h.refcount_eq hpc hc
  have hwait : s.pc ≠ .wait c := by
    rw [hpc]
    exact fun he => by cases he
  unfold Cache.dropRef at hr
  simp only at hr
  have hfree := h.not_setUp hR
  have hpos : 0 < (s.cce c).refcount.toNat := by omega
  have hdown : ((s.setCce c { s.cce c with refcount := (s.cce c).refcount - 1 }).cce c).refcount =
      (s.cce c).refcount - 1 := by simp [Cache.setCce]
  have hself : ((s.setCce c
      { s.cce c with refcount := (s.cce c).refcount - 1 }).cce c).refcount.toNat = R c - 1 := by
    rw [hdown, Word.count_down hpos, hcount]
  by_cases h1 : R c = 1
  · right
    rw [if_pos (Word.count_eq_zero.2 (hself.trans (by omega)))] at hr
    refine ⟨_, ?_, hr⟩
    have hs : SameBut c s { s.setCce c { s.cce c with refcount := (s.cce c).refcount - 1 } with
        nbRefEntries := s.nbRefEntries - 1 } :=
      .of_setCce rfl rfl ⟨rfl, rfl⟩ ⟨rfl, rfl⟩ ⟨rfl, rfl⟩ ⟨rfl, rfl, rfl, rfl⟩ rfl rfl
    have h0 : unbump R c c = 0 := by rw [unbump_self, h1]
    obtain ⟨hct, hm, hp, hb, hset⟩ := h.recount hs (fun d hd => unbump_of_ne _ hd) hc hwait hfree
      (by rw [unbump_self]; exact hself) (by rw [h.counts.nbRef_unbump hc h1])
      (fun hne => absurd h0 hne)
    exact ⟨hs, h1, hc, Word.count_eq_zero.2 (hself.trans (by omega)),
      h.lists.congr ⟨rfl, rfl⟩ ⟨rfl, rfl⟩ fun d _ => (hs.fields d).1, hct, hm, hp, hb, hset, hfree, rfl⟩
  · left
    rw [if_neg fun h0 => (by have := hself.symm.trans (Word.count_eq_zero.1 h0); omega)] at hr
    obtain rfl := Except.ok.inj hr
    have hs : SameBut c s (s.setCce c { s.cce c with refcount := (s.cce c).refcount - 1 }) :=
      .of_setCce rfl rfl ⟨rfl, rfl⟩ ⟨rfl, rfl⟩ ⟨rfl, rfl⟩ ⟨rfl, rfl, rfl, rfl⟩ rfl rfl
    have hsame : ∀ d, unbump R c d = 0 ↔ R d = 0 := by
      intro d
      by_cases hd : d = c
      · subst hd
        rw [unbump_self]
        omega
      · rw [unbump_of_ne _ hd]
    have hA : avail (unbump R c) (s.setCce c { s.cce c with refcount := (s.cce c).refcount - 1 }) =
        avail R s := avail_congr hs.entries hsame
    have hH : listed (unbump R c) (s.setCce c { s.cce c with refcount := (s.cce c).refcount - 1 }) =
        listed R s := listed_congr hs.entries hs.adds hsame fun d => (hs.fields d).1
    obtain ⟨hct, hm, hp, hb, hset⟩ := h.recount hs (fun d hd => unbump_of_ne _ hd) hc hwait hfree
      (by rw [hself, unbump_self])
      (by
        simp only [ne_eq, hsame]
        exact h.counts.nbRef)
      (by
        intro _ ha
        rw [(hs.fields c).1] at ha
        exact absurd (h.blank c hR ha).1 h1)
    refine ⟨h1, ⟨?_, hct, hm, hp, hb, hset⟩, hs⟩
    rw [hA, hH]
    exact h.lists.congr ⟨rfl, rfl⟩ ⟨rfl, rfl⟩ fun d _ => (hs.fields d).1

/-- An entry whose last reference is gone becomes available. -/
theorem Dropped.append {s₁ : Cache} (hP : DList.Discipline P) (h : Dropped P Z conf R c s s₁)
    (ha : (s.cce c).addr ≠ 0) (happ : s₁.alistAppend c = .ok s') :
    CacheInv P Z conf (unbump R c) s' ∧ SameBut c s s' := by
  have hne : c ∉ avail R s := by
    rintro ⟨-, h0⟩
    rw [h.last] at h0
    cases h0
  have hl := h.lists.alistAppend hP hne happ
  obtain ⟨L, E, -, rfl⟩ := alistAppend_ok happ
  have hmem : c ∈ s.entries := h.same.entries ▸ h.mem
  have hself : unbump R c c = 0 := by rw [unbump_self, h.last]
  have hA : avail (unbump R c) { s₁ with alinks := L, alist := E } = insert c (avail R s) := by
    ext d
    simp only [avail, h.same.entries, Set.mem_ofPred_eq, Set.mem_insert_iff]
    by_cases hd : d = c
    · subst hd
      simp [hself, hmem]
    · simp [unbump_of_ne _ hd, hd]
  have hH : listed (unbump R c) { s₁ with alinks := L, alist := E } = listed R s := by
    ext d
    have hset : ({ s₁ with alinks := L, alist := E } : Cache).SetUp d ↔ s.SetUp d :=
      setUp_congr h.same.adds d
    simp only [listed, Set.mem_ofPred_eq, hset]
    simp only [h.same.entries, (h.same.fields d).1]
    by_cases hd : d = c
    · subst hd
      simp [hself, hmem, ha]
    · rw [unbump_of_ne _ hd]
  refine ⟨⟨?_, ?_, ?_, ?_, h.blank, ?_⟩, ⟨h.same.cce, h.same.entries, h.same.clists, h.same.memory,
    h.same.tokens, h.same.callers, h.same.adds, h.same.pc⟩⟩
  · rw [hA, hH]
    exact hl
  · exact h.counts.links rfl rfl rfl rfl
  · exact h.memory.congr rfl rfl rfl fun _ _ => ⟨rfl, rfl⟩
  · exact h.privates.links rfl rfl rfl ⟨rfl, rfl⟩
  · exact h.setups.links rfl rfl rfl ⟨rfl, rfl⟩

/-- An entry whose last reference is gone is destroyed. If it had an address, that unlinks it from the
list of available entries, on which it is not. -/
theorem Dropped.destroy {s₁ : Cache} (h : Dropped P Z conf R c s s₁) (hpc : s.pc = .idle)
    (ht : (s.cce c).t = none)
    (hlose : (s.cce c).addr ≠ 0 → P (avail R s) s.alinks DList.emptyEnds)
    (hr : shfsCacheDestroy conf s₁ c = .ok s') :
    CacheInv P Z conf (unbump R c) s' ∧ Gone c s s' := by
  have hself : unbump R c c = 0 := by rw [unbump_self, h.last]
  have hmem : c ∈ avail (unbump R c) s₁ := ⟨h.mem, hself⟩
  have hent : ∀ d, d ∈ s₁.entries ↔ d ∈ s.entries := fun d => by rw [h.same.entries]
  have hA : avail (unbump R c) s₁ \ {c} = avail R s := by
    ext d
    simp only [avail, hent, Set.mem_ofPred_eq, Set.mem_sdiff, Set.mem_singleton_iff]
    by_cases hd : d = c
    · subst hd
      simp [h.last]
    · simp [unbump_of_ne _ hd, hd]
  have hwait : s₁.pc ≠ .wait c := by
    rw [h.same.pc, hpc]
    exact fun he => by cases he
  have hset : ∀ d, s₁.SetUp d ↔ s.SetUp d := setUp_congr h.same.adds
  have hfree : ¬ s₁.SetUp c := fun hs => h.free ((hset c).1 hs)
  have ht₁ : (s₁.cce c).t = none := by rw [(h.same.fields c).2.1, ht]
  have hcce : ∀ d, d ≠ c → s₁.cce d = s.cce d := fun d hd => by
    obtain ⟨n, he, hn⟩ := h.same.cce d
    rw [he, hn hd]
  unfold shfsCacheDestroy at hr
  rw [(h.same.fields c).1] at hr
  by_cases ha : (s.cce c).addr = 0
  · -- a blank entry is on no list
    rw [if_neg (by simp [ha])] at hr
    obtain rfl := Except.ok.inj hr
    have hH : listed (unbump R c) s₁ \ {c} = listed R s := by
      ext d
      simp only [listed, hent, hset, Set.mem_ofPred_eq, Set.mem_sdiff, Set.mem_singleton_iff,
        (h.same.fields d).1]
      by_cases hd : d = c
      · subst hd
        simp [h.last, ha]
      · simp [unbump_of_ne _ hd, hd]
    refine ⟨Loose.put ⟨?_, h.counts, h.memory, h.privates, h.blank, h.setups, hmem, hfree, ht₁,
      hwait⟩, ?_⟩
    · rw [hA, hH]
      exact h.lists
    · exact ⟨by rw [← h.same.entries]; rfl, hcce, h.same.tokens, h.same.callers, h.same.adds, h.same.pc⟩
  · rw [if_pos ha] at hr
    obtain ⟨s₂, hu, hr⟩ := ok_of_bind hr
    obtain rfl := Except.ok.inj hr
    unfold shfsCacheUnlink at hu
    rw [if_neg (by simp [h.refcount])] at hu
    obtain rfl := Except.ok.inj hu
    have hcl : c ∈ listed R s := ⟨(hent c).1 h.mem, .inr ha, h.free⟩
    have hnA : c ∉ avail R s := by
      rintro ⟨-, h0⟩
      rw [h.last] at h0
      cases h0
    have hH : listed (unbump R c) s₁ \ {c} = listed R s \ {c} := by
      ext d
      simp only [listed, hent, hset, Set.mem_ofPred_eq, Set.mem_sdiff, Set.mem_singleton_iff,
        (h.same.fields d).1]
      by_cases hd : d = c
      · subst hd
        simp
      · simp [unbump_of_ne _ hd, hd]
    have hl := (h.lists.clistUnlink hcl).alistLose (h.lists.unlinked c hcl hnA)
      (by
        show P (avail R s) s₁.alinks DList.emptyEnds
        rw [h.alist]
        exact hlose ha)
    refine ⟨Loose.put ⟨?_, ?_, ?_, ?_, h.blank, ?_, hmem, hfree, ht₁, hwait⟩, ?_⟩
    · show Lists P Z conf (avail (unbump R c) s₁ \ {c}) (listed (unbump R c) s₁ \ {c}) _
      rw [hA, hH]
      exact hl
    · exact h.counts.links rfl rfl rfl rfl
    · exact h.memory.congr rfl rfl rfl fun _ _ => ⟨rfl, rfl⟩
    · exact h.privates.links rfl rfl rfl ⟨rfl, rfl⟩
    · exact h.setups.links rfl rfl rfl ⟨rfl, rfl⟩
    · exact ⟨by rw [← h.same.entries]; rfl, hcce, h.same.tokens, h.same.callers, h.same.adds, h.same.pc⟩

end Ops

end Minipython.Shfs
