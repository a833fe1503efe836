/-
# Minipython.Shfs.CacheOwner — who owns a buffer of the chunk cache

A buffer belongs to the chunk of its entry as long as somebody holds the entry or its request is in
flight. This holds in every orderly run, also in those that lose the available entries: what a wrong
unlink leaves of their list is still coherent.

No two entries have one address unless a chunk is asked for while its request is set up: a lookup misses
the entry then, which is on no collision list yet, and the chunk is added a second time (`AddsApart`).

Operations that are atomic, so that no call waits between two of them, are orderly but for the count of
references. It has 32 bits, and the read that makes `2 ^ 32` references out of one less leaves a count of
zero behind: the entry is on its way out while all of them hold it (`count_wraps`).
-/
import Minipython.Shfs.CacheValid

namespace Minipython.Shfs

open Minipython.Lib
open Cache

/-- The reference that a flush counts on the entry that it waits for. -/
def flushRef (s : Cache) (c : Mem) : Nat := if s.pc = .wait c then 1 else 0

/-- The counts are those of the references that callers hold. -/
structure Counted (s : Cache) : Prop where
  held : ∀ r ∈ s.refs, r.cce ∈ s.entries
  refcount : ∀ c ∈ s.entries, (s.cce c).refcount.toNat = refsOn s c + flushRef s c
  nbRef : s.nbRefEntries = (s.entries.filter fun c => flushRef s c < (s.cce c).refcount.toNat).card
  idle : s.pc = .idle → ∀ c, flushRef s c = 0

/-- No two entries have one address. -/
def Unique (s : Cache) : Prop :=
  ∀ c ∈ s.entries, ∀ d ∈ s.entries, (s.cce c).addr ≠ 0 → (s.cce c).addr = (s.cce d).addr → c = d

/-- Memory in the pool is not in use, and no two entries share a buffer or an address. -/
structure Distinct (s : Cache) : Prop where
  pool : ∀ n ∈ s.pool, Mem.pobj n ∉ s.entries
  buffer : ∀ c ∈ s.entries, ∀ d ∈ s.entries, (s.cce c).buffer = (s.cce d).buffer → c = d
  addr : Unique s

/-- The reference on a blank buffer is the only one on its entry, which no lookup finds. -/
def BlankRefs (s : Cache) : Prop :=
  ∀ r ∈ s.refs, r.blank = true → (s.cce r.cce).addr = 0 ∧ ∀ r' ∈ s.refs, r'.cce = r.cce → r' = r

section Owner

variable {conf : CacheConf} {s s' : Cache} {e : CacheEvent}

/-- The invariant behind the results of this module. -/
structure Owned (conf : CacheConf) (s : Cache) : Prop where
  sound : Sound DList.Coherent (fun _ => True) conf s
  blank : ∀ r ∈ s.refs, r.blank = true → (s.cce r.cce).addr = 0

/-- A reference after a step: it is new, or it was there before and was not given back. -/
theorem Recorded.ref (h : Recorded s e s') (hnd : s.refs.Nodup) {r : Ref} (hr : r ∈ s'.refs) :
    (r.blank = true → (s'.cce r.cce).addr = 0) ∨
      ∃ r' ∈ s.refs, r'.cce = r.cce ∧ r'.blank = r.blank ∧ e ≠ .release r' ∧ e ≠ .ioabort r' := by
  have hsame : s'.refs = s.refs → (∀ r', e ≠ .release r' ∧ e ≠ .ioabort r') →
      ∃ r' ∈ s.refs, r'.cce = r.cce ∧ r'.blank = r.blank ∧ e ≠ .release r' ∧ e ≠ .ioabort r' :=
    fun hrefs he => ⟨r, hrefs ▸ hr, rfl, rfl, he r⟩
  cases e with
  | aread | resume =>
      rcases h with ⟨hrefs, -⟩ | ⟨c, t, hrefs, -⟩
      · exact .inr (hsame hrefs fun _ => ⟨(fun he => by cases he), fun he => by cases he⟩)
      · rw [hrefs, List.mem_append, List.mem_singleton] at hr
        rcases hr with hr | rfl
        · exact .inr ⟨r, hr, rfl, rfl, (fun he => by cases he), fun he => by cases he⟩
        · exact .inl fun hb => by cases hb
  | eblank heap =>
      rcases h with ⟨hrefs, -⟩ | ⟨c, hrefs, ha, -⟩
      · exact .inr (hsame hrefs fun _ => ⟨(fun he => by cases he), fun he => by cases he⟩)
      · rw [hrefs, List.mem_append, List.mem_singleton] at hr
        rcases hr with hr | rfl
        · exact .inr ⟨r, hr, rfl, rfl, (fun he => by cases he), fun he => by cases he⟩
        · exact .inl fun _ => ha
  | release r₀ =>
      rw [h.1, hnd.mem_erase_iff] at hr
      exact .inr ⟨r, hr.2, rfl, rfl, (fun he => hr.1 (CacheEvent.release.inj he).symm),
        fun he => by cases he⟩
  | ioabort r₀ =>
      rw [h.1, hnd.mem_erase_iff] at hr
      exact .inr ⟨r, hr.2, rfl, rfl, (fun he => by cases he),
        fun he => hr.1 (CacheEvent.ioabort.inj he).symm⟩
  | finalize r₀ =>
      rw [h.1] at hr
      obtain ⟨r', hr', rfl⟩ := List.mem_map.1 hr
      refine .inr ⟨r', hr', ?_, ?_, (fun he => by cases he), fun he => by cases he⟩
      · by_cases he : r' = r₀ <;> simp [he]
      · by_cases he : r' = r₀ <;> simp [he]
  | mount m => exact .inr (hsame h.1 fun _ => ⟨(fun he => by cases he), fun he => by cases he⟩)
  | complete t ret => exact .inr (hsame h.1 fun _ => ⟨(fun he => by cases he), fun he => by cases he⟩)
  | flush => exact .inr (hsame h.1 fun _ => ⟨(fun he => by cases he), fun he => by cases he⟩)
  | flushNext => exact .inr (hsame h.1 fun _ => ⟨(fun he => by cases he), fun he => by cases he⟩)
  | flushed => exact .inr (hsame h.1 fun _ => ⟨(fun he => by cases he), fun he => by cases he⟩)

/-- Every orderly step keeps the invariant, and what is in use. -/
theorem Owned.step (h : Owned conf s) (hs : (cache conf).Step s e s') (ho : Orderly conf s e) :
    Owned conf s' ∧ (∀ c ∈ s.entries, InUse s e c → Kept s s' c) ∧ Recorded s e s' := by
  obtain ⟨hsound, hkept, hrec⟩ :=
    cache_step DList.coherent_discipline h.sound hs ho (addrOk_any e) (h.sound.loseOk e)
  refine ⟨⟨hsound, fun r hr hb => ?_⟩, hkept, hrec⟩
  rcases hrec.ref h.sound.toks.refs_nodup hr with hnew | ⟨r', hr', hc, hb', hrel, habort⟩
  · exact hnew hb
  · have hk := hkept r'.cce (h.sound.held hr') (.inl ⟨r', hr', rfl, hrel, habort⟩)
    rw [← hc, hk.2.1]
    exact h.blank r' hr' (hb'.trans hb)

theorem Owned.counted (h : Owned conf s) : Counted s := by
  obtain ⟨hheld, hcount, hwait, hn⟩ := h.sound.inv.counts
  refine ⟨fun r hr => h.sound.held hr, hcount, ?_, ?_⟩
  · rw [hn]
    congr 1
    refine Finset.filter_congr fun c hc => ?_
    have := hcount c hc
    rw [this, flushRef]
    omega
  · intro hpc c
    rw [flushRef, hpc, if_neg (fun he => by cases he)]

theorem Owned.distinct (h : Owned conf s) (hu : Unique s) : Distinct s :=
  ⟨h.sound.inv.memory.free, h.sound.inv.memory.buffers, hu⟩

/-- One reference is counted, so there is no other. -/
theorem ref_unique {r r' : Ref} (hr : r ∈ s.refs) (hr' : r' ∈ s.refs) (hc : r'.cce = r.cce)
    (h1 : refsOn s r.cce = 1) : r' = r := by
  have hpos : 0 < s.refs.countP fun x => x.cce = r.cce := List.countP_pos_iff.2 ⟨r, hr, by simp⟩
  have hlen : (s.refs.filter fun x => x.cce = r.cce).length = 1 := by
    rw [← List.countP_eq_length_filter]
    unfold refsOn at h1
    omega
  obtain ⟨x, hx⟩ := List.length_eq_one_iff.1 hlen
  have hm : r ∈ s.refs.filter fun x => x.cce = r.cce := List.mem_filter.2 ⟨hr, by simp⟩
  have hm' : r' ∈ s.refs.filter fun x => x.cce = r.cce := List.mem_filter.2 ⟨hr', by simp [hc]⟩
  rw [hx, List.mem_singleton] at hm hm'
  rw [hm, hm']

theorem Owned.blankRefs (h : Owned conf s) : BlankRefs s := by
  intro r hr hb
  have ha := h.blank r hr hb
  exact ⟨ha, fun r' hr' hc => ref_unique hr hr' hc (h.sound.inv.blank _ (refsOn_pos hr) ha).1⟩

/-! ## Addresses -/

/-- What is left of the entries keeps its address, or is the one that gets the address `addr`. -/
def Readdressed (addr : Nat) (s s' : Cache) : Prop :=
  ∃ c, ∀ d ∈ s'.entries,
    (d ∈ s.entries ∧ (s'.cce d).addr = (s.cce d).addr) ∨ (d = c ∧ (s'.cce d).addr = addr)

theorem Leaves.readdressed (h : Leaves s s') (addr : Nat) : Readdressed addr s s' :=
  ⟨.pobj 0, fun d hd => .inl ⟨h.entries d hd, (h.fields d).1⟩⟩

/-- An address that no entry has is given to one. -/
theorem Unique.readdress {addr : Nat} (hu : Unique s) (h : Readdressed addr s s')
    (hno : addr = 0 ∨ ∀ d ∈ s.entries, (s.cce d).addr ≠ addr) : Unique s' := by
  obtain ⟨c, hc⟩ := h
  intro d hd d' hd' h0 he
  rcases hc d hd with ⟨hin, ha⟩ | ⟨rfl, ha⟩ <;> rcases hc d' hd' with ⟨hin', ha'⟩ | ⟨rfl, ha'⟩
  · rw [ha, ha'] at he
    exact hu d hin d' hin' (ha ▸ h0) he
  · rcases hno with rfl | hno
    · exact absurd (he.trans ha') h0
    · exact absurd (ha.symm.trans (he.trans ha')) (hno d hin)
  · rcases hno with rfl | hno
    · exact absurd ha h0
    · exact absurd (ha'.symm.trans (he.symm.trans ha)) (hno d' hin')
  · rfl

/-- An address that a lookup does not find, and that no request is set up for, is that of no entry. -/
theorem CacheInv.no_entry {P : Set Mem → Links Mem → Ends Mem → Prop} {Z : Nat → Prop} {R : Mem → Nat}
    {addr : Nat} (h : CacheInv P Z conf R s) (hf : shfsCacheFind conf s addr = none)
    (hapart : ∀ p ∈ s.adds, p.target ≠ addr) :
    addr = 0 ∨ ∀ d ∈ s.entries, (s.cce d).addr ≠ addr := by
  by_cases h0 : addr = 0
  · exact .inl h0
  · refine .inr fun d hd he => ?_
    by_cases hup : s.SetUp d
    · obtain ⟨p, hp, rfl⟩ := hup
      exact hapart p hp ((h.setups.entry p hp).2.2.1.symm.trans he)
    · exact h.lists.find_none (fun _ hx => hx.1) hf d ⟨hd, .inr (he ▸ h0), hup⟩ he

/-- `shfs_cache_add` gives the address to one entry. -/
theorem add_readdressed {addr : Nat} {env : AddEnv} {x : AddRet}
    (h : shfsCacheAdd conf s addr env = .ok (x, s')) : Readdressed addr s s' := by
  obtain ⟨⟨b, s₁⟩, hbuf, hreq⟩ := ok_of_bind h
  -- the buffer may be new, and the other entries are as before
  have hbuffer : (b = none ∧ s₁ = s) ∨
      ∃ c, b = some c ∧ ∀ d ∈ s₁.entries, d ≠ c → d ∈ s.entries ∧ s₁.cce d = s.cce d := by
    rcases addBuffer_cases hbuf with hnone | ⟨c, u, hb, hpick, happ⟩ | ⟨c, hb, -, -, happ⟩
    · exact .inl hnone
    · obtain ⟨L, E, -, rfl⟩ := alistAppend_ok happ
      exact .inr ⟨c, hb, fun d hd hdc => pickCce_other hpick hd hdc⟩
    · obtain ⟨L, E, -, rfl⟩ := alistAppend_ok happ
      exact .inr ⟨c, hb, fun d hd _ => ⟨hd, rfl⟩⟩
  rcases hbuffer with ⟨rfl, rfl⟩ | ⟨c, rfl, hother⟩
  · obtain ⟨-, rfl⟩ := Prod.mk.inj (Except.ok.inj hreq)
    exact (Leaves.refl _).readdressed addr
  · refine ⟨c, fun d hd => ?_⟩
    have hnamed : (∀ d ∈ s'.entries, d ∈ s₁.entries) ∧ (∀ d, d ≠ c → s'.cce d = s₁.cce d) ∧
        (c ∈ s'.entries → (s'.cce c).addr = addr) := by
      set u := s₁.setCce c { s₁.cce c with addr := addr, gen := (s₁.cce c).gen + 1 } with hu
      have hu₁ : ∀ d, d ≠ c → u.cce d = s₁.cce d := fun d hdc => Function.update_of_ne hdc _ _
      have hu₂ : (u.cce c).addr = addr := by simp [hu, Cache.setCce]
      rcases addRequest_cases hreq hu with ⟨e, -, rfl⟩ | ⟨t, -, ⟨-, rfl⟩ | hend⟩
      · exact ⟨fun d hd => Finset.mem_of_mem_erase hd,
          fun d hdc => (Function.update_of_ne hdc _ _).trans (hu₁ d hdc),
          fun hin => absurd hin (Finset.notMem_erase c _)⟩
      · exact ⟨fun _ hd => hd, hu₁, fun _ => hu₂⟩
      · obtain ⟨L, E, -, rfl⟩ := addEnd_ok hend
        refine ⟨fun _ hd => hd, fun d hdc => (Function.update_of_ne hdc _ _).trans (hu₁ d hdc), fun _ => ?_⟩
        show ((Function.update u.cce c { u.cce c with t := some t }) c).addr = addr
        rw [Function.update_self]
        exact hu₂
    by_cases hdc : d = c
    · subst hdc
      exact .inr ⟨rfl, hnamed.2.2 hd⟩
    · obtain ⟨hin, he⟩ := hother d (hnamed.1 d hd) hdc
      exact .inl ⟨hin, by rw [hnamed.2.1 d hdc, he]⟩

/-- No request is being set up for the chunk that is added. -/
def apartAdd (s : Cache) (addr : Nat) (_ : AddEnv) : Bool := decide (∀ p ∈ s.adds, p.target ≠ addr)

section Unique

variable {addr : Nat} {cb : Option Nat} {env : AreadEnv} {x : CallEnd} {c : Mem} {R : Mem → Nat}

theorem Unique.add (hu : Unique s) (h : CacheInv DList.Coherent (fun _ => True) conf R s)
    (hf : shfsCacheFind conf s addr = none) {env : AddEnv} (hapart : apartAdd s addr env = true) {y : AddRet}
    (hr : shfsCacheAdd conf s addr env = .ok (y, s')) : Unique s' :=
  hu.readdress (add_readdressed hr) (h.no_entry hf (of_decide_eq_true hapart))

theorem Unique.readahead {env : Nat → AddEnv} {n i : Nat} (hu : Unique s)
    (h : CacheInv DList.Coherent (fun _ => True) conf R s) (hpc : s.pc = .idle)
    (hcalm : aheadAdds (fun s _ env => calmPick s env.heap) conf addr env n i s = true)
    (hapart : aheadAdds apartAdd conf addr env n i s = true) {w : Option (Nat × Mem × Nat)}
    (hr : shfsCacheReadahead conf addr env n i s = .ok (w, s')) : Unique s' := by
  induction n generalizing i s with
  | zero =>
      obtain ⟨-, rfl⟩ := Prod.mk.inj (Except.ok.inj hr)
      exact hu
  | succ n ih =>
      unfold shfsCacheReadahead at hr
      unfold aheadAdds at hcalm hapart
      simp only at hr hcalm hapart
      by_cases hv : conf.volsize ≤ wrap64 (addr + i)
      · rw [if_pos hv] at hr
        obtain ⟨-, rfl⟩ := Prod.mk.inj (Except.ok.inj hr)
        exact hu
      · rw [if_neg hv] at hr hcalm hapart
        cases hf : shfsCacheFind conf s (wrap64 (addr + i)) with
        | some c =>
            rw [hf] at hr hcalm hapart
            exact ih hu h hpc hcalm hapart hr
        | none =>
            rw [hf] at hr hcalm hapart
            obtain ⟨⟨y, s₁⟩, hadd, hr⟩ := ok_of_bind hr
            obtain ⟨hpick, hcalm⟩ := Bool.and_eq_true_iff.1 hcalm
            obtain ⟨hno, hapart⟩ := Bool.and_eq_true_iff.1 hapart
            rw [hadd] at hcalm hapart
            obtain ⟨hok, hg⟩ := h.add DList.coherent_discipline hpc trivial hpick hadd
            have hu₁ := hu.add h hf hno hadd
            cases y with
            | failed e | waits d t =>
                obtain ⟨-, rfl⟩ := Prod.mk.inj (Except.ok.inj hr)
                exact hu₁
            | added c => exact ih hu₁ hok.1 (hg.pc.trans hpc) hcalm hapart hr

/-- A call that has counted its reference. -/
theorem Unique.areadAhead {n i : Nat} (hu : Unique s)
    (h : InCall DList.Coherent (fun _ => True) conf c s) (hpc : s.pc = .idle)
    (hcalm : aheadAdds (fun s _ env => calmPick s env.heap) conf addr env.ahead n i s = true)
    (hapart : aheadAdds apartAdd conf addr env.ahead n i s = true)
    (hr : shfsCacheAreadAhead conf s addr cb c n i env = .ok (x, s')) : Unique (s'.endCall x) := by
  obtain ⟨⟨w, s₁⟩, hahead, hr⟩ := ok_of_bind hr
  have hu₁ := hu.readahead h.inv hpc hcalm hapart hahead
  cases w with
  | none =>
      obtain ⟨⟨y, s₂⟩, hchain, hr⟩ := ok_of_bind hr
      obtain ⟨rfl, rfl⟩ := Prod.mk.inj (Except.ok.inj hr)
      have hl := (areadChain_keeps hchain).1.1.trans (endCall_leaves s₂ y)
      exact hu₁.readdress (hl.readdressed 0) (.inl rfl)
  | some y =>
      obtain ⟨j, d, t⟩ := y
      obtain ⟨rfl, rfl⟩ := Prod.mk.inj (Except.ok.inj hr)
      exact hu₁

/-- A call with the entry of its chunk. -/
theorem Unique.areadRef (hu : Unique s) (h : Found DList.Coherent (fun _ => True) conf addr c s)
    (hcalm : aheadAdds (fun s _ env => calmPick s env.heap) conf addr env.ahead conf.readahead 1
      (s.takeRef c) = true)
    (hapart : aheadAdds apartAdd conf addr env.ahead conf.readahead 1 (s.takeRef c) = true)
    (hr : shfsCacheAreadRef conf s addr cb c env = .ok (x, s')) : Unique (s'.endCall x) := by
  have hs := takeRef_same s c
  have hu₁ : Unique (s.takeRef c) := hu.readdress ((Leaves.same hs).readdressed 0) (.inl rfl)
  exact hu₁.areadAhead (h.takeRef DList.coherent_discipline) (hs.pc.trans h.idle) hcalm hapart hr

theorem Unique.aread (hu : Unique s) (h : Sound DList.Coherent (fun _ => True) conf s)
    (hpc : s.pc = .idle) (ho : Orderly conf s (.aread addr cb env))
    (ha : AddsApart conf s (.aread addr cb env))
    (hread : shfsCacheAread conf s addr cb env = .ok (x, s')) : Unique (s'.endCall x) := by
  unfold shfsCacheAread at hread
  by_cases hm : s.mounted = false
  · rw [if_pos hm] at hread
    obtain ⟨rfl, rfl⟩ := Prod.mk.inj (Except.ok.inj hread)
    exact hu
  rw [if_neg hm] at hread
  by_cases hrange : addr = 0 ∨ conf.volsize < addr
  · rw [if_pos hrange] at hread
    obtain ⟨rfl, rfl⟩ := Prod.mk.inj (Except.ok.inj hread)
    exact hu
  rw [if_neg hrange] at hread
  obtain ⟨⟨y, s₁⟩, hget, hread⟩ := ok_of_bind hread
  obtain ⟨-, -, hfound⟩ := h.get DList.coherent_discipline hpc
    (addrOk_any (.aread addr cb env)) ho hm hrange hget
  have hapart : eventAdds apartAdd conf s (.aread addr cb env) = true := ha
  simp only [eventAdds,
    if_neg (show ¬ (s.mounted = false ∨ addr = 0 ∨ conf.volsize < addr) by tauto)] at hapart
  have hgot : Unique s₁ ∧ ∀ c, y = .added c →
      aheadAdds apartAdd conf addr env.ahead conf.readahead 1 (s₁.takeRef c) = true := by
    unfold shfsCacheGet at hget
    cases hf : shfsCacheFind conf s addr with
    | some c =>
        rw [hf] at hget hapart
        obtain ⟨rfl, rfl⟩ := Prod.mk.inj (Except.ok.inj hget)
        exact ⟨hu, fun d hd => AddRet.added.inj hd ▸ hapart⟩
    | none =>
        rw [hf] at hget hapart
        obtain ⟨hno, hapart⟩ := Bool.and_eq_true_iff.1 hapart
        have hget : shfsCacheAdd conf s addr env.demand = .ok (y, s₁) := hget
        rw [hget] at hapart
        refine ⟨hu.add h.inv hf hno hget, ?_⟩
        rintro c rfl
        exact hapart
  cases y with
  | failed e =>
      obtain ⟨rfl, rfl⟩ := Prod.mk.inj (Except.ok.inj hread)
      exact hgot.1
  | added c =>
      obtain ⟨hf, hcalm⟩ := hfound c rfl
      exact hgot.1.areadRef hf hcalm (hgot.2 c rfl) hread
  | waits c t =>
      obtain ⟨rfl, rfl⟩ := Prod.mk.inj (Except.ok.inj hread)
      exact hgot.1

theorem Unique.resume {p : Pending} {err : Option Errno} (hu : Unique s)
    (h : Sound DList.Coherent (fun _ => True) conf s) (hpc : s.pc = .idle) (hp : p ∈ s.adds)
    (ho : CalmEvent conf s (.resume p err env)) (ha : AddsApart conf s (.resume p err env))
    (hread : shfsCacheResume conf (s.goOn p) p err env = .ok (x, s')) : Unique (s'.endCall x) := by
  obtain ⟨⟨y, s₁⟩, hadd, hread⟩ := ok_of_bind hread
  have hcalm : eventAdds (fun s _ env => calmPick s env.heap) conf s (.resume p err env) = true := ho
  have hapart : eventAdds apartAdd conf s (.resume p err env) = true := ha
  simp only [eventAdds, hadd] at hcalm hapart
  obtain ⟨-, hs, -⟩ := h.settle DList.coherent_discipline hpc hp hadd
  have hpc₁ := hs.pc.trans hpc
  -- the end of `shfs_cache_add` gives no entry an address
  have hu₁ : Unique s₁ := by
    refine hu.readdress ⟨p.cce, fun d hd => .inl ⟨hs.fewer d hd, ?_⟩⟩ (.inl (rfl : 0 = 0))
    by_cases hdc : d = p.cce
    · subst hdc
      rcases addEnd_cases hadd with ⟨L, E, -, rfl⟩ | ⟨e, -, rfl⟩
      · show ((Function.update s.cce p.cce _) p.cce).addr = _
        rw [Function.update_self]
        rfl
      · show ((Function.update s.cce p.cce _) p.cce).addr = _
        rw [Function.update_self]
        rfl
    · rw [hs.cce d hdc]
  cases hah : p.ahead with
  | none =>
      obtain ⟨hsound, ⟨rfl, hfound⟩ | ⟨e, rfl⟩⟩ :=
        h.settleDemand DList.coherent_discipline hpc hp hah hadd
      · rw [hah] at hread hcalm hapart
        exact hu₁.areadRef hfound hcalm hapart hread
      · rw [hah] at hread
        obtain ⟨rfl, rfl⟩ := Prod.mk.inj (Except.ok.inj hread)
        exact hu₁
  | some z =>
      obtain ⟨c, i⟩ := z
      obtain ⟨hw, -⟩ := h.settleAhead DList.coherent_discipline hpc hp hah hadd
      rcases addEnd_cases hadd with ⟨L, E, rfl, -⟩ | ⟨e, rfl, -⟩
      · rw [hah] at hread hcalm hapart
        exact hu₁.areadAhead hw hpc₁ hcalm hapart hread
      · rw [hah] at hread
        exact hu₁.areadAhead hw hpc₁ rfl rfl hread

/-- A blank buffer has the address 0. -/
theorem eblank_readdressed {heap : Option (Nat × Nat)} {y : Except Errno Mem}
    (h : shfsCacheEblank conf s heap = .ok (y, s')) : Readdressed 0 s s' := by
  unfold shfsCacheEblank at h
  split at h
  · obtain ⟨-, rfl⟩ := Prod.mk.inj (Except.ok.inj h)
    exact (Leaves.refl _).readdressed 0
  obtain ⟨⟨b, s₁⟩, hbuf, hend⟩ := ok_of_bind h
  have hbuffer : (b = none ∧ s₁ = s) ∨
      ∃ c, b = some c ∧ ∀ d ∈ s₁.entries, d ≠ c → d ∈ s.entries ∧ s₁.cce d = s.cce d := by
    unfold shfsCacheEblankBuffer at hbuf
    split at hbuf
    · rename_i c u hpick
      obtain ⟨rfl, rfl⟩ := Prod.mk.inj (Except.ok.inj hbuf)
      refine .inr ⟨c, rfl, fun d hd hdc => ?_⟩
      exact pickCce_other hpick hd hdc
    · split at hbuf
      · obtain ⟨rfl, rfl⟩ := Prod.mk.inj (Except.ok.inj hbuf)
        exact .inl ⟨rfl, rfl⟩
      · rename_i c _
        obtain ⟨u, hunlink, hbuf⟩ := ok_of_bind hbuf
        obtain ⟨rfl, rfl⟩ := Prod.mk.inj (Except.ok.inj hbuf)
        unfold shfsCacheUnlink at hunlink
        split at hunlink
        · cases hunlink
        · obtain rfl := Except.ok.inj hunlink
          exact .inr ⟨c, rfl, fun d hd _ => ⟨hd, rfl⟩⟩
  rcases hbuffer with ⟨rfl, rfl⟩ | ⟨c, rfl, hother⟩
  · obtain ⟨-, rfl⟩ := Prod.mk.inj (Except.ok.inj hend)
    exact (Leaves.refl _).readdressed 0
  · obtain ⟨-, rfl⟩ := Prod.mk.inj (Except.ok.inj hend)
    refine ⟨c, fun d hd => ?_⟩
    by_cases hdc : d = c
    · subst hdc
      refine .inr ⟨rfl, ?_⟩
      show ((Function.update s₁.cce d _) d).addr = 0
      rw [Function.update_self]
    · obtain ⟨hin, he⟩ := hother d hd hdc
      refine .inl ⟨hin, ?_⟩
      show ((Function.update s₁.cce c _) d).addr = _
      rw [Function.update_of_ne hdc, he]

/-- No orderly step that adds no chunk twice gives two entries one address. -/
theorem Unique.step (hu : Unique s) (h : Sound DList.Coherent (fun _ => True) conf s)
    (hs : (cache conf).Step s e s') (ho : Orderly conf s e) (ha : AddsApart conf s e) : Unique s' := by
  cases e with
  | aread addr cb env =>
      obtain ⟨⟨y, s₁⟩, hread, hn⟩ := ok_of_bind hs.2
      obtain rfl := Except.ok.inj hn
      exact hu.aread h hs.1 ho ha hread
  | resume p err env =>
      obtain ⟨⟨y, s₁⟩, hread, hn⟩ := ok_of_bind hs.2
      obtain rfl := Except.ok.inj hn
      exact hu.resume h hs.1.1 hs.1.2 ho.1 ha hread
  | eblank heap =>
      obtain ⟨⟨y, s₁⟩, hblank, hn⟩ := ok_of_bind hs.2
      have hu₁ := hu.readdress (eblank_readdressed hblank) (.inl rfl)
      cases y with
      | error e =>
          obtain rfl := Except.ok.inj hn
          exact hu₁
      | ok c =>
          obtain rfl := Except.ok.inj hn
          exact hu₁
  | complete t ret =>
      obtain ⟨⟨-, ht, ⟨c, hcb⟩, -⟩, hn⟩ := hs
      obtain ⟨hent, hcce, -⟩ := complete_out h ht hcb ho.1 hn
      refine hu.readdress ⟨c, fun d hd => .inl ⟨hent d hd, ?_⟩⟩ (.inl (rfl : 0 = 0))
      rw [hcce, (unchained_eq (notified_cce s t c ret d).1).1, (takeResult_fields s t c ret d).1]
  | _ => exact hu.readdress ((leaves_step hs rfl).1.readdressed 0) (.inl rfl)

end Unique

theorem owned_init (conf : CacheConf) (cce : Mem → Cce) (alinks clinks : Links Mem)
    (tok : Nat → AioToken) (tlinks : Links Nat) :
    Owned conf (shfsAllocCache conf cce alinks clinks tok tlinks) ∧
      Unique (shfsAllocCache conf cce alinks clinks tok tlinks) :=
  ⟨⟨sound_init DList.coherent_discipline conf cce alinks clinks tok tlinks,
    fun _ hr => absurd hr List.not_mem_nil⟩, fun c hc => absurd hc (Finset.notMem_empty c)⟩

/-- An atomic step leaves no call waiting. -/
theorem Atomic.quiet (h : Atomic conf s e) (hs : (cache conf).Step s e s') : s'.adds = [] :=
  h s' (by rw [show cacheNext conf s e = .ok s' from hs.2]; rfl)

/-- Buffers keep their owners in every run whose operations are atomic and whose reads find room in the
count of references: no call waits, the counts are those of the references that are out, no two entries
share a buffer or an address, a blank buffer has one owner, and what is in use is left alone. -/
theorem buffers_owned {cce : Mem → Cce} {alinks clinks : Links Mem} {tok : Nat → AioToken}
    {tlinks : Links Nat} {es : List CacheEvent}
    (h : ((cache conf).restrict fun s e => Atomic conf s e ∧ RefRoom conf s e).Run
      (shfsAllocCache conf cce alinks clinks tok tlinks) es s) :
    s.adds = [] ∧ Counted s ∧ Distinct s ∧ BlankRefs s ∧
      ∀ e s', ((cache conf).restrict fun s e => Atomic conf s e ∧ RefRoom conf s e).Step s e s' →
        ∀ c ∈ s.entries, InUse s e c → Kept s s' c := by
  -- no call waits, so every step is calm and adds no chunk twice
  have hI : (Owned conf s ∧ Unique s) ∧ s.adds = [] := by
    refine h.invariant (I := fun s => (Owned conf s ∧ Unique s) ∧ s.adds = [])
      (fun s₁ e s₂ hI hs => ?_) ⟨owned_init conf cce alinks clinks tok tlinks, rfl⟩
    obtain ⟨hs, hatomic, hroom⟩ := Machine.restrict_step.1 hs
    obtain ⟨hcalm, hapart⟩ := @calm_of_quiet conf s₁ e hI.2
    obtain ⟨⟨howned, hu⟩, -⟩ := hI
    exact ⟨⟨(howned.step hs ⟨hcalm, hroom⟩).1, hu.step howned.sound hs ⟨hcalm, hroom⟩ hapart⟩,
      hatomic.quiet hs⟩
  obtain ⟨⟨howned, hu⟩, hquiet⟩ := hI
  refine ⟨hquiet, howned.counted, howned.distinct hu, howned.blankRefs, fun e s' hs => ?_⟩
  obtain ⟨hs, -, hroom⟩ := Machine.restrict_step.1 hs
  exact (howned.step hs ⟨(calm_of_quiet hquiet).1, hroom⟩).2.1

end Owner

/-! ## The count of references -/

/-- A chunk is in the cache, and `n` references on its entry are all that is out. -/
structure Reread (conf : CacheConf) (addr : Nat) (c : Mem) (n : Nat) (s : Cache) : Prop where
  pc : s.pc = .idle
  mounted : s.mounted = true
  adds : s.adds = []
  find : shfsCacheFind conf s addr = some c
  entry : c ∈ s.entries
  done : (s.cce c).t = none
  refcount : (s.cce c).refcount = UInt32.ofNat n
  length : s.refs.length = n
  refs : ∀ r ∈ s.refs, r.cce = c

section Reread

variable {conf : CacheConf} {s : Cache} {addr n : Nat} {c : Mem}

/-- Without reading ahead the chunk is read again, and that is all that happens. -/
theorem Reread.step (h : Reread conf addr c n s) (hahead : conf.readahead = 0)
    (haddr : ¬(addr = 0 ∨ conf.volsize < addr)) (hn : 0 < n) (hlt : n < 2 ^ 32) (env : AreadEnv) :
    ∃ s', (cache conf).Step s (.aread addr none env) s' ∧ Reread conf addr c (n + 1) s' := by
  have h0 : (s.cce c).refcount ≠ 0 := by
    rw [h.refcount, Ne, Word.count_ofNat_eq_zero hlt]
    omega
  set u := s.setCce c { s.cce c with refcount := (s.cce c).refcount + 1 } with hu
  have href : s.takeRef c = u := by
    unfold Cache.takeRef
    rw [if_neg h0]
  have hcce : u.cce c = { s.cce c with refcount := (s.cce c).refcount + 1 } :=
    Function.update_self _ _ _
  have hchain : shfsCacheAreadChain u c none env.token = .ok (.ready c, u) := by
    unfold shfsCacheAreadChain
    rw [if_pos (by rw [hcce]; show s.aioIsDone (s.cce c).t = true; rw [h.done]; rfl)]
    rfl
  have hread : shfsCacheAread conf s addr none env = .ok (.ret (.ready c), u) := by
    unfold shfsCacheAread shfsCacheGet
    rw [if_neg (by rw [h.mounted]; simp), if_neg haddr, h.find]
    show shfsCacheAreadRef conf s addr none c env = _
    unfold shfsCacheAreadRef shfsCacheAreadAhead
    rw [href, hahead]
    show shfsCacheAreadChain u c none env.token >>= _ = _
    rw [hchain]
    rfl
  refine ⟨u.giveRef c none false, ⟨h.pc, ?_⟩, ?_⟩
  · show shfsCacheAread conf s addr none env >>= _ = _
    rw [hread]
    rfl
  · have haddrs : ∀ d, (u.cce d).addr = (s.cce d).addr := by
      intro d
      by_cases hd : d = c
      · rw [hd, hcce]
      · exact congrArg Cce.addr (Function.update_of_ne hd _ _)
    refine ⟨h.pc, h.mounted, h.adds, ?_, h.entry, ?_, ?_, ?_, ?_⟩
    · have hfind := h.find
      unfold shfsCacheFind at hfind ⊢
      show List.find? (fun d => (u.cce d).addr == addr) _ = _
      simp only [haddrs]
      exact hfind
    · show (u.cce c).t = none
      rw [hcce]
      exact h.done
    · show (u.cce c).refcount = _
      rw [hcce, ← Word.count_ofNat_succ, ← h.refcount]
    · show (s.refs ++ _).length = _
      rw [List.length_append, h.length]
      rfl
    · intro r hr
      rcases List.mem_append.1 hr with hr | hr
      · exact h.refs r hr
      · rw [List.mem_singleton.1 hr]

/-- The chunk is read again and again, until the count has no room left. -/
theorem Reread.run (h : Reread conf addr c n s) (hahead : conf.readahead = 0)
    (haddr : ¬(addr = 0 ∨ conf.volsize < addr)) (hn : 0 < n) (env : AreadEnv) {k : Nat}
    (hk : n + k ≤ 2 ^ 32) :
    ∃ s', ((cache conf).restrict (Atomic conf)).Run s (List.replicate k (.aread addr none env)) s' ∧
      Reread conf addr c (n + k) s' := by
  induction k generalizing n s with
  | zero => exact ⟨s, .nil s, h⟩
  | succ k ih =>
      obtain ⟨s₁, hs, h₁⟩ := h.step hahead haddr hn (by omega) env
      obtain ⟨s', hrun, h'⟩ := ih h₁ (by omega) (by omega)
      have hatomic : Atomic conf s (.aread addr none env) := by
        intro t ht
        rw [show cacheNext conf s (.aread addr none env) = .ok s₁ from hs.2] at ht
        obtain rfl := Option.some.inj ht
        exact h₁.adds
      have hnk : n + (k + 1) = n + 1 + k := by omega
      exact ⟨s', .cons (Machine.restrict_step.2 ⟨hs, hatomic⟩) hrun, hnk ▸ h'⟩

/-- A count of zero stands for `2 ^ 32` references. -/
theorem Reread.not_counted (h : Reread conf addr c (2 ^ 32) s) : ¬ Counted s := by
  intro hc
  have hrefs : refsOn s c = 2 ^ 32 := by
    unfold refsOn
    rw [h.adds, List.countP_nil, Nat.add_zero, ← h.length]
    exact List.countP_eq_length.2 fun r hr => decide_eq_true (h.refs r hr)
  have hcount := hc.refcount c h.entry
  rw [h.refcount, hrefs] at hcount
  have hzero : (UInt32.ofNat (2 ^ 32)).toNat = 0 := by simp
  omega

end Reread

/-- A chunk is read `2 ^ 32` times: as many references are out, and the count on their entry is zero. -/
theorem count_wraps : ∃ es s, ((cache tinyCache).restrict (Atomic tinyCache)).Run tinyInit es s ∧
    (s.cce (.pobj 0)).refcount = 0 ∧ s.refs.length = 2 ^ 32 ∧ ¬ Counted s := by
  have hexec : (((cache tinyCache).restrict (Atomic tinyCache)).exec tinyInit
      [readEvent 5 0 10, .complete 0 0]).any (fun s => s.pc = .idle ∧ s.mounted = true ∧ s.adds = [] ∧
        shfsCacheFind tinyCache s 5 = some (.pobj 0) ∧ .pobj 0 ∈ s.entries ∧
        (s.cce (.pobj 0)).t = none ∧ (s.cce (.pobj 0)).refcount = UInt32.ofNat 1 ∧
        s.refs.length = 1 ∧ ∀ r ∈ s.refs, r.cce = .pobj 0) = true := by decide
  obtain ⟨s₁, hfirst, hs⟩ := Machine.Run.of_exec_any hexec
  obtain ⟨hpc, hm, hadds, hfind, hin, ht, hcount, hlen, hrefs⟩ := of_decide_eq_true hs
  have hstart : Reread tinyCache 5 (.pobj 0) 1 s₁ := ⟨hpc, hm, hadds, hfind, hin, ht, hcount, hlen, hrefs⟩
  obtain ⟨s, hrun, h⟩ := hstart.run (k := 2 ^ 32 - 1) rfl (by decide) Nat.one_pos
    ⟨⟨none, .error .eio⟩, fun _ => ⟨none, .error .eio⟩, none⟩ (by omega)
  rw [show 1 + (2 ^ 32 - 1) = 2 ^ 32 by omega] at h
  exact ⟨_, s, hfirst.append hrun, h.refcount, h.length, h.not_counted⟩

/-- A chunk is read twice and a blank buffer handed out: three references on two entries. -/
theorem buffers_owned_three : ∃ s, ((cache tinyCache).restrict fun s e => Atomic tinyCache s e ∧
      RefRoom tinyCache s e).Run tinyInit [readEvent 5 0 10, readEvent 5 1 11, .eblank none] s ∧
    s.refs.length = 3 ∧ s.nbRefEntries = 2 ∧ Counted s ∧ BlankRefs s := by
  have hexec : (((cache tinyCache).restrict fun s e => Atomic tinyCache s e ∧
      RefRoom tinyCache s e).exec tinyInit [readEvent 5 0 10, readEvent 5 1 11, .eblank none]).any
      (fun s => s.refs.length = 3 ∧ s.nbRefEntries = 2) = true := by decide
  obtain ⟨s, hrun, hs⟩ := Machine.Run.of_exec_any hexec
  obtain ⟨hlen, hn⟩ := of_decide_eq_true hs
  obtain ⟨-, hcount, -, hblank, -⟩ := buffers_owned hrun
  exact ⟨s, hrun, hlen, hn, hcount, hblank⟩

end Minipython.Shfs
