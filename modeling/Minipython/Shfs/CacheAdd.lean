/-
# Minipython.Shfs.CacheAdd — new entries (shfs_cache_add, shfs_cache_readahead)

A buffer comes from the pool, the heap or the available entries whose I/O is done; in between it is on
the list of available entries and on no collision list (`Buffered`). Its request is handed over, or a
call waits with it (`Buffered.waits`), and then the entry stays as it is until the call goes on
(`CacheInv.addEnd`). A request that is handed over at once is one whose wait takes no time.

Reading ahead only brings in new entries this way, and leaves alone whatever is referenced, in flight or
set up (`Grows`).

`AddOk` is what a call of `shfs_cache_add` leaves, in each of its ends: it has failed, it has added an
entry, or it waits. It is stated once for the read of a caller and for reading ahead, since they differ only
in what becomes of the entry. Where the call waits, its entry is kept by `SetUp`: on the list, with no token
yet, and open to anyone else who looks for a buffer.
-/
import Mathlib.Data.List.Pairwise
import Minipython.Shfs.CacheCalm
import Minipython.Shfs.CacheInv

namespace Minipython.Shfs

open Minipython.Lib
open Cache

/-- An entry with references or a request, or one whose request is being set up. -/
def Busy (R : Mem → Nat) (s : Cache) (d : Mem) : Prop := R d ≠ 0 ∨ (s.cce d).t ≠ none ∨ s.SetUp d

/-- What an operation that only brings in new entries and requests leaves alone: busy entries, and
everything about callers and their tokens. -/
structure Grows (R : Mem → Nat) (s s' : Cache) : Prop where
  frozen : ∀ d ∈ s.entries, Busy R s d → d ∈ s'.entries ∧ s'.cce d = s.cce d
  callers : s'.refs = s.refs ∧ s'.issued = s.issued ∧ s'.log = s.log ∧ s'.tlinks = s.tlinks
  adds : s'.adds = s.adds
  pc : s'.pc = s.pc
  tokens : ∀ t ∈ s.tokens, t ∈ s'.tokens ∧ s'.tok t = s.tok t
  device : ∀ t ∈ s'.tokens, t ∉ s.tokens → ∃ c, (s'.tok t).cb = some (.cce c)
  chain : ∀ d ∈ s'.entries, (s'.cce d).aioChain = DList.emptyEnds ∨
    d ∈ s.entries ∧ (s'.cce d).aioChain = (s.cce d).aioChain

/-- An entry that is available but on no collision list yet. -/
structure Buffered (P : Set Mem → Links Mem → Ends Mem → Prop) (Z : Nat → Prop) (conf : CacheConf)
    (R : Mem → Nat) (c : Mem) (s : Cache) : Prop where
  lists : Lists P Z conf (avail R s) (listed R s \ {c}) s
  counts : Counts R s
  memory : Memory s
  privates : Privates s
  blank : Blank R s
  setups : Setups Z R s
  mem : c ∈ avail R s
  free : ¬ s.SetUp c
  done : (s.cce c).t = none
  idle : s.pc = .idle

/-- What the end of a wait leaves alone: everything but the entry and the token of its request. -/
structure CallSettled (p : Pending) (s s' : Cache) : Prop where
  cce : ∀ d, d ≠ p.cce → s'.cce d = s.cce d
  entries : ∀ d, d ≠ p.cce → (d ∈ s'.entries ↔ d ∈ s.entries)
  fewer : ∀ d ∈ s'.entries, d ∈ s.entries
  chain : (s'.cce p.cce).aioChain = (s.cce p.cce).aioChain
  callers : s'.refs = s.refs ∧ s'.issued = s.issued ∧ s'.log = s.log ∧ s'.tlinks = s.tlinks
  adds : s'.adds = s.adds.erase p
  pc : s'.pc = s.pc
  tokens : ∀ t ∈ s.tokens, t ≠ p.tok → t ∈ s'.tokens
  sub : ∀ t ∈ s'.tokens, t ∈ s.tokens
  tok : s'.tok = s.tok

theorem Grows.refl (R : Mem → Nat) (s : Cache) : Grows R s s :=
  ⟨fun _ hd _ => ⟨hd, rfl⟩, ⟨rfl, rfl, rfl, rfl⟩, rfl, rfl, fun _ ht => ⟨ht, rfl⟩,
    fun _ ht hn => absurd ht hn, fun _ hd => .inr ⟨hd, rfl⟩⟩

theorem Busy.congr {R : Mem → Nat} {s s' : Cache} {d : Mem} (h : Busy R s d) (hc : s'.cce d = s.cce d)
    (ha : s'.adds = s.adds) : Busy R s' d := by
  rw [Busy, hc, setUp_congr ha]
  exact h

theorem Grows.trans {R : Mem → Nat} {s₁ s₂ s₃ : Cache} (h : Grows R s₁ s₂) (h' : Grows R s₂ s₃) :
    Grows R s₁ s₃ := by
  refine ⟨?_, ?_, h'.adds.trans h.adds, h'.pc.trans h.pc, ?_, ?_, ?_⟩
  · intro d hd hold
    obtain ⟨hd₂, he⟩ := h.frozen d hd hold
    obtain ⟨hd₃, he'⟩ := h'.frozen d hd₂ (hold.congr he h.adds)
    exact ⟨hd₃, he'.trans he⟩
  · obtain ⟨h1, h2, h3, h4⟩ := h.callers
    obtain ⟨h1', h2', h3', h4'⟩ := h'.callers
    exact ⟨h1'.trans h1, h2'.trans h2, h3'.trans h3, h4'.trans h4⟩
  · intro t ht
    obtain ⟨ht₂, he⟩ := h.tokens t ht
    obtain ⟨ht₃, he'⟩ := h'.tokens t ht₂
    exact ⟨ht₃, he'.trans he⟩
  · intro t ht hn
    by_cases ht₂ : t ∈ s₂.tokens
    · obtain ⟨c, hc⟩ := h.device t ht₂ hn
      refine ⟨c, ?_⟩
      rw [(h'.tokens t ht₂).2]
      exact hc
    · exact h'.device t ht ht₂
  · intro d hd
    rcases h'.chain d hd with he | ⟨hd₂, he⟩
    · exact .inl he
    · rcases h.chain d hd₂ with he' | ⟨hd₁, he'⟩
      · exact .inl (he.trans he')
      · exact .inr ⟨hd₁, he.trans he'⟩

section Ops

variable {P : Set Mem → Links Mem → Ends Mem → Prop} {Z : Nat → Prop} {conf : CacheConf}
  {R : Mem → Nat} {s s' : Cache} {c : Mem}

/-- Nothing changed but the lists. -/
theorem Grows.links (hc : s'.cce = s.cce) (hent : s'.entries = s.entries)
    (hcall : s'.refs = s.refs ∧ s'.issued = s.issued ∧ s'.log = s.log ∧ s'.tlinks = s.tlinks)
    (hadds : s'.adds = s.adds) (hpc : s'.pc = s.pc) (htok : s'.tokens = s.tokens ∧ s'.tok = s.tok) :
    Grows R s s' := by
  refine ⟨?_, hcall, hadds, hpc, ?_, ?_, ?_⟩
  · intro d hd _
    rw [hent, hc]
    exact ⟨hd, rfl⟩
  · intro t ht
    rw [htok.1, htok.2]
    exact ⟨ht, rfl⟩
  · intro t ht hn
    rw [htok.1] at ht
    exact absurd ht hn
  · intro d hd
    rw [hent] at hd
    exact .inr ⟨hd, by rw [hc]⟩

/-- Nothing changed but one entry, which is new or not busy, and private tokens. -/
theorem Grows.at (hidle : c ∈ s.entries → ¬ Busy R s c)
    (hcce : ∀ d, d ≠ c → s'.cce d = s.cce d) (hent : ∀ d, d ≠ c → (d ∈ s'.entries ↔ d ∈ s.entries))
    (hchain : c ∈ s'.entries → (s'.cce c).aioChain = DList.emptyEnds ∨
      c ∈ s.entries ∧ (s'.cce c).aioChain = (s.cce c).aioChain)
    (hcall : s'.refs = s.refs ∧ s'.issued = s.issued ∧ s'.log = s.log ∧ s'.tlinks = s.tlinks)
    (hadds : s'.adds = s.adds) (hpc : s'.pc = s.pc)
    (htok : ∀ t ∈ s.tokens, t ∈ s'.tokens ∧ s'.tok t = s.tok t)
    (hdev : ∀ t ∈ s'.tokens, t ∉ s.tokens → ∃ d, (s'.tok t).cb = some (.cce d)) : Grows R s s' := by
  refine ⟨fun d hd hbusy => ?_, hcall, hadds, hpc, htok, hdev, fun d hd => ?_⟩
  · have hdc : d ≠ c := by
      rintro rfl
      exact hidle hd hbusy
    exact ⟨(hent d hdc).2 hd, hcce d hdc⟩
  · by_cases hdc : d = c
    · subst hdc
      exact hchain hd
    · exact .inr ⟨(hent d hdc).1 hd, by rw [hcce d hdc]⟩

theorem Buffered.not_busy (h : Buffered P Z conf R c s) : ¬ Busy R s c := by
  rintro (hb | hb | hb)
  · exact hb h.mem.2
  · exact hb h.done
  · exact h.free hb

/-- What `_cce_pobj_init` has changed: there is one entry more, and it has no count, no request and no
callers. -/
structure NewEntry (c : Mem) (s s₁ : Cache) : Prop where
  notMem : c ∉ s.entries
  entries : s₁.entries = insert c s.entries
  cce : ∀ d, d ≠ c → s₁.cce d = s.cce d
  refcount : (s₁.cce c).refcount = 0
  t : (s₁.cce c).t = none
  chain : (s₁.cce c).aioChain = DList.emptyEnds
  alist : s₁.alinks = s.alinks ∧ s₁.alist = s.alist
  clist : s₁.clinks = s.clinks ∧ s₁.htable = s.htable
  callers : s₁.refs = s.refs ∧ s₁.issued = s.issued ∧ s₁.log = s.log ∧ s₁.tlinks = s.tlinks
  nbRef : s₁.nbRefEntries = s.nbRefEntries
  adds : s₁.adds = s.adds
  pc : s₁.pc = s.pc
  tokens : s₁.tokens = s.tokens
  tok : s₁.tok = s.tok

theorem newEntry_initCce {pobj : Option Nat} {buffer : Mem} {pool : List Nat} (hc : c ∉ s.entries) :
    NewEntry c s { s.initCce c pobj buffer with pool := pool } := by
  refine ⟨hc, rfl, fun d hd => ?_, ?_, ?_, ?_, ⟨rfl, rfl⟩, ⟨rfl, rfl⟩, ⟨rfl, rfl, rfl, rfl⟩, rfl, rfl, rfl, rfl,
    rfl⟩
  · simp [Cache.initCce, Cache.setCce, hd]
  all_goals simp [Cache.initCce, Cache.setCce]

section NewEntry

variable {s₁ : Cache} (hn : NewEntry c s s₁)
include hn

theorem NewEntry.ne {d : Mem} (hd : d ∈ s.entries) : d ≠ c := fun he => hn.notMem (he ▸ hd)

theorem NewEntry.mem {d : Mem} : d ∈ s₁.entries ↔ d = c ∨ d ∈ s.entries := by
  rw [hn.entries, Finset.mem_insert]

/-- Nobody has a reference on it. -/
theorem NewEntry.refs (h : Counts R s) : R c = 0 := by
  by_contra hR
  exact hn.notMem (h.held c hR)

theorem NewEntry.grows : Grows R s s₁ := by
  apply Grows.at (c := c)
  · exact fun hin => absurd hin hn.notMem
  · exact hn.cce
  · intro d hd
    rw [hn.mem, or_iff_right hd]
  · exact fun _ => .inl hn.chain
  · exact hn.callers
  · exact hn.adds
  · exact hn.pc
  · intro t ht
    rw [hn.tokens, hn.tok]
    exact ⟨ht, rfl⟩
  · intro t ht hnew
    rw [hn.tokens] at ht
    exact absurd ht hnew

theorem NewEntry.avail : avail R s₁ \ {c} = avail R s := by
  ext d
  simp only [Shfs.avail, hn.entries, Finset.mem_insert, Set.mem_ofPred_eq, Set.mem_sdiff,
    Set.mem_singleton_iff]
  constructor
  · rintro ⟨⟨rfl | hd, hRd⟩, hdc⟩
    · exact absurd rfl hdc
    · exact ⟨hd, hRd⟩
  · rintro ⟨hd, hRd⟩
    exact ⟨⟨.inr hd, hRd⟩, hn.ne hd⟩

theorem NewEntry.listed : listed R s₁ \ {c} = listed R s := by
  ext d
  simp only [Shfs.listed, hn.entries, setUp_congr hn.adds, Set.mem_sdiff, Finset.mem_insert, Set.mem_ofPred_eq,
    Set.mem_singleton_iff]
  constructor
  · rintro ⟨⟨rfl | hd, hk⟩, hdc⟩
    · exact absurd rfl hdc
    · rw [hn.cce d hdc] at hk
      exact ⟨hd, hk⟩
  · rintro ⟨hd, hk⟩
    rw [hn.cce d (hn.ne hd)]
    exact ⟨⟨.inr hd, hk⟩, hn.ne hd⟩

theorem NewEntry.counts (h : Counts R s) (hpc : s.pc = .idle) : Counts R s₁ := by
  have hpc₁ : s₁.pc = .idle := hn.pc.trans hpc
  refine ⟨fun d hd => hn.mem.2 (.inr (h.held d hd)), fun d hd => ?_, fun d hw => ?_, ?_⟩
  · rcases hn.mem.1 hd with rfl | hd
    · rw [hn.refcount, hn.refs h, hpc₁]
      rfl
    · rw [hn.cce d (hn.ne hd), hn.pc]
      exact h.refcount d hd
  · rw [hpc₁] at hw
    cases hw
  · rw [hn.entries, Finset.filter_insert, if_neg (by simp [hn.refs h]), ← h.nbRef, hn.nbRef]

theorem NewEntry.privates (h : Privates s) : Privates s₁ := by
  constructor
  · intro d hd t ht
    rw [hn.tokens, hn.tok]
    rcases hn.mem.1 hd with rfl | hd
    · rw [hn.t] at ht
      cases ht
    · rw [hn.cce d (hn.ne hd)] at ht ⊢
      exact h.own d hd t ht
  · intro t ht d hcb
    rw [hn.tokens] at ht
    rw [hn.tok] at hcb
    obtain ⟨hd, hdt⟩ := h.device t ht d hcb
    rw [hn.cce d (hn.ne hd), hn.adds]
    exact ⟨hn.mem.2 (.inr hd), hdt⟩

theorem NewEntry.blank (h : Blank R s) (hR : R c = 0) : Blank R s₁ := by
  intro d hd ha
  have hdc : d ≠ c := by
    rintro rfl
    exact hd hR
  rw [hn.cce d hdc] at ha ⊢
  exact h d hd ha

theorem NewEntry.setups (h : Setups Z R s) : Setups Z R s₁ := by
  refine ⟨?_, fun p hp => ?_, fun p hp => ?_⟩
  · rw [hn.adds]
    exact h.apart
  · rw [hn.adds] at hp
    obtain ⟨⟨hin, h0⟩, hrest⟩ := h.entry p hp
    rw [hn.cce p.cce (hn.ne hin)]
    exact ⟨⟨hn.mem.2 (.inr hin), h0⟩, hrest⟩
  · rw [hn.adds] at hp
    rw [hn.tokens, hn.tok]
    exact h.token p hp

end NewEntry

/-- A new entry, on no list yet. -/
theorem CacheInv.fresh (h : CacheInv P Z conf R s) (hpc : s.pc = .idle) {pobj : Option Nat}
    {buffer : Mem} {pool : List Nat} (hc : c ∉ s.entries) {s₁ : Cache}
    (hs₁ : s₁ = { s.initCce c pobj buffer with pool := pool }) (hm : Memory s₁) :
    Loose P Z conf R c s₁ ∧ Grows R s s₁ := by
  have hn : NewEntry c s s₁ := hs₁ ▸ newEntry_initCce hc
  have hR : R c = 0 := hn.refs h.counts
  have hlists : Lists P Z conf (Shfs.avail R s₁ \ {c}) (Shfs.listed R s₁ \ {c}) s₁ := by
    rw [hn.avail, hn.listed]
    exact h.lists.congr hn.alist hn.clist fun d hd => by rw [hn.cce d (hn.ne hd.1)]
  have hfree : ¬ s₁.SetUp c := by
    rw [setUp_congr hn.adds]
    rintro ⟨p, hp, rfl⟩
    exact hc (h.setups.entry p hp).1.1
  refine ⟨⟨hlists, hn.counts h.counts hpc, hm, hn.privates h.privates, hn.blank h.blank hR, hn.setups h.setups,
    ⟨hn.mem.2 (.inl rfl), hR⟩, hfree, hn.t, ?_⟩, hn.grows⟩
  rw [hn.pc, hpc]
  exact fun he => by cases he

/-- A loose entry goes to the tail of the available ones. -/
theorem Loose.append (hP : DList.Discipline P) (h : Loose P Z conf R c s) (hpc : s.pc = .idle)
    (happ : s.alistAppend c = .ok s') : Buffered P Z conf R c s' ∧ Grows R s s' := by
  have hl := h.lists.alistAppend hP (by simp) happ
  rw [Set.insert_sdiff_singleton, Set.insert_eq_of_mem h.mem] at hl
  obtain ⟨L, E, -, rfl⟩ := alistAppend_ok happ
  refine ⟨⟨hl, ?_, ?_, ?_, h.blank, ?_, h.mem, h.free, h.done, hpc⟩, ?_⟩
  · exact h.counts.links rfl rfl rfl rfl
  · exact h.memory.congr rfl rfl rfl fun _ _ => ⟨rfl, rfl⟩
  · exact h.privates.links rfl rfl rfl ⟨rfl, rfl⟩
  · exact h.setups.links rfl rfl rfl ⟨rfl, rfl⟩
  · exact Grows.links rfl rfl ⟨rfl, rfl, rfl, rfl⟩ rfl rfl ⟨rfl, rfl⟩

/-- The first half of a calm `shfs_cache_add`. -/
theorem CacheInv.addBuffer (hP : DList.Discipline P) (h : CacheInv P Z conf R s)
    (hpc : s.pc = .idle) {heap : Option (Nat × Nat)} (hcalm : calmPick s heap = true) {r : Option Mem}
    (hr : shfsCacheAddBuffer conf s heap = .ok (r, s')) :
    (r = none ∧ s' = s) ∨ ∃ c, r = some c ∧ Buffered P Z conf R c s' ∧ Grows R s s' := by
  rcases addBuffer_cases hr with ⟨rfl, rfl⟩ | ⟨c, u, rfl, hp, happ⟩ | ⟨c, rfl, hp, hd, happ⟩
  · exact .inl ⟨rfl, rfl⟩
  · obtain ⟨hc, hm, pobj, buffer, pool, he⟩ := h.memory.pick hp
    obtain ⟨hloose, hg⟩ := h.fresh hpc hc he hm
    obtain ⟨hb, hg'⟩ := hloose.append hP (hg.pc.trans hpc) happ
    exact .inr ⟨c, rfl, hb, hg.trans hg'⟩
  · obtain ⟨hc, ht⟩ := h.lists.findDone hP (fun _ hx => hx.1) hd
    have hloose := h.loosen hP hc (calmPick_done hcalm hp hd) ht
      (by rw [hpc]; exact fun he => by cases he)
    obtain ⟨hb, hg⟩ := hloose.append hP hpc happ
    refine .inr ⟨c, rfl, hb, Grows.trans ?_ hg⟩
    exact Grows.links rfl rfl ⟨rfl, rfl, rfl, rfl⟩ rfl rfl ⟨rfl, rfl⟩

/-- A new address for an entry that is on no collision list. -/
theorem Buffered.setAddr (h : Buffered P Z conf R c s) (addr gen : Nat) {s₁ : Cache}
    (hs₁ : s₁ = s.setCce c { s.cce c with addr := addr, gen := gen }) :
    Buffered P Z conf R c s₁ ∧ (s₁.cce c).addr = addr ∧ Grows R s s₁ := by
  have hold : ∀ d, d ≠ c → s₁.cce d = s.cce d := fun d hd => by
    rw [hs₁]
    exact Function.update_of_ne hd _ _
  have hself : s₁.cce c = { s.cce c with addr := addr, gen := gen } := by
    rw [hs₁]
    exact Function.update_self _ _ _
  have hsame : ∀ d, (s₁.cce d).t = (s.cce d).t ∧ (s₁.cce d).refcount = (s.cce d).refcount ∧
      (s₁.cce d).pobj = (s.cce d).pobj ∧ (s₁.cce d).buffer = (s.cce d).buffer := by
    intro d
    by_cases hd : d = c
    · rw [hd, hself]
      exact ⟨rfl, rfl, rfl, rfl⟩
    · rw [hold d hd]
      exact ⟨rfl, rfl, rfl, rfl⟩
  have hrest : s₁.entries = s.entries ∧ s₁.adds = s.adds ∧ s₁.pc = s.pc ∧ s₁.pool = s.pool ∧
      s₁.nbEntries = s.nbEntries ∧ s₁.nbRefEntries = s.nbRefEntries ∧
      s₁.tokens = s.tokens ∧ s₁.tok = s.tok := by
    rw [hs₁]
    exact ⟨rfl, rfl, rfl, rfl, rfl, rfl, rfl, rfl⟩
  obtain ⟨hent, hadds, hpc, hpool, hn, hnr, htokens, htok⟩ := hrest
  have hset : ∀ d, s₁.SetUp d ↔ s.SetUp d := setUp_congr hadds
  have hA : avail R s₁ = avail R s := avail_congr hent fun _ => Iff.rfl
  have hH : listed R s₁ \ {c} = listed R s \ {c} := by
    ext d
    simp only [listed, hent, hset, Set.mem_sdiff, Set.mem_ofPred_eq, Set.mem_singleton_iff]
    constructor
    · rintro ⟨⟨hd, hk⟩, hdc⟩
      rw [hold d hdc] at hk
      exact ⟨⟨hd, hk⟩, hdc⟩
    · rintro ⟨⟨hd, hk⟩, hdc⟩
      rw [← hold d hdc] at hk
      exact ⟨⟨hd, hk⟩, hdc⟩
  refine ⟨⟨?_, ?_, ?_, ?_, ?_, ?_, hA ▸ h.mem, fun hs => h.free ((hset c).1 hs), ?_, hpc.trans h.idle⟩,
    by rw [hself], ?_⟩
  · rw [hA, hH]
    refine h.lists.congr ?_ ?_ fun d hd => by rw [hold d hd.2]
    · rw [hs₁]
      exact ⟨rfl, rfl⟩
    · rw [hs₁]
      exact ⟨rfl, rfl⟩
  · exact h.counts.congr hent hpc hnr fun d _ => by rw [(hsame d).2.1]
  · exact h.memory.congr hpool hent hn fun d _ => ⟨(hsame d).2.2.1, (hsame d).2.2.2⟩
  · refine h.privates.congr hent hadds htokens (fun d _ => ⟨(hsame d).1, fun hdt => ?_⟩)
      fun _ _ => by rw [htok]
    rw [hold d fun he => hdt (he ▸ h.done)]
  · intro d hd
    rw [hold d fun he => hd (he ▸ h.mem.2)]
    exact h.blank d hd
  · refine h.setups.congr hent hadds htokens (fun _ _ => rfl) (fun p hp => ?_) fun _ _ => by rw [htok]
    rw [hold p.cce fun he => h.free ⟨p, hp, he⟩]
    exact ⟨rfl, rfl⟩
  · rw [(hsame c).1]
    exact h.done
  · apply Grows.at (c := c)
    · exact fun _ => h.not_busy
    · exact hold
    · exact fun d _ => by rw [hent]
    · exact fun _ => .inr ⟨h.mem.1, by rw [hself]⟩
    · rw [hs₁]
      exact ⟨rfl, rfl, rfl, rfl⟩
    · exact hadds
    · exact hpc
    · intro t ht
      rw [htokens, htok]
      exact ⟨ht, rfl⟩
    · intro t ht hn
      rw [htokens] at ht
      exact absurd ht hn

/-- The buffer of a request that was not handed over is given back. -/
theorem Buffered.fail (hP : DList.Discipline P) (h : Buffered P Z conf R c s) :
    CacheInv P Z conf R (shfsCacheAddFail s c) ∧ Grows R s (shfsCacheAddFail s c) := by
  have heq : s.setCce c { s.cce c with t := none } = s := by
    show ({ s with cce := Function.update s.cce c { s.cce c with t := none } } : Cache) = s
    rw [← h.done, Function.update_eq_self]
  unfold shfsCacheAddFail
  rw [heq]
  constructor
  · refine Loose.put ⟨h.lists.alistUnlink hP h.mem, ?_, ?_, ?_, h.blank, ?_, h.mem, h.free, h.done, ?_⟩
    · exact h.counts.links rfl rfl rfl rfl
    · exact h.memory.congr rfl rfl rfl fun _ _ => ⟨rfl, rfl⟩
    · exact h.privates.links rfl rfl rfl ⟨rfl, rfl⟩
    · exact h.setups.links rfl rfl rfl ⟨rfl, rfl⟩
    · intro hw
      have hw : s.pc = .wait c := hw
      rw [h.idle] at hw
      cases hw
  · apply Grows.at (c := c)
    · exact fun _ => h.not_busy
    · exact fun _ _ => rfl
    · exact fun d hd => by simp [Cache.putCce, Cache.alistUnlink, hd]
    · exact fun hin => absurd hin (Finset.notMem_erase c _)
    · exact ⟨rfl, rfl, rfl, rfl⟩
    · rfl
    · rfl
    · exact fun t ht => ⟨ht, rfl⟩
    · exact fun t ht hn => absurd ht hn

/-! ## Waiting for a slot -/

theorem pickedFor_old {t addr : Nat} (ht : t ∉ s.tokens) {k : Nat} (hk : k ∈ s.tokens) :
    (pickedFor s c t addr).tok k = s.tok k :=
  Function.update_of_ne (fun he : k = t => ht (he ▸ hk)) _ _

theorem pickedFor_new (s : Cache) (c : Mem) (t addr : Nat) : (pickedFor s c t addr).tok t =
    { infly := 1, ret := 0, cb := some (.cce c), serial := 0, chunk := addr } :=
  Function.update_self _ _ _

/-- A call waits while the request of its entry is set up. -/
theorem Buffered.waits (h : Buffered P Z conf R c s) {t addr : Nat} (ht : t ∉ s.tokens)
    (haddr : (s.cce c).addr = addr) (hZ : Z addr) {p : Pending} (hpc : p.cce = c) (hpt : p.tok = t)
    (hpa : p.target = addr) {u : Cache} (hu : u = pickedFor s c t addr) :
    CacheInv P Z conf R { u with adds := u.adds ++ [p] } ∧ Grows R s u := by
  subst hu
  have hold : ∀ k ∈ s.tokens, (pickedFor s c t addr).tok k = s.tok k := fun k hk => pickedFor_old ht hk
  have hnew := pickedFor_new s c t addr
  have hset : ∀ d, ({ pickedFor s c t addr with adds := s.adds ++ [p] } : Cache).SetUp d ↔
      s.SetUp d ∨ d = c := by
    intro d
    show (∃ q ∈ s.adds ++ [p], q.cce = d) ↔ _
    constructor
    · rintro ⟨q, hq, rfl⟩
      rcases List.mem_append.1 hq with hq | hq
      · exact .inl ⟨q, hq, rfl⟩
      · rw [List.mem_singleton.1 hq]
        exact .inr hpc
    · rintro (⟨q, hq, rfl⟩ | rfl)
      · exact ⟨q, List.mem_append_left _ hq, rfl⟩
      · exact ⟨p, List.mem_append_right _ List.mem_cons_self, hpc⟩
  have hH : listed R { pickedFor s c t addr with adds := s.adds ++ [p] } = listed R s \ {c} := by
    ext d
    simp only [listed, hset, Set.mem_ofPred_eq, Set.mem_sdiff, Set.mem_singleton_iff, not_or]
    show d ∈ s.entries ∧ (R d = 0 ∨ (s.cce d).addr ≠ 0) ∧ _ ↔ _
    tauto
  refine ⟨⟨?_, ?_, ?_, ⟨?_, ?_⟩, h.blank, ⟨?_, ?_, ?_⟩⟩, ?_⟩
  · show Lists P Z conf (avail R s) (listed R { pickedFor s c t addr with adds := s.adds ++ [p] }) _
    rw [hH]
    exact h.lists.congr ⟨rfl, rfl⟩ ⟨rfl, rfl⟩ fun _ _ => rfl
  · exact h.counts.congr rfl rfl rfl fun _ _ => rfl
  · exact h.memory.congr rfl rfl rfl fun _ _ => ⟨rfl, rfl⟩
  · intro d hd k hk
    obtain ⟨h1, h2⟩ := h.privates.own d hd k hk
    show k ∈ insert t s.tokens ∧ ((pickedFor s c t addr).tok k).cb = _ ∧
      ((pickedFor s c t addr).tok k).infly ≠ 0 ∧ ((pickedFor s c t addr).tok k).chunk = _
    rw [hold k h1]
    exact ⟨Finset.mem_insert_of_mem h1, h2⟩
  · intro k hk d hcb
    have hcb : ((pickedFor s c t addr).tok k).cb = some (.cce d) := hcb
    show d ∈ s.entries ∧ ((s.cce d).t = some k ∨ ∃ q ∈ s.adds ++ [p], q.cce = d ∧ q.tok = k)
    rcases Finset.mem_insert.1 hk with rfl | hk
    · rw [hnew] at hcb
      obtain ⟨rfl⟩ := Option.some.inj hcb
      exact ⟨h.mem.1, .inr ⟨p, List.mem_append_right _ List.mem_cons_self, hpc, hpt⟩⟩
    · rw [hold k hk] at hcb
      obtain ⟨hd, hdt | ⟨q, hq, hqd⟩⟩ := h.privates.device k hk d hcb
      · exact ⟨hd, .inl hdt⟩
      · exact ⟨hd, .inr ⟨q, List.mem_append_left _ hq, hqd⟩⟩
  · show (s.adds ++ [p]).Pairwise _
    rw [List.pairwise_append]
    refine ⟨h.setups.apart, List.pairwise_singleton _ _, fun q hq q' hq' he => ?_⟩
    rw [List.mem_singleton.1 hq', hpc] at he
    exact h.free ⟨q, hq, he⟩
  · intro q hq
    rcases List.mem_append.1 hq with hq | hq
    · exact h.setups.entry q hq
    · rw [List.mem_singleton.1 hq, hpc, hpa]
      exact ⟨h.mem, h.done, haddr, hZ⟩
  · intro q hq
    show q.tok ∈ insert t s.tokens ∧ ((pickedFor s c t addr).tok q.tok).cb = _ ∧
      ((pickedFor s c t addr).tok q.tok).infly ≠ 0 ∧ ((pickedFor s c t addr).tok q.tok).chunk = _
    rcases List.mem_append.1 hq with hq | hq
    · obtain ⟨h1, h2⟩ := h.setups.token q hq
      rw [hold _ h1]
      exact ⟨Finset.mem_insert_of_mem h1, h2⟩
    · rw [List.mem_singleton.1 hq, hpc, hpt, hpa, hnew]
      exact ⟨Finset.mem_insert_self _ _, rfl, Nat.one_ne_zero, rfl⟩
  · apply Grows.at (c := c)
    · exact fun _ => h.not_busy
    · exact fun _ _ => rfl
    · exact fun _ _ => Iff.rfl
    · exact fun _ => .inr ⟨h.mem.1, rfl⟩
    · exact ⟨rfl, rfl, rfl, rfl⟩
    · rfl
    · rfl
    · exact fun k hk => ⟨Finset.mem_insert_of_mem hk, hold k hk⟩
    · intro k hk hn
      rcases Finset.mem_insert.1 hk with rfl | hk
      · exact ⟨c, by rw [hnew]⟩
      · exact absurd hk hn

/-- Every call that waits has an entry of its own. -/
theorem Setups.eq_of_cce (h : Setups Z R s) {p q : Pending} (hp : p ∈ s.adds) (hq : q ∈ s.adds)
    (he : q.cce = p.cce) : q = p := by
  have : Std.Symm fun a b : Pending => a.cce ≠ b.cce := ⟨fun _ _ hab => hab.symm⟩
  by_contra hne
  exact h.apart.forall hq hp hne he

/-- The calls that wait when one of them goes on. -/
theorem Setups.goOn (h : Setups Z R s) {p : Pending} (hp : p ∈ s.adds) {q : Pending} :
    q ∈ (s.goOn p).adds ↔ q ∈ s.adds ∧ q.cce ≠ p.cce := by
  have hnd : s.adds.Nodup := h.apart.imp fun hab he => hab (by rw [he])
  show q ∈ s.adds.erase p ↔ _
  rw [hnd.mem_erase_iff]
  constructor
  · rintro ⟨hne, hq⟩
    exact ⟨hq, fun he => hne (h.eq_of_cce hp hq he)⟩
  · rintro ⟨hq, hne⟩
    exact ⟨fun he => hne (by rw [he]), hq⟩

theorem Setups.setUp_goOn (h : Setups Z R s) {p : Pending} (hp : p ∈ s.adds) (d : Mem) :
    (s.goOn p).SetUp d ↔ s.SetUp d ∧ d ≠ p.cce := by
  constructor
  · rintro ⟨q, hq, rfl⟩
    obtain ⟨hq, hne⟩ := (h.goOn hp).1 hq
    exact ⟨⟨q, hq, rfl⟩, hne⟩
  · rintro ⟨⟨q, hq, rfl⟩, hne⟩
    exact ⟨q, (h.goOn hp).2 ⟨hq, hne⟩, rfl⟩

/-- A call that goes on has its entry available and on no collision list, and its token at hand. -/
theorem CacheInv.goOn_listed (h : CacheInv P Z conf R s) {p : Pending} (hp : p ∈ s.adds) :
    listed R (s.goOn p) \ {p.cce} = listed R s := by
  have hset := h.setups.setUp_goOn hp
  ext d
  simp only [listed, hset, Set.mem_ofPred_eq, Set.mem_sdiff, Set.mem_singleton_iff]
  show (d ∈ s.entries ∧ (R d = 0 ∨ (s.cce d).addr ≠ 0) ∧ _) ∧ _ ↔ _
  constructor
  · rintro ⟨⟨hd, hk, hno⟩, hne⟩
    exact ⟨hd, hk, fun hs => hno ⟨hs, hne⟩⟩
  · rintro ⟨hd, hk, hno⟩
    exact ⟨⟨hd, hk, fun hs => hno hs.1⟩, fun he => hno ⟨p, hp, he.symm⟩⟩

/-- Tokens of other requests than that of the call. -/
theorem CacheInv.tok_ne (h : CacheInv P Z conf R s) {p : Pending} (hp : p ∈ s.adds) {d : Mem} {k : Nat}
    (hcb : (s.tok k).cb = some (.cce d)) (hd : d ≠ p.cce) : k ≠ p.tok := by
  rintro rfl
  rw [(h.setups.token p hp).2.1] at hcb
  exact hd (AioCb.cce.inj (Option.some.inj hcb)).symm

/-- The request of a call that waits could not be handed over. -/
theorem CacheInv.addFailed (hP : DList.Discipline P) (h : CacheInv P Z conf R s) (hpc : s.pc = .idle)
    {p : Pending} (hp : p ∈ s.adds) (hs' : s' = shfsCacheAddFail ((s.goOn p).putToken p.tok) p.cce) :
    CacheInv P Z conf R s' ∧ CallSettled p s s' := by
  obtain ⟨hmem, hdone, -, -⟩ := h.setups.entry p hp
  have hset := h.setups.setUp_goOn hp
  have hbuf : Buffered P Z conf R p.cce ((s.goOn p).putToken p.tok) := by
    refine ⟨?_, ?_, ?_, ⟨?_, ?_⟩, h.blank, ⟨?_, ?_, ?_⟩, hmem, ?_, hdone, hpc⟩
    · show Lists P Z conf (avail R s) (listed R (s.goOn p) \ {p.cce}) _
      rw [h.goOn_listed hp]
      exact h.lists.congr ⟨rfl, rfl⟩ ⟨rfl, rfl⟩ fun _ _ => rfl
    · exact h.counts.links rfl rfl rfl rfl
    · exact h.memory.congr rfl rfl rfl fun _ _ => ⟨rfl, rfl⟩
    · intro d hd k hk
      obtain ⟨h1, h2, h3⟩ := h.privates.own d hd k hk
      have hne : d ≠ p.cce := by
        rintro rfl
        rw [show (s.cce p.cce).t = some k from hk] at hdone
        cases hdone
      exact ⟨Finset.mem_erase.2 ⟨h.tok_ne hp h2 hne, h1⟩, h2, h3⟩
    · intro k hk d hcb
      obtain ⟨hkp, hk⟩ := Finset.mem_erase.1 hk
      obtain ⟨hd, hdt | ⟨q, hq, hqd, hqk⟩⟩ := h.privates.device k hk d hcb
      · exact ⟨hd, .inl hdt⟩
      · refine ⟨hd, .inr ⟨q, (h.setups.goOn hp).2 ⟨hq, ?_⟩, hqd, hqk⟩⟩
        intro he
        exact hkp (by rw [← hqk, h.setups.eq_of_cce hp hq he])
    · exact h.setups.apart.sublist List.erase_sublist
    · exact fun q hq => h.setups.entry q ((h.setups.goOn hp).1 hq).1
    · intro q hq
      obtain ⟨hq, hne⟩ := (h.setups.goOn hp).1 hq
      obtain ⟨h1, h2, h3⟩ := h.setups.token q hq
      exact ⟨Finset.mem_erase.2 ⟨h.tok_ne hp h2 hne, h1⟩, h2, h3⟩
    · exact fun hs => ((hset p.cce).1 hs).2 rfl
  have hfields : (∀ d, d ≠ p.cce → s'.cce d = s.cce d) ∧
      (s'.cce p.cce).aioChain = (s.cce p.cce).aioChain := by
    rw [hs']
    refine ⟨fun d hd => Function.update_of_ne hd _ _, ?_⟩
    show (Function.update s.cce p.cce _ p.cce).aioChain = _
    rw [Function.update_self]
    rfl
  refine ⟨by rw [hs']; exact (hbuf.fail hP).1, hfields.1, fun d hd => ?_, fun d hd => ?_, hfields.2,
    ?_, ?_, ?_, fun t ht hne => ?_, fun t ht => ?_, ?_⟩
  · rw [hs']
    exact Finset.mem_erase.trans (and_iff_right hd)
  · rw [hs'] at hd
    exact Finset.mem_of_mem_erase hd
  · rw [hs']
    exact ⟨rfl, rfl, rfl, rfl⟩
  · rw [hs']
    rfl
  · rw [hs']
    rfl
  · rw [hs']
    exact Finset.mem_erase.2 ⟨hne, ht⟩
  · rw [hs'] at ht
    exact Finset.mem_of_mem_erase ht
  · rw [hs']
    rfl

/-- The request of a call that waits has been handed over: the entry gets its token, and its address is
listed. -/
theorem CacheInv.addDone (h : CacheInv P Z conf R s) {p : Pending} (hp : p ∈ s.adds) {x : AddRet}
    (hr : shfsCacheAddEnd conf (s.goOn p) p.cce p.tok p.target none = .ok (x, s')) :
    x = .added p.cce ∧ CacheInv P Z conf R s' ∧ CallSettled p s s' := by
  obtain ⟨hmem, hdone, haddr, hZ⟩ := h.setups.entry p hp
  obtain ⟨htok, hcb, hfly, hchunk⟩ := h.setups.token p hp
  have hset := h.setups.setUp_goOn hp
  obtain ⟨u, happ, hr⟩ := ok_of_bind hr
  obtain ⟨rfl, rfl⟩ := Prod.mk.inj (Except.ok.inj hr)
  set s₁ := (s.goOn p).setCce p.cce { (s.goOn p).cce p.cce with t := some p.tok } with hs₁
  have hold : ∀ d, d ≠ p.cce → s₁.cce d = s.cce d := fun d hd => Function.update_of_ne hd _ _
  have hself : s₁.cce p.cce = { s.cce p.cce with t := some p.tok } := Function.update_self _ _ _
  have hf : ∀ d, (s₁.cce d).addr = (s.cce d).addr ∧ (s₁.cce d).refcount = (s.cce d).refcount ∧
      (s₁.cce d).pobj = (s.cce d).pobj ∧ (s₁.cce d).buffer = (s.cce d).buffer := by
    intro d
    by_cases hd : d = p.cce
    · rw [hd, hself]
      exact ⟨rfl, rfl, rfl, rfl⟩
    · rw [hold d hd]
      exact ⟨rfl, rfl, rfl, rfl⟩
  have hset₁ : ∀ d, s₁.SetUp d ↔ s.SetUp d ∧ d ≠ p.cce := hset
  have hH : insert p.cce (listed R s) = listed R s₁ := by
    ext d
    simp only [listed, hset₁, Set.mem_ofPred_eq, Set.mem_insert_iff, (hf d).1]
    show _ ↔ d ∈ s.entries ∧ _
    constructor
    · rintro (rfl | ⟨hd, hk, hno⟩)
      · exact ⟨hmem.1, .inl hmem.2, fun hs => hs.2 rfl⟩
      · exact ⟨hd, hk, fun hs => hno hs.1⟩
    · rintro ⟨hd, hk, hno⟩
      by_cases hdc : d = p.cce
      · exact .inl hdc
      · exact .inr ⟨hd, hk, fun hs => hno ⟨hs, hdc⟩⟩
  have hl₁ : Lists P Z conf (avail R s) (listed R s) s₁ :=
    h.lists.congr ⟨rfl, rfl⟩ ⟨rfl, rfl⟩ fun d _ => (hf d).1
  obtain ⟨L, E, hlink, hl⟩ := hl₁.clistAppend (fun hin => hin.2.2 ⟨p, hp, rfl⟩) hmem
    ((hf p.cce).1.trans haddr) hZ
  rw [hlink] at happ
  obtain rfl := Except.ok.inj happ
  rw [hH] at hl
  refine ⟨rfl, ⟨hl, ?_, ?_, ⟨?_, ?_⟩, ?_, ⟨?_, ?_, ?_⟩⟩, ?_⟩
  · exact h.counts.congr rfl rfl rfl fun d _ => by rw [← (hf d).2.1]
  · exact h.memory.congr rfl rfl rfl fun d _ => ⟨(hf d).2.2.1, (hf d).2.2.2⟩
  · intro d hd k hk
    have hk : (s₁.cce d).t = some k := hk
    show k ∈ s.tokens ∧ (s.tok k).cb = _ ∧ (s.tok k).infly ≠ 0 ∧ (s.tok k).chunk = (s₁.cce d).addr
    by_cases hdc : d = p.cce
    · subst hdc
      rw [hself] at hk ⊢
      obtain rfl := Option.some.inj hk
      exact ⟨htok, hcb, hfly, hchunk.trans haddr.symm⟩
    · rw [hold d hdc] at hk ⊢
      exact h.privates.own d hd k hk
  · intro k hk d hkcb
    obtain ⟨hd, hdt⟩ := h.privates.device k hk d hkcb
    refine ⟨hd, ?_⟩
    show (s₁.cce d).t = some k ∨ ∃ q ∈ s₁.adds, _
    rcases hdt with hdt | ⟨q, hq, hqd, hqk⟩
    · left
      rw [hold d]
      · exact hdt
      · rintro rfl
        rw [hdone] at hdt
        cases hdt
    · by_cases hqp : q.cce = p.cce
      · left
        rw [← hqd, hqp, hself, ← hqk, h.setups.eq_of_cce hp hq hqp]
      · exact .inr ⟨q, (h.setups.goOn hp).2 ⟨hq, hqp⟩, hqd, hqk⟩
  · intro d hd
    show (s₁.cce d).addr = 0 → _ ∧ (s₁.cce d).t = none ∧ (s₁.cce d).invalid = true
    rw [hold d fun he => hd (he ▸ hmem.2)]
    exact h.blank d hd
  · exact h.setups.apart.sublist List.erase_sublist
  · intro q hq
    obtain ⟨hq, hne⟩ := (h.setups.goOn hp).1 hq
    show q.cce ∈ avail R s ∧ (s₁.cce q.cce).t = none ∧ (s₁.cce q.cce).addr = _ ∧ _
    rw [hold _ hne]
    exact h.setups.entry q hq
  · exact fun q hq => h.setups.token q ((h.setups.goOn hp).1 hq).1
  · exact ⟨hold, fun _ _ => Iff.rfl, fun _ hd => hd, by
      show (s₁.cce p.cce).aioChain = _
      rw [hself], ⟨rfl, rfl, rfl, rfl⟩, rfl, rfl, fun _ ht _ => ht, fun _ ht => ht, rfl⟩

/-! ## Adding -/

/-- What `shfs_cache_add` of a chunk leaves behind: an entry that can take a reference, or a wait,
whichever call it is that waits. -/
def AddOk (P : Set Mem → Links Mem → Ends Mem → Prop) (Z : Nat → Prop) (conf : CacheConf)
    (R : Mem → Nat) (addr : Nat) (s : Cache) : AddRet → Prop
  | .failed _ => CacheInv P Z conf R s
  | .added c => CacheInv P Z conf R s ∧ c ∈ s.entries ∧ (s.cce c).addr = addr ∧ ¬ s.SetUp c ∧
      (s.cce c).refcount.toNat + 1 < u32Size
  | .waits c t => ∀ p : Pending, p.cce = c → p.tok = t → p.target = addr →
      CacheInv P Z conf R { s with adds := s.adds ++ [p] }

/-- The entry that was added is not being set up any more. -/
theorem CallSettled.free {p : Pending} (h : CacheInv P Z conf R s) (hp : p ∈ s.adds)
    (hs : CallSettled p s s') : ¬ s'.SetUp p.cce := by
  rintro ⟨q, hq, he⟩
  rw [hs.adds] at hq
  exact ((h.setups.goOn hp).1 hq).2 he

/-- A request that is handed over at once. -/
theorem Buffered.handed (h : Buffered P Z conf R c s) {t addr : Nat} (ht : t ∉ s.tokens)
    (haddr : (s.cce c).addr = addr) (hZ : Z addr) {x : AddRet}
    (hr : shfsCacheAddEnd conf (pickedFor s c t addr) c t addr none = .ok (x, s')) :
    AddOk P Z conf R addr s' x ∧ Grows R s s' := by
  -- its wait takes no time
  let p : Pending := ⟨addr, none, c, t, none⟩
  obtain ⟨hinv, -⟩ := h.waits (p := p) ht haddr hZ rfl rfl rfl rfl
  have hp : p ∈ s.adds ++ [p] := List.mem_append_right _ List.mem_cons_self
  have hback : ({ pickedFor s c t addr with adds := s.adds ++ [p] } : Cache).goOn p =
      pickedFor s c t addr := by
    show ({ pickedFor s c t addr with adds := (s.adds ++ [p]).erase p } : Cache) = _
    rw [List.erase_append_right _ fun hin => h.free ⟨p, hin, rfl⟩, List.erase_cons_head, List.append_nil]
    rfl
  obtain ⟨-, hinv', hs⟩ := hinv.addDone hp (hback.symm ▸ hr)
  have hfree : ¬ s'.SetUp c := hs.free hinv hp
  obtain ⟨L, E, rfl, rfl⟩ := addEnd_ok hr
  set s₁ := (pickedFor s c t addr).setCce c { (pickedFor s c t addr).cce c with t := some t }
  have hself : s₁.cce c = { s.cce c with t := some t } := Function.update_self _ _ _
  have hzero : (s₁.cce c).refcount.toNat = 0 := by
    have hcount := hinv'.counts.refcount c h.mem.1
    rw [h.mem.2, if_neg] at hcount
    · exact hcount
    · show s.pc ≠ .wait c
      rw [h.idle]
      exact fun he => by cases he
  refine ⟨⟨hinv', h.mem.1, ?_, hfree, ?_⟩, ?_⟩
  · show (s₁.cce c).addr = addr
    rw [hself]
    exact haddr
  · show (s₁.cce c).refcount.toNat + 1 < u32Size
    rw [hzero]
    decide
  · apply Grows.at (c := c)
    · exact fun _ => h.not_busy
    · exact fun d hd => Function.update_of_ne hd _ _
    · exact fun _ _ => Iff.rfl
    · refine fun _ => .inr ⟨h.mem.1, ?_⟩
      show (s₁.cce c).aioChain = _
      rw [hself]
    · exact ⟨rfl, rfl, rfl, rfl⟩
    · rfl
    · rfl
    · exact fun k hk => ⟨Finset.mem_insert_of_mem hk, pickedFor_old ht hk⟩
    · intro k hk hn
      rcases Finset.mem_insert.1 hk with rfl | hk
      · exact ⟨c, congrArg AioToken.cb (pickedFor_new s c k addr)⟩
      · exact absurd hk hn

/-- The second half of `shfs_cache_add`. -/
theorem Buffered.request (hP : DList.Discipline P) (h : Buffered P Z conf R c s) {addr : Nat}
    (hZ : Z addr) {io : IoStart} {x : AddRet}
    (hr : shfsCacheAddRequest conf s c addr io = .ok (x, s')) :
    AddOk P Z conf R addr s' x ∧ Grows R s s' := by
  obtain ⟨h₁, haddr, hg₁⟩ := h.setAddr addr ((s.cce c).gen + 1) rfl
  rcases addRequest_cases hr rfl with ⟨e, rfl, rfl⟩ | ⟨t, ht, ⟨rfl, rfl⟩ | hend⟩
  · obtain ⟨hfail, hg₂⟩ := h₁.fail hP
    exact ⟨hfail, hg₁.trans hg₂⟩
  · exact ⟨fun p hpc hpt hpa => (h₁.waits ht haddr hZ hpc hpt hpa rfl).1,
      hg₁.trans (h₁.waits (p := ⟨addr, none, c, t, none⟩) ht haddr hZ rfl rfl rfl rfl).2⟩
  · obtain ⟨hok, hg₂⟩ := h₁.handed ht haddr hZ hend
    exact ⟨hok, hg₁.trans hg₂⟩

/-- A calm `shfs_cache_add`. -/
theorem CacheInv.add (hP : DList.Discipline P) (h : CacheInv P Z conf R s) (hpc : s.pc = .idle)
    {addr : Nat} (hZ : Z addr) {env : AddEnv} (hcalm : calmPick s env.heap = true)
    {x : AddRet} (hr : shfsCacheAdd conf s addr env = .ok (x, s')) :
    AddOk P Z conf R addr s' x ∧ Grows R s s' := by
  obtain ⟨⟨b, s₁⟩, hbuf, hreq⟩ := ok_of_bind hr
  rcases h.addBuffer hP hpc hcalm hbuf with ⟨rfl, rfl⟩ | ⟨c, rfl, hb, hg⟩
  · obtain ⟨rfl, rfl⟩ := Prod.mk.inj (Except.ok.inj hreq)
    exact ⟨h, Grows.refl R _⟩
  · obtain ⟨hok, hg'⟩ := hb.request hP hZ hreq
    exact ⟨hok, hg.trans hg'⟩

/-- The addresses that reading ahead can ask for from the iteration `i` on, before the iteration `m`: an
address is only requested while all before it are in the volume. -/
def AheadOk (Z : Nat → Prop) (conf : CacheConf) (addr i m : Nat) : Prop :=
  ∀ k, i ≤ k → k < m → (∀ j, i ≤ j → j ≤ k → wrap64 (addr + j) < conf.volsize) → Z (wrap64 (addr + k))

theorem AheadOk.first {addr i m : Nat} (h : AheadOk Z conf addr i m) (him : i < m)
    (hlt : wrap64 (addr + i) < conf.volsize) : Z (wrap64 (addr + i)) := by
  refine h i (le_refl i) him fun j hj hji => ?_
  rw [show j = i by omega]
  exact hlt

theorem AheadOk.next {addr i m : Nat} (h : AheadOk Z conf addr i m)
    (hlt : wrap64 (addr + i) < conf.volsize) : AheadOk Z conf addr (i + 1) m := by
  intro k hk hkm hall
  refine h k (by omega) hkm fun j hj hjk => ?_
  rcases Nat.eq_or_lt_of_le hj with rfl | hj
  · exact hlt
  · exact hall j hj hjk

/-- What reading ahead leaves behind. -/
def ReadaheadOk (P : Set Mem → Links Mem → Ends Mem → Prop) (Z : Nat → Prop) (conf : CacheConf)
    (R : Mem → Nat) (addr i m : Nat) (s : Cache) : Option (Nat × Mem × Nat) → Prop
  | none => CacheInv P Z conf R s
  | some (j, d, t) => i ≤ j ∧ j < m ∧ AheadOk Z conf addr (j + 1) m ∧
      AddOk P Z conf R (wrap64 (addr + j)) s (.waits d t)

/-- `shfs_cache_readahead`, calm wherever it adds. -/
theorem CacheInv.readahead (hP : DList.Discipline P) {addr : Nat} {env : Nat → AddEnv} {n i m : Nat}
    (h : CacheInv P Z conf R s) (hpc : s.pc = .idle) (hm : i + n = m) (hZ : AheadOk Z conf addr i m)
    (hcalm : aheadAdds (fun s _ env => calmPick s env.heap) conf addr env n i s = true)
    {w : Option (Nat × Mem × Nat)} (hr : shfsCacheReadahead conf addr env n i s = .ok (w, s')) :
    ReadaheadOk P Z conf R addr i m s' w ∧ Grows R s s' := by
  induction n generalizing i s with
  | zero =>
      obtain ⟨rfl, rfl⟩ := Prod.mk.inj (Except.ok.inj hr)
      exact ⟨h, Grows.refl R _⟩
  | succ n ih =>
      have hwiden : ∀ {w s}, ReadaheadOk P Z conf R addr (i + 1) m s w →
          ReadaheadOk P Z conf R addr i m s w := by
        intro w s hok
        cases w with
        | none => exact hok
        | some y => exact ⟨le_trans (Nat.le_succ i) hok.1, hok.2⟩
      unfold shfsCacheReadahead at hr
      unfold aheadAdds at hcalm
      simp only at hr hcalm
      by_cases hv : conf.volsize ≤ wrap64 (addr + i)
      · rw [if_pos hv] at hr
        obtain ⟨rfl, rfl⟩ := Prod.mk.inj (Except.ok.inj hr)
        exact ⟨h, Grows.refl R _⟩
      · rw [if_neg hv] at hr hcalm
        have hlt := Nat.lt_of_not_le hv
        cases hf : shfsCacheFind conf s (wrap64 (addr + i)) with
        | some c =>
            rw [hf] at hr hcalm
            obtain ⟨hok, hg⟩ := ih h hpc (by omega) (hZ.next hlt) hcalm hr
            exact ⟨hwiden hok, hg⟩
        | none =>
            rw [hf] at hr hcalm
            obtain ⟨⟨x, s₁⟩, hadd, hr⟩ := ok_of_bind hr
            obtain ⟨hpick, hrest⟩ := Bool.and_eq_true_iff.1 hcalm
            rw [hadd] at hrest
            obtain ⟨hok, hg⟩ := h.add hP hpc (hZ.first (by omega) hlt) hpick hadd
            cases x with
            | failed e =>
                obtain ⟨rfl, rfl⟩ := Prod.mk.inj (Except.ok.inj hr)
                exact ⟨hok, hg⟩
            | added c =>
                obtain ⟨hok', hg'⟩ := ih hok.1 (hg.pc.trans hpc) (by omega) (hZ.next hlt) hrest hr
                exact ⟨hwiden hok', hg.trans hg'⟩
            | waits d t =>
                obtain ⟨rfl, rfl⟩ := Prod.mk.inj (Except.ok.inj hr)
                exact ⟨⟨le_refl i, by omega, hZ.next hlt, hok⟩, hg⟩

end Ops

end Minipython.Shfs
