/-
# Minipython.Shfs.CacheInv — what every operation of the chunk cache keeps

The invariant is stated against `R`, the number of references that callers hold on each entry. Inside an
operation `R` runs ahead of the callers: `shfs_cache_aread` counts its reference before it reads ahead.

The list of available entries goes wrong in one place of the code, so the invariant leaves open how it
is tied to the entries without references: any discipline of intrusive lists does, and what a wrong
unlink must not destroy is asked for where it happens. The collision lists are always exact.

An entry whose request is being set up (`Setups`) is available and on no collision list, and has a new
address and no request. It looks like one to evict, and nothing in the cache tells the two apart. So
everything here is about states in which no other caller has taken such an entry.
-/
import Minipython.Lib.Word
import Minipython.Shfs.Cache

namespace Minipython.Shfs

open Minipython.Lib
open Cache

/-! ## The sets behind the lists -/

/-- The entries without references. -/
def avail (R : Mem → Nat) (s : Cache) : Set Mem := {c | c ∈ s.entries ∧ R c = 0}

/-- The entries that a lookup can find: all but referenced blank ones and those being set up. -/
def listed (R : Mem → Nat) (s : Cache) : Set Mem :=
  {c | c ∈ s.entries ∧ (R c = 0 ∨ (s.cce c).addr ≠ 0) ∧ ¬ s.SetUp c}

/-- The collision list of an entry. -/
def bucketOf (conf : CacheConf) (s : Cache) (c : Mem) : Nat := shfsCacheHtindex conf (s.cce c).addr

theorem listed_of_avail {R : Mem → Nat} {s : Cache} {c : Mem} (h : c ∈ avail R s)
    (hset : ¬ s.SetUp c) : c ∈ listed R s := ⟨h.1, .inl h.2, hset⟩

theorem setUp_congr {s s' : Cache} (h : s'.adds = s.adds) (c : Mem) : s'.SetUp c ↔ s.SetUp c := by
  rw [Cache.SetUp, Cache.SetUp, h]

/-- Which entries are available depends on who has references. -/
theorem avail_congr {R R' : Mem → Nat} {s s' : Cache} (hent : s'.entries = s.entries)
    (hR : ∀ c, R' c = 0 ↔ R c = 0) : avail R' s' = avail R s := by
  ext c
  simp only [avail, hent, Set.mem_ofPred_eq, hR]

theorem listed_congr {R R' : Mem → Nat} {s s' : Cache} (hent : s'.entries = s.entries)
    (hadds : s'.adds = s.adds) (hR : ∀ c, R' c = 0 ↔ R c = 0)
    (haddr : ∀ c, (s'.cce c).addr = (s.cce c).addr) : listed R' s' = listed R s := by
  ext c
  simp only [listed, hent, Set.mem_ofPred_eq, hR, haddr, setUp_congr hadds]

/-- Both kinds of lists. `A` is what the list of available entries stands for and `H` what the collision
lists hold; `Z` is known of the addresses in them. -/
structure Lists (P : Set Mem → Links Mem → Ends Mem → Prop) (Z : Nat → Prop) (conf : CacheConf)
    (A H : Set Mem) (s : Cache) : Prop where
  alist : P A s.alinks s.alist
  clist : DList.Sorted s.clinks s.htable (bucketOf conf s) H
  unlinked : ∀ c ∈ H, c ∉ A → DList.Unlinked s.alinks c
  addr : ∀ c ∈ H, Z (s.cce c).addr

section Lists

variable {P : Set Mem → Links Mem → Ends Mem → Prop} {Z : Nat → Prop} {conf : CacheConf}
  {A H : Set Mem} {s s' : Cache} {c : Mem}

/-- Only the lists and the addresses of listed entries matter. -/
theorem Lists.congr (h : Lists P Z conf A H s) (ha : s'.alinks = s.alinks ∧ s'.alist = s.alist)
    (hc : s'.clinks = s.clinks ∧ s'.htable = s.htable)
    (hd : ∀ d ∈ H, (s'.cce d).addr = (s.cce d).addr) : Lists P Z conf A H s' := by
  obtain ⟨ha₁, ha₂⟩ := ha
  obtain ⟨hc₁, hc₂⟩ := hc
  refine ⟨?_, ?_, ?_, ?_⟩
  · rw [ha₁, ha₂]
    exact h.alist
  · rw [hc₁, hc₂]
    exact h.clist.congr (fun _ => Iff.rfl) fun d hH => by rw [bucketOf, bucketOf, hd d hH]
  · rw [ha₁]
    exact h.unlinked
  · intro a haH
    rw [hd a haH]
    exact h.addr a haH

theorem Lists.alistAppend (hP : DList.Discipline P) (h : Lists P Z conf A H s) (hc : c ∉ A)
    (happ : s.alistAppend c = .ok s') : Lists P Z conf (insert c A) H s' := by
  obtain ⟨L, E, hlink, rfl⟩ := alistAppend_ok happ
  refine ⟨hP.append h.alist hc hlink, h.clist, ?_, h.addr⟩
  intro d hd hdA
  have hdc : d ≠ c := fun he => hdA (he ▸ Set.mem_insert _ _)
  have hdA : d ∉ A := fun hm => hdA (Set.mem_insert_of_mem _ hm)
  obtain ⟨hn, hp⟩ := (hP.coherent h.alist).append_frame hlink hdA hdc
  obtain ⟨un, up⟩ := h.unlinked d hd hdA
  exact ⟨hn.trans un, hp.trans up⟩

theorem Lists.alistUnlink (hP : DList.Discipline P) (h : Lists P Z conf A H s) (hc : c ∈ A) :
    Lists P Z conf (A \ {c}) H (s.alistUnlink c) := by
  refine ⟨hP.detach h.alist hc, h.clist, ?_, h.addr⟩
  intro d hd hdA
  by_cases hdc : d = c
  · subst hdc
    exact DList.detach_self _ _ _
  · have hdA : d ∉ A := fun hm => hdA ⟨hm, hdc⟩
    obtain ⟨hn, hp⟩ := (hP.coherent h.alist).detach_frame hc hdA
    obtain ⟨un, up⟩ := h.unlinked d hd hdA
    exact ⟨hn.trans un, hp.trans up⟩

/-- Unlinking an entry that is on no list loses the list of available entries. -/
theorem Lists.alistLose (h : Lists P Z conf A H s) (hc : DList.Unlinked s.alinks c)
    (hlose : P A s.alinks DList.emptyEnds) : Lists P Z conf A H (s.alistUnlink c) := by
  have hd := hc.detach s.alist
  refine ⟨?_, h.clist, ?_, h.addr⟩
  · show P A (DList.detach s.alinks s.alist c).1 (DList.detach s.alinks s.alist c).2
    rw [hd]
    exact hlose
  · show ∀ d ∈ H, d ∉ A → DList.Unlinked (DList.detach s.alinks s.alist c).1 d
    rw [hd]
    exact h.unlinked

theorem Lists.clistUnlink (h : Lists P Z conf A H s) (hc : c ∈ H) :
    Lists P Z conf A (H \ {c}) (s.clistUnlink conf c) :=
  ⟨h.alist, h.clist.detach hc, fun d hd => h.unlinked d hd.1, fun d hd => h.addr d hd.1⟩

theorem Lists.clistAppend {addr : Nat} (h : Lists P Z conf A H s) (hc : c ∉ H) (hA : c ∈ A)
    (haddr : (s.cce c).addr = addr) (hZ : Z addr) :
    ∃ L E, s.clistAppend conf c addr = .ok { s with clinks := L, htable := E } ∧
      Lists P Z conf A (insert c H) { s with clinks := L, htable := E } := by
  subst haddr
  obtain ⟨L, E, happ, hsorted⟩ := h.clist.append hc
  refine ⟨L, Function.update s.htable (bucketOf conf s c) E, ?_, h.alist, hsorted, ?_, ?_⟩
  · unfold bucketOf at happ
    simp only [Cache.clistAppend, happ]
    rfl
  · rintro d (rfl | hd) hdA
    · exact absurd hA hdA
    · exact h.unlinked d hd hdA
  · rintro d (rfl | hd)
    · exact hZ
    · exact h.addr d hd

/-- A list that holds part of the entries is walked to its end. -/
theorem rep_walk {L : Links Mem} {E : Ends Mem} {l : List Mem} (h : DList.Rep L E l)
    {S : Finset Mem} (hS : ∀ x ∈ l, x ∈ S) : DList.walk L.next S.card E.first = l := by
  refine DList.walk_traverses h.traverses.1 ?_
  rw [← List.toFinset_card_of_nodup h.nodup]
  exact Finset.card_le_card fun x hx => hS x (List.mem_toFinset.1 hx)

theorem Lists.find_some (h : Lists P Z conf A H s) (hH : ∀ d ∈ H, d ∈ s.entries) {addr : Nat}
    (hf : shfsCacheFind conf s addr = some c) : c ∈ H ∧ (s.cce c).addr = addr := by
  obtain ⟨l, hrep, hmem⟩ := h.clist
  unfold shfsCacheFind at hf
  rw [rep_walk (hrep _) fun x hx => hH x ((hmem _ _).1 hx).1] at hf
  refine ⟨((hmem _ _).1 (List.mem_of_find?_eq_some hf)).1, ?_⟩
  simpa using List.find?_some hf

theorem Lists.find_none (h : Lists P Z conf A H s) (hH : ∀ d ∈ H, d ∈ s.entries) {addr : Nat}
    (hf : shfsCacheFind conf s addr = none) : ∀ d ∈ H, (s.cce d).addr ≠ addr := by
  obtain ⟨l, hrep, hmem⟩ := h.clist
  unfold shfsCacheFind at hf
  rw [rep_walk (hrep _) fun x hx => hH x ((hmem _ _).1 hx).1, List.find?_eq_none] at hf
  rintro d hd rfl
  have := hf d ((hmem _ _).2 ⟨hd, rfl⟩)
  simp at this

/-- The search for a buffer to evict meets available entries only. -/
theorem Lists.findDone (hP : DList.Discipline P) (h : Lists P Z conf A H s)
    (hA : ∀ d ∈ A, d ∈ s.entries) (hf : s.findDone = some c) : c ∈ A ∧ (s.cce c).t = none := by
  classical
  have hmem := List.mem_of_find?_eq_some hf
  have hdone := List.find?_some hf
  refine ⟨?_, by simpa using hdone⟩
  obtain ⟨htr, hall⟩ := (hP.coherent h.alist).walk_next (s.entries.filter (· ∈ A)) fun x => by
    simp only [Finset.mem_filter, and_iff_right_iff_imp]
    exact hA x
  have hle : (s.entries.filter (· ∈ A)).card ≤ s.entries.card := Finset.card_filter_le _ _
  have hlen : (DList.walk s.alinks.next (s.entries.filter (· ∈ A)).card s.alist.first).length ≤
      s.entries.card := by
    refine le_trans ?_ hle
    exact DList.walk_length _ _ _
  rw [DList.walk_traverses htr hlen] at hmem
  exact hall c hmem

end Lists

/-! ## Memory, counters and device requests -/

/-- The fields that `shfs_cache_pick_cce` leaves in the memory `c`. -/
def MemOf (c : Mem) (pobj : Option Nat) (buffer : Mem) : Prop :=
  match c with
  | .pobj n => pobj = some n ∧ buffer = .pobj n
  | .heap _ => pobj = none ∧ ∃ m, buffer = .heap m

/-- Every entry is where its memory says, and no two share a buffer. -/
structure Memory (s : Cache) : Prop where
  pool : s.pool.Nodup
  free : ∀ n ∈ s.pool, Mem.pobj n ∉ s.entries
  pobj : ∀ c ∈ s.entries, MemOf c (s.cce c).pobj (s.cce c).buffer
  buffers : ∀ c ∈ s.entries, ∀ d ∈ s.entries, (s.cce c).buffer = (s.cce d).buffer → c = d
  nbEntries : s.nbEntries = s.entries.card

/-- The counters count references; a flush holds one on the entry that it waits for. -/
structure Counts (R : Mem → Nat) (s : Cache) : Prop where
  held : ∀ c, R c ≠ 0 → c ∈ s.entries
  refcount : ∀ c ∈ s.entries, (s.cce c).refcount.toNat = R c + if s.pc = .wait c then 1 else 0
  wait : ∀ c, s.pc = .wait c → c ∈ avail R s
  nbRef : s.nbRefEntries = (s.entries.filter fun c => R c ≠ 0).card

/-- An entry with a count of zero is available, and no flush waits for it. -/
theorem Counts.of_zero {R : Mem → Nat} {s : Cache} {c : Mem} (h : Counts R s) (hc : c ∈ s.entries)
    (h0 : (s.cce c).refcount = 0) : R c = 0 ∧ s.pc ≠ .wait c := by
  have hcount := h.refcount c hc
  rw [Word.count_eq_zero.1 h0] at hcount
  constructor
  · omega
  · intro hw
    rw [if_pos hw] at hcount
    omega

/-- The private token of an entry is a request in flight for its chunk, and every such request is the
private token of its entry or is being set up for it. -/
structure Privates (s : Cache) : Prop where
  own : ∀ c ∈ s.entries, ∀ t, (s.cce c).t = some t → t ∈ s.tokens ∧ (s.tok t).cb = some (.cce c) ∧
    (s.tok t).infly ≠ 0 ∧ (s.tok t).chunk = (s.cce c).addr
  device : ∀ t ∈ s.tokens, ∀ c, (s.tok t).cb = some (.cce c) →
    c ∈ s.entries ∧ ((s.cce c).t = some t ∨ ∃ p ∈ s.adds, p.cce = c ∧ p.tok = t)

/-- What a call that waits has set up so far: an available entry with a new address and without a
request, and a token for its request. -/
structure Setups (Z : Nat → Prop) (R : Mem → Nat) (s : Cache) : Prop where
  apart : s.adds.Pairwise fun p q => p.cce ≠ q.cce
  entry : ∀ p ∈ s.adds, p.cce ∈ avail R s ∧ (s.cce p.cce).t = none ∧
    (s.cce p.cce).addr = p.target ∧ Z p.target
  token : ∀ p ∈ s.adds, p.tok ∈ s.tokens ∧ (s.tok p.tok).cb = some (.cce p.cce) ∧
    (s.tok p.tok).infly ≠ 0 ∧ (s.tok p.tok).chunk = p.target

/-- A referenced entry without an address is blank: its one reference is all there is to it. -/
def Blank (R : Mem → Nat) (s : Cache) : Prop :=
  ∀ c, R c ≠ 0 → (s.cce c).addr = 0 → R c = 1 ∧ (s.cce c).t = none ∧ (s.cce c).invalid = true

section Parts

variable {Z : Nat → Prop} {R : Mem → Nat} {s s' : Cache} {c : Mem}

theorem Memory.congr (h : Memory s) (hp : s'.pool = s.pool) (he : s'.entries = s.entries)
    (hn : s'.nbEntries = s.nbEntries) (hc : ∀ c ∈ s.entries,
      (s'.cce c).pobj = (s.cce c).pobj ∧ (s'.cce c).buffer = (s.cce c).buffer) : Memory s' := by
  refine ⟨?_, ?_, ?_, ?_, ?_⟩
  · rw [hp]
    exact h.pool
  · rw [hp, he]
    exact h.free
  · rw [he]
    intro c hm
    rw [(hc c hm).1, (hc c hm).2]
    exact h.pobj c hm
  · rw [he]
    intro c hm d hd hcd
    rw [(hc c hm).2, (hc d hd).2] at hcd
    exact h.buffers c hm d hd hcd
  · rw [hn, he]
    exact h.nbEntries

theorem Counts.congr (h : Counts R s) (he : s'.entries = s.entries) (hp : s'.pc = s.pc)
    (hn : s'.nbRefEntries = s.nbRefEntries)
    (hc : ∀ c ∈ s.entries, (s'.cce c).refcount = (s.cce c).refcount) : Counts R s' := by
  refine ⟨?_, ?_, ?_, ?_⟩
  · rw [he]
    exact h.held
  · rw [he, hp]
    intro c hm
    rw [hc c hm]
    exact h.refcount c hm
  · intro c hw
    rw [hp] at hw
    have := h.wait c hw
    exact ⟨he ▸ this.1, this.2⟩
  · rw [hn, he]
    exact h.nbRef

theorem Privates.congr (h : Privates s) (he : s'.entries = s.entries) (ha : s'.adds = s.adds)
    (ht : s'.tokens = s.tokens) (hc : ∀ c ∈ s.entries, (s'.cce c).t = (s.cce c).t ∧
      ((s.cce c).t ≠ none → (s'.cce c).addr = (s.cce c).addr))
    (hk : ∀ t ∈ s.tokens, s'.tok t = s.tok t) : Privates s' := by
  constructor
  · rw [he, ht]
    intro c hm t hct
    rw [(hc c hm).1] at hct
    obtain ⟨h1, h2, h3, h4⟩ := h.own c hm t hct
    rw [hk t h1, (hc c hm).2 (by rw [hct]; exact Option.some_ne_none t)]
    exact ⟨h1, h2, h3, h4⟩
  · rw [he, ht, ha]
    intro t hm c hcb
    rw [hk t hm] at hcb
    obtain ⟨h1, h2⟩ := h.device t hm c hcb
    rw [(hc c h1).1]
    exact ⟨h1, h2⟩

theorem Setups.congr {R' : Mem → Nat} (h : Setups Z R s) (he : s'.entries = s.entries)
    (ha : s'.adds = s.adds) (ht : s'.tokens = s.tokens)
    (hR : ∀ p ∈ s.adds, R' p.cce = R p.cce)
    (hc : ∀ p ∈ s.adds, (s'.cce p.cce).t = (s.cce p.cce).t ∧
      (s'.cce p.cce).addr = (s.cce p.cce).addr)
    (hk : ∀ t ∈ s.tokens, s'.tok t = s.tok t) : Setups Z R' s' := by
  refine ⟨by rw [ha]; exact h.apart, fun p hp => ?_, fun p hp => ?_⟩
  · rw [ha] at hp
    obtain ⟨⟨hin, h0⟩, h2, h3, h4⟩ := h.entry p hp
    rw [(hc p hp).1, (hc p hp).2]
    exact ⟨⟨he ▸ hin, (hR p hp).trans h0⟩, h2, h3, h4⟩
  · rw [ha] at hp
    have htok := h.token p hp
    rw [ht, hk p.tok htok.1]
    exact htok

/-- A private token is done only when there is none. -/
theorem Privates.isDone (h : Privates s) (hc : c ∈ s.entries) :
    s.aioIsDone (s.cce c).t = true ↔ (s.cce c).t = none := by
  cases ht : (s.cce c).t with
  | none => exact ⟨fun _ => rfl, fun _ => rfl⟩
  | some t =>
      have := (h.own c hc t ht).2.2.1
      simp [Cache.aioIsDone, this]

/-- An entry in memory that was not in use. -/
theorem Memory.init {pobj : Option Nat} {buffer : Mem} {pool : List Nat} (h : Memory s)
    (hc : c ∉ s.entries) (hnd : pool.Nodup) (hfree : ∀ m ∈ pool, m ∈ s.pool ∧ c ≠ .pobj m)
    (hmem : MemOf c pobj buffer) (hbuf : ∀ d ∈ s.entries, (s.cce d).buffer ≠ buffer) :
    Memory { s.initCce c pobj buffer with pool := pool } := by
  have hne : ∀ d ∈ s.entries, d ≠ c := fun d hd he => hc (he ▸ hd)
  have hold : ∀ d ∈ s.entries, (s.initCce c pobj buffer).cce d = s.cce d := fun d hd =>
    Function.update_of_ne (hne d hd) _ _
  have hpobj : ((s.initCce c pobj buffer).cce c).pobj = pobj := by
    simp [Cache.initCce, Cache.setCce]
  have hbuffer : ((s.initCce c pobj buffer).cce c).buffer = buffer := by
    simp [Cache.initCce, Cache.setCce]
  refine ⟨hnd, ?_, ?_, ?_, ?_⟩
  · intro m hm hin
    rcases Finset.mem_insert.1 hin with he | hin
    · exact (hfree m hm).2 he.symm
    · exact h.free m (hfree m hm).1 hin
  · intro d hd
    show MemOf d ((s.initCce c pobj buffer).cce d).pobj ((s.initCce c pobj buffer).cce d).buffer
    rcases Finset.mem_insert.1 hd with he | hin
    · rw [he, hpobj, hbuffer]
      exact hmem
    · rw [hold d hin]
      exact h.pobj d hin
  · intro d hd d' hd'
    show ((s.initCce c pobj buffer).cce d).buffer = ((s.initCce c pobj buffer).cce d').buffer → d = d'
    rcases Finset.mem_insert.1 hd with he | hin <;> rcases Finset.mem_insert.1 hd' with he' | hin'
    · exact fun _ => he.trans he'.symm
    · rw [he, hbuffer, hold d' hin']
      exact fun hb => absurd hb.symm (hbuf d' hin')
    · rw [he', hbuffer, hold d hin]
      exact fun hb => absurd hb (hbuf d hin)
    · rw [hold d hin, hold d' hin']
      exact h.buffers d hin d' hin'
  · show s.nbEntries + 1 = (insert c s.entries).card
    rw [Finset.card_insert_of_notMem hc, h.nbEntries]

/-- `shfs_cache_pick_cce` hands out memory that was not in use. -/
theorem Memory.pick {heap : Option (Nat × Nat)} (h : Memory s)
    (hp : s.pickCce heap = some (c, s')) : c ∉ s.entries ∧ Memory s' ∧
      ∃ pobj buffer pool, s' = { s.initCce c pobj buffer with pool := pool } := by
  unfold Cache.pickCce at hp
  cases hpool : s.pool with
  | cons n rest =>
      rw [hpool] at hp
      obtain ⟨rfl, rfl⟩ := Prod.mk.inj (Option.some.inj hp)
      have hnd := List.nodup_cons.1 (hpool ▸ h.pool)
      have hc : Mem.pobj n ∉ s.entries := h.free n (by simp [hpool])
      refine ⟨hc, h.init hc hnd.2 ?_ ⟨rfl, rfl⟩ ?_, _, _, _, rfl⟩
      · intro m hm
        refine ⟨by simp [hpool, hm], ?_⟩
        rintro ⟨⟩
        exact hnd.1 hm
      · -- the data of the object is no buffer of an entry elsewhere
        intro d hd hb
        have hd' := h.pobj d hd
        cases d with
        | pobj k =>
            rw [hb] at hd'
            cases hd'.2
            exact hc hd
        | heap k =>
            obtain ⟨-, m, hm⟩ := hd'
            rw [hb] at hm
            cases hm
  | nil =>
      rw [hpool] at hp
      cases heap with
      | none => cases hp
      | some nm =>
          obtain ⟨n, m⟩ := nm
          by_cases hf : s.HeapFree n m
          · simp only [if_pos hf] at hp
            obtain ⟨rfl, rfl⟩ := Prod.mk.inj (Option.some.inj hp)
            refine ⟨hf.1, ?_, none, .heap m, [], ?_⟩
            · have hnone : ∀ k ∈ s.pool, k ∈ s.pool ∧ Mem.heap n ≠ .pobj k := fun k hk => by
                simp [hpool] at hk
              exact h.init hf.1 h.pool hnone ⟨rfl, m, rfl⟩ hf.2
            · rw [← hpool]
              rfl
          · simp [hf] at hp

/-- `shfs_cache_put_cce` takes memory back. -/
theorem Memory.put (h : Memory s) (hc : c ∈ s.entries) : Memory (s.putCce c) := by
  have hp := h.pobj c hc
  have hsub : ∀ d ∈ s.entries.erase c, d ∈ s.entries := fun d hd => (Finset.mem_erase.1 hd).2
  have hpool : (s.putCce c).pool.Nodup ∧
      ∀ n ∈ (s.putCce c).pool, n ∈ s.pool ∨ c = .pobj n := by
    unfold Cache.putCce
    cases c with
    | pobj k =>
        simp only [hp.1]
        refine ⟨?_, fun n hn => ?_⟩
        · rw [List.nodup_append]
          refine ⟨h.pool, by simp, fun a ha b hb => ?_⟩
          rintro rfl
          rw [List.mem_singleton.1 hb] at ha
          exact h.free k ha hc
        · rcases List.mem_append.1 hn with hn | hn
          · exact .inl hn
          · exact .inr (by rw [List.mem_singleton.1 hn])
    | heap k =>
        simp only [hp.1]
        exact ⟨h.pool, fun n hn => .inl hn⟩
  refine ⟨hpool.1, ?_, fun d hd => h.pobj d (hsub d hd), ?_, ?_⟩
  · intro n hn hin
    obtain ⟨hne, hin⟩ := Finset.mem_erase.1 hin
    rcases hpool.2 n hn with hn | rfl
    · exact h.free n hn hin
    · exact hne rfl
  · exact fun d hd d' hd' => h.buffers d (hsub d hd) d' (hsub d' hd')
  · show s.nbEntries - 1 = (s.entries.erase c).card
    rw [Finset.card_erase_of_mem hc, h.nbEntries]

end Parts

/-! ## The invariant -/

/-- The invariant of the cache for the references `R`. -/
structure CacheInv (P : Set Mem → Links Mem → Ends Mem → Prop) (Z : Nat → Prop) (conf : CacheConf)
    (R : Mem → Nat) (s : Cache) : Prop where
  lists : Lists P Z conf (avail R s) (listed R s) s
  counts : Counts R s
  memory : Memory s
  privates : Privates s
  blank : Blank R s
  setups : Setups Z R s

/-- An entry without references or a request that is off both lists. -/
structure Loose (P : Set Mem → Links Mem → Ends Mem → Prop) (Z : Nat → Prop) (conf : CacheConf)
    (R : Mem → Nat) (c : Mem) (s : Cache) : Prop where
  lists : Lists P Z conf (avail R s \ {c}) (listed R s \ {c}) s
  counts : Counts R s
  memory : Memory s
  privates : Privates s
  blank : Blank R s
  setups : Setups Z R s
  mem : c ∈ avail R s
  free : ¬ s.SetUp c
  done : (s.cce c).t = none
  pc : s.pc ≠ .wait c

section Ops

variable {P : Set Mem → Links Mem → Ends Mem → Prop} {Z : Nat → Prop} {conf : CacheConf}
  {R : Mem → Nat} {s s' : Cache} {c : Mem}

/-- Giving back an entry that is off both lists and has no request. -/
theorem Loose.put (h : Loose P Z conf R c s) : CacheInv P Z conf R (s.putCce c) := by
  obtain ⟨hl, hc, hm, hp, hb, hset, hmem, hfree, ht, hpc⟩ := h
  have hA : avail R (s.putCce c) = avail R s \ {c} := by
    ext d
    simp only [avail, Cache.putCce, Finset.mem_erase, Set.mem_ofPred_eq, Set.mem_sdiff,
      Set.mem_singleton_iff]
    tauto
  have hsame : ∀ d, (s.putCce c).SetUp d ↔ s.SetUp d := fun _ => Iff.rfl
  have hH : listed R (s.putCce c) = listed R s \ {c} := by
    ext d
    simp only [listed, hsame, Set.mem_ofPred_eq, Set.mem_sdiff, Set.mem_singleton_iff]
    simp only [Cache.putCce, Finset.mem_erase]
    tauto
  refine ⟨?_, ⟨?_, ?_, ?_, ?_⟩, hm.put hmem.1, ⟨?_, ?_⟩, hb, hset.apart, ?_, hset.token⟩
  · rw [hA, hH]
    exact hl.congr ⟨rfl, rfl⟩ ⟨rfl, rfl⟩ fun _ _ => rfl
  · intro d hd
    refine Finset.mem_erase.2 ⟨?_, hc.held d hd⟩
    rintro rfl
    exact hd hmem.2
  · exact fun d hd => hc.refcount d (Finset.mem_erase.1 hd).2
  · intro d hw
    have hdc : d ≠ c := fun he => hpc (he ▸ hw)
    rw [hA]
    exact ⟨hc.wait d hw, hdc⟩
  · show s.nbRefEntries = ((s.entries.erase c).filter fun d => R d ≠ 0).card
    rw [hc.nbRef, Finset.filter_erase, Finset.erase_eq_of_notMem]
    simp [hmem.2]
  · exact fun d hd => hp.own d (Finset.mem_erase.1 hd).2
  · intro t htok d hcb
    obtain ⟨hd, hdt⟩ := hp.device t htok d hcb
    refine ⟨Finset.mem_erase.2 ⟨?_, hd⟩, hdt⟩
    rintro rfl
    rcases hdt with hdt | ⟨p, hp, hpc, -⟩
    · rw [ht] at hdt
      cases hdt
    · exact hfree ⟨p, hp, hpc⟩
  · intro p hp
    rw [hA]
    obtain ⟨hin, hrest⟩ := hset.entry p hp
    exact ⟨⟨hin, fun he => hfree ⟨p, hp, he⟩⟩, hrest⟩

/-- Nothing changed but the lists. -/
theorem Counts.links (h : Counts R s) (hc : s'.cce = s.cce) (he : s'.entries = s.entries)
    (hp : s'.pc = s.pc) (hn : s'.nbRefEntries = s.nbRefEntries) : Counts R s' :=
  h.congr he hp hn fun _ _ => by rw [hc]

theorem Privates.links (h : Privates s) (hc : s'.cce = s.cce) (he : s'.entries = s.entries)
    (ha : s'.adds = s.adds) (ht : s'.tokens = s.tokens ∧ s'.tok = s.tok) : Privates s' :=
  h.congr he ha ht.1 (fun _ _ => by rw [hc]; exact ⟨rfl, fun _ => rfl⟩) fun _ _ => by rw [ht.2]

theorem Setups.links (h : Setups Z R s) (hc : s'.cce = s.cce) (he : s'.entries = s.entries)
    (ha : s'.adds = s.adds) (ht : s'.tokens = s.tokens ∧ s'.tok = s.tok) : Setups Z R s' :=
  h.congr he ha ht.1 (fun _ _ => rfl) (fun _ _ => by rw [hc]; exact ⟨rfl, rfl⟩) fun _ _ => by rw [ht.2]

/-- Taking an available entry without a request off both lists. -/
theorem CacheInv.loosen (hP : DList.Discipline P) (h : CacheInv P Z conf R s)
    (hc : c ∈ avail R s) (hfree : ¬ s.SetUp c) (ht : (s.cce c).t = none) (hpc : s.pc ≠ .wait c) :
    Loose P Z conf R c ((s.clistUnlink conf c).alistUnlink c) := by
  have h₁ := h.lists.clistUnlink (listed_of_avail hc hfree)
  refine ⟨h₁.alistUnlink hP hc, ?_, ?_, ?_, h.blank, ?_, hc, hfree, ht, hpc⟩
  · exact h.counts.links rfl rfl rfl rfl
  · exact h.memory.congr rfl rfl rfl fun _ _ => ⟨rfl, rfl⟩
  · exact h.privates.links rfl rfl rfl ⟨rfl, rfl⟩
  · exact h.setups.links rfl rfl rfl ⟨rfl, rfl⟩

/-- An entry without its chain of callers' tokens. -/
def unchained (e : Cce) : Cce := { e with aioChain := DList.emptyEnds }

theorem unchained_eq {e e' : Cce} (h : unchained e = unchained e') :
    e.addr = e'.addr ∧ e.refcount = e'.refcount ∧ e.pobj = e'.pobj ∧ e.buffer = e'.buffer ∧
      e.invalid = e'.invalid ∧ e.t = e'.t ∧ e.gen = e'.gen := by
  obtain ⟨h1, h2, h3, h4, h5, h6, -, h7⟩ := Cce.mk.inj h
  exact ⟨h2, h3, h1, h4, h5, h6, h7⟩

/-- Tokens of device requests are the same in both states. -/
def SameDevice (s s' : Cache) : Prop :=
  (∀ t ∈ s.tokens, ∀ c, (s.tok t).cb = some (.cce c) → t ∈ s'.tokens ∧ s'.tok t = s.tok t) ∧
    ∀ t ∈ s'.tokens, ∀ c, (s'.tok t).cb = some (.cce c) → t ∈ s.tokens ∧ s'.tok t = s.tok t

/-- The invariant does not see callers' tokens. -/
theorem CacheInv.congr (h : CacheInv P Z conf R s) (hent : s'.entries = s.entries)
    (hadds : s'.adds = s.adds) (ha : s'.alinks = s.alinks ∧ s'.alist = s.alist)
    (hcl : s'.clinks = s.clinks ∧ s'.htable = s.htable)
    (hm : s'.pool = s.pool ∧ s'.nbEntries = s.nbEntries) (hn : s'.nbRefEntries = s.nbRefEntries)
    (hpc : s'.pc = s.pc) (hc : ∀ d, unchained (s'.cce d) = unchained (s.cce d))
    (hdev : SameDevice s s') : CacheInv P Z conf R s' := by
  have hf := fun d => unchained_eq (hc d)
  have haddr : ∀ d, (s'.cce d).addr = (s.cce d).addr := fun d => (hf d).1
  have ht : ∀ d, (s'.cce d).t = (s.cce d).t := fun d => (hf d).2.2.2.2.2.1
  have hA : avail R s' = avail R s := avail_congr hent fun _ => Iff.rfl
  have hH : listed R s' = listed R s := listed_congr hent hadds (fun _ => Iff.rfl) haddr
  refine ⟨?_, ?_, ?_, ⟨?_, ?_⟩, ?_, ⟨?_, ?_, ?_⟩⟩
  · rw [hA, hH]
    exact h.lists.congr ha hcl fun d _ => haddr d
  · exact h.counts.congr hent hpc hn fun d _ => (hf d).2.1
  · exact h.memory.congr hm.1 hent hm.2
      fun d _ => ⟨(hf d).2.2.1, (hf d).2.2.2.1⟩
  · intro d hd t hdt
    rw [hent] at hd
    rw [ht] at hdt
    obtain ⟨h1, h2, h3⟩ := h.privates.own d hd t hdt
    obtain ⟨h1', he⟩ := hdev.1 t h1 d h2
    rw [he, haddr]
    exact ⟨h1', h2, h3⟩
  · intro t hk d hcb
    obtain ⟨hk', he⟩ := hdev.2 t hk d hcb
    rw [he] at hcb
    rw [hent, hadds, ht]
    exact h.privates.device t hk' d hcb
  · intro d hd ha'
    rw [haddr] at ha'
    rw [ht, (hf d).2.2.2.2.1]
    exact h.blank d hd ha'
  · rw [hadds]
    exact h.setups.apart
  · intro p hp
    rw [hadds] at hp
    rw [hA, ht, haddr]
    exact h.setups.entry p hp
  · intro p hp
    rw [hadds] at hp
    obtain ⟨h1, h2, h3⟩ := h.setups.token p hp
    obtain ⟨h1', he⟩ := hdev.1 p.tok h1 p.cce h2
    rw [he]
    exact ⟨h1', h2, h3⟩

end Ops

end Minipython.Shfs
