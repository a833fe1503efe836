/-
# Minipython.Shfs.TableInv — the invariant of the bucket entries

Everything the open files, a remount and a forced unmount agree on is a statement about one bucket
entry at a time: `ElInv` ties its counter, its semaphore and its update flag to the number of
descriptors on it and to two marks the holder of the mount lock sets, `upd` (the entry is closed for
opens) and `held` (its semaphore is taken). `TableInv` is `ElInv` for all slots with the facts about the
table that make entries findable.

The counter of an entry has 32 bits, and nothing keeps it from going back to zero. The counter always is
the number of descriptors modulo `2 ^ 32`, and the update flag agrees with the marks; but what the counter
says about the semaphore is right only as long as it has not wrapped around. So the invariant has a
parameter: `ElInv counted` speaks of the semaphore only if `counted` holds. With `False` for it the invariant
is one of all runs, with `True` one of the runs in which no entry ever has `2 ^ 32` descriptors.

One lemma per piece of code says how it moves the marks. Slots beyond the entry count have a cleared
bentry whose semaphore never lets anyone through.
-/
import Minipython.Lib.Word
import Minipython.Shfs.System

namespace Minipython.Shfs

open Minipython.Lib

namespace Vol

/-- The slot belongs to an on-disk entry. -/
def IsEntry (v : Vol) (el : HtableEl) : Prop := ∃ i, i < v.conf.htableNbEntries ∧ v.slot i = el

/-- The slot holds a digest that is not zero. -/
def InUse (v : Vol) (el : HtableEl) : Prop := v.bt.InRange el ∧ v.bt.isFree el = false

end Vol

/-- One bucket entry with `n` descriptors on it. `counted` stands for this: no counter has gone back to zero
so far. -/
structure ElInv (counted : Prop) (b : Bentry) (isEntry inUse : Prop) (n : Nat) (upd held : Prop) : Prop where
  refcount : b.refcount = UInt32.ofNat n
  count : counted → n < 2 ^ 32
  update : b.update = true ↔ upd
  foreign : ¬isEntry → b.updatelock = 0
  unlocked : counted → isEntry → ¬held → n = 0 → b.updatelock = 1
  locked : counted → held ∨ 0 < n → b.updatelock = 0
  closed : counted → held → n = 0
  held : held → upd ∧ isEntry
  entry : 0 < n → isEntry
  stray : inUse → isEntry ∨ upd

/-- The bucket entries of a mounted table with the open files `hs`. -/
structure TableInv (counted : Prop) (v : Vol) (hs : List HtableEl) (upd held : HtableEl → Prop) : Prop where
  sized : v.Sized
  listed : ∃ l, v.bt.Listed l
  place : ∀ i, i < v.conf.htableNbEntries → (v.bentry (v.slot i)).hentryHtchunk =
      shfsHtableChunkNo i v.conf.htableNbEntriesPerChunk ∧
    (v.bentry (v.slot i)).hentryHtoffset = shfsHtableEntryOffset i v.conf.htableNbEntriesPerChunk
  dflt : ∀ el, v.defBentry = some el → v.IsEntry el
  el : ∀ el, ElInv counted (v.bentry el) (v.IsEntry el) (v.InUse el) (hs.count el) (upd el) (held el)

/-- No mark. -/
def noMark : HtableEl → Prop := fun _ => False

namespace ElInv

variable {counted : Prop} {b : Bentry} {isEntry inUse upd held : Prop} {n : Nat}

/-- While it counts right, the counter is zero when nobody has the entry open. -/
theorem refcount_eq_zero (h : ElInv counted b isEntry inUse n upd held) (hx : counted) :
    b.refcount = 0 ↔ n = 0 := by
  rw [h.refcount, Word.count_ofNat_eq_zero (h.count hx)]

theorem refcount_toNat (h : ElInv counted b isEntry inUse n upd held) (hx : counted) :
    b.refcount.toNat = n := by
  rw [h.refcount, Word.count_ofNat (h.count hx)]

theorem refcount_pos (h : ElInv counted b isEntry inUse n upd held) (hx : counted) :
    0 < b.refcount ↔ 0 < n := by
  rw [Word.count_pos, h.refcount_toNat hx]

/-- The count of the semaphore is zero exactly when the entry is open or locked. -/
theorem updatelock_eq_zero (h : ElInv counted b isEntry inUse n upd held) (hx : counted) (he : isEntry) :
    b.updatelock = 0 ↔ 0 < b.refcount ∨ held := by
  rw [h.refcount_pos hx]
  constructor
  · intro h0
    by_contra hno
    obtain ⟨hn, hheld⟩ := not_or.1 hno
    have h1 := h.unlocked hx he hheld (by omega)
    omega
  · rintro (hpos | hheld)
    · exact h.locked hx (.inr hpos)
    · exact h.locked hx (.inl hheld)

/-- Whoever gets through the semaphore locks an entry that is not open. -/
theorem of_updatelock_pos (h : ElInv counted b isEntry inUse n upd held) (hx : counted)
    (hl : 0 < b.updatelock) : ¬held ∧ n = 0 := by
  have hno : ¬(held ∨ 0 < n) := fun hc => by
    have := h.locked hx hc
    omega
  obtain ⟨hheld, hn⟩ := not_or.1 hno
  exact ⟨hheld, by omega⟩

/-- A slot that an open finds and that is not closed for opens belongs to an entry. -/
theorem openable (h : ElInv counted b isEntry inUse n upd held) (hu : inUse ∨ isEntry)
    (hb : b.update = false) : isEntry ∧ ¬held := by
  have hupd : ¬upd := fun hu => by
    rw [h.update.2 hu] at hb
    cases hb
  exact ⟨hu.elim (fun hi => (h.stray hi).resolve_right hupd) id, fun hh => hupd (h.held hh).1⟩

/-- A successful open: one more descriptor, and the semaphore is taken. -/
theorem opened (h : ElInv counted b isEntry inUse n upd held) (hn : counted → n + 1 < 2 ^ 32)
    (hu : inUse ∨ isEntry) (hb : b.update = false) :
    ElInv counted { b with
        updatelock := if b.refcount = 0 then (trydown b.updatelock).2 else b.updatelock
        cookie := if b.refcount = 0 then none else b.cookie
        refcount := b.refcount + 1 }
      isEntry inUse (n + 1) upd held := by
  obtain ⟨he, hheld⟩ := h.openable hu hb
  constructor
  case refcount =>
      show b.refcount + 1 = _
      rw [h.refcount, Word.count_ofNat_succ]
  case count => exact hn
  case update => exact h.update
  case foreign => exact fun hno => absurd he hno
  case unlocked => exact fun _ _ _ h0 => absurd h0 (Nat.succ_ne_zero n)
  case locked =>
      intro hx _
      show (if b.refcount = 0 then (trydown b.updatelock).2 else b.updatelock) = 0
      split
      · rename_i h0
        rw [h.unlocked hx he hheld ((h.refcount_eq_zero hx).1 h0)]
        rfl
      · rename_i h0
        exact h.locked hx (.inr (Nat.pos_of_ne_zero (mt (h.refcount_eq_zero hx).2 h0)))
  case held => exact fun hh => absurd hh hheld
  case closed => exact fun _ hh => absurd hh hheld
  case entry => exact fun _ => he
  case stray => exact h.stray

/-- The `trydown` of a first open takes the semaphore. -/
theorem trydown_acquires (h : ElInv counted b isEntry inUse n upd held) (hx : counted)
    (hu : inUse ∨ isEntry) (hb : b.update = false) (h0 : b.refcount = 0) :
    trydown b.updatelock = (true, 0) := by
  obtain ⟨he, hheld⟩ := h.openable hu hb
  rw [h.unlocked hx he hheld ((h.refcount_eq_zero hx).1 h0)]
  rfl

/-- A clone of an open descriptor. -/
theorem cloned (h : ElInv counted b isEntry inUse n upd held) (hx : counted → n + 1 < 2 ^ 32)
    (hn : 0 < n) : ElInv counted { b with refcount := b.refcount + 1 } isEntry inUse (n + 1) upd held := by
  have hheld : counted → ¬held := fun hx hh => by
    have := h.closed hx hh
    omega
  constructor
  case refcount =>
      show b.refcount + 1 = _
      rw [h.refcount, Word.count_ofNat_succ]
  case count => exact hx
  case update => exact h.update
  case foreign => exact h.foreign
  case unlocked => exact fun _ _ _ h0 => absurd h0 (Nat.succ_ne_zero n)
  case locked => exact fun hx _ => h.locked hx (.inr hn)
  case held => exact h.held
  case closed => exact fun hx hh => absurd hh (hheld hx)
  case entry => exact fun _ => h.entry hn
  case stray => exact h.stray

/-- A close. -/
theorem released (h : ElInv counted b isEntry inUse n upd held) (hn : 0 < n) :
    ElInv counted { b with
        refcount := b.refcount - 1
        updatelock := if b.refcount - 1 = 0 then b.updatelock + 1 else b.updatelock }
      isEntry inUse (n - 1) upd held := by
  have he := h.entry hn
  have hcount : b.refcount - 1 = UInt32.ofNat (n - 1) := by rw [h.refcount, Word.count_ofNat_pred hn]
  have hzero : counted → (b.refcount - 1 = 0 ↔ n - 1 = 0) := fun hx => by
    have := h.count hx
    rw [hcount, Word.count_ofNat_eq_zero (by omega)]
  have hheld : counted → ¬held := fun hx hh => by
    have := h.closed hx hh
    omega
  constructor
  case refcount => exact hcount
  case count =>
      intro hx
      have := h.count hx
      omega
  case update => exact h.update
  case foreign => exact fun hno => absurd he hno
  case unlocked =>
      intro hx _ _ h0
      show (if b.refcount - 1 = 0 then b.updatelock + 1 else b.updatelock) = 1
      rw [if_pos ((hzero hx).2 h0), h.locked hx (.inr hn)]
  case locked =>
      rintro hx (hh | hpos)
      · exact absurd hh (hheld hx)
      · show (if b.refcount - 1 = 0 then b.updatelock + 1 else b.updatelock) = 0
        rw [if_neg fun h0 => by
          have := (hzero hx).1 h0
          omega]
        exact h.locked hx (.inr hn)
  case held => exact h.held
  case closed => exact fun hx hh => absurd hh (hheld hx)
  case entry => exact fun _ => he
  case stray => exact h.stray

/-- The update flag is raised. -/
theorem marked (h : ElInv counted b isEntry inUse n upd held) {inUse' : Prop} :
    ElInv counted { b with update := true } isEntry inUse' n True held where
  refcount := h.refcount
  count := h.count
  update := ⟨fun _ => trivial, fun _ => rfl⟩
  foreign := h.foreign
  unlocked := h.unlocked
  locked := h.locked
  held := fun hh => ⟨trivial, (h.held hh).2⟩
  closed := h.closed
  entry := h.entry
  stray := fun _ => .inr trivial

/-- A `down` gets through. -/
theorem taken (h : ElInv counted b isEntry inUse n upd held) (hl : 0 < b.updatelock) (hu : upd) :
    ElInv counted { b with updatelock := b.updatelock - 1 } isEntry inUse n upd True := by
  have he : isEntry := by
    by_contra hno
    have := h.foreign hno
    omega
  constructor
  case refcount => exact h.refcount
  case count => exact h.count
  case update => exact h.update
  case foreign => exact fun hno => absurd he hno
  case unlocked => exact fun _ _ hno => absurd trivial hno
  case locked =>
      intro hx _
      obtain ⟨hheld, h0⟩ := h.of_updatelock_pos hx hl
      show b.updatelock - 1 = 0
      rw [h.unlocked hx he hheld h0]
  case held => exact fun _ => ⟨hu, he⟩
  case closed => exact fun hx _ => (h.of_updatelock_pos hx hl).2
  case entry => exact h.entry
  case stray => exact h.stray

/-- The `up` behind an update. -/
theorem unmarked (h : ElInv counted b isEntry inUse n upd held) (hh : held) :
    ElInv counted { b with updatelock := b.updatelock + 1, update := false } isEntry inUse n False
      False := by
  have he := (h.held hh).2
  constructor
  case refcount => exact h.refcount
  case count => exact h.count
  case update => exact ⟨fun hu => absurd hu Bool.false_ne_true, False.elim⟩
  case foreign => exact fun hno => absurd he hno
  case unlocked =>
      intro hx _ _ _
      show b.updatelock + 1 = 1
      rw [h.locked hx (.inl hh)]
  case locked =>
      rintro hx (hc | hc)
      · exact hc.elim
      · have := h.closed hx hh
        omega
  case held => exact False.elim
  case closed => exact fun _ hc => hc.elim
  case entry => exact fun _ => he
  case stray => exact fun _ => .inl he

end ElInv

namespace TableInv

variable {counted : Prop} {v : Vol} {hs : List HtableEl} {upd held : HtableEl → Prop}

/-- A freshly loaded table. -/
theorem of_loaded {tab : Nat → Hentry} (h : v.Loaded v.conf.htableNbEntries tab) :
    TableInv counted v [] noMark noMark where
  sized := h.sized
  listed := ⟨_, h.listed⟩
  place := h.place
  dflt := fun el hel => by
    rw [h.dflt] at hel
    obtain ⟨i, hi, rfl⟩ := Option.map_eq_some_iff.1 hel
    have := List.mem_of_getLast? hi
    exact ⟨i, by simpa using (List.mem_filter.1 this).1, rfl⟩
  el := fun el => by
    by_cases he : v.IsEntry el
    · obtain ⟨i, hi, rfl⟩ := he
      obtain ⟨h1, h2, h3⟩ := h.idle i hi
      have hent : v.IsEntry (v.slot i) := ⟨i, hi, rfl⟩
      refine ⟨h1, fun _ => Nat.two_pow_pos 32, by simp [h2, noMark], fun hno => absurd hent hno, fun _ _ _ _ => h3,
        fun _ hc => ?_, fun _ hc => hc.elim, False.elim, fun _ => hent, fun _ => .inl hent⟩
      rcases hc with hc | hc
      · exact hc.elim
      · exact absurd hc (Nat.lt_irrefl 0)
    · have hb : v.bentry el = Bentry.cleared := h.rest el fun i hi hs => he ⟨i, hi, hs⟩
      rw [hb]
      refine ⟨rfl, fun _ => Nat.two_pow_pos 32, by simp [Bentry.cleared, noMark], fun _ => rfl,
        fun _ hc => absurd hc he, fun _ _ => rfl, fun _ hc => hc.elim, False.elim,
        fun hc => absurd hc (Nat.lt_irrefl 0), fun hu => .inl ?_⟩
      -- the slots in use are those of entries
      obtain ⟨i, hi, -, hs⟩ := Vol.mem_usedSlots.1 ((h.listed.mem el).2 hu)
      exact ⟨i, hi, hs⟩

/-- The entry bytes behind a bentry are those at its place in the chunk cache. -/
theorem hentry_eq (h : TableInv counted v hs upd held) {i : Nat} (hi : i < v.conf.htableNbEntries) :
    v.hentry (v.slot i) = tableEntry v.conf v.htableChunkCache i := by
  unfold Vol.hentry tableEntry
  rw [(h.place i hi).1, (h.place i hi).2]

/-- Changing one bentry. -/
theorem setBentry (h : TableInv counted v hs upd held) {el : HtableEl} {b : Bentry} {hs' : List HtableEl}
    {upd' held' : HtableEl → Prop}
    (hplace : b.hentryHtchunk = (v.bentry el).hentryHtchunk ∧
      b.hentryHtoffset = (v.bentry el).hentryHtoffset)
    (hel : ElInv counted b (v.IsEntry el) (v.InUse el) (hs'.count el) (upd' el) (held' el))
    (hother : ∀ x, x ≠ el → hs'.count x = hs.count x ∧ (upd' x ↔ upd x) ∧ (held' x ↔ held x)) :
    TableInv counted (v.setBentry el b) hs' upd' held' where
  sized := h.sized
  listed := h.listed
  place := fun i hi => by
    simp only [Vol.setBentry_slot, Vol.setBentry_bentry, Vol.setBentry_conf]
    by_cases hx : v.slot i = el
    · subst hx
      simpa using ⟨hplace.1.trans (h.place i hi).1, hplace.2.trans (h.place i hi).2⟩
    · simpa [hx] using h.place i hi
  dflt := h.dflt
  el := fun x => by
    show ElInv counted (Function.update v.bentry el b x) (v.IsEntry x) (v.InUse x) _ _ _
    by_cases hx : x = el
    · subst hx
      simpa using hel
    · obtain ⟨h1, h2, h3⟩ := hother x hx
      simpa [hx, h1, h2, h3] using h.el x

/-- A slot in use or an entry, if it is not closed for opens, is opened. -/
theorem openBentry (h : TableInv counted v hs upd held) {el : HtableEl} {v' : Vol}
    (hn : counted → hs.count el + 1 < 2 ^ 32) (hel : v.InUse el ∨ v.IsEntry el) (ho : shfsFioOpenBentry v el = .ok v') :
    TableInv counted v' (el :: hs) upd held := by
  obtain ⟨hb, rfl⟩ := shfsFioOpenBentry_ok.1 ho
  refine h.setBentry ⟨rfl, rfl⟩ ?_ fun x hx => ⟨List.count_cons_of_ne hx.symm, Iff.rfl, Iff.rfl⟩
  rw [List.count_cons_self]
  exact (h.el el).opened hn hel hb

/-- A descriptor is cloned. -/
theorem clone (h : TableInv counted v hs upd held) {el : HtableEl}
    (hn : counted → hs.count el + 1 < 2 ^ 32) (hel : el ∈ hs) :
    TableInv counted (shfsFioClone v el) (el :: hs) upd held := by
  refine h.setBentry ⟨rfl, rfl⟩ ?_ fun x hx =>
    ⟨List.count_cons_of_ne hx.symm, Iff.rfl, Iff.rfl⟩
  rw [List.count_cons_self]
  exact (h.el el).cloned hn (List.count_pos_iff.2 hel)

/-- A descriptor is closed. -/
theorem release (h : TableInv counted v hs upd held) {el : HtableEl} (hel : el ∈ hs) :
    TableInv counted (shfsFioRelease v el) (hs.erase el) upd held := by
  rw [shfsFioRelease_eq]
  refine h.setBentry ⟨rfl, rfl⟩ ?_ fun x hx => ⟨List.count_erase_of_ne hx, Iff.rfl, Iff.rfl⟩
  rw [List.count_erase_self]
  exact (h.el el).released (List.count_pos_iff.2 hel)

/-- The semaphore of a marked entry is taken. -/
theorem take (h : TableInv counted v hs upd held) {el : HtableEl} (hl : 0 < (v.bentry el).updatelock)
    (hu : upd el) :
    TableInv counted (v.setBentry el { v.bentry el with updatelock := (v.bentry el).updatelock - 1 }) hs upd
      (fun x => x = el ∨ held x) := by
  refine h.setBentry ⟨rfl, rfl⟩ ?_ fun x hx => ⟨rfl, Iff.rfl, by simp [hx]⟩
  simpa using (h.el el).taken hl hu

/-- An entry is closed for opens. -/
theorem mark (h : TableInv counted v hs upd held) (el : HtableEl) :
    TableInv counted (v.setBentry el { v.bentry el with update := true }) hs (fun x => x = el ∨ upd x) held := by
  refine h.setBentry ⟨rfl, rfl⟩ ?_ fun x hx => ⟨rfl, by simp [hx], Iff.rfl⟩
  simpa using (h.el el).marked

/-- Another bucket table with the same slots, in which only the slot `el` may be newly in use. -/
theorem feed (h : TableInv counted v hs upd held) {bt : Htable} {l : List HtableEl} (el : HtableEl)
    (hg : v.bt.SameGeom bt) (hl : bt.Listed l)
    (hother : ∀ x, x ≠ el → bt.h x = v.bt.h x) :
    TableInv counted ({ v with bt := bt }.setBentry el { v.bentry el with update := true }) hs
      (fun x => x = el ∨ upd x) held where
  sized := ⟨hg.1.trans h.sized.1, hg.2.1.trans h.sized.2.1, hg.2.2.trans h.sized.2.2⟩
  listed := ⟨l, hl⟩
  place := fun i hi => by
    have hs : Vol.slot { v with bt := bt } i = v.slot i := hg.slot i
    simp only [Vol.setBentry_slot, Vol.setBentry_bentry, Vol.setBentry_conf, hs]
    by_cases hx : v.slot i = el
    · subst hx
      simpa using h.place i hi
    · simpa [hx] using h.place i hi
  dflt := fun x hx => by
    obtain ⟨i, hi, rfl⟩ := h.dflt x hx
    exact ⟨i, hi, hg.slot i⟩
  el := fun x => by
    have he : Vol.IsEntry ({ v with bt := bt }.setBentry el { v.bentry el with update := true }) x ↔
        v.IsEntry x := by
      simp only [Vol.IsEntry, Vol.setBentry_slot, Vol.setBentry_conf]
      exact exists_congr fun i => and_congr_right fun _ => by
        rw [show Vol.slot { v with bt := bt } i = v.slot i from hg.slot i]
    rw [Vol.setBentry_bentry, he]
    by_cases hx : x = el
    · subst hx
      simpa using (h.el x).marked
    · have hu : Vol.InUse ({ v with bt := bt }.setBentry el { v.bentry el with update := true }) x ↔
          v.InUse x := by
        simp only [Vol.InUse, Vol.setBentry_bt, hg.inRange, Htable.isFree, hother x hx, hg.2.2]
      rw [hu]
      simpa [hx] using h.el x

/-- The cached entry is overwritten and the semaphore released. -/
theorem updated (h : TableInv counted v hs upd held) {el : HtableEl} (hel : held el) (c e : Nat)
    (nchk : Bytes) :
    TableInv counted (reloadUpdate v c e nchk el) hs (fun x => x ≠ el ∧ upd x) (fun x => x ≠ el ∧ held x) := by
  have hb : TableInv counted (v.setBentry el
      { v.bentry el with updatelock := (v.bentry el).updatelock + 1, update := false }) hs
      (fun x => x ≠ el ∧ upd x) (fun x => x ≠ el ∧ held x) := by
    refine h.setBentry ⟨rfl, rfl⟩ ?_ fun x hx => ⟨rfl, by simp [hx], by simp [hx]⟩
    simpa using (h.el el).unmarked hel
  obtain ⟨-, he⟩ := (h.el el).held hel
  -- the chunk cache is in no part of the invariant, and the new default entry is `el` or none
  rw [reloadUpdate_eq]
  refine ⟨hb.sized, hb.listed, hb.place, fun x hx => ?_, hb.el⟩
  dsimp only at hx
  split at hx
  · exact Option.some.inj hx ▸ he
  split at hx
  · exact absurd hx (by simp)
  · exact h.dflt x hx

end TableInv

end Minipython.Shfs
