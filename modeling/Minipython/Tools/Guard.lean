/-
# Minipython.Tools.Guard — the label and the table keep their chunks (shfs_admin.c, shfs_alloc.c)

The allocator list begins with the areas of the label, the table and its backup, which adjoin. As long as
no registered range starts in front of the last of them or wraps, first fit answers nothing before their
end (`Guarded.find`), so no container of a file touches them, and copying a file leaves their chunks as
they are (`copyFile_frame`). Copying stops at the first chunk whose offset is negative as an `off_t`, in
front of the chunks whose addresses wrap.

A range that is registered for a link is whatever its host record reads as; the condition on these is
`LinksBehind`.
-/
import Minipython.Tools.Mounting
import Minipython.Tools.Effect

namespace Minipython.Tools.Admin

open Minipython.Lib
open Minipython.Lib.Extent
open Minipython.Shfs
open Htable

/-! ## Bounds -/

namespace Volume

variable (V : Volume)

/-- A chunk whose stripes do not wrap has a number below `2 ^ 60`. -/
theorem chunk_lt {c : Nat} (h : V.g.Fits c 1) : c < 2 ^ 60 := by
  have hs : 4096 ≤ V.g.stripesize := V.g.stripesize_ge
  have hn : V.g.nbMembers ≤ 256 := Nat.le_of_lt V.g.nbMembers_lt
  have hround : (V.g.lastRound c + 1) * 4096 ≤ u64Size :=
    Nat.le_trans (Nat.mul_le_mul_left _ hs) ((V.g.fits_iff c).1 h)
  have hdiv : V.g.firstStrp (c + 1) - 1 < (V.g.lastRound c + 1) * V.g.nbMembers := by
    rw [Nat.mul_comm]
    exact Nat.lt_mul_div_succ _ V.g.nbMembers_pos
  have hmul : (V.g.lastRound c + 1) * V.g.nbMembers ≤ (V.g.lastRound c + 1) * 256 :=
    Nat.mul_le_mul_left _ hn
  have hfirst := V.g.le_firstStrp (c + 1)
  simp only [u64Size] at hround
  omega

theorem volsize_le : V.volsize ≤ 2 ^ 60 := by
  by_contra hlt
  have h := V.chunk_lt (V.fits (V.volsize - 1) (by omega))
  omega

/-- The first chunk of the last table. -/
def lastTable : Nat := 2 + if V.backup then V.htableLen else 0

theorem lastTable_le : V.lastTable ≤ V.tablesEnd := by
  unfold lastTable tablesEnd
  split <;> omega

theorem htableLen_pos : 0 < V.htableLen := Nat.pos_of_ne_zero V.args.conf.htableLen_ne

end Volume

theorem divRoundUp_le {n cs : Nat} (hcs : 4096 ≤ cs) : divRoundUp n cs ≤ 2 ^ 52 := by
  unfold divRoundUp
  have hlt := wrap64_lt (n + cs - 1)
  have hdiv : wrap64 (n + cs - 1) / cs ≤ wrap64 (n + cs - 1) / 4096 := Nat.div_le_div_left hcs (by decide)
  simp only [u64Size] at hlt
  omega

theorem containerLen_le (V : Volume) (e : Hentry) : containerLen V e ≤ 2 ^ 52 :=
  divRoundUp_le V.chunksize_bounds.1

theorem csize_le (V : Volume) (env : AddEnv) : env.csize V ≤ 2 ^ 52 := divRoundUp_le V.chunksize_bounds.1

/-! ## The areas of the label and the table -/

section Areas

variable (V : Volume)

theorem tableAreas_cons : ∃ l, V.tableAreas = ⟨0, 2⟩ :: l ∧ Adjoining (⟨0, 2⟩ :: l) := by
  refine ⟨_, rfl, ?_⟩
  unfold Adjoining
  split
  · refine .cons_cons ⟨Nat.le_refl 2, Nat.le_add_right 2 _⟩ (.cons_cons ⟨Nat.le_refl _, ?_⟩ (.singleton _))
    show 2 + V.htableLen ≤ 2 + 2 * V.htableLen
    omega
  · exact .cons_cons ⟨Nat.le_refl 2, Nat.le_add_right 2 _⟩ (.singleton _)

/-- The starts and ends of the areas. -/
theorem mem_tableAreas {a : Aentry} (ha : a ∈ V.tableAreas) :
    a.start ≤ V.lastTable ∧ a.start < V.tablesEnd ∧ a.start ≤ a.stop ∧ a.stop ≤ a.start + 2 ^ 52 := by
  have hpos := V.htableLen_pos
  have hlt := V.volsize_le
  have hle := V.tablesEnd_le
  have hsmall : V.htableLen ≤ 2 ^ 52 := by
    have hlen : V.htableLen = V.args.conf.htableLen := rfl
    have hn := V.args.conf.nbEntries_lt
    rw [hlen, V.args.conf.htableLen_eq]
    have hp := V.args.conf.entriesPerChunk_pos
    have hdiv := Nat.div_le_self
      (V.args.conf.htableNbEntries + V.args.conf.htableNbEntriesPerChunk - 1)
      V.args.conf.htableNbEntriesPerChunk
    have hc : V.args.conf.htableNbEntriesPerChunk ≤ 32768 * 16 :=
      Nat.le_trans (Nat.div_le_self _ _) V.args.geom.chunksize_bounds.2
    simp only [u32Size] at hn
    omega
  unfold Volume.tableAreas at ha
  unfold Volume.lastTable Volume.tablesEnd at *
  obtain rfl | ha := List.mem_cons.1 ha
  · refine ⟨Nat.zero_le _, ?_, Nat.zero_le _, by decide⟩
    show 0 < _
    omega
  obtain rfl | ha := List.mem_cons.1 ha
  · refine ⟨Nat.le_add_right 2 _, ?_, Nat.le_add_right 2 _, ?_⟩
    · show 2 < _
      split <;> omega
    · show 2 + V.htableLen ≤ 2 + 2 ^ 52
      omega
  · cases hb : V.backup with
    | false =>
        rw [hb] at ha
        cases ha
    | true =>
        rw [hb, if_pos rfl, List.mem_singleton] at ha
        subst ha
        refine ⟨Nat.le_refl _, ?_, ?_, ?_⟩
        · show 2 + V.htableLen < 2 + 2 * V.htableLen
          omega
        · show 2 + V.htableLen ≤ 2 + 2 * V.htableLen
          omega
        · show 2 + 2 * V.htableLen ≤ 2 + V.htableLen + 2 ^ 52
          omega

/-- One of the areas ends where the tables end. -/
theorem exists_tableArea : ∃ a ∈ V.tableAreas, a.stop = V.tablesEnd := by
  unfold Volume.tableAreas Volume.tablesEnd
  cases V.backup with
  | false => exact ⟨⟨2, 2 + V.htableLen⟩, by simp, by rw [if_neg Bool.false_ne_true, Nat.one_mul]⟩
  | true => exact ⟨⟨2 + V.htableLen, 2 + 2 * V.htableLen⟩, by simp, rfl⟩

theorem tableAreas_sorted : Sorted V.tableAreas := by
  unfold Volume.tableAreas Sorted
  cases V.backup with
  | false => exact .cons (fun a ha => Nat.zero_le _) (.cons (fun a ha => by cases ha) .nil)
  | true =>
      refine .cons (fun a ha => Nat.zero_le _) (.cons (fun a ha => ?_) (.cons (fun a ha => by cases ha) .nil))
      rw [List.mem_singleton.1 ha]
      exact Nat.le_add_right 2 _

end Areas

/-! ## Lists that guard the areas -/

/-- The list begins with the areas, and nothing else starts in front of the last table or wraps. -/
structure Guarded (V : Volume) (al : Alist) : Prop where
  stop : al.stop = V.volsize
  allocator : al.allocator = sallocFirstfit
  sorted : Sorted al.entries
  areas : ∃ rest, al.entries = V.tableAreas ++ rest ∧
    ∀ e ∈ rest, V.lastTable ≤ e.start ∧ e.start ≤ e.stop ∧ e.stop ≤ e.start + 2 ^ 52

namespace Guarded

variable {V : Volume} {al al' : Alist} {start len : Nat}

/-- The list that `load_vol_alist` begins with. -/
theorem initial (hstop : al.stop = V.volsize) (hff : al.allocator = sallocFirstfit)
    (hent : al.entries = V.tableAreas) : Guarded V al where
  stop := hstop
  allocator := hff
  sorted := by
    rw [hent]
    exact tableAreas_sorted V
  areas := ⟨[], by rw [hent, List.append_nil], fun e he => by cases he⟩

/-- A range behind the last table is registered. -/
theorem register (h : Guarded V al) (mem : Bool) (hs : V.lastTable ≤ start) (hw : start + len < u64Size)
    (hl : len ≤ 2 ^ 52) : Guarded V (shfsAlistRegister al mem start len).2 := by
  obtain ⟨rest, hrest, hall⟩ := h.areas
  refine ⟨by rw [register_stop, h.stop], by rw [register_allocator, h.allocator],
    register_sorted h.sorted mem, ?_⟩
  cases mem with
  | false => exact ⟨rest, hrest, hall⟩
  | true =>
      refine ⟨insertByStart (aentryOf start len) rest, ?_, fun e he => ?_⟩
      · rw [register_entries, hrest]
        apply insertByStart_append
        exact fun a ha => Nat.le_trans (mem_tableAreas V ha).1 hs
      · obtain rfl | he := mem_insertByStart.1 he
        · have hstop : (aentryOf start len).stop = start + len := wrap64_of_lt hw
          refine ⟨hs, ?_, ?_⟩
          · rw [hstop]
            exact Nat.le_add_right _ _
          · rw [hstop]
            exact Nat.add_le_add_left hl _
        · exact hall e he

/-- A range behind the tables is unregistered. -/
theorem unregister (h : Guarded V al) (hs : V.tablesEnd ≤ start)
    (hal : shfsAlistUnregister al start len = some al') : Guarded V al' := by
  obtain ⟨rest, hrest, hall⟩ := h.areas
  obtain ⟨-, hent, hstop, hff⟩ := unregister_some hal
  have hnot : aentryOf start len ∉ V.tableAreas := fun hmem => by
    have hlt : (aentryOf start len).start < V.tablesEnd := (mem_tableAreas V hmem).2.1
    exact absurd hs (Nat.not_le.2 hlt)
  refine ⟨by rw [hstop, h.stop], by rw [hff, h.allocator], ?_, rest.erase (aentryOf start len), ?_, ?_⟩
  · rw [hent]
    exact List.Pairwise.sublist List.erase_sublist h.sorted
  · rw [hent, hrest, List.erase_append_right _ hnot]
  · exact fun e he => hall e (List.mem_of_mem_erase he)

/-- First fit answers nothing in front of the end of the tables. -/
theorem find (h : Guarded V al) (hl : len ≤ 2 ^ 52) :
    shfsAlistFindFree al len = 0 ∨ V.tablesEnd ≤ shfsAlistFindFree al len := by
  obtain ⟨rest, hrest, hall⟩ := h.areas
  obtain ⟨l, hcons, hadj⟩ := tableAreas_cons V
  obtain ⟨a, ha, hend⟩ := exists_tableArea V
  have hshort : Short (2 ^ 52) al.entries := fun e he => by
    rw [hrest] at he
    obtain he | he := List.mem_append.1 he
    · exact (mem_tableAreas V he).2.2
    · exact (hall e he).2
  have hent := hrest
  rw [hcons] at hent ha
  obtain hzero | hle := findFree_behind hent hadj h.sorted hshort
    (by simp only [u64Size]; omega : 2 ^ 52 + len ≤ u64Size)
  · exact .inl hzero
  · exact .inr (hend ▸ hle a ha)

/-- The container of a new file lies behind the tables. -/
theorem container (h : Guarded V al) {cchk : Nat} (hl : len ≤ 2 ^ 52)
    (hf : findContainer V al len = some cchk) : V.tablesEnd ≤ cchk ∧ cchk < V.volsize := by
  unfold findContainer at hf
  simp only at hf
  split at hf
  · cases hf
  · rename_i hno
    obtain rfl := Option.some.inj hf
    obtain hzero | hle := h.find hl
    · exact absurd (.inl hzero) hno
    · exact ⟨hle, by omega⟩

end Guarded

/-! ## Copying a file -/

/-- Copying from a chunk on keeps what writes to the chunks from there on keep. -/
theorem copyFile_frame {V : Volume} {env : AddEnv} {cchk : Nat} {R : Members → Members → Prop}
    (hR : Frame V.g (cchk ≤ ·) R) {n c left pos : Nat} {buf : Bytes} {d d' : Members} {ret : Int}
    (hfit : V.g.Fits (cchk + c) 1) (h : copyFile V env cchk n c left pos buf d = (ret, d')) :
    R d d' := by
  induction n generalizing c left pos buf d with
  | zero =>
      obtain ⟨-, rfl⟩ := Prod.mk.inj h
      exact hR.refl _
  | succ n ih =>
      rw [copyFile] at h
      split at h
      · obtain ⟨-, rfl⟩ := Prod.mk.inj h
        exact hR.refl _
      simp only at h
      split at h
      · obtain ⟨-, rfl⟩ := Prod.mk.inj h
        exact hR.refl _
      have hwrap : wrap64 (cchk + c) = cchk + c := by
        apply wrap64_of_lt
        have := V.chunk_lt hfit
        simp only [u64Size]
        omega
      rw [hwrap] at h
      split at h
      · rename_i hwrite
        obtain ⟨-, rfl⟩ := Prod.mk.inj h
        exact hR.write _ _ (Nat.le_add_right cchk c) hfit hwrite
      · rename_i d₁ hwrite
        have hd₁ : R d d₁ := hR.write _ _ (Nat.le_add_right cchk c) hfit hwrite
        split at h
        · obtain ⟨-, rfl⟩ := Prod.mk.inj h
          exact hd₁
        · -- the chunk was written, so the next one does not wrap
          have hnext : V.g.Fits (cchk + (c + 1)) 1 :=
            Addressed.next hfit (writeChunk_addressed d (congrArg Prod.fst hwrite))
          exact hR.trans hd₁ (ih hnext h)

/-- So does an attempt to copy a file to its container. -/
theorem Copied.frame {V : Volume} {env : AddEnv} {cchk : Nat} {R : Members → Members → Prop}
    (hR : Frame V.g (cchk ≤ ·) R) {buf : Bytes} {s : Session} {ret : Int} {d : Members}
    (h : Copied V env cchk buf s ret d) (hfit : V.g.Fits cchk 1) : R s.disk d := by
  unfold Copied at h
  split at h
  · rw [← Nat.add_zero cchk] at hfit
    exact copyFile_frame hR hfit h
  · obtain ⟨-, rfl⟩ := h
    exact hR.refl _

end Minipython.Tools.Admin
