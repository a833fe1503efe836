/-
# Minipython.Minios.ExecAlloc — memory for native code (alloc.c)

Code that is compiled to machine instructions lies outside the heap of the collector and may point into it,
so `mp_unix_alloc_exec` puts every region on a list that `mp_unix_mark_exec` goes through in a collection.

The loop of `mp_unix_free_exec` never moves its pointer: it steps on by overwriting the head of the list.
What it passes over is off the list, and a region that it does not find empties it. So the collector never
looks at memory that was given back (`execMem_safe`), but it sees all code that is in use only as long as
the block that was allocated last is the first to be freed.

A mapping that fails puts a region with a null pointer on the list. It is in nobody's use; the collector is
told of it, and a later `mp_unix_free_exec` drops it with everything else that it passes over. `roots` is the
list without such regions: in every state the blocks in use contain it in their order, and where the
collector sees all of them the two are equal, which is what a step keeps or breaks.

`Orderly` is the free of the block that was allocated last. The runs of orderly frees are those in which the
collector sees all code in every state (`exec_roots`); `exec_roots_lost` is a run with another one.
-/
import Mathlib.Data.List.Nodup
import Mathlib.Data.List.Perm.Subperm
import Minipython.Lib.Machine
import Minipython.Lib.RoundUp

namespace Minipython.Minios

open Minipython.Lib

/-! ## Regions -/

/-- `mmap_region_t`; a null pointer is 0. -/
structure MmapRegion where
  ptr : UInt64
  len : UInt64
  deriving DecidableEq, Repr

/-- What a caller holds: the pointer and the size that `mp_unix_alloc_exec` has returned. -/
structure ExecBlock where
  ptr : UInt64
  size : UInt64
  deriving DecidableEq, Repr

/-- The list of regions, and the blocks that are in use, both from the latest on. -/
structure ExecMem where
  mmapRegionHead : List MmapRegion
  live : List ExecBlock
  deriving Repr

inductive ExecEvent where
  /-- `mmap` maps memory at `ptr` or fails; without memory for the list element an exception is raised -/
  | alloc (minSize : UInt64) (ptr : Option UInt64) (newObj : Bool)
  | free (ptr size : UInt64)
  deriving DecidableEq, Repr

/-- The size in whole pages. -/
def execSize (minSize : UInt64) : UInt64 := (minSize + 0xfff) &&& ~~~0xfff

/-- `mp_unix_alloc_exec`. -/
def mpUnixAllocExec (s : ExecMem) (minSize : UInt64) (ptr : Option UInt64) (newObj : Bool) : ExecMem :=
  if newObj then
    { mmapRegionHead := ⟨ptr.getD 0, minSize⟩ :: s.mmapRegionHead
      live := (ptr.map fun p => ⟨p, execSize minSize⟩).toList ++ s.live }
  else s

/-- The loop of `mp_unix_free_exec`: the head of the list behind it. -/
def unlinkRegion (ptr : UInt64) : List MmapRegion → List MmapRegion
  | [] => []
  | rg :: next => if rg.ptr = ptr then next else unlinkRegion ptr next

/-- `mp_unix_free_exec`. -/
def mpUnixFreeExec (s : ExecMem) (ptr size : UInt64) : ExecMem where
  mmapRegionHead := unlinkRegion ptr s.mmapRegionHead
  live := s.live.erase ⟨ptr, size⟩

/-- `mp_unix_mark_exec`: the start of each root, and how many words it has. -/
def mpUnixMarkExec (s : ExecMem) : List (UInt64 × UInt64) :=
  s.mmapRegionHead.map fun rg => (rg.ptr, rg.len / 8)

/-- `mmap` refuses an empty length and maps where nothing is in use; callers free what they hold. -/
def execMem : Machine ExecMem ExecEvent Empty where
  Enabled s
    | .alloc minSize ptr _ => ∀ p ∈ ptr, p ≠ 0 ∧ execSize minSize ≠ 0 ∧ p ∉ s.live.map ExecBlock.ptr
    | .free ptr size => ⟨ptr, size⟩ ∈ s.live
  next s
    | .alloc minSize ptr newObj => .ok (mpUnixAllocExec s minSize ptr newObj)
    | .free ptr size => .ok (mpUnixFreeExec s ptr size)

instance (s : ExecMem) : (e : ExecEvent) → Decidable (execMem.Enabled s e)
  | .alloc _ ptr _ => Option.decidableForallMem ptr
  | .free ptr size => inferInstanceAs (Decidable (⟨ptr, size⟩ ∈ s.live))

/-- The collector sees every block that is in use. -/
def SeesLive (s : ExecMem) : Prop := ∀ b ∈ s.live, b.ptr ∈ (mpUnixMarkExec s).map Prod.fst

/-- What is freed is the latest block. -/
def Orderly (s : ExecMem) : ExecEvent → Prop
  | .alloc .. => True
  | .free ptr size => s.live.head? = some ⟨ptr, size⟩

/-- The regions on a list that could be mapped. -/
def roots (l : List MmapRegion) : List UInt64 := (l.map MmapRegion.ptr).filter (· ≠ 0)

/-! ## The loop -/

section Unlink

variable {ptr : UInt64} {l : List MmapRegion}

theorem unlinkRegion_sublist (ptr : UInt64) (l : List MmapRegion) : (unlinkRegion ptr l).Sublist l := by
  induction l with
  | nil => exact List.Sublist.refl _
  | cons rg next ih =>
      rw [unlinkRegion]
      split
      · exact List.sublist_cons_self rg next
      · exact ih.cons rg

/-- The region itself is off the list. -/
theorem notMem_unlinkRegion (h : (l.filter fun rg => rg.ptr = ptr).length ≤ 1) :
    ∀ rg ∈ unlinkRegion ptr l, rg.ptr ≠ ptr := by
  induction l with
  | nil => simp [unlinkRegion]
  | cons rg next ih =>
      by_cases hrg : rg.ptr = ptr
      · simp only [hrg, decide_true, List.filter_cons_of_pos, List.length_cons] at h
        have hnone := List.length_eq_zero_iff.1 (Nat.le_zero.1 (Nat.le_of_succ_le_succ h))
        rw [unlinkRegion, if_pos hrg]
        intro r hr heq
        exact List.filter_eq_nil_iff.1 hnone r hr (decide_eq_true heq)
      · simp only [hrg, decide_false, Bool.false_eq_true, not_false_eq_true, List.filter_cons_of_neg] at h
        rw [unlinkRegion, if_neg hrg]
        exact ih h

theorem roots_cons (rg : MmapRegion) (l : List MmapRegion) :
    roots (rg :: l) = if rg.ptr = 0 then roots l else rg.ptr :: roots l := by
  unfold roots
  by_cases h : rg.ptr = 0 <;> simp [h]

/-- The latest block is found behind null pointers only. -/
theorem roots_unlinkRegion_head {rest : List UInt64} (hptr : ptr ≠ 0) (h : roots l = ptr :: rest) :
    roots (unlinkRegion ptr l) = rest := by
  induction l with
  | nil => cases h
  | cons rg next ih =>
      rw [roots_cons] at h
      rw [unlinkRegion]
      by_cases hrg : rg.ptr = ptr
      · rw [if_neg (hrg ▸ hptr)] at h
        rw [if_pos hrg]
        exact (List.cons.inj h).2
      · rw [if_neg hrg]
        split at h
        · exact ih h
        · exact absurd (List.cons.inj h).1 hrg

/-- On its way to another block the loop drops the latest one. -/
theorem roots_unlinkRegion_other {latest : UInt64} {rest : List UInt64} (hptr : ptr ≠ 0) (hne : latest ≠ ptr)
    (h : roots l = latest :: rest) : (roots (unlinkRegion ptr l)).Sublist rest := by
  induction l with
  | nil => cases h
  | cons rg next ih =>
      rw [roots_cons] at h
      rw [unlinkRegion]
      have hrg : rg.ptr ≠ ptr := by
        rintro rfl
        rw [if_neg hptr] at h
        exact hne (List.cons.inj h).1.symm
      rw [if_neg hrg]
      split at h
      · exact ih h
      · rw [← (List.cons.inj h).2]
        exact ((unlinkRegion_sublist ptr next).map _).filter _

end Unlink

/-! ## What the collector looks at -/

/-- The size in pages is enough, unless it has wrapped to 0. -/
theorem le_execSize {minSize : UInt64} (h : execSize minSize ≠ 0) : minSize ≤ execSize minSize := by
  have hval : (execSize minSize).toNat = (minSize + 0xfff).toNat / 2 ^ 12 * 2 ^ 12 := by
    unfold execSize
    rw [UInt64.toNat_and, UInt64.toNat_not]
    exact and_clearLow (k := 12) (w := 64) (minSize + 0xfff).toNat_lt (by decide)
  have hne : (execSize minSize).toNat ≠ 0 := fun h0 => h (UInt64.toNat_inj.1 h0)
  have hsum : (minSize + 0xfff).toNat = (minSize.toNat + 4095) % 2 ^ 64 := by
    rw [UInt64.toNat_add]
    rfl
  have hlt := minSize.toNat_lt
  rw [UInt64.le_iff_toNat_le, hval]
  rw [hval] at hne
  omega

/-- The regions on the list, but for those that could not be mapped, are blocks in use. -/
structure ExecMem.Safe (s : ExecMem) : Prop where
  nodup : (s.live.map ExecBlock.ptr).Nodup
  nonnull : ∀ b ∈ s.live, b.ptr ≠ 0
  sub : (roots s.mmapRegionHead).Sublist (s.live.map ExecBlock.ptr)
  fits : ∀ rg ∈ s.mmapRegionHead, ∀ b ∈ s.live, b.ptr = rg.ptr → rg.len ≤ b.size

section Safe

variable {s t : ExecMem} {e : ExecEvent} {es : List ExecEvent} {b : ExecBlock}

theorem ExecMem.Safe.erase_ptr (hs : s.Safe) (hb : b ∈ s.live) :
    (s.live.erase b).map ExecBlock.ptr = (s.live.map ExecBlock.ptr).filter (· ≠ b.ptr) := by
  have hlive := hs.nodup
  generalize s.live = l at hb hlive ⊢
  induction l with
  | nil => cases hb
  | cons c l ih =>
      rw [List.map_cons, List.nodup_cons] at hlive
      obtain ⟨hnot, hlive⟩ := hlive
      by_cases hcb : c = b
      · subst hcb
        have hall : (l.map ExecBlock.ptr).filter (· ≠ c.ptr) = l.map ExecBlock.ptr := by
          rw [List.filter_eq_self]
          intro p hp
          apply decide_eq_true
          rintro rfl
          exact hnot hp
        rw [List.erase_cons_head, List.map_cons, List.filter_cons_of_neg (by simp), hall]
      · have hb : b ∈ l := by
          rcases List.mem_cons.1 hb with rfl | hb
          · exact absurd rfl hcb
          · exact hb
        have hptr : c.ptr ≠ b.ptr := fun h => hnot (h ▸ List.mem_map_of_mem hb)
        rw [List.erase_cons_tail (by simpa using hcb), List.map_cons, List.map_cons,
          List.filter_cons_of_pos (by simpa using hptr), ih hb hlive]

/-- A block in use is at most once on the list. -/
theorem ExecMem.Safe.once (hs : s.Safe) (hb : b ∈ s.live) :
    (s.mmapRegionHead.filter fun rg => rg.ptr = b.ptr).length ≤ 1 := by
  have hcount : (s.mmapRegionHead.map MmapRegion.ptr).count b.ptr ≤ 1 := by
    have hfilter := List.count_filter (p := (· ≠ (0 : UInt64))) (l := s.mmapRegionHead.map MmapRegion.ptr)
      (a := b.ptr) (by simpa using hs.nonnull b hb)
    rw [← hfilter]
    exact (hs.sub.count_le b.ptr).trans (List.nodup_iff_count_le_one.1 hs.nodup b.ptr)
  rw [List.count, List.countP_map, List.countP_eq_length_filter] at hcount
  exact hcount

theorem ExecMem.Safe.alloc {minSize : UInt64} {ptr : Option UInt64} {newObj : Bool} (hs : s.Safe)
    (hen : execMem.Enabled s (.alloc minSize ptr newObj)) :
    (mpUnixAllocExec s minSize ptr newObj).Safe := by
  unfold mpUnixAllocExec
  cases newObj with
  | false => exact hs
  | true =>
      cases ptr with
      | none =>
          refine ⟨hs.nodup, hs.nonnull, hs.sub, ?_⟩
          intro rg hrg b hb hptr
          rcases List.mem_cons.1 hrg with rfl | hrg
          · exact absurd hptr (hs.nonnull b hb)
          · exact hs.fits rg hrg b hb hptr
      | some p =>
          obtain ⟨hp, hsize, hfresh⟩ := hen p rfl
          have hold : ∀ b ∈ s.live, b.ptr ≠ p := fun b hb h => hfresh (h ▸ List.mem_map_of_mem hb)
          constructor
          case nodup => exact List.nodup_cons.2 ⟨hfresh, hs.nodup⟩
          case nonnull => exact List.forall_mem_cons.2 ⟨hp, hs.nonnull⟩
          case sub =>
              show (roots (⟨p, minSize⟩ :: _)).Sublist (p :: _)
              rw [roots_cons, if_neg hp]
              exact hs.sub.cons_cons p
          case fits =>
              intro rg hrg b hb hptr
              rcases List.mem_cons.1 hb with rfl | hb
              · rcases List.mem_cons.1 hrg with rfl | hrg
                · exact le_execSize hsize
                · -- the list held no region at the fresh address
                  have hmem : rg.ptr ∈ (s.mmapRegionHead.map MmapRegion.ptr).filter (· ≠ 0) := by
                    rw [List.mem_filter]
                    refine ⟨List.mem_map_of_mem hrg, ?_⟩
                    rw [← hptr]
                    simpa using hp
                  have hin := hs.sub.subset hmem
                  rw [← hptr] at hin
                  exact absurd hin hfresh
              · rcases List.mem_cons.1 hrg with rfl | hrg
                · exact absurd hptr (hold b hb)
                · exact hs.fits rg hrg b hb hptr

theorem ExecMem.Safe.free {ptr size : UInt64} (hs : s.Safe) (hb : ⟨ptr, size⟩ ∈ s.live) :
    (mpUnixFreeExec s ptr size).Safe := by
  have hsub := unlinkRegion_sublist ptr s.mmapRegionHead
  have hgone := notMem_unlinkRegion (hs.once hb)
  constructor
  case nodup => exact hs.nodup.sublist ((List.erase_sublist).map _)
  case nonnull => exact fun b hb => hs.nonnull b (List.mem_of_mem_erase hb)
  case sub =>
      show List.Sublist _ ((s.live.erase ⟨ptr, size⟩).map ExecBlock.ptr)
      rw [hs.erase_ptr hb]
      have hself : (((unlinkRegion ptr s.mmapRegionHead).map MmapRegion.ptr).filter (· ≠ 0)).filter (· ≠ ptr) =
          ((unlinkRegion ptr s.mmapRegionHead).map MmapRegion.ptr).filter (· ≠ 0) := by
        rw [List.filter_eq_self]
        intro p hp
        obtain ⟨rg, hrg, rfl⟩ := List.mem_map.1 (List.mem_filter.1 hp).1
        exact decide_eq_true (hgone rg hrg)
      show (((unlinkRegion ptr s.mmapRegionHead).map MmapRegion.ptr).filter (· ≠ 0)).Sublist _
      rw [← hself]
      exact (((hsub.map _).filter _).trans hs.sub).filter _
  case fits =>
      intro rg hrg b hb hptr
      exact hs.fits rg (hsub.subset hrg) b (List.mem_of_mem_erase hb) hptr

/-- Every step keeps the list to blocks in use. -/
theorem execMem_safe (hs : s.Safe) (h : execMem.Step s e t) : t.Safe := by
  obtain ⟨hen, hnext⟩ := h
  cases e with
  | alloc minSize ptr newObj =>
      obtain rfl := Except.ok.inj hnext
      exact hs.alloc hen
  | free ptr size =>
      obtain rfl := Except.ok.inj hnext
      exact hs.free hen

/-- The collector sees all blocks in use exactly if the mapped regions on the list are these blocks. -/
theorem seesLive_iff (hs : s.Safe) : SeesLive s ↔ roots s.mmapRegionHead = s.live.map ExecBlock.ptr := by
  have hmark : (mpUnixMarkExec s).map Prod.fst = s.mmapRegionHead.map MmapRegion.ptr := by
    unfold mpUnixMarkExec
    rw [List.map_map]
    rfl
  unfold SeesLive
  rw [hmark]
  constructor
  · intro hsees
    refine hs.sub.eq_of_length_le (List.subperm_of_subset hs.nodup fun p hp => ?_).length_le
    obtain ⟨b, hb, rfl⟩ := List.mem_map.1 hp
    exact List.mem_filter.2 ⟨hsees b hb, by simpa using hs.nonnull b hb⟩
  · intro heq b hb
    have hroot : b.ptr ∈ roots s.mmapRegionHead := by
      rw [heq]
      exact List.mem_map_of_mem hb
    exact (List.mem_filter.1 hroot).1

/-- Where the collector sees all code, it does so behind a step exactly if the step is orderly. -/
theorem seesLive_step (hs : s.Safe) (hsees : SeesLive s) (h : execMem.Step s e t) :
    SeesLive t ↔ Orderly s e := by
  have ht := execMem_safe hs h
  obtain ⟨hen, hnext⟩ := h
  have hroots := (seesLive_iff hs).1 hsees
  cases e with
  | alloc minSize ptr newObj =>
      obtain rfl := Except.ok.inj hnext
      refine iff_of_true ((seesLive_iff ht).2 ?_) trivial
      cases newObj with
      | false => exact hroots
      | true =>
          cases ptr with
          | none =>
              show roots (⟨0, minSize⟩ :: s.mmapRegionHead) = s.live.map ExecBlock.ptr
              rw [roots_cons, if_pos rfl]
              exact hroots
          | some p =>
              show roots (⟨p, minSize⟩ :: s.mmapRegionHead) = p :: s.live.map ExecBlock.ptr
              rw [roots_cons, if_neg (hen p rfl).1, hroots]
  | free ptr size =>
      obtain rfl := Except.ok.inj hnext
      have hmem : (⟨ptr, size⟩ : ExecBlock) ∈ s.live := hen
      have hptr : ptr ≠ 0 := hs.nonnull _ hmem
      rw [seesLive_iff ht]
      show roots (unlinkRegion ptr s.mmapRegionHead) = (s.live.erase ⟨ptr, size⟩).map ExecBlock.ptr ↔
        s.live.head? = some ⟨ptr, size⟩
      have hnodup := hs.nodup
      cases hlive : s.live with
      | nil =>
          rw [hlive] at hmem
          cases hmem
      | cons b l =>
          rw [hlive] at hroots hmem hnodup
          rw [List.head?_cons, Option.some.injEq]
          by_cases hb : b = ⟨ptr, size⟩
          · rw [hb] at hroots ⊢
            rw [List.erase_cons_head]
            exact iff_of_true (roots_unlinkRegion_head hptr hroots) rfl
          · have hin : (⟨ptr, size⟩ : ExecBlock) ∈ l := (List.mem_cons.1 hmem).resolve_left fun h => hb h.symm
            have hfresh : b.ptr ∉ l.map ExecBlock.ptr := (List.nodup_cons.1 hnodup).1
            have hne : b.ptr ≠ ptr := fun h => hfresh (h ▸ List.mem_map_of_mem (f := ExecBlock.ptr) hin)
            have hsub := roots_unlinkRegion_other hptr hne hroots
            rw [List.erase_cons_tail (by simpa using hb)]
            -- the latest block is still in use, and off the list
            refine iff_of_false (fun heq => hfresh ?_) hb
            exact hsub.subset (heq ▸ List.mem_cons_self)

/-- In every run, the collector looks at blocks in use only, within their size, apart from null pointers of
failed mappings; and it sees all of them in every state exactly if each free is of the block in use that was
allocated last. -/
theorem exec_roots (hrun : execMem.Run ⟨[], []⟩ es s) :
    (∀ root ∈ mpUnixMarkExec s, root.1 ≠ 0 → ∃ b ∈ s.live, b.ptr = root.1 ∧
      8 * root.2.toNat ≤ b.size.toNat) ∧
    ((∀ es₁ es₂ t, es = es₁ ++ es₂ → execMem.Run ⟨[], []⟩ es₁ t → SeesLive t) ↔
      (execMem.restrict Orderly).Run ⟨[], []⟩ es s) := by
  have hnew : ExecMem.Safe ⟨[], []⟩ := ⟨List.nodup_nil, by simp, List.Sublist.refl _, by simp⟩
  have hsafe := hrun.invariant (fun _ _ _ hs h => execMem_safe hs h) hnew
  constructor
  · intro root hroot hne
    obtain ⟨rg, hrg, rfl⟩ := List.mem_map.1 hroot
    have hmem : rg.ptr ∈ (s.mmapRegionHead.map MmapRegion.ptr).filter (· ≠ 0) :=
      List.mem_filter.2 ⟨List.mem_map_of_mem hrg, by simpa using hne⟩
    obtain ⟨b, hb, hptr⟩ := List.mem_map.1 (hsafe.sub.subset hmem)
    refine ⟨b, hb, hptr, ?_⟩
    have hle := UInt64.le_iff_toNat_le.1 (hsafe.fits rg hrg b hb hptr)
    have hdiv : (rg.len / 8).toNat = rg.len.toNat / 8 := UInt64.toNat_div _ _
    have hmul := Nat.mul_div_le rg.len.toNat 8
    show 8 * (rg.len / 8).toNat ≤ _
    rw [hdiv]
    omega
  · exact Machine.Run.all_iff_restrict (fun _ _ _ hs h => execMem_safe hs h)
      (fun _ _ _ hs hsees h => seesLive_step hs hsees h) hrun hnew (List.forall_mem_nil _)

end Safe

/-- Two blocks, of which the first is freed: the second is in use, and the collector does not see it. -/
theorem exec_roots_lost : ∃ s, execMem.Run ⟨[], []⟩
      [.alloc 100 (some 4096) true, .alloc 5000 (some 65536) true, .free 4096 4096] s ∧
    mpUnixMarkExec s = [] ∧ s.live = [⟨65536, 8192⟩] ∧
    ¬ (execMem.restrict Orderly).Run ⟨[], []⟩
      [.alloc 100 (some 4096) true, .alloc 5000 (some 65536) true, .free 4096 4096] s := by
  have hexec := @Machine.Run.of_exec_any ExecMem ExecEvent Empty execMem _ ⟨[], []⟩
    [.alloc 100 (some 4096) true, .alloc 5000 (some 65536) true, .free 4096 4096]
    (fun s => mpUnixMarkExec s == [] && s.live == [⟨65536, 8192⟩]) (by decide +kernel)
  obtain ⟨s, hrun, hp⟩ := hexec
  obtain ⟨hmark, hlive⟩ := Bool.and_eq_true_iff.1 hp
  have hmark := beq_iff_eq.1 hmark
  have hlive := beq_iff_eq.1 hlive
  refine ⟨s, hrun, hmark, hlive, fun horderly => ?_⟩
  have hsees := (exec_roots hrun).2.2 horderly _ [] s (List.append_nil _).symm hrun
  unfold SeesLive at hsees
  rw [hmark, hlive] at hsees
  cases hsees _ List.mem_cons_self

end Minipython.Minios
