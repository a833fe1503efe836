/-
# Minipython.Lib.Ledger — what a program has acquired and released

A ledger lists the acquisitions and releases of a run in order. `Owns l T R` says that it concerns the
resources in `T`, that those in `R` are still held, and that every other was released as often as it was
acquired, which is once or never. A ledger that owns nothing is settled.

The rules follow the code: `Owns.acquire` and `Owns.release` for one more entry each, `Owns.append` for the
ledger of a callee, whose resources are its own.
-/
import Mathlib.Data.List.Count
import Mathlib.Data.List.Nodup
import Mathlib.Data.Set.BooleanAlgebra
import Mathlib.Data.Set.Disjoint
import Mathlib.Order.CompletePartialOrder

namespace Minipython.Lib

universe u

/-- One entry of a ledger. -/
inductive Entry (ρ : Type u) where
  | acquire (r : ρ)
  | release (r : ρ)
  deriving DecidableEq, Repr

namespace Ledger

variable {ρ : Type u} [DecidableEq ρ]

/-- The entries that acquire resources, in order. -/
def acquires (rs : List ρ) : List (Entry ρ) := rs.map .acquire

/-- The entries that release resources, in order. -/
def releases (rs : List ρ) : List (Entry ρ) := rs.map .release

/-- How often a resource was acquired. -/
def acquired (l : List (Entry ρ)) (r : ρ) : Nat := l.count (.acquire r)

/-- How often a resource was released. -/
def released (l : List (Entry ρ)) (r : ρ) : Nat := l.count (.release r)

/-- Every acquired resource was acquired once and released once, and no other was released. -/
def Settled (l : List (Entry ρ)) : Prop :=
  ∀ r, acquired l r ≤ 1 ∧ released l r = acquired l r

/-- The resource was acquired and is still held. -/
def Holds (l : List (Entry ρ)) (r : ρ) : Prop := acquired l r = 1 ∧ released l r = 0

/-- A ledger over the resources `T` that still holds those in `R`. -/
structure Owns (l : List (Entry ρ)) (T R : Set ρ) : Prop where
  outside : ∀ r ∉ T, acquired l r = 0
  held : ∀ r ∈ R, Holds l r
  settled : ∀ r ∉ R, acquired l r ≤ 1 ∧ released l r = acquired l r

section Counts

variable (l l' : List (Entry ρ)) (rs : List ρ) (r : ρ)

@[simp] theorem acquired_nil : acquired ([] : List (Entry ρ)) r = 0 := rfl
@[simp] theorem released_nil : released ([] : List (Entry ρ)) r = 0 := rfl

@[simp] theorem acquired_append : acquired (l ++ l') r = acquired l r + acquired l' r :=
  List.count_append

@[simp] theorem released_append : released (l ++ l') r = released l r + released l' r :=
  List.count_append

@[simp] theorem acquired_acquires : acquired (acquires rs) r = rs.count r := by
  induction rs with
  | nil => rfl
  | cons a rs ih =>
      unfold acquired acquires at *
      rw [List.map_cons, List.count_cons, List.count_cons, ih]
      simp

@[simp] theorem released_acquires : released (acquires rs) r = 0 := by
  apply List.count_eq_zero_of_not_mem
  simp [acquires]

@[simp] theorem acquired_releases : acquired (releases rs) r = 0 := by
  apply List.count_eq_zero_of_not_mem
  simp [releases]

@[simp] theorem released_releases : released (releases rs) r = rs.count r := by
  induction rs with
  | nil => rfl
  | cons a rs ih =>
      unfold released releases at *
      rw [List.map_cons, List.count_cons, List.count_cons, ih]
      simp

end Counts

section Owns

variable {l l' : List (Entry ρ)} {T T' R R' : Set ρ} {rs : List ρ}

theorem Owns.nil : Owns ([] : List (Entry ρ)) T ∅ where
  outside := fun _ _ => rfl
  held := fun _ hr => hr.elim
  settled := fun _ _ => ⟨Nat.zero_le _, rfl⟩

theorem Owns.to_settled (h : Owns l T ∅) : Settled l := fun r => h.settled r (Set.notMem_empty r)

/-- What is held lies within what the ledger is about. -/
theorem Owns.subset (h : Owns l T R) : R ⊆ T := by
  intro r hr
  by_contra hT
  have := h.outside r hT
  have := (h.held r hr).1
  omega

theorem Owns.untouched (h : Owns l T R) {r : ρ} (hr : r ∉ T) : acquired l r = 0 ∧ released l r = 0 := by
  have h0 := h.outside r hr
  refine ⟨h0, ?_⟩
  rw [(h.settled r fun hR => hr (h.subset hR)).2, h0]

theorem Owns.congr (h : Owns l T R) (hT : T ⊆ T') (hR : ∀ r, r ∈ R ↔ r ∈ R') : Owns l T' R' where
  outside := fun r hr => h.outside r fun hT' => hr (hT hT')
  held := fun r hr => h.held r ((hR r).2 hr)
  settled := fun r hr => h.settled r fun hR' => hr ((hR r).1 hR')

theorem Owns.append (h : Owns l T R) (h' : Owns l' T' R') (hd : Disjoint T T') :
    Owns (l ++ l') (T ∪ T') (R ∪ R') := by
  refine ⟨fun r hr => ?_, fun r hr => ?_, fun r hr => ?_⟩
  · rw [Set.mem_union, not_or] at hr
    rw [acquired_append, h.outside r hr.1, h'.outside r hr.2]
  · unfold Holds
    rw [acquired_append, released_append]
    rcases hr with hr | hr
    · obtain ⟨h0, h0'⟩ := h'.untouched (Set.disjoint_left.1 hd (h.subset hr))
      obtain ⟨h1, h1'⟩ := h.held r hr
      omega
    · obtain ⟨h0, h0'⟩ := h.untouched (Set.disjoint_right.1 hd (h'.subset hr))
      obtain ⟨h1, h1'⟩ := h'.held r hr
      omega
  · rw [Set.mem_union, not_or] at hr
    rw [acquired_append, released_append]
    have hs := h.settled r hr.1
    have hs' := h'.settled r hr.2
    by_cases hT : r ∈ T
    · obtain ⟨h0, h0'⟩ := h'.untouched (Set.disjoint_left.1 hd hT)
      omega
    · obtain ⟨h0, h0'⟩ := h.untouched hT
      omega

/-- Acquiring a list of resources. -/
theorem Owns.acquires (hrs : rs.Nodup) : Owns (acquires rs) {r | r ∈ rs} {r | r ∈ rs} := by
  refine ⟨fun r hr => ?_, fun r hr => ?_, fun r hr => ?_⟩
  · rw [acquired_acquires, List.count_eq_zero_of_not_mem hr]
  · exact ⟨by rw [acquired_acquires, List.count_eq_one_of_mem hrs hr], released_acquires rs r⟩
  · rw [acquired_acquires, released_acquires, List.count_eq_zero_of_not_mem hr]
    exact ⟨Nat.zero_le _, rfl⟩

/-- Acquiring more, all of it new. -/
theorem Owns.acquire (h : Owns l T R) (hrs : rs.Nodup) (hnew : ∀ r ∈ rs, r ∉ T) :
    Owns (l ++ Ledger.acquires rs) (T ∪ {r | r ∈ rs}) (R ∪ {r | r ∈ rs}) :=
  h.append (Owns.acquires hrs) (Set.disjoint_right.2 hnew)

/-- Releasing resources that are held, each once. -/
theorem Owns.release (h : Owns l T R) (hrs : rs.Nodup) (hsub : ∀ r ∈ rs, r ∈ R) :
    Owns (l ++ releases rs) T (R \ {r | r ∈ rs}) := by
  refine ⟨fun r hr => ?_, fun r hr => ?_, fun r hr => ?_⟩
  · rw [acquired_append, acquired_releases, h.outside r hr]
  · obtain ⟨h1, h0⟩ := h.held r hr.1
    unfold Holds
    rw [acquired_append, acquired_releases, released_append, released_releases,
      List.count_eq_zero_of_not_mem hr.2]
    exact ⟨h1, h0⟩
  · rw [acquired_append, acquired_releases, released_append, released_releases]
    by_cases hmem : r ∈ rs
    · obtain ⟨h1, h0⟩ := h.held r (hsub r hmem)
      rw [List.count_eq_one_of_mem hrs hmem]
      omega
    · have hs := h.settled r fun hR => hr ⟨hR, hmem⟩
      rw [List.count_eq_zero_of_not_mem hmem]
      omega

/-- Releasing a resource twice settles nothing. -/
theorem Owns.not_settled (h : Owns l T R) {r : ρ} (hr : r ∈ R) (hcount : rs.count r ≠ 1) :
    ¬ Settled (l ++ releases rs) := by
  intro hs
  obtain ⟨h1, h0⟩ := h.held r hr
  have := (hs r).2
  rw [acquired_append, acquired_releases, released_append, released_releases] at this
  omega

end Owns

end Ledger

end Minipython.Lib
