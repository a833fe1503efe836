/-
# Minipython.Lib.Loops — loops that are given a number of turns

A loop without a bound is run with a number of turns. It returns a result if it does so with any number of turns
from some one on (`Returns`), and then it returns no other.

`for (; i < n; i += step)` with an 8-bit `i` ends unless the counter wraps. `forLoop` is given a number of
turns and fails behind them, so a result says that the loop ends. A body may leave the function, with a
result.

`forLoop_rule` is the rule for such a loop: an invariant that the body keeps as long as the counter is below
the bound, and a bound far enough from the end of the counter.
-/
import Mathlib.Data.Nat.Basic
import Mathlib.Order.Basic

namespace Minipython.Lib

universe u v w

/-! ## Loops that return -/

section Returns

variable {α : Type u}

/-- With enough turns the loop ends with `x`. -/
def Returns (loop : Nat → Option α) (x : α) : Prop := ∃ n, ∀ fuel, n ≤ fuel → loop fuel = some x

theorem Returns.unique {loop : Nat → Option α} {x y : α} (hx : Returns loop x) (hy : Returns loop y) :
    x = y := by
  obtain ⟨m, hm⟩ := hx
  obtain ⟨n, hn⟩ := hy
  have h := (hm (max m n) (Nat.le_max_left m n)).symm.trans (hn (max m n) (Nat.le_max_right m n))
  exact Option.some.inj h

/-- A loop that returns has a property of its result if and only if the result that is known has it. -/
theorem Returns.exists_iff {loop : Nat → Option α} {x : α} (h : Returns loop x) {P : α → Prop} :
    (∃ y, Returns loop y ∧ P y) ↔ P x := by
  constructor
  · rintro ⟨y, hy, hP⟩
    rwa [h.unique hy]
  · exact fun hP => ⟨x, h, hP⟩

end Returns

/-! ## Loops over an 8-bit counter -/

section For

variable {φ : Type u} {σ : Type v} {ρ : Type v}

/-- The loop from the counter `i` on. It is `.inl` with what the body returned, or `.inr` with the counter and
the state behind the loop. -/
def forLoop (endless : φ) (step n : UInt8) (body : Nat → σ → Except φ (ρ ⊕ σ)) :
    Nat → UInt8 → σ → Except φ (ρ ⊕ (UInt8 × σ))
  | 0, _, _ => .error endless
  | k + 1, i, s =>
      if i < n then
        match body i.toNat s with
        | .error f => .error f
        | .ok (.inl r) => .ok (.inl r)
        | .ok (.inr s) => forLoop endless step n body k (i + step) s
      else .ok (.inr (i, s))

/-- The turns that a loop can take before its counter comes back. -/
def counterTurns : Nat := 257

/-- What a loop whose body keeps `I`, or returns with `R`, leaves. -/
def LoopEnd (n : UInt8) (I : Nat → σ → Prop) (R : ρ → Prop) : ρ ⊕ (UInt8 × σ) → Prop
  | .inl r => R r
  | .inr (i, s) => n.toNat ≤ i.toNat ∧ I i.toNat s

/-- A loop under an invariant. -/
theorem forLoop_rule {endless : φ} {step n : UInt8} {body : Nat → σ → Except φ (ρ ⊕ σ)}
    (I : Nat → σ → Prop) (R : ρ → Prop)
    (hbody : ∀ i s, i < n.toNat → I i s → (∃ r, body i s = .ok (.inl r) ∧ R r) ∨
      ∃ s', body i s = .ok (.inr s') ∧ I (i + step.toNat) s')
    (hstep : 0 < step.toNat) (hfit : n.toNat + step.toNat ≤ 256) {k : Nat} {i : UInt8} {s : σ}
    (hk : n.toNat - i.toNat < k) (hI : I i.toNat s) :
    ∃ x, forLoop endless step n body k i s = .ok x ∧ LoopEnd n I R x := by
  induction k generalizing i s with
  | zero => exact absurd hk (Nat.not_lt_zero _)
  | succ k ih =>
      rw [forLoop]
      by_cases hlt : i < n
      · have hlt' : i.toNat < n.toNat := UInt8.lt_iff_toNat_lt.1 hlt
        -- the counter does not wrap below the bound
        have hnext : (i + step).toNat = i.toNat + step.toNat := by
          rw [UInt8.toNat_add]
          apply Nat.mod_eq_of_lt
          omega
        rw [if_pos hlt]
        rcases hbody i.toNat s hlt' hI with ⟨r, hr, hR⟩ | ⟨s', hs', hI'⟩
        · exact ⟨.inl r, by rw [hr], hR⟩
        · rw [← hnext] at hI'
          rw [hs']
          exact ih (by omega) hI'
      · rw [if_neg hlt]
        exact ⟨.inr (i, s), rfl, Nat.not_lt.1 fun h => hlt (UInt8.lt_iff_toNat_lt.2 h), hI⟩

end For

end Minipython.Lib
