/-
# Minipython.Lib.Accounts — accounts that follow their holders

A seat is held by a key or by nobody, and keeps one account. The accounts of keys that hold no seat are in a
store. When the holder of a seat changes, the account of the old one goes to the store, and a key that takes a
free seat brings its account from there.

`Kept b total` says that every key has its account in one place, and that the account is `total`. Each
operation has a rule that says exactly when it keeps the books.
-/
import Mathlib.Algebra.Group.Basic
import Mathlib.Logic.Function.Basic
import Mathlib.Order.Basic

namespace Minipython.Lib

universe u v w

/-- Seats with their holders and accounts, and the accounts in the store. -/
structure Books (ι : Type u) (κ : Type v) (α : Type w) where
  holder : ι → Option κ
  account : ι → α
  store : κ → Option α

namespace Books

variable {ι : Type u} {κ : Type v} {α : Type w}

/-- The account of a seat is written. -/
def post [DecidableEq ι] (b : Books ι κ α) (i : ι) (y : α) : Books ι κ α :=
  { b with account := Function.update b.account i y }

/-- An account in the store is written. -/
def postStore [DecidableEq κ] (b : Books ι κ α) (k : κ) (y : α) : Books ι κ α :=
  { b with store := Function.update b.store k (some y) }

/-- The holder of a seat changes. -/
def replace [DecidableEq ι] [DecidableEq κ] [Zero α] (b : Books ι κ α) (i : ι) (new : Option κ) :
    Books ι κ α :=
  match b.holder i, new with
  | some c, _ =>
      { holder := Function.update b.holder i new
        account := Function.update b.account i 0
        store := Function.update b.store c (some (b.account i)) }
  | none, some n =>
      { holder := Function.update b.holder i new
        account := Function.update b.account i ((b.store n).getD 0)
        store := Function.update b.store n none }
  | none, none => b

/-- Every key has its account in one place, and it is `total`. -/
structure Kept [Zero α] (b : Books ι κ α) (total : κ → α) : Prop where
  single : ∀ i j k, b.holder i = some k → b.holder j = some k → i = j
  apart : ∀ i k, b.holder i = some k → b.store k = none
  seated : ∀ i k, b.holder i = some k → b.account i = total k
  stored : ∀ k, (∀ i, b.holder i ≠ some k) → (b.store k).getD 0 = total k

open Classical in
/-- The account of a key, in its seat if it holds one. -/
noncomputable def located [Zero α] (b : Books ι κ α) (k : κ) : α :=
  if h : ∃ i, b.holder i = some k then b.account h.choose else (b.store k).getD 0

section Places

variable [Zero α] {b b' : Books ι κ α} {total total' : κ → α}

theorem Kept.located_eq (h : Kept b total) (k : κ) : b.located k = total k := by
  unfold located
  by_cases hk : ∃ i, b.holder i = some k
  · rw [dif_pos hk]
    exact h.seated _ k hk.choose_spec
  · rw [dif_neg hk]
    exact h.stored k fun i hi => hk ⟨i, hi⟩

/-- Accounts that only grow are never found smaller. -/
theorem Kept.located_le [LE α] (h : Kept b total) (h' : Kept b' total')
    (hle : ∀ k, total k ≤ total' k) (k : κ) : b.located k ≤ b'.located k := by
  rw [h.located_eq, h'.located_eq]
  exact hle k

/-- Books without any entry are kept as long as no key holds two seats. -/
theorem kept_empty (ha : ∀ i, b.account i = 0) (hs : ∀ k, b.store k = none) :
    Kept b (fun _ => 0) ↔ ∀ i j k, b.holder i = some k → b.holder j = some k → i = j := by
  constructor
  · exact Kept.single
  · intro h
    exact ⟨h, fun _ k _ => hs k, fun i _ _ => ha i, fun k _ => by rw [hs]; rfl⟩

end Places

/-! ## Crediting an account -/

section Post

variable [DecidableEq ι] [Zero α] {b : Books ι κ α} {total : κ → α} {i : ι} {k : κ} {x y : α}

/-- The account of a seat that nobody holds does not matter. -/
theorem kept_post_void (hi : b.holder i = none) : Kept (b.post i y) total ↔ Kept b total := by
  have hacc : ∀ j k, b.holder j = some k → (b.post i y).account j = b.account j := by
    intro j k hj
    have hji : j ≠ i := by
      rintro rfl
      rw [hi] at hj
      cases hj
    exact Function.update_of_ne hji _ _
  constructor
  · intro h
    exact ⟨h.single, h.apart, fun j k hj => (hacc j k hj).symm.trans (h.seated j k hj), h.stored⟩
  · intro h
    exact ⟨h.single, h.apart, fun j k hj => (hacc j k hj).trans (h.seated j k hj), h.stored⟩

/-- Crediting the holder of a seat. -/
theorem Kept.post_iff [DecidableEq κ] [Add α] (h : Kept b total) (hk : b.holder i = some k) :
    Kept (b.post i y) (Function.update total k (total k + x)) ↔ y = b.account i + x := by
  rw [h.seated i k hk]
  constructor
  · intro h'
    have hs := h'.seated i k hk
    simpa [post] using hs
  · rintro rfl
    refine ⟨h.single, h.apart, fun j k' hj => ?_, fun k' hk' => ?_⟩
    · show Function.update b.account i (total k + x) j = _
      have hj : b.holder j = some k' := hj
      by_cases hji : j = i
      · subst hji
        obtain rfl : k = k' := Option.some.inj (hk.symm.trans hj)
        rw [Function.update_self, Function.update_self]
      · have hne : k' ≠ k := fun he => hji (h.single j i k (he ▸ hj) hk)
        rw [Function.update_of_ne hji, Function.update_of_ne hne]
        exact h.seated j k' hj
    · have hne : k' ≠ k := fun he => hk' i (he ▸ hk)
      rw [Function.update_of_ne hne]
      exact h.stored k' hk'

end Post

/-- Crediting a key in the store. -/
theorem Kept.postStore_iff [DecidableEq κ] [Zero α] [Add α] {b : Books ι κ α} {total : κ → α} {k : κ}
    {x y : α} (h : Kept b total) : Kept (b.postStore k y) (Function.update total k (total k + x)) ↔
      (∀ i, b.holder i ≠ some k) ∧ y = (b.store k).getD 0 + x := by
  have hself : (b.postStore k y).store k = some y := by
    show Function.update b.store k (some y) k = some y
    rw [Function.update_self]
  have hother : ∀ k', k' ≠ k → (b.postStore k y).store k' = b.store k' := fun k' hk' =>
    Function.update_of_ne hk' _ _
  constructor
  · intro h'
    have hfree : ∀ i, b.holder i ≠ some k := by
      intro i hi
      have hnone := h'.apart i k hi
      rw [hself] at hnone
      cases hnone
    have hs := h'.stored k hfree
    rw [hself, Function.update_self, ← h.stored k hfree] at hs
    exact ⟨hfree, hs⟩
  · rintro ⟨hfree, rfl⟩
    have hne : ∀ i k', b.holder i = some k' → k' ≠ k := fun i k' hi he => hfree i (he ▸ hi)
    refine ⟨h.single, fun i k' hi => ?_, fun i k' hi => ?_, fun k' hk' => ?_⟩
    · rw [hother k' (hne i k' hi)]
      exact h.apart i k' hi
    · rw [Function.update_of_ne (hne i k' hi)]
      exact h.seated i k' hi
    · by_cases he : k' = k
      · subst he
        rw [hself, Function.update_self, ← h.stored k' hfree]
        rfl
      · rw [hother k' he, Function.update_of_ne he]
        exact h.stored k' hk'

/-! ## A new holder -/

section Seats

variable [DecidableEq ι] {b : Books ι κ α} {i j : ι} {k : κ} {new : Option κ}

/-- A seat is held by its new holder, or by the one it had. -/
theorem holder_update (h : Function.update b.holder i new j = some k) :
    j = i ∧ new = some k ∨ j ≠ i ∧ b.holder j = some k := by
  by_cases hj : j = i
  · subst hj
    rw [Function.update_self] at h
    exact .inl ⟨rfl, h⟩
  · rw [Function.update_of_ne hj] at h
    exact .inr ⟨hj, h⟩

/-- The new holder has one seat if it had none. -/
theorem Kept.replace_single [Zero α] {total : κ → α} (h : Kept b total)
    (hnew : ∀ n, new = some n → ∀ j, b.holder j ≠ some n) (j j' : ι) (k : κ)
    (hj : Function.update b.holder i new j = some k)
    (hj' : Function.update b.holder i new j' = some k) : j = j' := by
  rcases holder_update hj with ⟨hji, hk⟩ | ⟨-, hold⟩
  · rcases holder_update hj' with ⟨hji', -⟩ | ⟨-, hold'⟩
    · exact hji.trans hji'.symm
    · exact absurd hold' (hnew k hk j')
  · rcases holder_update hj' with ⟨-, hk'⟩ | ⟨-, hold'⟩
    · exact absurd hold (hnew k hk' j)
    · exact h.single j j' k hold hold'

/-- A key that holds no seat behind the change and is not the holder replaced held none before. -/
theorem unseated (hi : b.holder i ≠ some k) (hk : ∀ j, Function.update b.holder i new j ≠ some k) (j : ι) :
    b.holder j ≠ some k := by
  intro hj
  have hji : j ≠ i := fun he => hi (he ▸ hj)
  refine hk j ?_
  rw [Function.update_of_ne hji]
  exact hj

end Seats

section Replace

variable [DecidableEq ι] [DecidableEq κ] [Zero α] {b : Books ι κ α} {total : κ → α} {i j : ι} {k c n : κ}
  {new : Option κ}

theorem replace_held (hc : b.holder i = some c) : b.replace i new =
    { holder := Function.update b.holder i new
      account := Function.update b.account i 0
      store := Function.update b.store c (some (b.account i)) } := by
  unfold replace
  rw [hc]

theorem replace_free (hi : b.holder i = none) : b.replace i (some n) =
    { holder := Function.update b.holder i (some n)
      account := Function.update b.account i ((b.store n).getD 0)
      store := Function.update b.store n none } := by
  unfold replace
  rw [hi]

/-- Who holds which seat behind a change. -/
theorem replace_holder (hne : b.holder i ≠ new) :
    (b.replace i new).holder = Function.update b.holder i new := by
  cases hi : b.holder i with
  | some c => rw [replace_held hi]
  | none =>
      cases new with
      | some n => rw [replace_free hi]
      | none => exact absurd hi hne

/-- The holder of a seat leaves it, and its account goes to the store. -/
theorem Kept.replace_held_kept (h : Kept b total) (hc : b.holder i = some c)
    (hnew : ∀ n, new = some n → (∀ j, b.holder j ≠ some n) ∧ b.store n = none) :
    Kept (b.replace i new) total := by
  rw [replace_held hc]
  have hother : ∀ j k, Function.update b.holder i new j = some k → k ≠ c := by
    rintro j k hj rfl
    rcases holder_update hj with ⟨-, hk⟩ | ⟨hji, hold⟩
    · exact (hnew k hk).1 i hc
    · exact hji (h.single j i k hold hc)
  constructor
  case single => exact h.replace_single fun n hn => (hnew n hn).1
  case apart =>
      intro j k hj
      show Function.update b.store c _ k = none
      rw [Function.update_of_ne (hother j k hj)]
      rcases holder_update hj with ⟨-, hk⟩ | ⟨-, hold⟩
      · exact (hnew k hk).2
      · exact h.apart j k hold
  case seated =>
      intro j k hj
      show Function.update b.account i 0 j = total k
      rcases holder_update hj with ⟨rfl, hk⟩ | ⟨hji, hold⟩
      · rw [Function.update_self, ← h.stored k (hnew k hk).1, (hnew k hk).2]
        rfl
      · rw [Function.update_of_ne hji]
        exact h.seated j k hold
  case stored =>
      intro k hk
      show (Function.update b.store c (some (b.account i)) k).getD 0 = total k
      by_cases hkc : k = c
      · subst hkc
        rw [Function.update_self]
        exact h.seated i k hc
      · rw [Function.update_of_ne hkc]
        exact h.stored k (unseated (fun he => hkc (Option.some.inj (he.symm.trans hc))) hk)

/-- A key takes a free seat and brings its account from the store. -/
theorem Kept.replace_free_kept (h : Kept b total) (hi : b.holder i = none)
    (hnew : ∀ j, b.holder j ≠ some n) : Kept (b.replace i (some n)) total := by
  rw [replace_free hi]
  constructor
  case single =>
      refine h.replace_single ?_
      rintro _ ⟨⟩
      exact hnew
  case apart =>
      intro j k hj
      show Function.update b.store n none k = none
      by_cases hkn : k = n
      · rw [hkn, Function.update_self]
      · rw [Function.update_of_ne hkn]
        rcases holder_update hj with ⟨-, hk⟩ | ⟨-, hold⟩
        · exact absurd (Option.some.inj hk).symm hkn
        · exact h.apart j k hold
  case seated =>
      intro j k hj
      show Function.update b.account i ((b.store n).getD 0) j = total k
      rcases holder_update hj with ⟨rfl, hk⟩ | ⟨hji, hold⟩
      · obtain rfl := Option.some.inj hk
        rw [Function.update_self]
        exact h.stored n hnew
      · rw [Function.update_of_ne hji]
        exact h.seated j k hold
  case stored =>
      intro k hk
      show (Function.update b.store n none k).getD 0 = total k
      have hkn : k ≠ n := by
        rintro rfl
        exact hk i (Function.update_self _ _ _)
      rw [Function.update_of_ne hkn]
      exact h.stored k (unseated (by rw [hi]; exact fun he => by cases he) hk)

/-- A change of holder keeps the books exactly if the new holder had no seat, and no account in the store
either unless the seat was free. -/
theorem Kept.replace_iff (h : Kept b total) (hne : b.holder i ≠ new) :
    Kept (b.replace i new) total ↔ ∀ n, new = some n →
      (∀ j, b.holder j ≠ some n) ∧ (b.holder i = none ∨ b.store n = none) := by
  constructor
  · rintro h' n rfl
    have hholder := replace_holder hne
    have hi : (b.replace i (some n)).holder i = some n := by rw [hholder, Function.update_self]
    refine ⟨fun j hj => ?_, ?_⟩
    · -- the new holder would have two seats
      have hji : j ≠ i := fun he => hne (he ▸ hj)
      have hj' : (b.replace i (some n)).holder j = some n := by
        rw [hholder, Function.update_of_ne hji, hj]
      exact hji (h'.single j i n hj' hi)
    · cases hc : b.holder i with
      | none => exact .inl rfl
      | some c =>
          have hnone := h'.apart i n hi
          have hnc : n ≠ c := fun he => hne (he ▸ hc)
          rw [replace_held hc] at hnone
          exact .inr ((Function.update_of_ne hnc _ _).symm.trans hnone)
  · intro hnew
    cases hc : b.holder i with
    | some c =>
        refine h.replace_held_kept hc fun n hn => ⟨(hnew n hn).1, ((hnew n hn).2).resolve_left ?_⟩
        rw [hc]
        exact Option.some_ne_none c
    | none =>
        cases new with
        | none => exact absurd hc hne
        | some n => exact h.replace_free_kept hc (hnew n rfl).1

end Replace

end Books

end Minipython.Lib
