/-
# Minipython.Lib.Pick — the elements of a list in the order of their keys

`pick key us xs` goes through the keys `us` and takes, for each, every element of `xs` that has it. It is
a rearrangement of `xs` along `us` exactly if neither list repeats a key and both have the same ones, and
this can be told from what was picked alone: no key twice, as many elements as `xs` and as `us` have.
-/
import Mathlib.Data.List.Nodup
import Mathlib.Data.List.Perm.Subperm

namespace Minipython.Lib

universe u v

variable {α : Type u} {κ : Type v} [DecidableEq κ]

/-- The elements of `xs` whose keys are in `us`, in the order of `us`. -/
def pick (key : α → κ) (us : List κ) (xs : List α) : List α :=
  us.flatMap fun u => xs.filter fun x => u = key x

/-- Every key of `us` belongs to one element of `xs`, and every element to one key. -/
def Keyed (key : α → κ) (us : List κ) (xs : List α) : Prop :=
  us.Nodup ∧ us.Perm (xs.map key)

section Pick

variable {key : α → κ} {us : List κ} {xs : List α}

@[simp] theorem pick_nil : pick key [] xs = [] := rfl

@[simp] theorem pick_cons (u : κ) :
    pick key (u :: us) xs = (xs.filter fun x => u = key x) ++ pick key us xs := rfl

theorem mem_pick {x : α} : x ∈ pick key us xs ↔ x ∈ xs ∧ key x ∈ us := by
  simp only [pick, List.mem_flatMap, List.mem_filter, decide_eq_true_eq]
  constructor
  · rintro ⟨u, hu, hx, rfl⟩
    exact ⟨hx, hu⟩
  · rintro ⟨hx, hu⟩
    exact ⟨key x, hu, hx, rfl⟩

/-- The keys of one key's elements are that key again and again. -/
theorem map_filter_key (u : κ) :
    (xs.filter fun x => u = key x).map key = List.replicate (xs.filter fun x => u = key x).length u := by
  rw [List.eq_replicate_iff]
  refine ⟨List.length_map key, fun k hk => ?_⟩
  obtain ⟨x, hx, rfl⟩ := List.mem_map.1 hk
  exact (of_decide_eq_true (List.mem_filter.1 hx).2).symm

/-- Without a repetition, the keys of what was picked are some of `us`, in order. -/
theorem pick_keys_sublist (h : ((pick key us xs).map key).Nodup) :
    ((pick key us xs).map key).Sublist us := by
  induction us with
  | nil => simp
  | cons u us ih =>
      rw [pick_cons, List.map_append] at h ⊢
      have hrest := ih (List.Nodup.of_append_right h)
      have hone := List.Nodup.of_append_left h
      rw [map_filter_key] at hone ⊢
      rw [List.nodup_replicate] at hone
      rcases Nat.le_one_iff_eq_zero_or_eq_one.1 hone with h0 | h1
      · rw [h0]
        exact hrest.cons u
      · rw [h1]
        exact hrest.cons_cons u

/-- Where no element repeats a key, a key stands for the one that is found first. -/
theorem filter_eq_find (h : (xs.map key).Nodup) (u : κ) :
    (xs.filter fun x => u = key x) = (xs.find? fun x => u = key x).toList := by
  induction xs with
  | nil => rfl
  | cons x xs ih =>
      obtain ⟨hnot, hrest⟩ := List.nodup_cons.1 h
      by_cases hx : u = key x
      · have hnone : (xs.filter fun y => u = key y) = [] := by
          rw [List.filter_eq_nil_iff]
          intro y hy hkey
          apply hnot
          rw [← hx, of_decide_eq_true hkey]
          exact List.mem_map_of_mem hy
        have hpos : (decide (u = key x)) = true := decide_eq_true hx
        rw [List.filter_cons, List.find?_cons, if_pos hpos, hpos, hnone]
        rfl
      · simpa [hx] using ih hrest

theorem pick_eq_filterMap (h : (xs.map key).Nodup) :
    pick key us xs = us.filterMap fun u => xs.find? fun x => u = key x := by
  induction us with
  | nil => rfl
  | cons u us ih =>
      rw [pick_cons, ih, filter_eq_find h, List.filterMap_cons]
      cases xs.find? fun x => u = key x with
      | none => rfl
      | some x => rfl

/-- A rearrangement of `xs` along `us`. -/
theorem Keyed.keys (h : Keyed key us xs) : (pick key us xs).map key = us := by
  obtain ⟨hus, hperm⟩ := h
  have hxs : (xs.map key).Nodup := hperm.nodup_iff.1 hus
  rw [pick_eq_filterMap hxs, List.map_filterMap]
  have hall : ∀ u ∈ us, (xs.find? fun x => u = key x).map key = some u := by
    intro u hu
    obtain ⟨x, hx, rfl⟩ := List.mem_map.1 (hperm.mem_iff.1 hu)
    have hsome : (xs.find? fun y => key x = key y).isSome := by
      rw [List.find?_isSome]
      exact ⟨x, hx, by simp⟩
    obtain ⟨y, hy⟩ := Option.isSome_iff_exists.1 hsome
    have hkey := List.find?_some hy
    rw [hy, Option.map_some, ← of_decide_eq_true hkey]
  calc us.filterMap (fun u => (xs.find? fun x => u = key x).map key)
      = us.filterMap some := List.filterMap_congr hall
    _ = us := List.filterMap_some

theorem Keyed.perm (h : Keyed key us xs) : (pick key us xs).Perm xs := by
  have hnodup : (pick key us xs).Nodup := by
    apply List.Nodup.of_map key
    rw [h.keys]
    exact h.1
  have hlen : xs.length = (pick key us xs).length := by
    rw [← List.length_map key, ← h.2.length_eq, ← List.length_map key, h.keys]
  refine List.Subperm.perm_of_length_le (List.subperm_of_subset hnodup ?_) (Nat.le_of_eq hlen)
  intro x hx
  exact (mem_pick.1 hx).1

/-- What was picked tells whether the keys fit. -/
theorem keyed_iff_pick : Keyed key us xs ↔
    ((pick key us xs).map key).Nodup ∧ (pick key us xs).length = xs.length ∧
      (pick key us xs).length = us.length := by
  constructor
  · intro h
    refine ⟨by rw [h.keys]; exact h.1, h.perm.length_eq, ?_⟩
    rw [← List.length_map key, h.keys]
  · rintro ⟨hnodup, hxs, hus⟩
    have hkeys : (pick key us xs).map key = us := by
      refine (pick_keys_sublist hnodup).eq_of_length ?_
      rw [List.length_map, hus]
    have hperm : (pick key us xs).Perm xs := by
      refine List.Subperm.perm_of_length_le (List.subperm_of_subset (List.Nodup.of_map key hnodup) ?_)
        (Nat.le_of_eq hxs.symm)
      intro x hx
      exact (mem_pick.1 hx).1
    have hmap := hperm.map key
    rw [hkeys] at hmap hnodup
    exact ⟨hnodup, hmap⟩

end Pick

end Minipython.Lib
