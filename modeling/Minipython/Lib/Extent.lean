/-
# Minipython.Lib.Extent — half-open ranges and lists of them

Two extents are `Apart` when one ends before the other begins. An empty extent is apart from another
unless it lies strictly inside, so it still keeps others from growing over it.

`Packed` says that the extents of a list are pairwise apart; being symmetric it does not depend on the
order of the list. `insertByStart` keeps a list sorted by start, an extent behind those with the same
start.
-/
import Mathlib.Data.List.Perm.Basic
import Mathlib.Data.Nat.Basic
import Mathlib.Order.Defs.LinearOrder
import Mathlib.Order.Basic
import Mathlib.Order.Lattice

namespace Minipython.Lib

universe u

/-- The values from `start` to before `stop`. -/
structure Extent (α : Type u) where
  start : α
  stop : α
  deriving DecidableEq, Repr

namespace Extent

variable {α : Type u} [LinearOrder α]

/-- One of the two ends before the other begins. -/
def Apart (a b : Extent α) : Prop := a.stop ≤ b.start ∨ b.stop ≤ a.start

theorem Apart.symm {a b : Extent α} (h : Apart a b) : Apart b a := Or.symm h

instance : Std.Symm (α := Extent α) Apart := ⟨fun _ _ h => h.symm⟩

/-- One extent lies in another. -/
def Within (a b : Extent α) : Prop := b.start ≤ a.start ∧ a.stop ≤ b.stop

theorem Within.trans {a b c : Extent α} (h : Within a b) (h' : Within b c) : Within a c :=
  ⟨h'.1.trans h.1, h.2.trans h'.2⟩

/-- What lies in extents that are apart is apart. -/
theorem Apart.mono {a b a' b' : Extent α} (h : Apart a b) (ha : Within a' a) (hb : Within b' b) :
    Apart a' b' := by
  rcases h with h | h
  · exact Or.inl (ha.2.trans (h.trans hb.1))
  · exact Or.inr (hb.2.trans (h.trans ha.1))

/-- The extents of a list are pairwise apart. -/
def Packed (l : List (Extent α)) : Prop := l.Pairwise Apart

/-- The extents of a list are in the order of their starts. -/
def Sorted (l : List (Extent α)) : Prop := l.Pairwise fun a b => a.start ≤ b.start

theorem Packed.perm {l l' : List (Extent α)} (h : Packed l) (hp : l.Perm l') : Packed l' :=
  (hp.pairwise_iff fun h => Apart.symm h).1 h

theorem Packed.sublist {l l' : List (Extent α)} (h : Packed l) (hs : l'.Sublist l) : Packed l' :=
  List.Pairwise.sublist hs h

theorem Packed.subperm {l l' : List (Extent α)} (h : Packed l) (hs : l'.Subperm l) : Packed l' := by
  obtain ⟨m, hperm, hsub⟩ := hs
  exact (h.sublist hsub).perm hperm

/-- An extent that is apart from all of a packed list can join it. -/
theorem Packed.cons {l : List (Extent α)} {e : Extent α} (h : Packed l) (he : ∀ a ∈ l, Apart a e) :
    Packed (e :: l) :=
  List.pairwise_cons.2 ⟨fun a ha => (he a ha).symm, h⟩

/-! ## Sorted insertion -/

/-- Insert in front of the first extent that starts later. -/
def insertByStart (e : Extent α) : List (Extent α) → List (Extent α)
  | [] => [e]
  | a :: l => if a.start ≤ e.start then a :: insertByStart e l else e :: a :: l

theorem insertByStart_perm (e : Extent α) (l : List (Extent α)) :
    (insertByStart e l).Perm (e :: l) := by
  induction l with
  | nil => exact List.Perm.refl _
  | cons a l ih =>
      rw [insertByStart]
      split
      · exact (ih.cons a).trans (List.Perm.swap e a l)
      · exact List.Perm.refl _

theorem mem_insertByStart {e a : Extent α} {l : List (Extent α)} :
    a ∈ insertByStart e l ↔ a = e ∨ a ∈ l := by
  rw [(insertByStart_perm e l).mem_iff, List.mem_cons]

theorem Sorted.insertByStart {l : List (Extent α)} (h : Sorted l) (e : Extent α) :
    Sorted (insertByStart e l) := by
  induction l with
  | nil => exact List.pairwise_singleton _ _
  | cons a l ih =>
      obtain ⟨hhead, htail⟩ := List.pairwise_cons.1 h
      rw [Extent.insertByStart]
      split
      · rename_i hle
        refine List.pairwise_cons.2 ⟨fun b hb => ?_, ih htail⟩
        obtain rfl | hb := mem_insertByStart.1 hb
        · exact hle
        · exact hhead b hb
      · rename_i hlt
        have hlt := le_of_lt (not_le.1 hlt)
        refine List.pairwise_cons.2 ⟨fun b hb => ?_, h⟩
        obtain rfl | hb := List.mem_cons.1 hb
        · exact hlt
        · exact le_trans hlt (hhead b hb)

/-- Behind all others when it starts no earlier. -/
theorem insertByStart_last {l : List (Extent α)} {e : Extent α} (h : ∀ a ∈ l, a.start ≤ e.start) :
    insertByStart e l = l ++ [e] := by
  induction l with
  | nil => rfl
  | cons a l ih =>
      rw [insertByStart, if_pos (h a List.mem_cons_self),
        ih fun b hb => h b (List.mem_cons_of_mem a hb)]
      rfl

/-- The first extent stays first when it starts no later. -/
theorem insertByStart_cons {a e : Extent α} {l : List (Extent α)} (h : a.start ≤ e.start) :
    insertByStart e (a :: l) = a :: insertByStart e l := by
  rw [insertByStart, if_pos h]

/-- Extents that start no later keep their places in front. -/
theorem insertByStart_append {l l' : List (Extent α)} {e : Extent α} (h : ∀ a ∈ l, a.start ≤ e.start) :
    insertByStart e (l ++ l') = l ++ insertByStart e l' := by
  induction l with
  | nil => rfl
  | cons a l ih =>
      rw [List.cons_append, insertByStart_cons (h a List.mem_cons_self),
        ih fun b hb => h b (List.mem_cons_of_mem a hb)]
      rfl

/-! ## Slots -/

/-- The `i`-th of the slots of `size` from `base` on. -/
def slot (base size i : Nat) : Extent Nat := ⟨base + i * size, base + (i + 1) * size⟩

theorem slot_apart {base size i j : Nat} (h : i ≠ j) : Apart (slot base size i) (slot base size j) := by
  rcases Nat.lt_or_gt_of_ne h with hlt | hlt
  · exact Or.inl (Nat.add_le_add_left (Nat.mul_le_mul_right size hlt) base)
  · exact Or.inr (Nat.add_le_add_left (Nat.mul_le_mul_right size hlt) base)

/-- The slots lie in the memory that they divide. -/
theorem slot_within {base size i n : Nat} (h : i < n) :
    Within (slot base size i) ⟨base, base + n * size⟩ :=
  ⟨Nat.le_add_right base _, Nat.add_le_add_left (Nat.mul_le_mul_right size h) base⟩

end Extent

end Minipython.Lib
