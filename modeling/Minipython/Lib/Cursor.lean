/-
# Minipython.Lib.Cursor — walking along a list that grows

A reader goes along a linked list from element to element, and looks up the next one only when it is through
with an element. In between, elements may be linked behind the last one. `Follows` is what holds of the reader
then: what it has read is what the list starts with, and when it ends it has read the whole list.
-/
import Minipython.Lib.DList
import Mathlib.Data.List.Infix

namespace Minipython.Lib

universe u v

namespace DList

variable {α : Type u} {β : Type v} {f : α → Option α} {g : β → Option β} {p : Option α} {q : Option β}

/-- A traversal starts at the head of what it visits. -/
theorem Traverses.first {l : List α} (h : Traverses f p l) : p = l.head? := by
  cases l with
  | nil =>
      cases p with
      | none => rfl
      | some x => exact absurd h id
  | cons y l =>
      cases p with
      | none => exact absurd h id
      | some x => exact congrArg some h.1

/-- Behind an element comes the one that is behind it in the list. -/
theorem Traverses.next {l₁ l₂ : List α} {x : α} (h : Traverses f p (l₁ ++ x :: l₂)) : f x = l₂.head? := by
  induction l₁ generalizing p with
  | nil =>
      cases p with
      | none => exact absurd h id
      | some y =>
          rcases h with ⟨rfl, hrest⟩
          exact hrest.first
  | cons z l₁ ih =>
      cases p with
      | none => exact absurd h id
      | some y => exact ih h.2

/-- From a list on to a second one. -/
def onward (f : α → Option α) (g : β → Option β) (q : Option β) : α ⊕ β → Option (α ⊕ β)
  | .inl x => ((f x).map .inl).or (q.map .inr)
  | .inr y => (g y).map .inr

theorem Traverses.inr {m : List β} (h : Traverses g q m) (f : α → Option α) (q' : Option β) :
    Traverses (onward f g q') (q.map .inr) (m.map .inr) := by
  induction m generalizing q with
  | nil =>
      cases q with
      | none => trivial
      | some y => exact absurd h id
  | cons z m ih =>
      cases q with
      | none => exact absurd h id
      | some y =>
          rcases h with ⟨rfl, hrest⟩
          exact ⟨rfl, ih hrest⟩

/-- One list and then another. -/
theorem Traverses.onward {l : List α} {m : List β} (h : Traverses f p l) (h' : Traverses g q m) :
    Traverses (onward f g q) ((p.map .inl).or (q.map .inr)) (l.map .inl ++ m.map .inr) := by
  induction l generalizing p with
  | nil =>
      cases p with
      | none => simpa using h'.inr f q
      | some x => exact absurd h id
  | cons z l ih =>
      cases p with
      | none => exact absurd h id
      | some x =>
          rcases h with ⟨rfl, hrest⟩
          exact ⟨rfl, ih hrest⟩

end DList

/-- Where a reader of a list is: before the list, at an element, through with it, or at the end. -/
inductive Cursor (κ : Type u) where
  | start
  | here (k : κ)
  | past (k : κ)
  | done

namespace Cursor

variable {κ : Type u}

/-- The reader has looked up where to go. -/
def move : Option κ → Cursor κ
  | none => .done
  | some k => .here k

/-- The reader has read `seen`, in a list that now is `l`. -/
def Follows (seen l : List κ) : Cursor κ → Prop
  | .start => seen = []
  | .here k => ∃ rest, l = seen ++ k :: rest
  | .past k => ∃ front rest, seen = front ++ [k] ∧ l = seen ++ rest
  | .done => seen = l

variable {seen l : List κ} {c : Cursor κ} {k : κ} {next : κ → Option κ} {first : Option κ}

/-- What was read is what the list starts with. -/
theorem Follows.initial (h : Follows seen l c) : seen <+: l := by
  cases c with
  | start =>
      have hseen : seen = [] := h
      rw [hseen]
      exact List.nil_prefix
  | here k =>
      rcases h with ⟨rest, rfl⟩
      exact List.prefix_append seen _
  | past k =>
      rcases h with ⟨front, rest, -, rfl⟩
      exact List.prefix_append seen rest
  | done =>
      have hseen : seen = l := h
      rw [hseen]

/-- The element that the reader is at is in the list, and was not read. -/
theorem Follows.mem (h : Follows seen l (.here k)) : k ∈ l := by
  rcases h with ⟨rest, rfl⟩
  simp

/-- What is linked behind the last element does not disturb a reader that has not come to the end. -/
theorem Follows.grow (h : Follows seen l c) (hc : c ≠ .done) (new : List κ) : Follows seen (l ++ new) c := by
  cases c with
  | start => exact h
  | here k =>
      rcases h with ⟨rest, rfl⟩
      exact ⟨rest ++ new, by simp⟩
  | past k =>
      rcases h with ⟨front, rest, hseen, rfl⟩
      exact ⟨front, rest ++ new, hseen, by simp⟩
  | done => exact absurd rfl hc

theorem follows_head : Follows [] l (move l.head?) := by
  cases l with
  | nil => rfl
  | cons k l => exact ⟨l, rfl⟩

/-- The first element is looked up. -/
theorem Follows.enter (h : Follows seen l .start) (ht : DList.Traverses next first l) :
    Follows seen l (move first) := by
  have hseen : seen = [] := h
  rw [hseen, ht.first]
  exact follows_head

/-- An element is read. -/
theorem Follows.note (h : Follows seen l (.here k)) : Follows (seen ++ [k]) l (.past k) := by
  rcases h with ⟨rest, rfl⟩
  exact ⟨seen, rest, rfl, by simp⟩

/-- The next element is looked up. -/
theorem Follows.advance (h : Follows seen l (.past k)) (ht : DList.Traverses next first l) :
    Follows seen l (move (next k)) := by
  rcases h with ⟨front, rest, rfl, rfl⟩
  rw [List.append_assoc] at ht ⊢
  rw [ht.next]
  cases rest with
  | nil => simp [move, Follows]
  | cons k' rest => exact ⟨rest, by simp⟩

end Cursor

end Minipython.Lib
