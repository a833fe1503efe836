/-
# Minipython.Lib.Mailbox — a place for one message

A message that arrives is put into the place if that is empty, and dropped if it is not; a taker empties it,
and gives up where it finds nothing.
`Legal` is the histories that this allows. In a legal history the messages are taken in the order in which
they were put, each once, and all but the last one have been taken.
-/
import Mathlib.Data.List.Induction

namespace Minipython.Lib.Mailbox

universe u

/-- What happens at the place. -/
inductive Act (α : Type u) where
  | put (a : α)
  | drop (a : α)
  | take
  | miss

variable {α : Type u}

/-- The histories that end with this in the place. -/
inductive Legal : List (Act α) → Option α → Prop where
  | nil : Legal [] none
  | put {h : List (Act α)} (a : α) : Legal h none → Legal (h ++ [.put a]) (some a)
  | drop {h : List (Act α)} {b : α} (a : α) : Legal h (some b) → Legal (h ++ [.drop a]) (some b)
  | take {h : List (Act α)} {b : α} : Legal h (some b) → Legal (h ++ [.take]) none
  | miss {h : List (Act α)} : Legal h none → Legal (h ++ [.miss]) none

/-- The messages that were put, in order. -/
def puts : List (Act α) → List α
  | [] => []
  | .put a :: h => a :: puts h
  | .drop _ :: h | .take :: h | .miss :: h => puts h

/-- The number of messages that were taken. -/
def takes : List (Act α) → Nat
  | [] => 0
  | .take :: h => takes h + 1
  | .put _ :: h | .drop _ :: h | .miss :: h => takes h

@[simp]
theorem puts_append (h h' : List (Act α)) : puts (h ++ h') = puts h ++ puts h' := by
  induction h with
  | nil => rfl
  | cons act h ih => cases act <;> simp [puts, ih]

@[simp]
theorem takes_append (h h' : List (Act α)) : takes (h ++ h') = takes h + takes h' := by
  induction h with
  | nil => simp [takes]
  | cons act h ih => cases act <;> simp only [List.cons_append, takes, ih, Nat.add_right_comm]

/-- All messages but the one in the place were taken. -/
theorem Legal.length_puts {h : List (Act α)} {held : Option α} (hl : Legal h held) :
    (puts h).length = takes h + held.toList.length := by
  induction hl with
  | nil => rfl
  | put a _ ih => simpa [puts, takes] using ih
  | drop _ _ ih | miss _ ih => simpa [puts, takes] using ih
  | take _ ih => simpa [puts, takes] using ih

/-- The place is full before the act. -/
def Act.full : Act α → Bool
  | .put _ | .miss => false
  | .drop _ | .take => true

/-- One act behind a history: it was legal before, and the act fits what was in the place. -/
theorem Legal.of_snoc {h : List (Act α)} {act : Act α} {held : Option α} (hl : Legal (h ++ [act]) held) :
    ∃ before, Legal h before ∧ before.isSome = act.full := by
  generalize hg : h ++ [act] = g at hl
  cases hl with
  | nil => simp at hg
  | put _ hl | drop _ hl | take hl | miss hl =>
      rcases List.append_inj' hg rfl with ⟨rfl, hact⟩
      exact ⟨_, hl, by rw [List.singleton_inj.1 hact]; rfl⟩

/-- What a legal history starts with is legal. -/
theorem Legal.of_append {h h' : List (Act α)} {held : Option α} (hl : Legal (h ++ h') held) :
    ∃ before, Legal h before := by
  induction h' using List.reverseRecOn generalizing held with
  | nil => exact ⟨held, by simpa using hl⟩
  | append_singleton h' act ih =>
      rw [← List.append_assoc] at hl
      rcases hl.of_snoc with ⟨before, hbefore, -⟩
      exact ih hbefore

/-- A message is put, or missed, when all before were taken, and dropped or taken when all but one were. -/
theorem Legal.at_act {h h' : List (Act α)} {act : Act α} {held : Option α}
    (hl : Legal (h ++ act :: h') held) : (puts h).length = takes h + act.full.toNat := by
  rw [← List.singleton_append, ← List.append_assoc] at hl
  rcases hl.of_append with ⟨held', hl'⟩
  rcases hl'.of_snoc with ⟨before, hbefore, hfull⟩
  rw [hbefore.length_puts, ← hfull]
  cases before <;> rfl

end Minipython.Lib.Mailbox
