/-
# Minipython.Lib.Fifo — a bounded first-in first-out queue

A queue holds at most `cap` elements. A request to put or to take several at once succeeds as a whole or
fails as a whole. `run_conservation` is what makes it a queue: over any run, what came out is what went in,
in order, but for what is still inside.
-/
import Mathlib.Data.List.Basic

namespace Minipython.Lib.Fifo

universe u

/-- A request to a queue. -/
inductive Op (α : Type u) where
  | put (es : List α)
  | take (n : Nat)

variable {α : Type u}

/-- Serve one request: `none` if it failed, else the elements that came out. -/
def step (cap : Nat) (q : List α) : Op α → Option (List α) × List α
  | .put es => if q.length + es.length ≤ cap then (some [], q ++ es) else (none, q)
  | .take n => if n ≤ q.length then (some (q.take n), q.drop n) else (none, q)

/-- Serve a list of requests. -/
def run (cap : Nat) : List α → List (Op α) → List (Option (List α)) × List α
  | q, [] => ([], q)
  | q, op :: ops =>
      let (out, q) := step cap q op
      let (outs, q) := run cap q ops
      (out :: outs, q)

/-- The elements that a request put into the queue, given how it went. -/
def entered : Op α → Option (List α) → List α
  | .put es, some _ => es
  | _, _ => []

/-- All elements that were put into the queue, in order. -/
def inserted (ops : List (Op α)) (outs : List (Option (List α))) : List α :=
  (List.zipWith entered ops outs).flatten

/-- All elements that came out, in order. -/
def removed (outs : List (Option (List α))) : List α := (outs.map fun o => o.getD []).flatten

theorem step_put (cap : Nat) (q es : List α) : step cap q (.put es) =
    if q.length + es.length ≤ cap then (some [], q ++ es) else (none, q) := rfl

theorem step_take (cap : Nat) (q : List α) (n : Nat) : step cap q (.take n) =
    if n ≤ q.length then (some (q.take n), q.drop n) else (none, q) := rfl

theorem step_conservation (cap : Nat) (q : List α) (op : Op α) :
    q ++ entered op (step cap q op).1 = (step cap q op).1.getD [] ++ (step cap q op).2 := by
  cases op with
  | put es =>
      rw [step_put]
      split <;> simp [entered]
  | take n =>
      rw [step_take]
      split <;> simp [entered]

/-- What was inside and went in came out or is inside, in this order. -/
theorem run_conservation (cap : Nat) (q : List α) (ops : List (Op α)) :
    q ++ inserted ops (run cap q ops).1 = removed (run cap q ops).1 ++ (run cap q ops).2 := by
  induction ops generalizing q with
  | nil => simp [run, inserted, removed]
  | cons op ops ih =>
      have h := step_conservation cap q op
      have ih := ih (step cap q op).2
      simp only [run, inserted, removed, List.zipWith_cons_cons, List.flatten_cons, List.map_cons] at *
      rw [← List.append_assoc, h, List.append_assoc, ih, List.append_assoc]

end Minipython.Lib.Fifo
