/-
# Minipython.Lib.Machine — programs that take one event at a time

A machine has a set of events its environment may raise in a state and a transition that either
produces the next state or stops with a fault. `Run` is a finite sequence of enabled events; `restrict`
keeps the events that meet a further condition, so "every run whose steps all meet the condition" is a
run of the restricted machine.

`Run.invariant` is the one induction the developments above use: prove that a step keeps the
invariant, and every state that a run reaches has it. `Run.iff_restrict` and `Run.all_iff_restrict` are
for a property that exactly the good steps keep: it holds at the end of a run, or all along it, if and
only if every step of the run is good. So a condition on the steps is exact once it is exact for one.

An observer of a machine notes down something at some of its steps. The notes (`trace`) are a function of
the run, and an invariant of the state together with the notes so far is proved step by step, as one of the
state alone.

A list of events can be executed where the events that the environment may raise are decidable; what comes
out is a run (`Run.of_exec`). So a run on given inputs is found by evaluation.
-/
import Mathlib.Order.Basic

namespace Minipython.Lib

universe u v w x

/-- A program in two parts that returned went through both. -/
theorem ok_of_bind {ε : Type w} {α β : Type u} {x : Except ε α} {f : α → Except ε β} {b : β}
    (h : x >>= f = .ok b) : ∃ a, x = .ok a ∧ f a = .ok b := by
  cases x with
  | error e => cases h
  | ok a => exact ⟨a, rfl, h⟩

theorem bind_eq_ok {ε : Type w} {α β : Type u} {x : Except ε α} {f : α → Except ε β} {b : β} :
    x >>= f = .ok b ↔ ∃ a, x = .ok a ∧ f a = .ok b := by
  constructor
  · exact ok_of_bind
  · rintro ⟨a, rfl, h⟩
    exact h

/-- A test of what a program returned. -/
theorem ok_of_any {ε : Type w} {α : Type u} {x : Except ε α} {p : α → Bool}
    (h : x.toOption.any p = true) : ∃ a, x = .ok a ∧ p a = true := by
  cases x with
  | error e => cases h
  | ok a => exact ⟨a, rfl, h⟩

/-- A deterministic program under an environment that picks the events. -/
structure Machine (σ : Type u) (ε : Type v) (φ : Type w) where
  /-- the environment may raise the event here -/
  Enabled : σ → ε → Prop
  next : σ → ε → Except φ σ

namespace Machine

variable {σ : Type u} {ε : Type v} {φ : Type w} {m : Machine σ ε φ}

/-- One step without a fault. -/
def Step (m : Machine σ ε φ) (s : σ) (e : ε) (t : σ) : Prop := m.Enabled s e ∧ m.next s e = .ok t

/-- The program can stop with the fault `f` here. -/
def Faults (m : Machine σ ε φ) (s : σ) (f : φ) : Prop := ∃ e, m.Enabled s e ∧ m.next s e = .error f

/-- A finite run with its events in order. -/
inductive Run (m : Machine σ ε φ) : σ → List ε → σ → Prop where
  | nil (s : σ) : Run m s [] s
  | cons {s t u : σ} {e : ε} {es : List ε} : m.Step s e t → Run m t es u → Run m s (e :: es) u

/-- The machine with the events that meet a condition only. -/
def restrict (m : Machine σ ε φ) (good : σ → ε → Prop) : Machine σ ε φ where
  Enabled s e := m.Enabled s e ∧ good s e
  next := m.next

theorem Run.append {s t u : σ} {es es' : List ε} (h : m.Run s es t) (h' : m.Run t es' u) :
    m.Run s (es ++ es') u := by
  induction h with
  | nil _ => exact h'
  | cons hs _ ih => exact .cons hs (ih h')

theorem Run.single {s t : σ} {e : ε} (h : m.Step s e t) : m.Run s [e] t := .cons h (.nil t)

theorem Run.snoc {s t u : σ} {es : List ε} {e : ε} (h : m.Run s es t) (h' : m.Step t e u) :
    m.Run s (es ++ [e]) u := h.append (.single h')

/-- A machine with more steps has more runs. -/
theorem Run.mono {m' : Machine σ ε φ} (hstep : ∀ s e t, m.Step s e t → m'.Step s e t) {s t : σ}
    {es : List ε} (h : m.Run s es t) : m'.Run s es t := by
  induction h with
  | nil s => exact .nil s
  | cons h1 _ ih => exact .cons (hstep _ _ _ h1) ih

/-- What every step keeps holds wherever a run leads. -/
theorem Run.invariant {I : σ → Prop} (hstep : ∀ s e t, I s → m.Step s e t → I t) {s t : σ}
    {es : List ε} (h : m.Run s es t) (hs : I s) : I t := by
  induction h with
  | nil _ => exact hs
  | cons h1 _ ih => exact ih (hstep _ _ _ hs h1)

/-- The state that a list of events leads to, if the environment may raise each and none faults. -/
def exec (m : Machine σ ε φ) [∀ s e, Decidable (m.Enabled s e)] : σ → List ε → Option σ
  | s, [] => some s
  | s, e :: es =>
      if m.Enabled s e then
        match m.next s e with
        | .ok t => exec m t es
        | .error _ => none
      else none

/-- Executing a list of events is a run. -/
theorem Run.of_exec [∀ s e, Decidable (m.Enabled s e)] {s t : σ} {es : List ε}
    (h : m.exec s es = some t) : m.Run s es t := by
  induction es generalizing s with
  | nil =>
      obtain rfl := Option.some.inj h
      exact .nil s
  | cons e es ih =>
      rw [exec] at h
      by_cases he : m.Enabled s e
      · rw [if_pos he] at h
        cases hn : m.next s e with
        | ok u =>
            rw [hn] at h
            exact .cons ⟨he, hn⟩ (ih h)
        | error f =>
            rw [hn] at h
            cases h
      · rw [if_neg he] at h
        cases h

/-- A test of the state that a list of events leads to. -/
theorem Run.of_exec_any [∀ s e, Decidable (m.Enabled s e)] {s : σ} {es : List ε} {p : σ → Bool}
    (h : (m.exec s es).any p = true) : ∃ t, m.Run s es t ∧ p t = true := by
  obtain ⟨t, ht, hp⟩ := (Option.any_eq_true p _).1 h
  exact ⟨t, .of_exec ht, hp⟩

instance [∀ s e, Decidable (m.Enabled s e)] (good : σ → ε → Prop) [∀ s e, Decidable (good s e)]
    (s : σ) (e : ε) : Decidable ((m.restrict good).Enabled s e) :=
  inferInstanceAs (Decidable (m.Enabled s e ∧ good s e))

theorem restrict_step {good : σ → ε → Prop} {s t : σ} {e : ε} :
    (m.restrict good).Step s e t ↔ m.Step s e t ∧ good s e :=
  ⟨fun h => ⟨⟨h.1.1, h.2⟩, h.1.2⟩, fun h => ⟨⟨h.1.1, h.2⟩, h.1.2⟩⟩

/-- A run whose events meet the condition in every state is one of the restricted machine. -/
theorem Run.restrict {good : σ → ε → Prop} {s t : σ} {es : List ε} (h : m.Run s es t)
    (hgood : ∀ e ∈ es, ∀ u, good u e) : (m.restrict good).Run s es t := by
  induction h with
  | nil s => exact .nil s
  | cons h1 _ ih =>
      refine .cons (restrict_step.2 ⟨h1, hgood _ List.mem_cons_self _⟩) ?_
      exact ih fun e he => hgood e (List.mem_cons_of_mem _ he)

/-- What holds where a run leads and is never regained held all along. -/
theorem Run.back {I P : σ → Prop} (hinv : ∀ s e t, I s → m.Step s e t → I t)
    (hback : ∀ s e t, I s → m.Step s e t → P t → P s) {s t : σ} {es : List ε} (h : m.Run s es t)
    (hI : I s) (ht : P t) : P s := by
  induction h with
  | nil _ => exact ht
  | cons h1 _ ih => exact hback _ _ _ hI h1 (ih (hinv _ _ _ hI h1) ht)

/-- A property that is never regained, and that exactly the good steps keep, holds where a run leads if and
only if all its steps are good. -/
theorem Run.iff_restrict {I P : σ → Prop} {good : σ → ε → Prop}
    (hinv : ∀ s e t, I s → m.Step s e t → I t) (hback : ∀ s e t, I s → m.Step s e t → P t → P s)
    (hstep : ∀ s e t, I s → P s → m.Step s e t → (P t ↔ good s e)) {s t : σ} {es : List ε}
    (h : m.Run s es t) (hI : I s) (hP : P s) : P t ↔ (m.restrict good).Run s es t := by
  induction h with
  | nil s => exact ⟨fun _ => .nil s, fun _ => hP⟩
  | @cons s t u e es h1 h2 ih =>
      have hI' : I t := hinv _ _ _ hI h1
      constructor
      · intro hu
        have ht : P t := h2.back hinv hback hI' hu
        exact .cons (restrict_step.2 ⟨h1, (hstep _ _ _ hI hP h1).1 ht⟩) ((ih hI' ht).1 hu)
      · intro hrun
        cases hrun with
        | @cons _ t' _ _ _ h1' h2' =>
            obtain ⟨hs, hgood⟩ := restrict_step.1 h1'
            obtain rfl : t' = t := Except.ok.inj (hs.2.symm.trans h1.2)
            exact (ih hI' ((hstep _ _ _ hI hP h1).2 hgood)).2 h2'

/-- If exactly the good steps keep a property, it holds in every state along a run if and only if all steps
of the run are good. -/
theorem Run.all_iff_restrict {I P : σ → Prop} {good : σ → ε → Prop}
    (hinv : ∀ s e t, I s → m.Step s e t → I t)
    (hstep : ∀ s e t, I s → P s → m.Step s e t → (P t ↔ good s e)) {s t : σ} {es : List ε}
    (h : m.Run s es t) (hI : I s) (hP : P s) :
    (∀ es₁ es₂ u, es = es₁ ++ es₂ → m.Run s es₁ u → P u) ↔ (m.restrict good).Run s es t := by
  induction h with
  | nil s =>
      constructor
      · exact fun _ => .nil s
      · intro _ es₁ es₂ u hes hrun
        obtain ⟨rfl, -⟩ := List.append_eq_nil_iff.1 hes.symm
        cases hrun
        exact hP
  | @cons s t u e es h1 h2 ih =>
      have hI' : I t := hinv _ _ _ hI h1
      constructor
      · intro hall
        have ht : P t := hall [e] es t rfl (.single h1)
        refine .cons (restrict_step.2 ⟨h1, (hstep _ _ _ hI hP h1).1 ht⟩) ((ih hI' ht).1 ?_)
        intro es₁ es₂ w hes hrun
        exact hall (e :: es₁) es₂ w (by rw [hes, List.cons_append]) (.cons h1 hrun)
      · intro hrun
        cases hrun with
        | @cons _ t' _ _ _ h1' h2' =>
            obtain ⟨hs, hgood⟩ := restrict_step.1 h1'
            obtain rfl : t' = t := Except.ok.inj (hs.2.symm.trans h1.2)
            have hrest := (ih hI' ((hstep _ _ _ hI hP h1).2 hgood)).2 h2'
            intro es₁ es₂ w hes hrun
            cases hrun with
            | nil _ => exact hP
            | @cons _ t'' _ e' es' h1'' h2'' =>
                obtain ⟨rfl, htail⟩ := List.cons_eq_cons.1 hes
                obtain rfl : t'' = t' := Except.ok.inj (h1''.2.symm.trans h1.2)
                exact hrest es' es₂ w htail h2''

/-! ## What a run shows -/

variable {ω : Type x}

/-- The notes of the observer along a list of events. -/
def trace (m : Machine σ ε φ) (obs : σ → ε → List ω) : σ → List ε → List ω
  | _, [] => []
  | s, e :: es => obs s e ++ (m.next s e).toOption.elim [] fun t => trace m obs t es

theorem trace_cons {obs : σ → ε → List ω} {s t : σ} {e : ε} (h : m.Step s e t) (es : List ε) :
    m.trace obs s (e :: es) = obs s e ++ m.trace obs t es := by
  rw [trace, h.2]
  rfl

/-- A restricted machine shows the same. -/
theorem trace_restrict (good : σ → ε → Prop) (obs : σ → ε → List ω) (s : σ) (es : List ε) :
    (m.restrict good).trace obs s es = m.trace obs s es := by
  induction es generalizing s with
  | nil => rfl
  | cons e es ih => exact congrArg (fun f => obs s e ++ (m.next s e).toOption.elim [] f) (funext ih)

/-- What every step keeps of a state and the notes holds of what a run leads to and shows. -/
theorem Run.trace_invariant {obs : σ → ε → List ω} {I : σ → List ω → Prop}
    (hstep : ∀ s e t l, I s l → m.Step s e t → I t (l ++ obs s e)) {s t : σ} {es : List ε}
    (h : m.Run s es t) {l : List ω} (hs : I s l) : I t (l ++ m.trace obs s es) := by
  induction h generalizing l with
  | nil s => simpa [trace] using hs
  | cons h1 _ ih =>
      rw [trace_cons h1, ← List.append_assoc]
      exact ih (hstep _ _ _ _ hs h1)

end Machine

end Minipython.Lib
