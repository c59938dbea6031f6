/-! # Runs of a labelled transition system

A run collects the events of its steps in order. A property of the state, or
of the state together with the events so far, that one step keeps holds after
every run that starts with it.
-/

namespace Transition

variable {σ ε : Type}

inductive Run (step : σ → ε → σ → Prop) (s : σ) : List ε → σ → Prop
  | nil : Run step s [] s
  | snoc {es : List ε} {t u : σ} {e : ε} : Run step s es t → step t e u → Run step s (es ++ [e]) u

variable {step : σ → ε → σ → Prop} {s t : σ} {es : List ε}

/-- What one step keeps holds at the end of a run, with the events seen so far as a ghost. -/
theorem Run.invariant_events {P : List ε → σ → Prop} (h : Run step s es t) (hInit : P [] s)
    (hStep : ∀ es t e u, P es t → step t e u → P (es ++ [e]) u) : P es t := by
  induction h with
  | nil => exact hInit
  | snoc _ hLast ih => exact hStep _ _ _ _ ih hLast

theorem Run.invariant {P : σ → Prop} (h : Run step s es t) (hInit : P s)
    (hStep : ∀ t e u, P t → step t e u → P u) : P t :=
  h.invariant_events hInit fun _ t e u => hStep t e u

end Transition
