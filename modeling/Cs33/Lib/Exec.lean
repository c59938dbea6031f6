import Mathlib.Order.Defs.Unbundled

/-! # Programs over a state that may stop early

A program maps a state to a result and a next state, or stops with a reason.
A loop runs its body on an accumulator until the body leaves it, and stops
with a given reason when its budget of rounds is used up. The rules run a
program one action at a time. `Moves` relates the first state of a run to its
last and is found by instance search along the text of a program.
-/

@[ext] structure Exec (σ ε α : Type) where
  run : σ → Except ε (α × σ)

namespace Exec

variable {σ ε α β γ ρ : Type}

def bind (x : Exec σ ε α) (f : α → Exec σ ε β) : Exec σ ε β where
  run s :=
    match x.run s with
    | .ok (a, s') => (f a).run s'
    | .error e => .error e

instance : Monad (Exec σ ε) where
  pure a := ⟨fun s => .ok (a, s)⟩
  bind := bind

def gets (f : σ → α) : Exec σ ε α := ⟨fun s => .ok (f s, s)⟩

def modify (f : σ → σ) : Exec σ ε Unit := ⟨fun s => .ok ((), f s)⟩

def stop (e : ε) : Exec σ ε α := ⟨fun _ => .error e⟩

def loop (e : ε) (body : α → Exec σ ε (α ⊕ ρ)) : Nat → α → Exec σ ε ρ
  | 0, _ => stop e
  | n + 1, a => body a >>= fun
    | .inl a' => loop e body n a'
    | .inr r => pure r

@[simp] theorem run_pure (a : α) (s : σ) : (pure a : Exec σ ε α).run s = .ok (a, s) := rfl

theorem run_bind (x : Exec σ ε α) (f : α → Exec σ ε β) (s : σ) :
    (x >>= f).run s = match x.run s with
      | .ok (a, s') => (f a).run s'
      | .error e => .error e := rfl

theorem run_bind_ok {x : Exec σ ε α} {f : α → Exec σ ε β} {s s' : σ} {a : α}
    (h : x.run s = .ok (a, s')) : (x >>= f).run s = (f a).run s' := by
  rw [run_bind, h]

theorem run_bind_error {x : Exec σ ε α} {f : α → Exec σ ε β} {s : σ} {e : ε}
    (h : x.run s = .error e) : (x >>= f).run s = .error e := by
  rw [run_bind, h]

theorem run_bind_eq_ok {x : Exec σ ε α} {f : α → Exec σ ε β} {s : σ} {r : β × σ} :
    (x >>= f).run s = .ok r ↔ ∃ a s', x.run s = .ok (a, s') ∧ (f a).run s' = .ok r := by
  rw [run_bind]
  cases h : x.run s with
  | error e => simp
  | ok p =>
    obtain ⟨a, s'⟩ := p
    constructor
    · intro hr
      exact ⟨a, s', rfl, hr⟩
    · rintro ⟨_, _, hp, hr⟩
      cases hp
      exact hr

/-- What a run that returns can be asked for in advance. -/
theorem exists_ok {γ : Type} {r : Except ε γ} {f : γ → β} {b : β}
    (h : r.toOption.map f = some b) : ∃ a, r = .ok a ∧ f a = b := by
  obtain e | a := r
  · cases h
  · exact ⟨a, rfl, Option.some.inj h⟩

theorem exists_run {r : Except ε (α × σ)} {a : α} (h : r.toOption.map Prod.fst = some a) :
    ∃ s, r = .ok (a, s) := by
  obtain e | ⟨b, s⟩ := r
  · cases h
  · cases h
    exact ⟨s, rfl⟩

@[simp] theorem bind_assoc (x : Exec σ ε α) (f : α → Exec σ ε β) (g : β → Exec σ ε γ) :
    (x >>= f >>= g) = (x >>= fun a => f a >>= g) := by
  ext1
  funext s
  simp only [run_bind]
  cases x.run s <;> rfl

theorem ite_bind {c : Prop} [Decidable c] (x y : Exec σ ε α) (f : α → Exec σ ε β) :
    ((if c then x else y) >>= f) = if c then x >>= f else y >>= f := by
  split <;> rfl

theorem bind_unit (x : Exec σ ε Unit) : (x >>= fun _ => pure ()) = x := by
  ext1
  funext s
  rw [run_bind]
  cases x.run s <;> rfl

/-- From related states the second program does whatever the first one does, and ends in a
related state. -/
def Follows {τ : Type} (R : σ → τ → Prop) (x : Exec σ ε α) (y : Exec τ ε α) : Prop :=
  ∀ s t a s', R s t → x.run s = .ok (a, s') → ∃ t', y.run t = .ok (a, t') ∧ R s' t'

theorem run_loop_again {e : ε} {body : α → Exec σ ε (α ⊕ ρ)} {n : Nat} {a a' : α} {s s' : σ}
    (h : (body a).run s = .ok (.inl a', s')) :
    (loop e body (n + 1) a).run s = (loop e body n a').run s' := by
  rw [loop, run_bind_ok h]

theorem run_loop_leave {e : ε} {body : α → Exec σ ε (α ⊕ ρ)} {n : Nat} {a : α} {r : ρ}
    {s s' : σ} (h : (body a).run s = .ok (.inr r, s')) :
    (loop e body (n + 1) a).run s = .ok (r, s') := by
  rw [loop, run_bind_ok h, run_pure]

theorem run_loop_stop {e e' : ε} {body : α → Exec σ ε (α ⊕ ρ)} {n : Nat} {a : α} {s : σ}
    (h : (body a).run s = .error e') : (loop e body (n + 1) a).run s = .error e' := by
  rw [loop, run_bind_error h]

/-! ## How far a run moves the state -/

/-- Every run of `x` that returns ends in a state that `R` relates to its first one. -/
class Moves (R : σ → σ → Prop) (x : Exec σ ε α) : Prop where
  move : ∀ {s a s'}, x.run s = .ok (a, s') → R s s'

section Moves

variable {R : σ → σ → Prop}

instance (e : ε) : Moves R (stop e : Exec σ ε α) := ⟨nofun⟩

theorem Moves.ite {c : Prop} [Decidable c] {x y : Exec σ ε α} (hx : Moves R x) (hy : Moves R y) :
    Moves R (if c then x else y) := by
  split <;> assumption

instance {c : Prop} [Decidable c] {x y : Exec σ ε α} [hx : Moves R x] [hy : Moves R y] :
    Moves R (if c then x else y) :=
  hx.ite hy

variable [IsPreorder σ R]

instance (a : α) : Moves R (pure a : Exec σ ε α) := ⟨fun h => by cases h; exact refl_of R _⟩

instance (f : σ → α) : Moves R (gets f : Exec σ ε α) := ⟨fun h => by cases h; exact refl_of R _⟩

theorem Moves.bind {x : Exec σ ε α} {f : α → Exec σ ε β} (hx : Moves R x)
    (hf : ∀ a, Moves R (f a)) : Moves R (x >>= f) where
  move h := by
    obtain ⟨a, t, hRun, hRest⟩ := run_bind_eq_ok.mp h
    exact trans_of R (hx.move hRun) ((hf a).move hRest)

instance {x : Exec σ ε α} {f : α → Exec σ ε β} [hx : Moves R x] [hf : ∀ a, Moves R (f a)] :
    Moves R (x >>= f) :=
  hx.bind hf

/-- A branch without an alternative, and the program that goes on after it. -/
theorem Moves.join {c : Prop} [Decidable c] {x : Exec σ ε Unit} {k : Unit → Exec σ ε β}
    (hx : Moves R x) (hk : ∀ a, Moves R (k a)) : Moves R (if c then x >>= k else k ()) := by
  split
  · exact hx.bind hk
  · exact hk ()

instance {e : ε} {body : α → Exec σ ε (α ⊕ ρ)} [hBody : ∀ a, Moves R (body a)] {n : Nat} {a : α} :
    Moves R (loop e body n a) := by
  induction n generalizing a with
  | zero => exact inferInstanceAs (Moves R (stop e))
  | succ n ih =>
    refine ⟨fun h => ?_⟩
    obtain ⟨next, t, hRun, hRest⟩ := run_bind_eq_ok.mp h
    have hFirst := (hBody a).move hRun
    obtain a' | r := next
    · exact trans_of R hFirst (ih.move hRest)
    · cases hRest
      exact hFirst

end Moves

/-! ## What a program stops with -/

/-- Every run of `x` that stops gives a reason in `P`. -/
class Stops (P : ε → Prop) (x : Exec σ ε α) : Prop where
  reason : ∀ {s e}, x.run s = .error e → P e

section Stops

variable {P : ε → Prop}

theorem stops_stop {e : ε} (h : P e) : Stops P (stop e : Exec σ ε α) := by
  constructor
  intro s e' hStop
  cases hStop
  exact h

instance (a : α) : Stops P (pure a : Exec σ ε α) := ⟨nofun⟩

instance (f : σ → α) : Stops P (gets f : Exec σ ε α) := ⟨nofun⟩

instance (f : σ → σ) : Stops P (modify f : Exec σ ε Unit) := ⟨nofun⟩

instance {c : Prop} [Decidable c] {x y : Exec σ ε α} [Stops P x] [Stops P y] :
    Stops P (if c then x else y) := by
  split <;> assumption

instance {x : Exec σ ε α} {f : α → Exec σ ε β} [hx : Stops P x] [hf : ∀ a, Stops P (f a)] :
    Stops P (x >>= f) where
  reason {s} e h := by
    cases hRun : x.run s with
    | error e' =>
      rw [run_bind_error hRun] at h
      cases h
      exact hx.reason hRun
    | ok r =>
      rw [run_bind_ok hRun] at h
      exact (hf r.1).reason h

end Stops

end Exec
