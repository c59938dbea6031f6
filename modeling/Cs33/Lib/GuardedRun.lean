import Mathlib.Data.List.Forall2

/-! # Sequences of guarded actions

An action may be taken in some states and leads to a next one. Two such systems
whose guards agree in related states, on related actions, permit the same
sequences.
-/

namespace GuardedRun

universe u v w z

variable {σ : Type u} {α : Type v} {τ : Type w} {β : Type z}
  {allowed : σ → α → Prop} {next : σ → α → σ} {s : σ} {a : α} {as bs : List α}

/-- Each action is allowed after those before it. -/
def Permits (allowed : σ → α → Prop) (next : σ → α → σ) (s : σ) (as : List α) : Prop :=
  ∀ before a after, as = before ++ a :: after → allowed (before.foldl next s) a

theorem permits_nil : Permits allowed next s [] := by
  intro before a after h
  simp at h

theorem permits_cons :
    Permits allowed next s (a :: as) ↔ allowed s a ∧ Permits allowed next (next s a) as := by
  constructor
  · intro h
    refine ⟨h [] a as rfl, ?_⟩
    rintro before b after rfl
    exact h (a :: before) b after rfl
  · rintro ⟨hFirst, hRest⟩ before b after hSplit
    cases before with
    | nil =>
      cases hSplit
      exact hFirst
    | cons c before =>
      cases hSplit
      exact hRest before b after rfl

theorem permits_append : Permits allowed next s (as ++ bs) ↔
    Permits allowed next s as ∧ Permits allowed next (as.foldl next s) bs := by
  induction as generalizing s with
  | nil => exact (and_iff_right permits_nil).symm
  | cons a as ih => rw [List.cons_append, permits_cons, permits_cons, ih, and_assoc, List.foldl_cons]

/-- Related states that agree on related actions, and stay related when these are taken. -/
theorem permits_iff {allowed' : τ → β → Prop} {next' : τ → β → τ} {R : σ → τ → Prop}
    {S : α → β → Prop} (hGuard : ∀ s t a b, R s t → S a b → (allowed s a ↔ allowed' t b))
    (hNext : ∀ s t a b, R s t → S a b → allowed s a → R (next s a) (next' t b))
    {t : τ} {bs : List β} (h : R s t) (hActions : List.Forall₂ S as bs) :
    (Permits allowed next s as ↔ Permits allowed' next' t bs) ∧
      (Permits allowed next s as → R (as.foldl next s) (bs.foldl next' t)) := by
  induction hActions generalizing s t with
  | nil => exact ⟨iff_of_true permits_nil permits_nil, fun _ => h⟩
  | @cons a b as bs hFirst _ ih =>
    have hSame := hGuard s t a b h hFirst
    constructor
    · rw [permits_cons, permits_cons, ← hSame]
      exact and_congr_right fun hAllowed => (ih (hNext s t a b h hFirst hAllowed)).1
    · intro hPermits
      obtain ⟨hAllowed, hRest⟩ := permits_cons.mp hPermits
      exact (ih (hNext s t a b h hFirst hAllowed)).2 hRest

/-! ## Pre- and postconditions -/

section Leads

variable {P Q R : σ → Prop}

/-- From a state with `P` the actions are allowed one after the other and lead to one with `Q`. -/
def Leads (allowed : σ → α → Prop) (next : σ → α → σ) (P : σ → Prop) (as : List α) (Q : σ → Prop) :
    Prop :=
  ∀ s, P s → Permits allowed next s as ∧ Q (as.foldl next s)

theorem leads_nil : Leads allowed next P [] P := fun _ hP => ⟨permits_nil, hP⟩

theorem leads_singleton (h : ∀ s, P s → allowed s a ∧ Q (next s a)) : Leads allowed next P [a] Q := by
  intro s hP
  obtain ⟨hAllowed, hQ⟩ := h s hP
  exact ⟨permits_cons.mpr ⟨hAllowed, permits_nil⟩, hQ⟩

theorem Leads.append (h : Leads allowed next P as Q) (h' : Leads allowed next Q bs R) :
    Leads allowed next P (as ++ bs) R := by
  intro s hP
  obtain ⟨hFirst, hQ⟩ := h s hP
  obtain ⟨hSecond, hR⟩ := h' _ hQ
  refine ⟨permits_append.mpr ⟨hFirst, hSecond⟩, ?_⟩
  rwa [List.foldl_append]

theorem Leads.cons (h : Leads allowed next P [a] Q) (h' : Leads allowed next Q as R) :
    Leads allowed next P (a :: as) R := h.append h'

theorem Leads.imp {P' Q' : σ → Prop} (h : Leads allowed next P as Q) (hPre : ∀ s, P' s → P s)
    (hPost : ∀ s, Q s → Q' s) : Leads allowed next P' as Q' := fun s hP =>
  (h s (hPre s hP)).imp_right (hPost _)

/-- The rule for a counted loop, with its invariant. -/
theorem leads_loop {I : Nat → σ → Prop} {body : Nat → List α} {n : Nat}
    (h : ∀ k < n, Leads allowed next (I k) (body k) (I (k + 1))) :
    Leads allowed next (I 0) ((List.range n).flatMap body) (I n) := by
  induction n with
  | zero => exact leads_nil
  | succ n ih =>
    rw [List.range_succ, List.flatMap_append, List.flatMap_singleton]
    exact (ih fun k hk => h k (Nat.lt_succ_of_lt hk)).append (h n (Nat.lt_succ_self n))

end Leads

end GuardedRun
