import Mathlib.Algebra.BigOperators.Group.Finset.Basic
import Mathlib.Algebra.BigOperators.Group.Finset.Piecewise
import Mathlib.Algebra.Order.BigOperators.Group.Finset
import Mathlib.Data.Fintype.Basic
import Cs33.Lib.Transition

/-! # Threads that add to shared cells

Each thread works privately and now and then adds an amount to a shared cell.
A guarded cell is added to in four steps: wait for its binary semaphore, load,
store and post; the same semaphore may guard several cells. An unguarded cell
is added to in one step. In every run from free semaphores the addition is
not torn, some thread can always go on, and what the threads still owe makes
up for what the cells still lack.
-/

namespace GuardedSum

/-- What a thread does next, with the private state it has then. -/
inductive Todo (β τ ε : Type) where
  | finished
  | work (event : ε) (next : τ)
  | add (cell : β) (amount : Nat) (next : τ)

structure Program (ι κ β τ ε : Type) where
  guard : β → Option κ
  todo : ι → τ → Todo β τ ε

inductive Phase (β τ : Type) where
  | idle (now : τ)
  | entered (cell : β) (amount : Nat) (next : τ)
  | loaded (cell : β) (amount : Nat) (next : τ) (value : Nat)
  | stored (cell : β) (next : τ)

structure State (ι κ β τ : Type) where
  free : κ → Bool
  cell : β → Nat
  thread : ι → Phase β τ

variable {ι κ β τ ε : Type}

/-- One step of one thread. The label names the thread and the event of a private step. -/
inductive Step [DecidableEq ι] [DecidableEq κ] [DecidableEq β] (P : Program ι κ β τ ε)
    (s : State ι κ β τ) : ι × Option ε → State ι κ β τ → Prop
  | work {i t e t'} (hIdle : s.thread i = .idle t) (hTodo : P.todo i t = .work e t') :
    Step P s (i, some e) { s with thread := Function.update s.thread i (.idle t') }
  | wait {i t b a t' l} (hIdle : s.thread i = .idle t) (hTodo : P.todo i t = .add b a t')
    (hGuard : P.guard b = some l) (hFree : s.free l = true) :
    Step P s (i, none)
      { s with
        free := Function.update s.free l false
        thread := Function.update s.thread i (.entered b a t') }
  | load {i b a t'} (hEntered : s.thread i = .entered b a t') :
    Step P s (i, none)
      { s with thread := Function.update s.thread i (.loaded b a t' (s.cell b)) }
  | store {i b a t' v} (hLoaded : s.thread i = .loaded b a t' v) :
    Step P s (i, none)
      { s with
        cell := Function.update s.cell b (v + a)
        thread := Function.update s.thread i (.stored b t') }
  | post {i b t' l} (hStored : s.thread i = .stored b t') (hGuard : P.guard b = some l) :
    Step P s (i, none)
      { s with
        free := Function.update s.free l true
        thread := Function.update s.thread i (.idle t') }
  | fetchAdd {i t b a t'} (hIdle : s.thread i = .idle t) (hTodo : P.todo i t = .add b a t')
    (hGuard : P.guard b = none) :
    Step P s (i, none)
      { s with
        cell := Function.update s.cell b (s.cell b + a)
        thread := Function.update s.thread i (.idle t') }

def start (cell : β → Nat) (now : ι → τ) : State ι κ β τ where
  free _ := true
  cell := cell
  thread i := .idle (now i)

def Finished (P : Program ι κ β τ ε) (s : State ι κ β τ) (i : ι) : Prop :=
  ∃ t, s.thread i = .idle t ∧ P.todo i t = .finished

/-- The thread has loaded the cell and not yet stored it. -/
def Between (s : State ι κ β τ) (i : ι) (b : β) : Prop :=
  ∃ a t v, s.thread i = .loaded b a t v

/-! ## Mutual exclusion -/

def Phase.inside : Phase β τ → Option β
  | .idle _ => none
  | .entered b _ _ => some b
  | .loaded b _ _ _ => some b
  | .stored b _ => some b

def Program.holds (P : Program ι κ β τ ε) (p : Phase β τ) : Option κ := p.inside.bind P.guard

/-- A semaphore is taken exactly while someone holds it, and then by one only. -/
structure Owned (free : κ → Bool) (hold : ι → Option κ) : Prop where
  busy : ∀ l, free l = false ↔ ∃ i, hold i = some l
  unique : ∀ i j l, hold i = some l → hold j = some l → i = j

/-- Every cell that is being added to is guarded, and its semaphore is held. -/
structure Exclusive (P : Program ι κ β τ ε) (s : State ι κ β τ) : Prop where
  guarded : ∀ i b, (s.thread i).inside = some b → ∃ l, P.guard b = some l
  owned : Owned s.free (P.holds ∘ s.thread)

variable {P : Program ι κ β τ ε} {s s' : State ι κ β τ} {label : ι × Option ε}

theorem holds_of_idle {p : Phase β τ} (hIdle : p.inside = none) : P.holds p = none := by
  rw [Program.holds, hIdle, Option.bind_none]

theorem holds_of_inside {p : Phase β τ} {b : β} {l : κ} (hInside : p.inside = some b)
    (hGuard : P.guard b = some l) : P.holds p = some l := by
  rw [Program.holds, hInside, Option.bind_some, hGuard]

theorem exclusive_start (cell : β → Nat) (now : ι → τ) :
    Exclusive P (start cell now : State ι κ β τ) :=
  ⟨nofun, fun _ => ⟨nofun, nofun⟩, nofun⟩

theorem Exclusive.eq_of_inside (h : Exclusive P s) {i j : ι} {b : β}
    (hi : (s.thread i).inside = some b) (hj : (s.thread j).inside = some b) : i = j := by
  obtain ⟨l, hGuard⟩ := h.guarded i b hi
  exact h.owned.unique i j l (holds_of_inside hi hGuard) (holds_of_inside hj hGuard)

theorem Exclusive.eq_of_between (h : Exclusive P s) {i j : ι} {b : β} (hi : Between s i b)
    (hj : Between s j b) : i = j := by
  obtain ⟨_, _, _, hi⟩ := hi
  obtain ⟨_, _, _, hj⟩ := hj
  apply h.eq_of_inside (b := b)
  · rw [hi]
    rfl
  · rw [hj]
    rfl

theorem Exclusive.free_of_finished (h : Exclusive P s) (hAll : ∀ i, Finished P s i) (l : κ) :
    s.free l = true := by
  cases hFree : s.free l with
  | true => rfl
  | false =>
    obtain ⟨i, hi⟩ := (h.owned.busy l).mp hFree
    obtain ⟨t, hIdle, -⟩ := hAll i
    have hNone : P.holds (s.thread i) = none := holds_of_idle (by rw [hIdle]; rfl)
    cases hNone.symm.trans hi

section Steps

variable [DecidableEq ι]

theorem update_some {hold : ι → Option κ} {i j : ι} {o : Option κ} {l : κ} :
    Function.update hold i o j = some l ↔ j = i ∧ o = some l ∨ j ≠ i ∧ hold j = some l := by
  obtain rfl | hne := eq_or_ne j i
  · simp
  · simp [hne]

section Owned

variable [DecidableEq κ] {free : κ → Bool} {hold : ι → Option κ} {i : ι} {l : κ}

theorem Owned.take (h : Owned free hold) (hNone : hold i = none) (hFree : free l = true) :
    Owned (Function.update free l false) (Function.update hold i (some l)) := by
  have hOther : ∀ j, hold j ≠ some l := by
    intro j hj
    have hBusy := (h.busy l).mpr ⟨j, hj⟩
    rw [hFree] at hBusy
    cases hBusy
  constructor
  · intro m
    obtain rfl | hm := eq_or_ne m l
    · rw [Function.update_self]
      exact iff_of_true rfl ⟨i, Function.update_self _ _ _⟩
    · rw [Function.update_of_ne hm, h.busy m]
      constructor
      · rintro ⟨j, hj⟩
        have hne : j ≠ i := by
          rintro rfl
          cases hNone.symm.trans hj
        exact ⟨j, update_some.mpr (.inr ⟨hne, hj⟩)⟩
      · rintro ⟨j, hj⟩
        obtain ⟨-, hEq⟩ | ⟨-, hj⟩ := update_some.mp hj
        · cases hEq
          exact absurd rfl hm
        · exact ⟨j, hj⟩
  · intro j k m hj hk
    obtain ⟨hEq, hm⟩ | ⟨-, hOld⟩ := update_some.mp hj
    · cases hm
      obtain ⟨hEq', -⟩ | ⟨-, hk⟩ := update_some.mp hk
      · rw [hEq, hEq']
      · exact absurd hk (hOther k)
    · obtain ⟨-, hm⟩ | ⟨-, hOld'⟩ := update_some.mp hk
      · cases hm
        exact absurd hOld (hOther j)
      · exact h.unique j k m hOld hOld'

theorem Owned.release (h : Owned free hold) (hSome : hold i = some l) :
    Owned (Function.update free l true) (Function.update hold i none) := by
  have hKept : ∀ j m, Function.update hold i none j = some m ↔ j ≠ i ∧ hold j = some m := by
    intro j m
    rw [update_some]
    constructor
    · rintro (⟨-, hNone⟩ | hKept)
      · cases hNone
      · exact hKept
    · exact .inr
  constructor
  · intro m
    obtain rfl | hm := eq_or_ne m l
    · rw [Function.update_self]
      apply iff_of_false nofun
      rintro ⟨j, hj⟩
      obtain ⟨hne, hj⟩ := (hKept j m).mp hj
      exact hne (h.unique j i m hj hSome)
    · rw [Function.update_of_ne hm, h.busy m]
      constructor
      · rintro ⟨j, hj⟩
        have hne : j ≠ i := by
          rintro rfl
          cases hSome.symm.trans hj
          exact hm rfl
        exact ⟨j, (hKept j m).mpr ⟨hne, hj⟩⟩
      · rintro ⟨j, hj⟩
        exact ⟨j, ((hKept j m).mp hj).2⟩
  · intro j k m hj hk
    exact h.unique j k m ((hKept j m).mp hj).2 ((hKept k m).mp hk).2

end Owned

theorem Exclusive.guarded_update (h : Exclusive P s) {i : ι} {p : Phase β τ}
    (hp : ∀ b, p.inside = some b → ∃ l, P.guard b = some l) (j : ι) (b : β)
    (hInside : (Function.update s.thread i p j).inside = some b) : ∃ l, P.guard b = some l := by
  obtain rfl | hne := eq_or_ne j i
  · rw [Function.update_self] at hInside
    exact hp b hInside
  · rw [Function.update_of_ne hne] at hInside
    exact h.guarded j b hInside

theorem Exclusive.stay (h : Exclusive P s) {i : ι} {p : Phase β τ} {cell : β → Nat}
    (hInside : p.inside = (s.thread i).inside) :
    Exclusive P { s with cell := cell, thread := Function.update s.thread i p } := by
  have hHolds : P.holds p = P.holds (s.thread i) := by
    rw [Program.holds, hInside, Program.holds]
  refine ⟨h.guarded_update ?_, ?_⟩
  · rw [hInside]
    exact h.guarded i
  · rw [Function.comp_update, hHolds, ← Function.comp_update, Function.update_eq_self]
    exact h.owned

variable [DecidableEq κ]

theorem Exclusive.enter (h : Exclusive P s) {i : ι} {p : Phase β τ} {b : β} {l : κ}
    (hIdle : (s.thread i).inside = none) (hInside : p.inside = some b)
    (hGuard : P.guard b = some l) (hFree : s.free l = true) :
    Exclusive P { s with
      free := Function.update s.free l false
      thread := Function.update s.thread i p } := by
  refine ⟨h.guarded_update ?_, ?_⟩
  · intro c hc
    cases hInside.symm.trans hc
    exact ⟨l, hGuard⟩
  · rw [Function.comp_update, holds_of_inside hInside hGuard]
    exact h.owned.take (holds_of_idle hIdle) hFree

theorem Exclusive.leave (h : Exclusive P s) {i : ι} {p : Phase β τ} {b : β} {l : κ}
    (hInside : (s.thread i).inside = some b) (hIdle : p.inside = none)
    (hGuard : P.guard b = some l) :
    Exclusive P { s with
      free := Function.update s.free l true
      thread := Function.update s.thread i p } := by
  refine ⟨h.guarded_update ?_, ?_⟩
  · intro c hc
    cases hIdle.symm.trans hc
  · rw [Function.comp_update, holds_of_idle hIdle]
    exact h.owned.release (holds_of_inside hInside hGuard)

variable [DecidableEq β]

theorem Exclusive.step (h : Exclusive P s) (hStep : Step P s label s') : Exclusive P s' := by
  cases hStep with
  | work hIdle hTodo => exact h.stay (by rw [hIdle]; rfl)
  | wait hIdle hTodo hGuard hFree => exact h.enter (by rw [hIdle]; rfl) rfl hGuard hFree
  | load hEntered => exact h.stay (by rw [hEntered]; rfl)
  | store hLoaded => exact h.stay (by rw [hLoaded]; rfl)
  | post hStored hGuard => exact h.leave (by rw [hStored]; rfl) rfl hGuard
  | fetchAdd hIdle hTodo hGuard => exact h.stay (by rw [hIdle]; rfl)

/-! ## Progress -/

theorem Exclusive.step_inside (h : Exclusive P s) {i : ι} {b : β}
    (hInside : (s.thread i).inside = some b) : ∃ s', Step P s (i, none) s' := by
  cases hPhase : s.thread i with
  | idle t =>
    rw [hPhase] at hInside
    cases hInside
  | entered c a t => exact ⟨_, .load hPhase⟩
  | loaded c a t v => exact ⟨_, .store hPhase⟩
  | stored c t =>
    obtain ⟨l, hGuard⟩ := h.guarded i c (by rw [hPhase]; rfl)
    exact ⟨_, .post hPhase hGuard⟩

theorem Exclusive.progress (h : Exclusive P s) :
    (∀ i, Finished P s i) ∨ ∃ label s', Step P s label s' := by
  by_cases hAll : ∀ i, Finished P s i
  · exact .inl hAll
  · refine .inr ?_
    obtain ⟨i, hNot⟩ := not_forall.mp hAll
    cases hPhase : s.thread i with
    | idle t =>
      cases hTodo : P.todo i t with
      | finished => exact absurd ⟨t, hPhase, hTodo⟩ hNot
      | work e t' => exact ⟨_, _, .work hPhase hTodo⟩
      | add b a t' =>
        cases hGuard : P.guard b with
        | none => exact ⟨_, _, .fetchAdd hPhase hTodo hGuard⟩
        | some l =>
          cases hFree : s.free l with
          | true => exact ⟨_, _, .wait hPhase hTodo hGuard hFree⟩
          | false =>
            obtain ⟨j, hj⟩ := (h.owned.busy l).mp hFree
            obtain ⟨c, hInside, -⟩ := Option.bind_eq_some_iff.mp hj
            obtain ⟨s', hStep⟩ := h.step_inside hInside
            exact ⟨_, s', hStep⟩
    | entered c a t => exact ⟨_, _, .load hPhase⟩
    | loaded c a t v => exact ⟨_, _, .store hPhase⟩
    | stored c t =>
      obtain ⟨s', hStep⟩ := h.step_inside (i := i) (b := c) (by rw [hPhase]; rfl)
      exact ⟨_, s', hStep⟩

end Steps

/-! ## What is still owed -/

section Balanced

variable [DecidableEq β]

/-- What a thread has still to add to each cell, from its private state on. -/
structure Account (P : Program ι κ β τ ε) where
  Valid : ι → τ → Prop
  owed : ι → τ → β → Nat
  owed_finished : ∀ i t, Valid i t → P.todo i t = .finished → ∀ b, owed i t b = 0
  valid_work : ∀ i t e t', Valid i t → P.todo i t = .work e t' → Valid i t'
  owed_work : ∀ i t e t', Valid i t → P.todo i t = .work e t' → owed i t' = owed i t
  valid_add : ∀ i t b a t', Valid i t → P.todo i t = .add b a t' → Valid i t'
  owed_add : ∀ i t b a t', Valid i t → P.todo i t = .add b a t' →
    ∀ c, owed i t c = owed i t' c + if c = b then a else 0

def Phase.next : Phase β τ → τ
  | .idle t => t
  | .entered _ _ t => t
  | .loaded _ _ t _ => t
  | .stored _ t => t

def Phase.pending : Phase β τ → β → Nat
  | .idle _, _ => 0
  | .entered b a _, c => if c = b then a else 0
  | .loaded b a _ _, c => if c = b then a else 0
  | .stored _ _, _ => 0

def Account.left (A : Account P) (i : ι) (p : Phase β τ) (c : β) : Nat :=
  A.owed i p.next c + p.pending c

variable [Fintype ι]

/-- What the cells hold and what the threads owe make up the total. -/
structure Balanced (A : Account P) (total : β → Nat) (s : State ι κ β τ) : Prop where
  valid : ∀ i, A.Valid i (s.thread i).next
  fresh : ∀ i b a t v, s.thread i = .loaded b a t v → v = s.cell b
  sum : ∀ c, s.cell c + ∑ i, A.left i (s.thread i) c = total c

variable {A : Account P} {total : β → Nat}

theorem balanced_start (cell : β → Nat) (now : ι → τ) (hValid : ∀ i, A.Valid i (now i)) :
    Balanced A (fun c => cell c + ∑ i, A.owed i (now i) c) (start cell now : State ι κ β τ) :=
  ⟨hValid, nofun, fun _ => rfl⟩

theorem Balanced.valid_of (h : Balanced A total s) {i : ι} {p : Phase β τ}
    (hPhase : s.thread i = p) : A.Valid i p.next := hPhase ▸ h.valid i

theorem Balanced.cell_of_finished (h : Balanced A total s) (hAll : ∀ i, Finished P s i) :
    s.cell = total := by
  funext c
  have hNone : ∀ i ∈ Finset.univ, A.left i (s.thread i) c = 0 := by
    intro i _
    obtain ⟨t, hIdle, hTodo⟩ := hAll i
    have hValid := h.valid i
    rw [hIdle] at hValid ⊢
    exact A.owed_finished i t hValid hTodo c
  have hSum := h.sum c
  rwa [Finset.sum_eq_zero hNone, Nat.add_zero] at hSum

variable [DecidableEq ι]

theorem sum_left_update (A : Account P) (s : State ι κ β τ) (i : ι) (p : Phase β τ) (c : β) :
    ∑ j, A.left j (Function.update s.thread i p j) c + A.left i (s.thread i) c =
      ∑ j, A.left j (s.thread j) c + A.left i p c := by
  have hUpdate : ∀ j ∈ Finset.univ.erase i,
      A.left j (Function.update s.thread i p j) c = A.left j (s.thread j) c := by
    intro j hj
    rw [Function.update_of_ne (Finset.ne_of_mem_erase hj)]
  rw [← Finset.add_sum_erase Finset.univ _ (Finset.mem_univ i),
    ← Finset.add_sum_erase Finset.univ (fun j => A.left j (s.thread j) c) (Finset.mem_univ i),
    Finset.sum_congr rfl hUpdate, Function.update_self]
  omega

/-- One thread moves and what it owes less is what its cell has more. -/
theorem Balanced.move (h : Balanced A total s) {i : ι} {p : Phase β τ} {free : κ → Bool}
    {cell : β → Nat} (hValid : A.Valid i p.next)
    (hLeft : ∀ c, cell c + A.left i p c = s.cell c + A.left i (s.thread i) c)
    (hFresh : ∀ b a t v, p = .loaded b a t v → v = cell b)
    (hOthers : ∀ j, j ≠ i → ∀ b a t v, s.thread j = .loaded b a t v → cell b = s.cell b) :
    Balanced A total ⟨free, cell, Function.update s.thread i p⟩ := by
  refine ⟨?_, ?_, ?_⟩
  · intro j
    dsimp only
    obtain hj | hj := eq_or_ne j i
    · rw [hj, Function.update_self]
      exact hValid
    · rw [Function.update_of_ne hj]
      exact h.valid j
  · intro j b a t v hLoaded
    dsimp only at hLoaded
    obtain hj | hj := eq_or_ne j i
    · rw [hj, Function.update_self] at hLoaded
      exact hFresh b a t v hLoaded
    · rw [Function.update_of_ne hj] at hLoaded
      rw [h.fresh j b a t v hLoaded]
      exact (hOthers j hj b a t v hLoaded).symm
  · intro c
    have hSum := h.sum c
    have hUpdate := sum_left_update A s i p c
    have hMoved := hLeft c
    dsimp only
    omega

variable [DecidableEq κ]

theorem Balanced.step (h : Balanced A total s) (hExclusive : Exclusive P s)
    (hStep : Step P s label s') : Balanced A total s' := by
  cases hStep with
  | @work i t e t' hIdle hTodo =>
    have hValid : A.Valid i t := h.valid_of hIdle
    refine h.move (A.valid_work i t e t' hValid hTodo) ?_ nofun fun _ _ _ _ _ _ _ => rfl
    intro c
    rw [hIdle, Account.left, Account.left]
    change _ + (A.owed i t' c + 0) = _ + (A.owed i t c + 0)
    rw [A.owed_work i t e t' hValid hTodo]
  | @wait i t b a t' l hIdle hTodo hGuard hFree =>
    have hValid : A.Valid i t := h.valid_of hIdle
    refine h.move (A.valid_add i t b a t' hValid hTodo) ?_ nofun fun _ _ _ _ _ _ _ => rfl
    intro c
    rw [hIdle, Account.left, Account.left]
    change _ + (A.owed i t' c + if c = b then a else 0) = _ + (A.owed i t c + 0)
    rw [A.owed_add i t b a t' hValid hTodo c, Nat.add_zero]
  | @load i b a t' hEntered =>
    have hValid : A.Valid i t' := h.valid_of hEntered
    refine h.move hValid ?_ ?_ fun _ _ _ _ _ _ _ => rfl
    · intro c
      rw [hEntered]
      rfl
    · rintro c a' t v hEq
      cases hEq
      rfl
  | @store i b a t' v hLoaded =>
    have hValid : A.Valid i t' := h.valid_of hLoaded
    have hValue := h.fresh i b a t' v hLoaded
    refine h.move hValid ?_ nofun ?_
    · intro c
      rw [hLoaded, Account.left, Account.left]
      change _ + (A.owed i t' c + 0) = _ + (A.owed i t' c + if c = b then a else 0)
      obtain hc | hc := eq_or_ne c b
      · rw [hc, Function.update_self, if_pos rfl, hValue]
        omega
      · rw [Function.update_of_ne hc, if_neg hc]
    · intro j hne c a' t w hOther
      have hc : c ≠ b := by
        rintro rfl
        exact hne (hExclusive.eq_of_between ⟨a', t, w, hOther⟩ ⟨a, t', v, hLoaded⟩)
      rw [Function.update_of_ne hc]
  | @post i b t' l hStored hGuard =>
    have hValid : A.Valid i t' := h.valid_of hStored
    refine h.move hValid ?_ nofun fun _ _ _ _ _ _ _ => rfl
    intro c
    rw [hStored]
    rfl
  | @fetchAdd i t b a t' hIdle hTodo hGuard =>
    have hValid : A.Valid i t := h.valid_of hIdle
    refine h.move (A.valid_add i t b a t' hValid hTodo) ?_ nofun ?_
    · intro c
      rw [hIdle, Account.left, Account.left]
      change _ + (A.owed i t' c + 0) = _ + (A.owed i t c + 0)
      rw [A.owed_add i t b a t' hValid hTodo c]
      obtain hc | hc := eq_or_ne c b
      · rw [hc, Function.update_self, if_pos rfl]
        omega
      · rw [Function.update_of_ne hc, if_neg hc]
    · intro j hne c a' t₁ w hOther
      have hc : c ≠ b := by
        rintro rfl
        obtain ⟨l, hSome⟩ := hExclusive.guarded j c (by rw [hOther]; rfl)
        rw [hGuard] at hSome
        cases hSome
      rw [Function.update_of_ne hc]

theorem run_invariant {cell : β → Nat} {now : ι → τ} {es : List (ι × Option ε)}
    (A : Account P) (hValid : ∀ i, A.Valid i (now i))
    (hRun : Transition.Run (Step P) (start cell now) es s) :
    Exclusive P s ∧ Balanced A (fun c => cell c + ∑ i, A.owed i (now i) c) s :=
  hRun.invariant (P := fun s => Exclusive P s ∧ Balanced A _ s)
    ⟨exclusive_start cell now, balanced_start cell now hValid⟩
    fun _ _ _ h hStep => ⟨h.1.step hStep, h.2.step h.1 hStep⟩

end Balanced

/-! ## Termination -/

section Measure

variable [DecidableEq β] {A : Account P}

/-- How many steps a thread has ahead at most, where a guarded addition takes four. -/
structure Measure (A : Account P) where
  ahead : ι → τ → Nat
  work : ∀ i t e t', A.Valid i t → P.todo i t = .work e t' → ahead i t' < ahead i t
  add : ∀ i t b a t', A.Valid i t → P.todo i t = .add b a t' → ahead i t' + 4 ≤ ahead i t

def Phase.rest : Phase β τ → Nat
  | .idle _ => 0
  | .entered _ _ _ => 3
  | .loaded _ _ _ _ => 2
  | .stored _ _ => 1

def Measure.steps (M : Measure A) (i : ι) (p : Phase β τ) : Nat := M.ahead i p.next + p.rest

variable [Fintype ι]

def Measure.stepsLeft (M : Measure A) (s : State ι κ β τ) : Nat := ∑ i, M.steps i (s.thread i)

variable [DecidableEq ι]

theorem Measure.stepsLeft_lt (M : Measure A) {i : ι} {p : Phase β τ} {free : κ → Bool} {cell : β → Nat}
    (h : M.steps i p < M.steps i (s.thread i)) :
    M.stepsLeft ⟨free, cell, Function.update s.thread i p⟩ < M.stepsLeft s := by
  refine Finset.sum_lt_sum ?_ ⟨i, Finset.mem_univ i, ?_⟩
  · intro j _
    dsimp only
    obtain rfl | hj := eq_or_ne j i
    · rw [Function.update_self]
      exact h.le
    · rw [Function.update_of_ne hj]
  · dsimp only
    rw [Function.update_self]
    exact h

variable [DecidableEq κ]

theorem Measure.step (M : Measure A) (hValid : ∀ i, A.Valid i (s.thread i).next)
    (hStep : Step P s label s') : M.stepsLeft s' < M.stepsLeft s := by
  have hNow : ∀ {i p}, s.thread i = p → A.Valid i p.next := by
    rintro i p rfl
    exact hValid i
  cases hStep with
  | @work i t e t' hIdle hTodo =>
    apply M.stepsLeft_lt
    rw [hIdle]
    exact M.work i t e t' (hNow hIdle) hTodo
  | @wait i t b a t' l hIdle hTodo =>
    have hAhead := M.add i t b a t' (hNow hIdle) hTodo
    apply M.stepsLeft_lt
    rw [hIdle]
    change M.ahead i t' + 3 < M.ahead i t + 0
    omega
  | load hEntered =>
    apply M.stepsLeft_lt
    rw [hEntered]
    exact Nat.lt_succ_self _
  | store hLoaded =>
    apply M.stepsLeft_lt
    rw [hLoaded]
    exact Nat.lt_succ_self _
  | post hStored =>
    apply M.stepsLeft_lt
    rw [hStored]
    exact Nat.lt_succ_self _
  | @fetchAdd i t b a t' hIdle hTodo =>
    have hAhead := M.add i t b a t' (hNow hIdle) hTodo
    apply M.stepsLeft_lt
    rw [hIdle]
    change M.ahead i t' + 0 < M.ahead i t + 0
    omega

section Runs

variable {cell : β → Nat} {now : ι → τ} {es : List (ι × Option ε)}

theorem Measure.length_le (M : Measure A) (hValid : ∀ i, A.Valid i (now i))
    (hRun : Transition.Run (Step P) (start cell now) es s) :
    es.length + M.stepsLeft s ≤ ∑ i, M.ahead i (now i) := by
  have hAll : (Exclusive P s ∧ Balanced A (fun c => cell c + ∑ i, A.owed i (now i) c) s) ∧
      es.length + M.stepsLeft s ≤ ∑ i, M.ahead i (now i) := by
    refine hRun.invariant_events (P := fun es s => (Exclusive P s ∧ Balanced A _ s) ∧
      es.length + M.stepsLeft s ≤ ∑ i, M.ahead i (now i)) ?_ ?_
    · exact ⟨⟨exclusive_start cell now, balanced_start cell now hValid⟩, (Nat.zero_add _).le⟩
    · rintro es t label u ⟨⟨hExclusive, hBalanced⟩, hLength⟩ hStep
      refine ⟨⟨hExclusive.step hStep, hBalanced.step hExclusive hStep⟩, ?_⟩
      have hLess := M.step hBalanced.valid hStep
      rw [List.length_append, List.length_singleton]
      omega
  exact hAll.2

/-- Whatever the threads have done, they can all finish. -/
theorem Measure.finishes (M : Measure A) (hValid : ∀ i, A.Valid i (now i))
    (hRun : Transition.Run (Step P) (start cell now) es s) :
    ∃ es' s', Transition.Run (Step P) (start cell now) (es ++ es') s' ∧ ∀ i, Finished P s' i := by
  induction hLeft : M.stepsLeft s using Nat.strong_induction_on generalizing es s with
  | h n ih =>
    obtain ⟨hExclusive, hBalanced⟩ := run_invariant A hValid hRun
    obtain hAll | ⟨label, u, hStep⟩ := hExclusive.progress
    · exact ⟨[], s, by rwa [List.append_nil], hAll⟩
    · have hLess := M.step hBalanced.valid hStep
      obtain ⟨es', s', hRest, hAll⟩ := ih (M.stepsLeft u) (by omega) (hRun.snoc hStep) rfl
      rw [List.append_assoc] at hRest
      exact ⟨_, s', hRest, hAll⟩

end Runs

end Measure

/-! ## Private events -/

section Events

variable [DecidableEq β] [DecidableEq ι] {A : Account P}

def eventsOf (i : ι) (es : List (ι × Option ε)) : List ε :=
  es.filterMap fun label => if label.1 = i then label.2 else none

theorem eventsOf_concat (i : ι) (es : List (ι × Option ε)) (label : ι × Option ε) :
    eventsOf i (es ++ [label]) =
      eventsOf i es ++ (if label.1 = i then label.2 else none).toList := by
  rw [eventsOf, List.filterMap_append]
  congr 1

/-- The events that a private state remembers, when each private step adds its own. -/
structure History (A : Account P) (trail : ι → τ → List ε) : Prop where
  work : ∀ i t e t', A.Valid i t → P.todo i t = .work e t' → trail i t' = trail i t ++ [e]
  add : ∀ i t b a t', A.Valid i t → P.todo i t = .add b a t' → trail i t' = trail i t

variable [DecidableEq κ]

theorem History.step {trail : ι → τ → List ε} (hHistory : History A trail)
    (hValid : ∀ i, A.Valid i (s.thread i).next) (hStep : Step P s label s') (i : ι) :
    trail i (s'.thread i).next =
      trail i (s.thread i).next ++ (if label.1 = i then label.2 else none).toList := by
  have hMove : ∀ {j p} {o : Option ε}, trail j p.next = trail j (s.thread j).next ++ o.toList →
      trail i (Function.update s.thread j p i).next =
        trail i (s.thread i).next ++ (if j = i then o else none).toList := by
    intro j p o hTrail
    obtain hj | hj := eq_or_ne j i
    · rw [← hj, Function.update_self, if_pos rfl, hTrail]
    · rw [Function.update_of_ne (Ne.symm hj), if_neg hj]
      exact (List.append_nil _).symm
  have hAdd : ∀ {j t b a t'}, s.thread j = .idle t → P.todo j t = .add b a t' →
      trail j t' = trail j (s.thread j).next ++ (none : Option ε).toList := by
    intro j t b a t' hIdle hTodo
    have hNow := hValid j
    rw [hIdle] at hNow ⊢
    exact (hHistory.add j t b a t' hNow hTodo).trans (List.append_nil _).symm
  cases hStep with
  | @work j t e t' hIdle hTodo =>
    apply hMove
    have hNow := hValid j
    rw [hIdle] at hNow ⊢
    exact hHistory.work j t e t' hNow hTodo
  | wait hIdle hTodo =>
    apply hMove
    exact hAdd hIdle hTodo
  | @load j b a t' hEntered =>
    apply hMove
    rw [hEntered]
    exact (List.append_nil _).symm
  | @store j b a t' v hLoaded =>
    apply hMove
    rw [hLoaded]
    exact (List.append_nil _).symm
  | @post j b t' l hStored hGuard =>
    apply hMove
    rw [hStored]
    exact (List.append_nil _).symm
  | fetchAdd hIdle hTodo =>
    apply hMove
    exact hAdd hIdle hTodo

variable [Fintype ι]

theorem History.run {trail : ι → τ → List ε} (hHistory : History A trail) {cell : β → Nat}
    {now : ι → τ} {es : List (ι × Option ε)} (hValid : ∀ i, A.Valid i (now i))
    (hNow : ∀ i, trail i (now i) = [])
    (hRun : Transition.Run (Step P) (start cell now) es s) (i : ι) :
    eventsOf i es = trail i (s.thread i).next := by
  have hAll : (Exclusive P s ∧ Balanced A (fun c => cell c + ∑ i, A.owed i (now i) c) s) ∧
      eventsOf i es = trail i (s.thread i).next := by
    refine hRun.invariant_events (P := fun es s => (Exclusive P s ∧ Balanced A _ s) ∧
      eventsOf i es = trail i (s.thread i).next) ?_ ?_
    · exact ⟨⟨exclusive_start cell now, balanced_start cell now hValid⟩, (hNow i).symm⟩
    · rintro es t label u ⟨⟨hExclusive, hBalanced⟩, hEvents⟩ hStep
      refine ⟨⟨hExclusive.step hStep, hBalanced.step hExclusive hStep⟩, ?_⟩
      rw [eventsOf_concat, hEvents, hHistory.step hBalanced.valid hStep]
  exact hAll.2

def allEvents (es : List (ι × Option ε)) : List ε := es.filterMap Prod.snd

theorem count_allEvents [DecidableEq ε] (es : List (ι × Option ε)) (e : ε) :
    (allEvents es).count e = ∑ i, (eventsOf i es).count e := by
  induction es with
  | nil => exact (Finset.sum_eq_zero fun _ _ => rfl).symm
  | cons label es ih =>
    obtain ⟨j, o⟩ := label
    cases o with
    | none =>
      have hTail : ∀ i, eventsOf i ((j, none) :: es) = eventsOf i es := by
        intro i
        exact List.filterMap_cons_none (ite_self none)
      have hAll : allEvents ((j, none) :: es) = allEvents es := rfl
      simp only [hTail, hAll, ih]
    | some e' =>
      have hAll : allEvents ((j, some e') :: es) = e' :: allEvents es := rfl
      have hCount : ∀ i, (eventsOf i ((j, some e') :: es)).count e =
          (eventsOf i es).count e + if j = i then if e' = e then 1 else 0 else 0 := by
        intro i
        obtain hj | hj := eq_or_ne j i
        · have hCons : eventsOf i ((j, some e') :: es) = e' :: eventsOf i es :=
            List.filterMap_cons_some (if_pos hj)
          rw [hCons, List.count_cons, if_pos hj]
          simp only [beq_iff_eq]
        · have hTail : eventsOf i ((j, some e') :: es) = eventsOf i es :=
            List.filterMap_cons_none (if_neg hj)
          rw [hTail, if_neg hj, Nat.add_zero]
      rw [hAll, List.count_cons, ih, Finset.sum_congr rfl fun i _ => hCount i,
        Finset.sum_add_distrib, Finset.sum_ite_eq, if_pos (Finset.mem_univ j)]
      simp only [beq_iff_eq]

end Events

end GuardedSum
