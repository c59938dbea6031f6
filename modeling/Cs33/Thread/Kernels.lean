import Cs33.Lib.GuardedSum
import Cs33.Thread.Histogram

/-! # The kernels that count under locks or atomically

`histo_1`, `histo_2` and `histo_3` run the same loop over the thread's own
block of the data and add 1 to the bucket of each element. They differ in what
guards a bucket: one semaphore for all, one for each, or none where the
addition is one atomic step.
-/

namespace Cs33.Thread

open GuardedSum Transition

/-- The semaphores of thread.c. -/
inductive Sem where
  | mutex
  | locks (k : Bucket)
deriving DecidableEq

/-- `for (j=ind; j<ind+STEP; j++)` with `ind = id*STEP`: what the thread does at `j`. -/
def countLoop {nthreads : Nat} (guard : Bucket → Option Sem) (data : Nat → UInt8) (step : Nat) :
    Program (Fin nthreads) Sem Bucket Nat Empty where
  guard := guard
  todo id j := if j < id * step + step then .add (bucketOf data j) 1 (j + 1) else .finished

/-- `sem_wait(&mutex)`, the increment and `sem_post(&mutex)`. -/
def histo1 {nthreads : Nat} (data : Nat → UInt8) (step : Nat) :
    Program (Fin nthreads) Sem Bucket Nat Empty :=
  countLoop (fun _ => some .mutex) data step

/-- `sem_wait(&locks[..])`, the increment and `sem_post(&locks[..])`. -/
def histo2 {nthreads : Nat} (data : Nat → UInt8) (step : Nat) :
    Program (Fin nthreads) Sem Bucket Nat Empty :=
  countLoop (fun b => some (.locks b)) data step

/-- `__sync_fetch_and_add(&global_histogram[..],1)`. -/
def histo3 {nthreads : Nat} (data : Nat → UInt8) (step : Nat) :
    Program (Fin nthreads) Sem Bucket Nat Empty :=
  countLoop (fun _ => none) data step

inductive Kernel where
  | histo1
  | histo2
  | histo3

def Kernel.program {nthreads : Nat} (kernel : Kernel) (data : Nat → UInt8) (step : Nat) :
    Program (Fin nthreads) Sem Bucket Nat Empty :=
  match kernel with
  | .histo1 => Thread.histo1 data step
  | .histo2 => Thread.histo2 data step
  | .histo3 => Thread.histo3 data step

def launch (nthreads step : Nat) : State (Fin nthreads) Sem Bucket Nat :=
  start zeroHistogram fun id => id * step

variable {nthreads : Nat}

section CountLoop

variable {guard : Bucket → Option Sem} {data : Nat → UInt8} {step j : Nat} {id : Fin nthreads}

theorem countLoop_of_lt (hj : j < id * step + step) :
    (countLoop guard data step).todo id j = .add (bucketOf data j) 1 (j + 1) := if_pos hj

theorem countLoop_of_not_lt (hj : ¬ j < id * step + step) :
    (countLoop guard data step).todo id j = .finished := if_neg hj

end CountLoop

/-- A thread at `j` still owes the tally of the rest of its block. -/
def countAccount (guard : Bucket → Option Sem) (data : Nat → UInt8) (step : Nat) :
    Account (countLoop guard data step : Program (Fin nthreads) Sem Bucket Nat Empty) where
  Valid _ _ := True
  owed id j b := tally data j (id * step + step - j) b
  owed_finished id j _ hTodo b := by
    obtain hj | hj := lt_or_ge j (id * step + step)
    · rw [countLoop_of_lt hj] at hTodo
      cases hTodo
    · rw [Nat.sub_eq_zero_of_le (by omega), tally_zero]
  valid_work _ _ _ _ _ _ := trivial
  owed_work _ _ e := e.elim
  valid_add _ _ _ _ _ _ _ := trivial
  owed_add id j b a j' _ hTodo c := by
    by_cases hj : j < id * step + step
    · rw [countLoop_of_lt hj] at hTodo
      cases hTodo
      have hLength : id * step + step - j = id * step + step - (j + 1) + 1 := by omega
      rw [hLength, tally_succ]
    · rw [countLoop_of_not_lt hj] at hTodo
      cases hTodo

theorem countLoop_reaches {guard : Bucket → Option Sem} {data : Nat → UInt8} {dataSize : Nat}
    (hDvd : nthreads ∣ dataSize) {es : List (Fin nthreads × Option Empty)}
    {s : State (Fin nthreads) Sem Bucket Nat}
    (hRun : Run (Step (countLoop guard data (STEP dataSize nthreads)))
      (launch nthreads (STEP dataSize nthreads)) es s) :
    Exclusive (countLoop guard data (STEP dataSize nthreads)) s ∧
      Balanced (countAccount guard data (STEP dataSize nthreads)) (tally data 0 dataSize) s := by
  have hTotal : (fun b => zeroHistogram b + ∑ id : Fin nthreads,
      (countAccount guard data (STEP dataSize nthreads)).owed id (id * STEP dataSize nthreads) b) =
      tally data 0 dataSize := by
    funext b
    have hSlice : ∀ id : Fin nthreads,
        (countAccount guard data (STEP dataSize nthreads)).owed id (id * STEP dataSize nthreads) b =
          tally data (id * STEP dataSize nthreads) (STEP dataSize nthreads) b := by
      intro id
      exact congrArg (tally data _ · b) (Nat.add_sub_cancel_left _ _)
    have hSize : nthreads * STEP dataSize nthreads = dataSize := Nat.mul_div_cancel' hDvd
    rw [Finset.sum_congr rfl fun id _ => hSlice id, sum_tally, hSize, zeroHistogram, Nat.zero_add]
  rw [← hTotal]
  exact run_invariant _ (fun _ => trivial) hRun

def countMeasure (nthreads : Nat) (guard : Bucket → Option Sem) (data : Nat → UInt8) (step : Nat) :
    Measure (countAccount guard data step :
      Account (countLoop guard data step : Program (Fin nthreads) Sem Bucket Nat Empty)) where
  ahead id j := 4 * (id * step + step - j)
  work _ _ e := e.elim
  add id j b a j' _ hTodo := by
    obtain hj | hj := lt_or_ge j (id * step + step)
    · rw [countLoop_of_lt hj] at hTodo
      cases hTodo
      omega
    · rw [countLoop_of_not_lt (by omega)] at hTodo
      cases hTodo

theorem countLoop_terminates (guard : Bucket → Option Sem) (data : Nat → UInt8)
    {dataSize : Nat}
    (hDvd : nthreads ∣ dataSize) {es : List (Fin nthreads × Option Empty)} {s : State (Fin nthreads) Sem Bucket Nat}
    (hRun : Run (Step (countLoop guard data (STEP dataSize nthreads)))
      (launch nthreads (STEP dataSize nthreads)) es s) :
    es.length ≤ 4 * dataSize ∧
      ∃ es' s', Run (Step (countLoop guard data (STEP dataSize nthreads)))
        (launch nthreads (STEP dataSize nthreads)) (es ++ es') s' ∧
        (∀ id, Finished (countLoop guard data (STEP dataSize nthreads)) s' id) ∧
        s'.cell = tally data 0 dataSize ∧ ∀ l, s'.free l = true := by
  let M := countMeasure nthreads guard data (STEP dataSize nthreads)
  have hSize : nthreads * STEP dataSize nthreads = dataSize := Nat.mul_div_cancel' hDvd
  have hAhead : ∀ id : Fin nthreads,
      M.ahead id (id * STEP dataSize nthreads) = 4 * STEP dataSize nthreads := by
    intro id
    exact congrArg (4 * ·) (Nat.add_sub_cancel_left _ _)
  have hLength := M.length_le (fun _ => trivial) hRun
  rw [Finset.sum_congr rfl fun id _ => hAhead id, Finset.sum_const, Finset.card_univ,
    Fintype.card_fin, smul_eq_mul, Nat.mul_left_comm, hSize] at hLength
  obtain ⟨es', s', hRun', hAll⟩ := M.finishes (fun _ => trivial) hRun
  obtain ⟨hExclusive, hBalanced⟩ := countLoop_reaches hDvd hRun'
  exact ⟨by omega, es', s', hRun', hAll, hBalanced.cell_of_finished hAll,
    hExclusive.free_of_finished hAll⟩

/-- In every reachable state no two threads are between load and store of one bucket and some
thread can go on; no counter overflows, and in the end they are those of `histo_0`. -/
theorem kernels_linear (kernel : Kernel) (nthreads dataSize : Nat) (data : Nat → UInt8)
    (hDvd : nthreads ∣ dataSize) (hSize : dataSize < 2 ^ 31)
    (es : List (Fin nthreads × Option Empty)) (s : State (Fin nthreads) Sem Bucket Nat)
    (hRun : Run (Step (kernel.program data (STEP dataSize nthreads)))
      (launch nthreads (STEP dataSize nthreads)) es s) :
    (∀ i j b, Between s i b → Between s j b → i = j) ∧
    ((∀ id, Finished (kernel.program data (STEP dataSize nthreads)) s id) ∨
      ∃ label s', Step (kernel.program data (STEP dataSize nthreads)) s label s') ∧
    (∀ b, s.cell b < 2 ^ 31) ∧
    ((∀ id, Finished (kernel.program data (STEP dataSize nthreads)) s id) →
      s.cell = histo0 dataSize data 0 zeroHistogram) := by
  have hProgram : ∃ guard,
      (kernel.program data (STEP dataSize nthreads) : Program (Fin nthreads) _ _ _ _) =
        countLoop guard data (STEP dataSize nthreads) := by
    cases kernel with
    | histo1 => exact ⟨_, rfl⟩
    | histo2 => exact ⟨_, rfl⟩
    | histo3 => exact ⟨_, rfl⟩
  obtain ⟨guard, hProgram⟩ := hProgram
  rw [hProgram] at hRun ⊢
  obtain ⟨hExclusive, hBalanced⟩ := countLoop_reaches hDvd hRun
  refine ⟨fun _ _ _ => hExclusive.eq_of_between, hExclusive.progress, ?_, ?_⟩
  · intro b
    have hSum := hBalanced.sum b
    have hTally := tally_le data 0 dataSize b
    omega
  · intro hAll
    rw [hBalanced.cell_of_finished hAll, histo0_eq_tally]

/-- Two threads of `histo_2`, between load and store of their buckets at the same time. -/
theorem kernels_linear_two : ∃ s : State (Fin 2) Sem Bucket Nat,
    (∀ id, Finished (Kernel.histo2.program (fun j => j.toUInt8) 1) s id) ∧
      s.cell = histo0 2 (fun j => j.toUInt8) 0 zeroHistogram := by
  have hWait : Run (Step (Kernel.histo2.program (fun j => j.toUInt8) 1)) (launch 2 1) _ _ :=
    (Run.nil.snoc (.wait (i := 0) rfl rfl rfl rfl)).snoc (.wait (i := 1) rfl rfl rfl rfl)
  have hStore := (((hWait.snoc (.load (i := 0) rfl)).snoc (.load (i := 1) rfl)).snoc
    (.store (i := 1) rfl)).snoc (.store (i := 0) rfl)
  have hPost := (hStore.snoc (.post (i := 0) rfl rfl)).snoc (.post (i := 1) rfl rfl)
  obtain ⟨-, -, -, hEnd⟩ :=
    kernels_linear .histo2 2 2 (fun j => j.toUInt8) (by decide) (by decide) _ _ hPost
  refine ⟨_, ?_, hEnd ?_⟩ <;>
  · rw [Fin.forall_fin_two]
    exact ⟨⟨1, rfl, rfl⟩, ⟨2, rfl, rfl⟩⟩

end Cs33.Thread
