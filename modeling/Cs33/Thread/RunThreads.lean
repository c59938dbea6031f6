import Cs33.Thread.Privatised
import Cs33.Thread.Verdict

/-! # Whole runs of `run_threads`

A round clears the histogram, lets eight threads run one routine in any order
of their steps, and joins them. The semaphores are those of the process, so a
round starts with what the round before has left in them. Every thread comes
to an end however the threads are scheduled, so every round does.
-/

namespace Cs33.Thread

open GuardedSum Transition

def NTHREADS : Nat := 8

/-! ## The kernels terminate -/

theorem Kernel.countLoop (kernel : Kernel) : ∃ guard, ∀ (nthreads : Nat) (data : Nat → UInt8)
    (step : Nat), (kernel.program data step : Program (Fin nthreads) Sem Bucket Nat Empty) =
      Thread.countLoop guard data step := by
  cases kernel with
  | histo1 => exact ⟨_, fun _ _ _ => rfl⟩
  | histo2 => exact ⟨_, fun _ _ _ => rfl⟩
  | histo3 => exact ⟨_, fun _ _ _ => rfl⟩

/-- However the threads are scheduled they take a bounded number of steps, and from every state
they reach they can all finish, which leaves the counts of `histo_0` and free semaphores. The loop
of `histo_4` needs blocks of whole groups of four. -/
theorem kernels_terminate (nthreads dataSize : Nat) (data : Nat → UInt8)
    (hDvd : nthreads ∣ dataSize) :
    (∀ (kernel : Kernel) es s, Run (Step (kernel.program data (STEP dataSize nthreads)))
        (launch nthreads (STEP dataSize nthreads)) es s →
      es.length ≤ 4 * dataSize ∧
        ∃ es' s', Run (Step (kernel.program data (STEP dataSize nthreads)))
          (launch nthreads (STEP dataSize nthreads)) (es ++ es') s' ∧
          (∀ id, Finished (kernel.program data (STEP dataSize nthreads)) s' id) ∧
          s'.cell = histo0 dataSize data 0 zeroHistogram ∧ ∀ l, s'.free l = true) ∧
    (4 ∣ STEP dataSize nthreads → ∀ es s, Run (Step (histo4 data (STEP dataSize nthreads)))
        (launch4 nthreads (STEP dataSize nthreads)) es s →
      es.length ≤ dataSize + 32 * nthreads ∧
        ∃ es' s', Run (Step (histo4 data (STEP dataSize nthreads)))
          (launch4 nthreads (STEP dataSize nthreads)) (es ++ es') s' ∧
          (∀ id, Finished (histo4 data (STEP dataSize nthreads)) s' id) ∧
          s'.cell = histo0 dataSize data 0 zeroHistogram ∧ ∀ l, s'.free l = true) := by
  constructor
  · intro kernel es s hRun
    obtain ⟨guard, hProgram⟩ := kernel.countLoop
    rw [hProgram] at hRun ⊢
    rw [histo0_eq_tally]
    exact countLoop_terminates guard data hDvd hRun
  · intro hStep es s hRun
    have hWhole : nthreads * STEP dataSize nthreads = dataSize := Nat.mul_div_cancel' hDvd
    have hTerminates := histo4_terminates data hStep hRun
    rw [hWhole] at hTerminates
    rwa [histo0_eq_tally]

/-- Two threads, the second of which holds the mutex: they finish, and so do the two of `histo_4`. -/
theorem kernels_terminate_two :
    (∃ es s, Run (Step (histo1 (fun j => j.toUInt8) 4)) (launch 2 4) ((1, none) :: es) s ∧
      (∀ id, Finished (histo1 (fun j => j.toUInt8) 4) s id) ∧
      s.cell = histo0 8 (fun j => j.toUInt8) 0 zeroHistogram) ∧
    ∃ es s, Run (Step (histo4 (fun j => j.toUInt8) 4)) (launch4 2 4) ((1, some 4) :: es) s ∧
      (∀ id, Finished (histo4 (fun j => j.toUInt8) 4) s id) ∧
      s.cell = histo0 8 (fun j => j.toUInt8) 0 zeroHistogram := by
  obtain ⟨hKernels, hHisto4⟩ := kernels_terminate 2 8 (fun j => j.toUInt8) (by decide)
  have hWait : Run (Step (histo1 (fun j => j.toUInt8) 4)) (launch 2 4) _ _ :=
    Run.nil.snoc (.wait (i := 1) rfl rfl rfl rfl)
  have hRead : Run (Step (histo4 (fun j => j.toUInt8) 4)) (launch4 2 4) _ _ :=
    Run.nil.snoc (.work (i := 1) rfl rfl)
  obtain ⟨-, es, s, hRun, hAll, hCell, -⟩ := hKernels .histo1 _ _ hWait
  obtain ⟨-, es', s', hRun', hAll', hCell', -⟩ := hHisto4 (by decide) _ _ hRead
  exact ⟨⟨es, s, hRun, hAll, hCell⟩, es', s', hRun', hAll', hCell'⟩

/-! ## The rounds -/

/-- The semaphores of the process. -/
abbrev Semaphores := Sem → Bool

/-- The ints of `global_histogram`. -/
def toBuckets (g : Histogram) : Buckets := fun b => BitVec.ofNat 32 (g b)

/-- `thread_routine[..]` of the kernels that run one loop. -/
def Kernel.routine : Kernel → ThreadRt
  | .histo1 => 1
  | .histo2 => 2
  | .histo3 => 3

/-- What the threads of a routine leave, joined, in a cleared histogram and in the semaphores.
All but one of the threads of `histo_0` return at once. -/
inductive Joined (data : Nat → UInt8) : ThreadRt → Semaphores → Buckets → Semaphores → Prop
  | histo0 {free : Semaphores} {order : List Nat} (hOrder : order.Perm (List.range NTHREADS)) :
    Joined data 0 free
      (toBuckets (order.foldl (fun g id => Thread.histo0 DATA_SIZE data id g) zeroHistogram)) free
  | kernel {kernel : Kernel} {free : Semaphores} {es : List (Fin NTHREADS × Option Empty)}
    {s : State (Fin NTHREADS) Sem Bucket Nat}
    (hRun : Run (Step (kernel.program data (STEP DATA_SIZE NTHREADS)))
      { launch NTHREADS (STEP DATA_SIZE NTHREADS) with free := free } es s)
    (hAll : ∀ id, Finished (kernel.program data (STEP DATA_SIZE NTHREADS)) s id) :
    Joined data kernel.routine free (toBuckets s.cell) s.free
  | histo4 {free : Semaphores} {es : List (Fin NTHREADS × Option Nat)}
    {s : State (Fin NTHREADS) Sem Bucket Private}
    (hRun : Run (Step (Thread.histo4 data (STEP DATA_SIZE NTHREADS)))
      { launch4 NTHREADS (STEP DATA_SIZE NTHREADS) with free := free } es s)
    (hAll : ∀ id, Finished (Thread.histo4 data (STEP DATA_SIZE NTHREADS)) s id) :
    Joined data 4 free (toBuckets s.cell) s.free

/-- The loop over the thread routines. -/
inductive Rounds (data : Nat → UInt8) :
    List ThreadRt → Semaphores → Verdicts → Semaphores → Verdicts → Prop
  | nil {free : Semaphores} {v : Verdicts} : Rounds data [] free v free v
  | cons {id : ThreadRt} {ids : List ThreadRt} {free free' free'' : Semaphores} {hist : Buckets}
    {v w : Verdicts} (hJoined : Joined data id free hist free')
    (hRest : Rounds data ids free' (runRoutine (fun _ _ _ => hist) data v id) free'' w) :
    Rounds data (id :: ids) free v free'' w

/-- A run of `run_threads` to its end, from the semaphores that `main` has initialised. -/
def Execution (rand : Nat → Nat) (free : Semaphores) (v : Verdicts) : Prop :=
  Rounds (generate rand DATA_SIZE).data (List.finRange 5) (fun _ => true)
    ⟨fun _ => 0, fun _ => 0, []⟩ free v

section Rounds

variable {data : Nat → UInt8} {id : ThreadRt} {ids : List ThreadRt} {free : Semaphores}
  {hist : Buckets} {v w : Verdicts}

theorem nthreads_dvd : NTHREADS ∣ DATA_SIZE := by decide

theorem four_dvd_step : 4 ∣ STEP DATA_SIZE NTHREADS := by decide

theorem nthreads_mul_step : NTHREADS * STEP DATA_SIZE NTHREADS = DATA_SIZE := by decide

theorem foldl_histo0 (dataSize : Nat) (data : Nat → UInt8) {order : List Nat} (g : Histogram)
    (hNot : 0 ∉ order) : order.foldl (fun g id => histo0 dataSize data id g) g = g := by
  induction order with
  | nil => rfl
  | cons id order ih =>
    obtain ⟨hid, hOrder⟩ := not_or.mp (mt List.mem_cons.mpr hNot)
    rw [List.foldl_cons, histo0, if_neg (Ne.symm hid)]
    exact ih hOrder

/-- Whenever thread 0 runs, the others change nothing. -/
theorem foldl_histo0_of_perm (dataSize : Nat) (data : Nat → UInt8) {order : List Nat} {n : Nat}
    (hPos : 0 < n) (hOrder : order.Perm (List.range n)) :
    order.foldl (fun g id => histo0 dataSize data id g) zeroHistogram = tally data 0 dataSize := by
  have hMem : 0 ∈ order := hOrder.mem_iff.mpr (List.mem_range.mpr hPos)
  have hNodup : order.Nodup := hOrder.nodup_iff.mpr List.nodup_range
  obtain ⟨before, after, rfl⟩ := List.append_of_mem hMem
  have hSplit := List.nodup_append.mp hNodup
  have hBefore : 0 ∉ before := fun h => hSplit.2.2 0 h 0 List.mem_cons_self rfl
  have hAfter : 0 ∉ after := (List.nodup_cons.mp hSplit.2.1).1
  rw [List.foldl_append, foldl_histo0 _ _ _ hBefore, List.foldl_cons, histo0_eq_tally,
    foldl_histo0 _ _ _ hAfter]

/-- Every routine leaves the counts of the data and, from free semaphores, free semaphores. -/
theorem Joined.result (h : Joined data id (fun _ => true) hist free) :
    hist = toBuckets (tally data 0 DATA_SIZE) ∧ free = fun _ => true := by
  cases h with
  | histo0 hOrder => exact ⟨by rw [foldl_histo0_of_perm _ _ (by decide) hOrder], rfl⟩
  | @kernel kernel _ es s hRun hAll =>
    obtain ⟨guard, hProgram⟩ := kernel.countLoop
    rw [hProgram] at hRun hAll
    obtain ⟨hExclusive, hBalanced⟩ := countLoop_reaches nthreads_dvd hRun
    rw [hBalanced.cell_of_finished hAll]
    exact ⟨rfl, funext (hExclusive.free_of_finished hAll)⟩
  | histo4 hRun hAll =>
    obtain ⟨hExclusive, hBalanced⟩ := histo4_reaches four_dvd_step hRun
    rw [hBalanced.cell_of_finished hAll, nthreads_mul_step]
    exact ⟨rfl, funext (hExclusive.free_of_finished hAll)⟩

theorem exists_joined (data : Nat → UInt8) (id : ThreadRt) :
    ∃ hist free, Joined data id (fun _ => true) hist free := by
  have hKernel : ∀ kernel : Kernel, ∃ hist free,
      Joined data kernel.routine (fun _ => true) hist free := by
    intro kernel
    obtain ⟨guard, hProgram⟩ := kernel.countLoop
    obtain ⟨-, es, s, hRun, hAll, -⟩ := countLoop_terminates guard data nthreads_dvd .nil
    rw [← hProgram] at hRun hAll
    exact ⟨_, _, .kernel hRun hAll⟩
  match id with
  | 0 => exact ⟨_, _, .histo0 (.refl _)⟩
  | 1 => exact hKernel .histo1
  | 2 => exact hKernel .histo2
  | 3 => exact hKernel .histo3
  | 4 =>
    have hStart : Run (Step (histo4 data (STEP DATA_SIZE NTHREADS)))
        (launch4 NTHREADS (STEP DATA_SIZE NTHREADS)) [] _ := .nil
    obtain ⟨-, es, s, hRun, hAll, -⟩ := histo4_terminates data four_dvd_step hStart
    exact ⟨_, _, .histo4 hRun hAll⟩

theorem sum_toBuckets_tally (data : Nat → UInt8) :
    printHistogram (toBuckets (tally data 0 DATA_SIZE)) = BitVec.ofNat 32 DATA_SIZE := by
  rw [printHistogram_eq, ← sub_eq_zero, ← sum_deviation data]
  exact Finset.sum_eq_zero fun b _ => sub_self _

theorem runRoutine_tally (v : Verdicts) :
    runRoutine (fun _ _ _ => toBuckets (tally data 0 DATA_SIZE)) data v id =
      { v with
        globalHistogram := toBuckets (tally data 0 DATA_SIZE)
        correctness := Function.update v.correctness id 1 } :=
  if_pos (sum_toBuckets_tally data)

theorem Rounds.result (h : Rounds data ids (fun _ => true) v free w) :
    free = (fun _ => true) ∧ w.out = v.out ∧
      (∀ id, w.correctness id = if id ∈ ids then 1 else v.correctness id) ∧
      (ids ≠ [] → w.globalHistogram = toBuckets (tally data 0 DATA_SIZE)) := by
  induction ids generalizing v with
  | nil =>
    cases h
    exact ⟨rfl, rfl, fun _ => rfl, fun hne => absurd rfl hne⟩
  | cons first ids ih =>
    obtain _ | ⟨hJoined, hRest⟩ := h
    obtain ⟨rfl, rfl⟩ := hJoined.result
    rw [runRoutine_tally] at hRest
    obtain ⟨hFree, hOut, hFlags, hLast⟩ := ih hRest
    refine ⟨hFree, hOut, ?_, ?_⟩
    · intro id
      rw [hFlags id]
      by_cases hMem : id ∈ ids
      · rw [if_pos hMem, if_pos (List.mem_cons_of_mem _ hMem)]
      · rw [if_neg hMem]
        obtain rfl | hne := eq_or_ne id first
        · rw [if_pos List.mem_cons_self]
          exact Function.update_self _ _ _
        · rw [if_neg (by simp [hne, hMem])]
          exact Function.update_of_ne hne _ _
    · intro _
      obtain rfl | hne := eq_or_ne ids []
      · cases hRest
        rfl
      · exact hLast hne

theorem exists_rounds (data : Nat → UInt8) (ids : List ThreadRt) (v : Verdicts) :
    ∃ free w, Rounds data ids (fun _ => true) v free w := by
  induction ids generalizing v with
  | nil => exact ⟨_, _, .nil⟩
  | cons id ids ih =>
    obtain ⟨hist, free, hJoined⟩ := exists_joined data id
    obtain ⟨rfl, rfl⟩ := hJoined.result
    obtain ⟨free, w, hRest⟩ := ih _
    exact ⟨free, w, .cons hJoined hRest⟩

end Rounds

/-- Whatever `rand` returns, `run_threads` can run to its end, and every such run sets all five
flags, prints no notice and leaves the recorded counts and free semaphores. -/
theorem run_threads_passes (rand : Nat → Nat) :
    (∃ free v, Execution rand free v) ∧
      ∀ free v, Execution rand free v → (∀ id, v.correctness id = 1) ∧ v.out = [] ∧
        v.globalHistogram = (generate rand DATA_SIZE).bucket ∧ ∀ l, free l = true := by
  refine ⟨exists_rounds _ _ _, ?_⟩
  intro free v h
  obtain ⟨hFree, hOut, hFlags, hLast⟩ := h.result
  refine ⟨?_, hOut, ?_, ?_⟩
  · intro id
    rw [hFlags id, if_pos (List.mem_finRange id)]
  · rw [hLast (List.ne_nil_of_mem (List.mem_finRange 0))]
    funext b
    rw [generate_bucket]
    rfl
  · intro l
    rw [hFree]

end Cs33.Thread
