import Mathlib.Algebra.Order.BigOperators.Group.Finset
import Mathlib.Data.List.Perm.Basic
import Cs33.Thread.Kernels

/-! # The kernel with private counts

`histo_4` counts its block four elements at a time into counts of its own and
then adds each of them to `global_histogram` under the semaphore of its
bucket. A private state remembers which elements have been read, so the reads
of a run can be listed.
-/

namespace Cs33.Thread

open GuardedSum Transition

/-- The private variables of `histo_4`; the first `lane` statements of the loop body are done. -/
structure Private where
  counts : Histogram
  j : Nat
  lane : Nat
  k : Nat

/-- `counts[data[j+lane]%BUCKET_SIZE]++`, and `j+=4` after the last of the four. -/
def Private.count (data : Nat → UInt8) (p : Private) : Private :=
  { p with
    counts := increment p.counts (bucketOf data (p.j + p.lane))
    j := if p.lane = 3 then p.j + 4 else p.j
    lane := if p.lane = 3 then 0 else p.lane + 1 }

/-- The counting loop reads one element a step; the second loop adds `counts[k]` to bucket `k`. -/
def histo4 {nthreads : Nat} (data : Nat → UInt8) (step : Nat) :
    Program (Fin nthreads) Sem Bucket Private Nat where
  guard b := some (.locks b)
  todo id p :=
    if p.j < id * step + step then .work (p.j + p.lane) (p.count data)
    else if hk : p.k < BUCKET_SIZE then
      .add ⟨p.k, hk⟩ (p.counts ⟨p.k, hk⟩) { p with k := p.k + 1 }
    else .finished

def launch4 (nthreads step : Nat) : State (Fin nthreads) Sem Bucket Private :=
  start zeroHistogram fun id => ⟨zeroHistogram, id * step, 0, 0⟩

/-- The thread has counted whole groups of four and `lane` more, and merges only after that. -/
structure Private.Valid (lo step : Nat) (p : Private) : Prop where
  groups : ∃ r, p.j = lo + 4 * r ∧ 4 * r ≤ step
  lane_lt : p.lane < 4
  counting : p.j < lo + step → p.k = 0
  merging : p.j = lo + step → p.lane = 0

/-- The counts that are not yet merged and the tally of what is not yet read. -/
def Private.owed (data : Nat → UInt8) (lo step : Nat) (p : Private) (b : Bucket) : Nat :=
  (if b.val < p.k then 0 else p.counts b) +
    tally data (p.j + p.lane) (lo + step - (p.j + p.lane)) b

def Private.trail (lo : Nat) (p : Private) : List Nat := List.range' lo (p.j + p.lane - lo)

section Private

variable {data : Nat → UInt8} {lo step : Nat} {p : Private}

theorem Private.count_pos (data : Nat → UInt8) (p : Private) :
    (p.count data).j + (p.count data).lane = p.j + p.lane + 1 := by
  by_cases h : p.lane = 3
  · simp only [Private.count, if_pos h]
    omega
  · simp only [Private.count, if_neg h]
    omega

theorem Private.Valid.group_fits (h : p.Valid lo step) (hDvd : 4 ∣ step) (hj : p.j < lo + step) :
    p.j + 4 ≤ lo + step := by
  obtain ⟨r, hr, -⟩ := h.groups
  omega

theorem Private.Valid.count (h : p.Valid lo step) (hDvd : 4 ∣ step) (hj : p.j < lo + step) :
    (p.count data).Valid lo step := by
  have hFits := h.group_fits hDvd hj
  have hLane := h.lane_lt
  have hCounting := h.counting hj
  obtain ⟨r, hr, hLe⟩ := h.groups
  by_cases h3 : p.lane = 3
  · refine ⟨⟨r + 1, ?_, by omega⟩, ?_, fun _ => hCounting, fun _ => if_pos h3⟩
    · simp only [Private.count, if_pos h3]
      omega
    · simp only [Private.count, if_pos h3]
      omega
  · have hSame : (p.count data).j = p.j := if_neg h3
    refine ⟨⟨r, hSame.trans hr, hLe⟩, ?_, fun _ => hCounting, ?_⟩
    · simp only [Private.count, if_neg h3]
      omega
    · rw [hSame]
      intro hEnd
      omega

theorem Private.Valid.owed_count (h : p.Valid lo step) (hDvd : 4 ∣ step) (hj : p.j < lo + step) :
    (p.count data).owed data lo step = p.owed data lo step := by
  have hFits := h.group_fits hDvd hj
  have hLane := h.lane_lt
  have hCounting := h.counting hj
  have hLength : lo + step - (p.j + p.lane) = lo + step - (p.j + p.lane + 1) + 1 := by omega
  funext b
  have hCount : (p.count data).counts b =
      p.counts b + if b = bucketOf data (p.j + p.lane) then 1 else 0 := by
    by_cases hb : b = bucketOf data (p.j + p.lane)
    · rw [hb, if_pos rfl]
      exact Function.update_self _ _ _
    · rw [if_neg hb]
      exact Function.update_of_ne hb _ _
  have hk : (p.count data).k = p.k := rfl
  rw [Private.owed, Private.owed, Private.count_pos data p, hLength, tally_succ, hCount, hk,
    hCounting, if_neg (Nat.not_lt_zero _), if_neg (Nat.not_lt_zero _)]
  omega

theorem Private.Valid.merge (h : p.Valid lo step) (hj : ¬ p.j < lo + step) :
    ({ p with k := p.k + 1 } : Private).Valid lo step :=
  ⟨h.groups, h.lane_lt, fun hLt => absurd hLt hj, h.merging⟩

theorem Private.owed_merge (hk : p.k < BUCKET_SIZE) (b : Bucket) :
    p.owed data lo step b = ({ p with k := p.k + 1 } : Private).owed data lo step b +
      if b = ⟨p.k, hk⟩ then p.counts ⟨p.k, hk⟩ else 0 := by
  rw [Private.owed, Private.owed]
  dsimp only
  by_cases hb : b = ⟨p.k, hk⟩
  · have hVal : b.val = p.k := congrArg Fin.val hb
    rw [if_pos hb, if_neg (by omega), if_pos (by omega), ← hb]
    omega
  · have hVal : b.val ≠ p.k := fun hEq => hb (Fin.ext hEq)
    rw [if_neg hb]
    by_cases hLt : b.val < p.k
    · rw [if_pos hLt, if_pos (by omega)]
      omega
    · rw [if_neg hLt, if_neg (by omega)]
      omega

theorem Private.owed_done (hj : ¬ p.j < lo + step) (hk : ¬ p.k < BUCKET_SIZE) (b : Bucket) :
    p.owed data lo step b = 0 := by
  have hBucket := b.isLt
  rw [Private.owed, if_pos (by omega), Nat.sub_eq_zero_of_le (by omega), tally_zero]

theorem Private.Valid.trail_count (h : p.Valid lo step) :
    (p.count data).trail lo = p.trail lo ++ [p.j + p.lane] := by
  obtain ⟨r, hr, -⟩ := h.groups
  have hLength : p.j + p.lane + 1 - lo = p.j + p.lane - lo + 1 := by omega
  have hLast : lo + (p.j + p.lane - lo) = p.j + p.lane := by omega
  rw [Private.trail, Private.count_pos data p, hLength, List.range'_concat, Nat.one_mul,
    hLast]
  rfl

end Private

section Histo4

variable {nthreads : Nat} {data : Nat → UInt8} {step : Nat} {id : Fin nthreads} {p : Private}

theorem histo4_cases (data : Nat → UInt8) (step : Nat) (id : Fin nthreads) (p : Private) :
    (p.j < id * step + step ∧
      (histo4 data step).todo id p = .work (p.j + p.lane) (p.count data)) ∨
    (¬ p.j < id * step + step ∧ ∃ hk : p.k < BUCKET_SIZE, (histo4 data step).todo id p =
      .add ⟨p.k, hk⟩ (p.counts ⟨p.k, hk⟩) { p with k := p.k + 1 }) ∨
    (¬ p.j < id * step + step ∧ ¬ p.k < BUCKET_SIZE ∧
      (histo4 data step).todo id p = .finished) := by
  by_cases hj : p.j < id * step + step
  · exact .inl ⟨hj, if_pos hj⟩
  · by_cases hk : p.k < BUCKET_SIZE
    · exact .inr (.inl ⟨hj, hk, (if_neg hj).trans (dif_pos hk)⟩)
    · exact .inr (.inr ⟨hj, hk, (if_neg hj).trans (dif_neg hk)⟩)

theorem histo4_work {e : Nat} {p' : Private}
    (h : (histo4 data step).todo id p = .work e p') :
    p.j < id * step + step ∧ e = p.j + p.lane ∧ p' = p.count data := by
  obtain ⟨hj, hTodo⟩ | ⟨-, _, hTodo⟩ | ⟨-, -, hTodo⟩ := histo4_cases data step id p
  · cases hTodo.symm.trans h
    exact ⟨hj, rfl, rfl⟩
  · cases hTodo.symm.trans h
  · cases hTodo.symm.trans h

theorem histo4_add {b : Bucket} {a : Nat} {p' : Private}
    (h : (histo4 data step).todo id p = .add b a p') :
    ¬ p.j < id * step + step ∧ ∃ hk : p.k < BUCKET_SIZE,
      b = ⟨p.k, hk⟩ ∧ a = p.counts ⟨p.k, hk⟩ ∧ p' = { p with k := p.k + 1 } := by
  obtain ⟨-, hTodo⟩ | ⟨hj, hk, hTodo⟩ | ⟨-, -, hTodo⟩ := histo4_cases data step id p
  · cases hTodo.symm.trans h
  · cases hTodo.symm.trans h
    exact ⟨hj, hk, rfl, rfl, rfl⟩
  · cases hTodo.symm.trans h

theorem histo4_finished (h : (histo4 data step).todo id p = .finished) :
    ¬ p.j < id * step + step ∧ ¬ p.k < BUCKET_SIZE := by
  obtain ⟨-, hTodo⟩ | ⟨-, _, hTodo⟩ | ⟨hj, hk, -⟩ := histo4_cases data step id p
  · cases hTodo.symm.trans h
  · cases hTodo.symm.trans h
  · exact ⟨hj, hk⟩

def histo4Account (data : Nat → UInt8) (step : Nat) (hDvd : 4 ∣ step) :
    Account (histo4 data step : Program (Fin nthreads) Sem Bucket Private Nat) where
  Valid id p := p.Valid (id * step) step
  owed id p := p.owed data (id * step) step
  owed_finished id p hValid hTodo b := by
    obtain ⟨hj, hk⟩ := histo4_finished hTodo
    exact Private.owed_done hj hk b
  valid_work id p e p' hValid hTodo := by
    obtain ⟨hj, -, rfl⟩ := histo4_work hTodo
    exact hValid.count hDvd hj
  owed_work id p e p' hValid hTodo := by
    obtain ⟨hj, -, rfl⟩ := histo4_work hTodo
    exact hValid.owed_count hDvd hj
  valid_add id p b a p' hValid hTodo := by
    obtain ⟨hj, -, -, -, rfl⟩ := histo4_add hTodo
    exact hValid.merge hj
  owed_add id p b a p' hValid hTodo c := by
    obtain ⟨-, hk, rfl, rfl, rfl⟩ := histo4_add hTodo
    exact Private.owed_merge hk c

theorem histo4_history (hDvd : 4 ∣ step) :
    History (histo4Account data step hDvd)
      fun (id : Fin nthreads) p => p.trail (id * step) where
  work id p e p' hValid hTodo := by
    obtain ⟨-, rfl, rfl⟩ := histo4_work hTodo
    exact hValid.trail_count
  add id p b a p' hValid hTodo := by
    obtain ⟨-, -, -, -, rfl⟩ := histo4_add hTodo
    rfl

def histo4Measure (nthreads : Nat) (data : Nat → UInt8) (step : Nat) (hDvd : 4 ∣ step) :
    Measure (histo4Account data step hDvd :
      Account (histo4 data step : Program (Fin nthreads) Sem Bucket Private Nat)) where
  ahead id p := id * step + step - (p.j + p.lane) + 4 * (BUCKET_SIZE - p.k)
  work id p e p' hValid hTodo := by
    obtain ⟨hj, -, rfl⟩ := histo4_work hTodo
    have hFits := hValid.group_fits hDvd hj
    have hLane := hValid.lane_lt
    have hPos := Private.count_pos data p
    have hk : (p.count data).k = p.k := rfl
    omega
  add id p b a p' hValid hTodo := by
    obtain ⟨-, hk, -, -, rfl⟩ := histo4_add hTodo
    change id * step + step - (p.j + p.lane) + 4 * (BUCKET_SIZE - (p.k + 1)) + 4 ≤ _
    omega

end Histo4

section Run

variable {nthreads dataSize : Nat} {data : Nat → UInt8} {es : List (Fin nthreads × Option Nat)}
  {s : State (Fin nthreads) Sem Bucket Private}

theorem launch_valid (step : Nat) (id : Fin nthreads) :
    (⟨zeroHistogram, id * step, 0, 0⟩ : Private).Valid (id * step) step :=
  ⟨⟨0, rfl, Nat.zero_le _⟩, Nat.zero_lt_succ 3, fun _ => rfl, fun _ => rfl⟩

theorem owed_launch (step : Nat) (id : Fin nthreads) (b : Bucket) :
    (⟨zeroHistogram, id * step, 0, 0⟩ : Private).owed data (id * step) step b =
      tally data (id * step) step b := by
  rw [Private.owed, if_neg (Nat.not_lt_zero _)]
  dsimp only
  rw [zeroHistogram, Nat.zero_add, Nat.add_zero, Nat.add_sub_cancel_left]

theorem trail_launch (step : Nat) (id : Fin nthreads) :
    (⟨zeroHistogram, id * step, 0, 0⟩ : Private).trail (id * step) = [] := by
  rw [Private.trail]
  dsimp only
  rw [Nat.add_zero, Nat.sub_self, List.range'_zero]

theorem histo4_reaches {step : Nat} (hStep : 4 ∣ step)
    (hRun : Run (Step (histo4 data step)) (launch4 nthreads step) es s) :
    Exclusive (histo4 data step) s ∧
      Balanced (histo4Account data step hStep) (tally data 0 (nthreads * step)) s := by
  have hTotal : (fun b => zeroHistogram b + ∑ id : Fin nthreads,
      (⟨zeroHistogram, id * step, 0, 0⟩ : Private).owed data (id * step) step b) =
      tally data 0 (nthreads * step) := by
    funext b
    rw [Finset.sum_congr rfl fun id _ => owed_launch step id b, sum_tally, zeroHistogram,
      Nat.zero_add]
  rw [← hTotal]
  exact run_invariant (histo4Account data step hStep) (launch_valid step) hRun

theorem histo4_terminates {step : Nat} (data : Nat → UInt8) (hStep : 4 ∣ step)
    (hRun : Run (Step (histo4 data step)) (launch4 nthreads step) es s) :
    es.length ≤ nthreads * step + 32 * nthreads ∧
      ∃ es' s', Run (Step (histo4 data step)) (launch4 nthreads step) (es ++ es') s' ∧
        (∀ id, Finished (histo4 data step) s' id) ∧
        s'.cell = tally data 0 (nthreads * step) ∧ ∀ l, s'.free l = true := by
  let M := histo4Measure nthreads data step hStep
  have hAhead : ∀ id : Fin nthreads, M.ahead id ⟨zeroHistogram, id * step, 0, 0⟩ = step + 32 := by
    intro id
    change id * step + step - (id * step + 0) + 32 = step + 32
    omega
  have hLength := M.length_le (launch_valid step) hRun
  rw [Finset.sum_congr rfl fun id _ => hAhead id, Finset.sum_const, Finset.card_univ,
    Fintype.card_fin, smul_eq_mul, Nat.mul_add, Nat.mul_comm nthreads 32] at hLength
  obtain ⟨es', s', hRun', hAll⟩ := M.finishes (launch_valid step) hRun
  obtain ⟨hExclusive, hBalanced⟩ := histo4_reaches hStep hRun'
  exact ⟨by omega, es', s', hRun', hAll, hBalanced.cell_of_finished hAll,
    hExclusive.free_of_finished hAll⟩

theorem reads_of_run {step : Nat} (hStep : 4 ∣ step)
    (hRun : Run (Step (histo4 data step)) (launch4 nthreads step) es s) (id : Fin nthreads) :
    ∃ len ≤ step, eventsOf id es = List.range' (id * step) len ∧
      (Finished (histo4 data step) s id → len = step) := by
  have hEvents := (histo4_history hStep).run (launch_valid step) (trail_launch step) hRun id
  have hValid := (histo4_reaches hStep hRun).2.valid id
  obtain ⟨⟨r, hr, hLe⟩, hLane, -, hMerging⟩ := hValid
  obtain ⟨q, hq⟩ := hStep
  refine ⟨_, ?_, hEvents, ?_⟩
  · obtain hEq | hne := eq_or_ne (s.thread id).next.j (id * step + step)
    · have hZero := hMerging hEq
      omega
    · omega
  · rintro ⟨t, hIdle, hTodo⟩
    obtain ⟨hj, -⟩ := histo4_finished hTodo
    rw [hIdle] at hr hMerging ⊢
    change t.j = _ at hr
    change t.j + t.lane - id * step = step
    have hZero : t.lane = 0 := hMerging (by change t.j = _; omega)
    omega

theorem count_reads_le {step : Nat} (hStep : 4 ∣ step)
    (hRun : Run (Step (histo4 data step)) (launch4 nthreads step) es s) (j : Nat) :
    (allEvents es).count j ≤ (List.range' 0 (nthreads * step)).count j := by
  rw [count_allEvents, ← sum_count_slices]
  refine Finset.sum_le_sum fun id _ => ?_
  obtain ⟨len, hLe, hReads, -⟩ := reads_of_run hStep hRun id
  rw [hReads]
  exact (List.range'_sublist_right.mpr hLe).count_le j

theorem count_reads_finished {step : Nat} (hStep : 4 ∣ step)
    (hRun : Run (Step (histo4 data step)) (launch4 nthreads step) es s)
    (hAll : ∀ id, Finished (histo4 data step) s id) (j : Nat) :
    (allEvents es).count j = (List.range' 0 (nthreads * step)).count j := by
  rw [count_allEvents, ← sum_count_slices]
  refine Finset.sum_congr rfl fun id _ => ?_
  obtain ⟨len, -, hReads, hEnd⟩ := reads_of_run hStep hRun id
  rw [hReads, hEnd (hAll id)]

end Run

/-- No reachable state is stuck, no element is read twice, no counter overflows, and in the end
each thread has read its own block, every element has been read once and the histogram is that
of `histo_0`. -/
theorem histo4_refines (nthreads dataSize : Nat) (data : Nat → UInt8) (hThreads : 0 < nthreads)
    (hDvd : 4 * nthreads ∣ dataSize) (hSize : dataSize < 2 ^ 31)
    (es : List (Fin nthreads × Option Nat)) (s : State (Fin nthreads) Sem Bucket Private)
    (hRun : Run (Step (histo4 data (STEP dataSize nthreads)))
      (launch4 nthreads (STEP dataSize nthreads)) es s) :
    ((∀ id, Finished (histo4 data (STEP dataSize nthreads)) s id) ∨
      ∃ label s', Step (histo4 data (STEP dataSize nthreads)) s label s') ∧
    (allEvents es).Nodup ∧ (∀ j ∈ allEvents es, j < dataSize) ∧ (∀ b, s.cell b < 2 ^ 31) ∧
    ((∀ id, Finished (histo4 data (STEP dataSize nthreads)) s id) →
      (∀ id : Fin nthreads, eventsOf id es =
        List.range' (id * STEP dataSize nthreads) (STEP dataSize nthreads)) ∧
      (allEvents es).Perm (List.range dataSize) ∧
      s.cell = histo0 dataSize data 0 zeroHistogram) := by
  obtain ⟨q, rfl⟩ := hDvd
  have hSlice : STEP (4 * nthreads * q) nthreads = 4 * q := by
    rw [STEP, Nat.mul_comm 4, Nat.mul_assoc, Nat.mul_div_cancel_left _ hThreads]
  have hWhole : nthreads * (4 * q) = 4 * nthreads * q := by
    rw [← Nat.mul_assoc, Nat.mul_comm nthreads]
  rw [hSlice] at hRun ⊢
  have hStep : 4 ∣ 4 * q := Nat.dvd_mul_right 4 q
  obtain ⟨hExclusive, hBalanced⟩ := histo4_reaches hStep hRun
  rw [hWhole] at hBalanced
  have hCount := count_reads_le hStep hRun
  rw [hWhole, ← List.range_eq_range'] at hCount
  refine ⟨hExclusive.progress, ?_, ?_, ?_, ?_⟩
  · rw [List.nodup_iff_count_le_one]
    exact fun j => (hCount j).trans (List.nodup_iff_count_le_one.mp List.nodup_range j)
  · intro j hj
    exact List.mem_range.mp (List.count_pos_iff.mp ((List.count_pos_iff.mpr hj).trans_le (hCount j)))
  · intro b
    have hSum := hBalanced.sum b
    have hTally := tally_le data 0 (4 * nthreads * q) b
    omega
  · intro hAll
    refine ⟨?_, ?_, ?_⟩
    · intro id
      obtain ⟨len, -, hReads, hEnd⟩ := reads_of_run hStep hRun id
      rw [hReads, hEnd (hAll id)]
    · rw [List.perm_iff_count]
      intro j
      rw [count_reads_finished hStep hRun hAll j, hWhole, List.range_eq_range']
    · rw [hBalanced.cell_of_finished hAll, histo0_eq_tally]

/-- Two threads that have finished have read each of the eight elements once. -/
theorem histo4_refines_two : ∃ es s, Run (Step (histo4 (fun j => j.toUInt8) 4)) (launch4 2 4) es s ∧
    (allEvents es).Perm (List.range 8) ∧
    s.cell = histo0 8 (fun j => j.toUInt8) 0 zeroHistogram := by
  have hStart : Run (Step (histo4 (fun j => j.toUInt8) 4)) (launch4 2 4) [] _ := .nil
  obtain ⟨-, es, s, hRun, hAll, -⟩ := histo4_terminates _ (by decide) hStart
  obtain ⟨-, -, -, -, hEnd⟩ := histo4_refines 2 8 (fun j => j.toUInt8) (by decide) (by decide)
    (by decide) _ _ hRun
  obtain ⟨-, hReads, hCell⟩ := hEnd hAll
  exact ⟨_, s, hRun, hReads, hCell⟩

end Cs33.Thread
