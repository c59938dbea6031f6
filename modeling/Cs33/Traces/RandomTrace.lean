import Mathlib.Algebra.Order.BigOperators.Group.List
import Cs33.Traces.Synthetic

/-! # The random trace in the driver

A series that allocates each id once, frees each id once and frees it behind its
allocation is disciplined and leaves nothing live. gen_random.pl inserts the
frees at random positions, but always behind.
-/

namespace Cs33.Traces

open Text

section Order

variable {rs before : List Request} {id : Chars}

/-- Each id is allocated once and freed once, in this order. -/
structure Paired (rs : List Request) : Prop where
  allocs : (rs.filterMap Request.allocated).Nodup
  frees : (rs.filterMap Request.freed).Nodup
  noRealloc : ∀ id size, .realloc id size ∉ rs
  order : ∀ id, .free id ∈ rs → ∃ size, [.alloc id size, .free id].Sublist rs
  all : ∀ id ∈ rs.filterMap Request.allocated, .free id ∈ rs

theorem freed_mem (h : .free id ∈ before) : id ∈ before.filterMap Request.freed :=
  List.mem_filterMap.mpr ⟨.free id, h, rfl⟩

/-- Behind an allocation stands the free, so the allocation stands before the free. -/
theorem alloc_before {after : List Request} {size : Chars} (hAfter : .free id ∉ after)
    (h : [.alloc id size, .free id].Sublist (before ++ .free id :: after)) : .alloc id size ∈ before := by
  obtain ⟨first, second, hSplit, hFirst, hSecond⟩ := List.sublist_append_iff.mp h
  cases first with
  | nil =>
    obtain rfl : second = [.alloc id size, .free id] := hSplit.symm
    cases hSecond with
    | cons _ hTail => exact absurd (hTail.subset (by simp)) hAfter
  | cons q first =>
    obtain ⟨rfl, -⟩ := List.cons.inj hSplit
    exact hFirst.subset List.mem_cons_self

theorem Paired.disciplined (h : Paired rs) : Disciplined rs := by
  intro before q after hSplit
  have hAllocs := h.allocs
  have hFrees := h.frees
  rw [hSplit, List.filterMap_append] at hAllocs hFrees
  cases q with
  | alloc id size =>
    intro hLive
    apply List.disjoint_of_nodup_append hAllocs hLive.allocated_mem
    exact List.mem_filterMap.mpr ⟨.alloc id size, List.mem_cons_self, rfl⟩
  | realloc id size => exact absurd (hSplit ▸ by simp) (h.noRealloc id size)
  | free id =>
    have hBefore : .free id ∉ before := fun hMem =>
      List.disjoint_of_nodup_append hFrees (freed_mem hMem) (freed_mem List.mem_cons_self)
    have hAfter : .free id ∉ after := fun hMem => by
      have hTail := (List.nodup_append'.mp hFrees).2.1
      exact (List.nodup_cons.mp hTail).1 (freed_mem hMem)
    obtain ⟨size, hOrder⟩ := h.order id (hSplit ▸ by simp)
    rw [hSplit] at hOrder
    have hAlloc := alloc_before hAfter hOrder
    have hNamed : id ∈ before.filterMap Request.allocated :=
      List.mem_filterMap.mpr ⟨_, hAlloc, rfl⟩
    exact (live_or_freed hNamed).resolve_right hBefore

theorem Paired.not_live (h : Paired rs) (id : Chars) : ¬ Live rs id := by
  intro hLive
  obtain ⟨earlier, size, later, rfl, hFree⟩ := hLive
  have hFreed := h.all id (by simp [Request.allocated])
  have hEarlier : .free id ∈ earlier := by simpa [hFree] using hFreed
  obtain ⟨e₁, e₂, rfl⟩ := List.append_of_mem hEarlier
  have hLive : Live e₁ id :=
    h.disciplined e₁ (.free id) (e₂ ++ .alloc id size :: later) (by simp)
  have hAllocs := h.allocs
  rw [List.append_assoc, List.filterMap_append] at hAllocs
  apply List.disjoint_of_nodup_append hAllocs hLive.allocated_mem
  exact List.mem_filterMap.mpr ⟨.alloc id size, by simp, rfl⟩

end Order

section Random

variable {rand : Rand} {numBlocks maxBlkSize : Nat} {trace : List Op}

theorem nodup_decimal (n : Nat) : ((List.range n).map fun id : Nat => decimal id).Nodup :=
  List.nodup_range.map fun _ _ h => decimal_inj.mp h

theorem Inserted.paired (h : Inserted (allocTrace rand numBlocks maxBlkSize) numBlocks trace) :
    Paired (trace.map Op.request) where
  allocs := h.allocated ▸ nodup_decimal numBlocks
  frees := h.freed.nodup_iff.mpr (nodup_decimal numBlocks)
  noRealloc id size hMem := by
    obtain ⟨op, -, hOp⟩ := List.mem_map.mp hMem
    cases op <;> cases hOp
  order id hMem := by
    obtain ⟨op, hOp, hRequest⟩ := List.mem_map.mp hMem
    cases op with
    | alloc seq size => cases hRequest
    | free seq =>
      cases hRequest
      have hFreed : seq ∈ trace.filterMap Op.freed := List.mem_filterMap.mpr ⟨.free seq, hOp, rfl⟩
      obtain ⟨size, hOrder⟩ := h.order seq (List.mem_range.mp (h.frees.mem_iff.mp hFreed))
      exact ⟨decimal size, hOrder.map Op.request⟩
  all id hMem := by
    rw [h.allocated] at hMem
    obtain ⟨q, hq, hId⟩ := List.mem_filterMap.mp (h.freed.mem_iff.mpr hMem)
    cases q with
    | alloc _ _ => cases hId
    | realloc _ _ => cases hId
    | free id' =>
      cases hId
      exact hq

/-- The sum of the sizes. -/
def totalBlockSize (rand : Rand) (numBlocks maxBlkSize : Nat) : Int :=
  ((List.range numBlocks).map (blockSize rand maxBlkSize)).sum

theorem blockSize_le_total (rand : Rand) (maxBlkSize : Nat) {i : Nat} (hi : i < numBlocks) :
    blockSize rand maxBlkSize i ≤ totalBlockSize rand numBlocks maxBlkSize := by
  refine List.single_le_sum ?_ _ (List.mem_map.mpr ⟨i, List.mem_range.mpr hi, rfl⟩)
  intro size hSize
  obtain ⟨j, -, rfl⟩ := List.mem_map.mp hSize
  exact blockSize_nonneg rand maxBlkSize j

theorem totalBlockSize_nonneg (rand : Rand) (numBlocks maxBlkSize : Nat) :
    0 ≤ totalBlockSize rand numBlocks maxBlkSize := by
  refine List.sum_nonneg fun size hSize => ?_
  obtain ⟨j, -, rfl⟩ := List.mem_map.mp hSize
  exact blockSize_nonneg rand maxBlkSize j

theorem Inserted.plain (h : Inserted (allocTrace rand numBlocks maxBlkSize) numBlocks trace)
    (hBlocks : numBlocks < 2 ^ 31) (hTotal : totalBlockSize rand numBlocks maxBlkSize < 2 ^ 31)
    (hDraws : ∀ i < numBlocks, 1 ≤ rand.draw i maxBlkSize) : ∀ q ∈ trace.map Op.request, Plain q := by
  intro q hq
  obtain ⟨op, hOp, rfl⟩ := List.mem_map.mp hq
  cases op with
  | alloc seq size =>
    obtain ⟨hSeq, rfl⟩ := h.alloc_mem.mp hOp
    have hLow := (one_le_blockSize rand maxBlkSize seq).mpr (hDraws seq hSeq)
    have hHigh := blockSize_le_total rand maxBlkSize hSeq
    obtain ⟨size, hSize⟩ := Int.eq_ofNat_of_zero_le (blockSize_nonneg rand maxBlkSize seq)
    rw [Op.request, hSize]
    exact plain_alloc (by omega) (by omega) (by omega)
  | free seq =>
    have hFreed : seq ∈ trace.filterMap Op.freed := List.mem_filterMap.mpr ⟨.free seq, hOp, rfl⟩
    have hSeq := List.mem_range.mp (h.frees.mem_iff.mp hFreed)
    exact plain_free (by omega)

def randomCounts (rand : Rand) (numBlocks maxBlkSize : Nat) : Counts where
  suggHeapsize := (totalBlockSize rand numBlocks maxBlkSize).toNat + 100
  numIds := numBlocks
  numOps := 2 * numBlocks
  weight := 1

theorem genRandom_lines (h : Inserted (allocTrace rand numBlocks maxBlkSize) numBlocks trace)
    (hTrace : insertFrees rand numBlocks (allocTrace rand numBlocks maxBlkSize) numBlocks = trace) :
    lines (genRandom rand numBlocks maxBlkSize) =
      (randomCounts rand numBlocks maxBlkSize).lines.map (fun n : Nat => decimal n) ++
        trace.map fun op => opLine (some op) := by
  have hLength := h.length
  rw [← Nat.two_mul] at hLength
  have hHeap : totalBlockSize rand numBlocks maxBlkSize + 100 =
      ((totalBlockSize rand numBlocks maxBlkSize).toNat + 100 : Nat) := by
    have hNonneg := totalBlockSize_nonneg rand numBlocks maxBlkSize
    omega
  have hText : genRandom rand numBlocks maxBlkSize =
      unlines ((randomCounts rand numBlocks maxBlkSize).lines.map (fun n : Nat => decimal n) ++
        trace.map fun op => opLine (some op)) := by
    have hWeight : decimal (1 : Nat) = ['1'] := by decide
    rw [genRandom, hTrace, printed_trace hLength, ← totalBlockSize, hHeap, ← hWeight]
    rfl
  rw [hText]
  refine lines_unlines fun line hLine => ?_
  obtain hLine | hLine := List.mem_append.mp hLine
  · obtain ⟨n, -, rfl⟩ := List.mem_map.mp hLine
    exact newline_notMem_decimal n
  · obtain ⟨op, -, rfl⟩ := List.mem_map.mp hLine
    exact newline_notMem_opLine op

end Random

/-- gen_random.pl, if no size is drawn below 1: no id stays live. -/
theorem random_replayable (rand : Rand) (numBlocks maxBlkSize : Nat)
    (hBlocks : 0 < numBlocks ∧ 3 * numBlocks < 2 ^ 31)
    (hTotal : totalBlockSize rand numBlocks maxBlkSize + 100 < 2 ^ 31)
    (hDraws : ∀ i < numBlocks, 1 ≤ rand.draw i maxBlkSize) :
    ∃ rs, Replayable (genRandom rand numBlocks maxBlkSize) (randomCounts rand numBlocks maxBlkSize) rs
      fun _ => False := by
  have hTrace := insertFrees_inserted rand numBlocks maxBlkSize le_rfl
  generalize hEq : insertFrees rand numBlocks (allocTrace rand numBlocks maxBlkSize) numBlocks = trace
    at hTrace
  have hPlain := hTrace.plain (by omega) (by omega) hDraws
  have hLines := genRandom_lines hTrace hEq
  have hLength := hTrace.length
  have hNonneg := totalBlockSize_nonneg rand numBlocks maxBlkSize
  have hSynthetic : Synthetic (genRandom rand numBlocks maxBlkSize)
      (randomCounts rand numBlocks maxBlkSize) (trace.map Op.request) fun _ => False := by
    refine ⟨?_, hPlain, ?_, hTrace.allocated, hTrace.paired.disciplined, fun id => ?_⟩
    · refine ⟨?_, ?_, fun q hq => ?_⟩
      · rw [hLines]
        refine Counts.Small.numberLines fun n hn => ?_
        simp only [Counts.lines, randomCounts, List.mem_cons, List.not_mem_nil, or_false] at hn
        omega
      · rw [hLines]
        exact requests_opLines trace
      · obtain ⟨op, hReplays⟩ := hPlain q hq
        exact hReplays.numeric
    · change _ = 2 * numBlocks
      rw [List.length_map]
      omega
    · apply iff_of_false (hTrace.paired.not_live id)
      rintro ⟨_, hFalse, _⟩
      exact hFalse
  refine ⟨_, hSynthetic.replayable hBlocks.1 ?_ ?_⟩
  · change 2 * numBlocks + numBlocks < 2 ^ 31
    omega
  · intro id size hMem
    exact absurd hMem (hTrace.paired.noRealloc id size)

/-- Each draw is half of the bound. -/
def halfRand : Rand where
  draw _ n := if n = 0 then 1 / 2 else n / 2
  range _ n h := by
    rw [if_neg h.ne']
    constructor <;> linarith
  zero _ := by simp

theorem random_replayable_half :
    ∃ rs, Replayable (genRandom halfRand 2 2) (randomCounts halfRand 2 2) rs fun _ => False :=
  random_replayable halfRand 2 2 (by decide)
    (by simp [totalBlockSize, blockSize, halfRand, int, List.range_succ]) fun i _ => by simp [halfRand]

end Cs33.Traces
