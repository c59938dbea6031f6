import Mathlib.Data.Rat.Floor
import Mathlib.Tactic.Linarith
import Mathlib.Tactic.Positivity
import Cs33.Traces.Balance

/-! # gen_random.pl

The numbers that `rand` returns are rational, and the calls are counted from 0.
The program reads its arguments from `@argv`, which is empty, so it runs with
its defaults; the model takes the number of blocks and the largest size as
arguments. The written file is read back as a trace of requests.
-/

namespace Cs33.Traces

open Text

/-! ## The program -/

/-- What the calls of `rand` return: call `k` with argument `n`. -/
structure Rand where
  draw : Nat → ℚ → ℚ
  range : ∀ k n, 0 < n → 0 ≤ draw k n ∧ draw k n < n
  zero : ∀ k, draw k 0 = draw k 1

inductive Op where
  | alloc (seq : Nat) (size : Int)
  | free (seq : Nat)
deriving DecidableEq, Repr

/-- `int`, which cuts off towards 0. -/
def int (r : ℚ) : Int := r.num.tdiv r.den

def blockSize (rand : Rand) (maxBlkSize : Nat) (i : Nat) : Int := int (rand.draw i maxBlkSize)

/-- The series of allocations. -/
def allocTrace (rand : Rand) (numBlocks maxBlkSize : Nat) : List Op :=
  (List.range numBlocks).map fun i => .alloc i (blockSize rand maxBlkSize i)

def isAllocOf (i : Nat) : Option Op → Bool
  | some (.alloc seq _) => seq == i
  | _ => false

/-- The loop that looks for the allocation of block `i`, for the given number of rounds. -/
def findAlloc (trace : List Op) (i : Nat) : Nat → Nat → Nat
  | 0, minval => minval
  | rounds + 1, minval =>
    if isAllocOf i (trace)[minval]? then minval else findAlloc trace i rounds (minval + 1)

/-- `splice @trace, $pos, 0, $op`. -/
def splice (trace : List Op) (pos : Int) (op : Op) : List Op :=
  trace.take pos.toNat ++ op :: trace.drop pos.toNat

/-- The trace after the first rounds of the loop that inserts the frees. -/
def insertFrees (rand : Rand) (numBlocks : Nat) (trace : List Op) : Nat → List Op
  | 0 => trace
  | i + 1 =>
    let trace := insertFrees rand numBlocks trace i
    let minval := findAlloc trace i numBlocks i
    let pos := int (rand.draw (numBlocks + i) ((numBlocks : ℚ) + i - minval - 1) + minval + 1)
    splice trace pos (.free i)

/-- A request line; the fields of an entry that does not exist print as nothing. -/
def opLine : Option Op → Chars
  | some (.alloc seq size) => ['a'] ++ ' ' :: (decimal seq ++ ' ' :: decimal size)
  | some (.free seq) => ['f'] ++ ' ' :: decimal seq
  | none => [' ']

def genRandom (rand : Rand) (numBlocks maxBlkSize : Nat) : Chars :=
  let trace := insertFrees rand numBlocks (allocTrace rand numBlocks maxBlkSize) numBlocks
  let totalBlockSize := ((List.range numBlocks).map (blockSize rand maxBlkSize)).sum
  let suggestedHeapSize := totalBlockSize + 100
  let numOps := 2 * numBlocks
  unlines ([decimal suggestedHeapSize, decimal numBlocks, decimal numOps, ['1']] ++
    (List.range (2 * numBlocks)).map fun i => opLine (trace)[i]?)

/-! ## What the driver can accept -/

def Request.freed : Request → Option Chars
  | .free id => some id
  | _ => none

/-- A trace that allocates and frees each block once, in this order, with positive sizes. -/
structure Acceptable (numBlocks : Nat) (numOps : Chars) (rs : List Request) : Prop where
  length : rs.length = 2 * numBlocks
  numOps : integerValue numOps = some (rs.length : Int)
  allocs : (rs.filterMap Request.allocated).Perm ((List.range numBlocks).map fun id : Nat => decimal id)
  frees : (rs.filterMap Request.freed).Perm ((List.range numBlocks).map fun id : Nat => decimal id)
  order : ∀ id < numBlocks, ∃ size, [.alloc (decimal id) size, .free (decimal id)].Sublist rs
  sizes : ∀ id size, .alloc id size ∈ rs → ∃ n, integerValue size = some n ∧ 1 ≤ n

/-- The file reads as an acceptable trace, line for line. -/
def WritesAcceptable (numBlocks : Nat) (file : Chars) : Prop :=
  ∃ rs, requests ((lines file).drop 4) = some rs ∧ ((lines file).drop 4).length = rs.length ∧
    Acceptable numBlocks ((lines file)[2]?.getD []) rs

/-! ## Draws -/

section Draws

variable {r : ℚ}

theorem int_eq_floor (h : 0 ≤ r) : int r = ⌊r⌋ := by
  rw [int, Rat.floor_def', Int.tdiv_eq_ediv_of_nonneg (Rat.num_nonneg.mpr h)]

theorem le_int (h : 0 ≤ r) (n : Int) : n ≤ int r ↔ (n : ℚ) ≤ r := by
  rw [int_eq_floor h]
  exact Int.le_floor

theorem Rand.nonneg (rand : Rand) (k : Nat) {n : ℚ} (h : 0 ≤ n) : 0 ≤ rand.draw k n := by
  obtain h | h := h.lt_or_eq
  · exact (rand.range k n h).1
  · rw [← h, rand.zero]
    exact (rand.range k 1 one_pos).1

theorem blockSize_nonneg (rand : Rand) (maxBlkSize i : Nat) : 0 ≤ blockSize rand maxBlkSize i := by
  have hDraw : 0 ≤ rand.draw i maxBlkSize := rand.nonneg i (Nat.cast_nonneg maxBlkSize)
  rw [blockSize, le_int hDraw]
  exact_mod_cast hDraw

theorem one_le_blockSize (rand : Rand) (maxBlkSize i : Nat) :
    1 ≤ blockSize rand maxBlkSize i ↔ 1 ≤ rand.draw i maxBlkSize := by
  rw [blockSize, le_int (rand.nonneg i (Nat.cast_nonneg maxBlkSize)), Int.cast_one]

end Draws

/-! ## Insertions -/

section Insertions

def Op.isAlloc : Op → Bool
  | .alloc _ _ => true
  | .free _ => false

def Op.freed : Op → Option Nat
  | .free seq => some seq
  | .alloc _ _ => none

/-- The trace with the frees of the first `i` blocks. -/
structure Inserted (allocs : List Op) (i : Nat) (trace : List Op) : Prop where
  allocs : trace.filter Op.isAlloc = allocs
  frees : (trace.filterMap Op.freed).Perm (List.range i)
  order : ∀ id < i, ∃ size, [.alloc id size, .free id].Sublist trace

variable {rand : Rand} {numBlocks maxBlkSize i minval p : Nat} {trace : List Op}

theorem inserted_zero (rand : Rand) (numBlocks maxBlkSize : Nat) :
    Inserted (allocTrace rand numBlocks maxBlkSize) 0 (allocTrace rand numBlocks maxBlkSize) where
  allocs := List.filter_eq_self.mpr fun op hOp => by
    obtain ⟨i, -, rfl⟩ := List.mem_map.mp hOp
    rfl
  frees := by
    rw [List.range_zero, List.perm_nil, List.filterMap_eq_nil_iff]
    intro op hOp
    obtain ⟨i, -, rfl⟩ := List.mem_map.mp hOp
    rfl
  order id h := absurd h (Nat.not_lt_zero id)

theorem Inserted.length (h : Inserted (allocTrace rand numBlocks maxBlkSize) i trace) :
    trace.length = numBlocks + i := by
  have hSplit : ∀ ops : List Op,
      ops.length = (ops.filter Op.isAlloc).length + (ops.filterMap Op.freed).length := by
    intro ops
    induction ops with
    | nil => rfl
    | cons op ops ih =>
      cases op <;> simp [List.filter_cons, List.filterMap_cons, Op.isAlloc, Op.freed, ih] <;> omega
  rw [hSplit trace, h.allocs, h.frees.length_eq, List.length_range, allocTrace, List.length_map,
    List.length_range]

theorem findAlloc_eq {rounds : Nat} (hBefore : ∀ j, minval ≤ j → j < p → isAllocOf i (trace)[j]? = false)
    (hMatch : isAllocOf i (trace)[p]? = true) (hLow : minval ≤ p) (hHigh : p < minval + rounds) :
    findAlloc trace i rounds minval = p := by
  induction rounds generalizing minval with
  | zero => omega
  | succ rounds ih =>
    rw [findAlloc]
    obtain rfl | hLater := hLow.eq_or_lt
    · rw [if_pos hMatch]
    · rw [hBefore minval le_rfl hLater, if_neg Bool.false_ne_true]
      exact ih (fun j hj => hBefore j (by omega)) hLater (by omega)

theorem allocTrace_getElem? (h : i < numBlocks) :
    (allocTrace rand numBlocks maxBlkSize)[i]? = some (.alloc i (blockSize rand maxBlkSize i)) := by
  simp [allocTrace, h]

/-- An allocation stands at its own number among the allocations. -/
theorem seq_of_getElem? {seq : Nat} {size : Int}
    (h : (allocTrace rand numBlocks maxBlkSize)[i]? = some (.alloc seq size)) : seq = i := by
  have hi : i < numBlocks := by
    have hLength := (List.getElem?_eq_some_iff.mp h).1
    simpa [allocTrace] using hLength
  rw [allocTrace_getElem? hi] at h
  cases h
  rfl

/-- Block `i` is allocated once, after the blocks before it. -/
theorem Inserted.split (h : Inserted (allocTrace rand numBlocks maxBlkSize) i trace)
    (hi : i < numBlocks) : ∃ before after, trace = before ++ .alloc i (blockSize rand maxBlkSize i) :: after ∧
      i ≤ before.length ∧ ∀ op ∈ before, isAllocOf i (some op) = false := by
  have hMem : Op.alloc i (blockSize rand maxBlkSize i) ∈ trace := by
    apply List.mem_of_mem_filter (p := Op.isAlloc)
    rw [h.allocs]
    exact List.mem_of_getElem? (allocTrace_getElem? hi)
  obtain ⟨before, after, hTrace⟩ := List.append_of_mem hMem
  have hAllocs := h.allocs
  rw [hTrace, List.filter_append, List.filter_cons_of_pos rfl] at hAllocs
  have hAt : (allocTrace rand numBlocks maxBlkSize)[(before.filter Op.isAlloc).length]? =
      some (.alloc i (blockSize rand maxBlkSize i)) := by
    rw [← hAllocs]
    simp
  have hNumber := seq_of_getElem? hAt
  refine ⟨before, after, hTrace, ?_, fun op hOp => ?_⟩
  · rw [hNumber]
    exact List.length_filter_le _ _
  · match op with
    | .free seq => rfl
    | .alloc seq size =>
      obtain ⟨j, hj⟩ := List.mem_iff_getElem?.mp (List.mem_filter.mpr ⟨hOp, rfl⟩ :
        Op.alloc seq size ∈ before.filter Op.isAlloc)
      have hLow : j < (before.filter Op.isAlloc).length := (List.getElem?_eq_some_iff.mp hj).1
      have hAt' : (allocTrace rand numBlocks maxBlkSize)[j]? = some (.alloc seq size) := by
        rw [← hAllocs, List.getElem?_append_left hLow]
        exact hj
      have hSeq := seq_of_getElem? hAt'
      rw [isAllocOf, beq_eq_false_iff_ne]
      omega

/-- The free of block `i` goes somewhere behind its allocation. -/
theorem Inserted.succ (h : Inserted (allocTrace rand numBlocks maxBlkSize) i trace)
    (hi : i < numBlocks) {pos : Nat} {size : Int} {before after : List Op}
    (hTrace : trace = before ++ .alloc i size :: after) (hPos : before.length < pos) :
    Inserted (allocTrace rand numBlocks maxBlkSize) (i + 1) (splice trace pos (.free i)) := by
  have hSplice : splice trace pos (.free i) = trace.take pos ++ .free i :: trace.drop pos := rfl
  rw [hSplice]
  constructor
  · rw [List.filter_append, List.filter_cons_of_neg Bool.false_ne_true, ← List.filter_append,
      List.take_append_drop]
    exact h.allocs
  · have hFreed : (Op.free i :: trace.drop pos).filterMap Op.freed =
        i :: (trace.drop pos).filterMap Op.freed := rfl
    rw [List.filterMap_append, hFreed]
    apply List.perm_middle.trans
    rw [← List.filterMap_append, List.take_append_drop, List.range_succ]
    exact (h.frees.cons i).trans (List.perm_append_singleton i _).symm
  · intro id hId
    obtain hId | rfl := Nat.lt_succ_iff_lt_or_eq.mp hId
    · obtain ⟨size', hOrder⟩ := h.order id hId
      refine ⟨size', hOrder.trans ?_⟩
      have hWiden := (List.sublist_cons_self (Op.free i) (trace.drop pos)).append_left (trace.take pos)
      rwa [List.take_append_drop] at hWiden
    · refine ⟨size, ?_⟩
      have hAlloc : Op.alloc id size ∈ trace.take pos := by
        apply List.mem_of_getElem? (i := before.length)
        rw [List.getElem?_take_of_lt hPos, hTrace]
        simp
      exact (List.singleton_sublist.mpr hAlloc).append
        (List.singleton_sublist.mpr List.mem_cons_self)

theorem insertFrees_inserted (rand : Rand) (numBlocks maxBlkSize : Nat) (hi : i ≤ numBlocks) :
    Inserted (allocTrace rand numBlocks maxBlkSize) i
      (insertFrees rand numBlocks (allocTrace rand numBlocks maxBlkSize) i) := by
  induction i with
  | zero => exact inserted_zero rand numBlocks maxBlkSize
  | succ i ih =>
    have hTrace := ih (by omega)
    rw [insertFrees]
    generalize insertFrees rand numBlocks (allocTrace rand numBlocks maxBlkSize) i = trace at hTrace ⊢
    obtain ⟨before, after, hSplit, hLow, hBefore⟩ := hTrace.split (by omega)
    have hLength := hTrace.length
    rw [hSplit, List.length_append, List.length_cons] at hLength
    have hFound : findAlloc trace i numBlocks i = before.length := by
      refine findAlloc_eq (fun j _ hj => ?_) ?_ hLow (by omega)
      · rw [hSplit, List.getElem?_append_left hj, List.getElem?_eq_getElem hj]
        exact hBefore _ (List.getElem_mem hj)
      · rw [hSplit]
        simp [isAllocOf]
    rw [hFound]
    have hArgument : (0 : ℚ) ≤ (numBlocks : ℚ) + i - before.length - 1 := by
      have hRoom : ((before.length + 1 : Nat) : ℚ) ≤ ((numBlocks + i : Nat) : ℚ) :=
        Nat.cast_le.mpr (by omega)
      push_cast at hRoom
      linarith
    have hDraw := rand.nonneg (numBlocks + i) hArgument
    have hPos : ((before.length + 1 : Nat) : Int) ≤
        int (rand.draw (numBlocks + i) ((numBlocks : ℚ) + i - before.length - 1) + before.length + 1) := by
      rw [le_int (by positivity)]
      push_cast
      linarith
    obtain ⟨pos, hPosEq⟩ := Int.eq_ofNat_of_zero_le (by omega : (0 : Int) ≤
      int (rand.draw (numBlocks + i) ((numBlocks : ℚ) + i - before.length - 1) + before.length + 1))
    rw [hPosEq] at hPos ⊢
    exact hTrace.succ (by omega) hSplit (by omega)

end Insertions

/-! ## The file -/

section File

variable {rand : Rand} {numBlocks maxBlkSize : Nat} {trace : List Op}

theorem decimal_word (n : Int) : decimal n ≠ [] ∧ ∀ c ∈ decimal n, isSpace c = false := by
  have hDigits : ∀ c ∈ Nat.toDigits 10 n.natAbs, isSpace c = false := fun c hc =>
    isSpace_of_isDigit (Nat.isDigit_of_mem_toDigits (by decide) (by decide) hc)
  unfold decimal
  split
  · refine ⟨List.cons_ne_nil _ _, fun c hc => ?_⟩
    obtain rfl | hc := List.mem_cons.mp hc
    · rfl
    · exact hDigits c hc
  · exact ⟨Nat.toDigits_ne_nil, hDigits⟩

def Op.request : Op → Request
  | .alloc seq size => .alloc (decimal seq) (decimal size)
  | .free seq => .free (decimal seq)

theorem words_letter {c : Char} (hc : isSpace c = false) (s : Chars) :
    words ([c] ++ ' ' :: s) = [c] :: words s := by
  refine words_append (List.cons_ne_nil _ _) (fun d hd => ?_) s
  rwa [List.mem_singleton.mp hd]

theorem words_opLine (op : Op) : words (opLine (some op)) = op.request.fields := by
  cases op with
  | alloc seq size =>
    obtain ⟨hSeq, hSeqWord⟩ := decimal_word seq
    obtain ⟨hSize, hSizeWord⟩ := decimal_word size
    rw [opLine, words_letter rfl, words_append hSeq hSeqWord, words_word hSize hSizeWord]
    rfl
  | free seq =>
    obtain ⟨hSeq, hSeqWord⟩ := decimal_word seq
    rw [opLine, words_letter rfl, words_word hSeq hSeqWord]
    rfl

theorem request_of_fields {line : Chars} {q : Request} (h : words line = q.fields) :
    request line = some q := by
  rw [request, h]
  cases q <;> rfl

theorem requests_opLines (trace : List Op) :
    requests (trace.map fun op => opLine (some op)) = some (trace.map Op.request) := by
  induction trace with
  | nil => rfl
  | cons op trace ih =>
    have hWords := words_opLine op
    have hSome : words (opLine (some op)) ≠ [] := by
      rw [hWords]
      cases op <;> exact List.cons_ne_nil _ _
    simp [requests, hSome, request_of_fields hWords, ih]

theorem newline_notMem_of_word {s : Chars} (h : ∀ c ∈ s, isSpace c = false) : '\n' ∉ s := fun hMem =>
  absurd (h '\n' hMem) (by decide)

theorem newline_notMem_opLine (op : Op) : '\n' ∉ opLine (some op) := by
  cases op with
  | alloc seq size =>
    have hSeq := newline_notMem_of_word (decimal_word seq).2
    have hSize := newline_notMem_of_word (decimal_word size).2
    simp [opLine, hSeq, hSize]
  | free seq =>
    have hSeq := newline_notMem_of_word (decimal_word seq).2
    simp [opLine, hSeq]

theorem printed_trace (h : trace.length = 2 * numBlocks) :
    ((List.range (2 * numBlocks)).map fun i => opLine (trace)[i]?) =
      trace.map fun op => opLine (some op) := by
  refine List.ext_getElem (by simp [h]) fun i hi hi' => ?_
  rw [List.length_map] at hi'
  simp [hi']

theorem lines_genRandom (rand : Rand) (numBlocks maxBlkSize : Nat) :
    ∃ trace heapSize, Inserted (allocTrace rand numBlocks maxBlkSize) numBlocks trace ∧
      lines (genRandom rand numBlocks maxBlkSize) =
        [heapSize, decimal numBlocks, decimal (2 * numBlocks : Nat), ['1']] ++
          trace.map fun op => opLine (some op) := by
  have hTrace := insertFrees_inserted rand numBlocks maxBlkSize le_rfl
  have hLength := hTrace.length
  rw [← Nat.two_mul] at hLength
  refine ⟨_, decimal (((List.range numBlocks).map (blockSize rand maxBlkSize)).sum + 100), hTrace, ?_⟩
  rw [genRandom, printed_trace hLength]
  refine lines_unlines fun line hLine => ?_
  simp only [List.mem_append, List.mem_cons, List.not_mem_nil, or_false, List.mem_map] at hLine
  obtain (rfl | rfl | rfl | rfl) | ⟨op, -, rfl⟩ := hLine
  · exact newline_notMem_of_word (decimal_word _).2
  · exact newline_notMem_of_word (decimal_word _).2
  · exact newline_notMem_of_word (decimal_word _).2
  · decide
  · exact newline_notMem_opLine op

theorem Inserted.allocated (h : Inserted (allocTrace rand numBlocks maxBlkSize) numBlocks trace) :
    (trace.map Op.request).filterMap Request.allocated =
      (List.range numBlocks).map fun id : Nat => decimal id := by
  have hFilter : ∀ ops : List Op, (ops.map Op.request).filterMap Request.allocated =
      ((ops.filter Op.isAlloc).map Op.request).filterMap Request.allocated := by
    intro ops
    induction ops with
    | nil => rfl
    | cons op ops ih =>
      cases op with
      | alloc seq size => exact congrArg (decimal seq :: ·) ih
      | free seq => exact ih
  rw [hFilter, h.allocs, allocTrace, List.map_map, List.filterMap_map]
  exact congrFun List.filterMap_eq_map _

theorem Inserted.freed (h : Inserted (allocTrace rand numBlocks maxBlkSize) numBlocks trace) :
    ((trace.map Op.request).filterMap Request.freed).Perm
      ((List.range numBlocks).map fun id : Nat => decimal id) := by
  have hMap : ∀ ops : List Op, (ops.map Op.request).filterMap Request.freed =
      (ops.filterMap Op.freed).map fun id : Nat => decimal id := by
    intro ops
    induction ops with
    | nil => rfl
    | cons op ops ih =>
      cases op with
      | alloc seq size => exact ih
      | free seq => exact congrArg (decimal seq :: ·) ih
  rw [hMap]
  exact h.frees.map _

theorem Inserted.alloc_mem (h : Inserted (allocTrace rand numBlocks maxBlkSize) numBlocks trace)
    {seq : Nat} {size : Int} :
    .alloc seq size ∈ trace ↔ seq < numBlocks ∧ size = blockSize rand maxBlkSize seq := by
  have hFilter : .alloc seq size ∈ trace ↔ .alloc seq size ∈ trace.filter Op.isAlloc := by
    simp [List.mem_filter, Op.isAlloc]
  rw [hFilter, h.allocs, allocTrace, List.mem_map]
  constructor
  · rintro ⟨i, hi, ⟨⟩⟩
    exact ⟨List.mem_range.mp hi, rfl⟩
  · rintro ⟨hSeq, rfl⟩
    exact ⟨seq, List.mem_range.mpr hSeq, rfl⟩

theorem integerValue_size (rand : Rand) (maxBlkSize i : Nat) :
    integerValue (decimal (blockSize rand maxBlkSize i)) = some (blockSize rand maxBlkSize i) := by
  obtain ⟨n, hn⟩ := Int.eq_ofNat_of_zero_le (blockSize_nonneg rand maxBlkSize i)
  rw [hn]
  exact integerValue_decimal n

/-- All that can be wrong with the trace is the size of a block. -/
theorem Inserted.acceptable_iff
    (h : Inserted (allocTrace rand numBlocks maxBlkSize) numBlocks trace) :
    Acceptable numBlocks (decimal (2 * numBlocks : Nat)) (trace.map Op.request) ↔
      ∀ i < numBlocks, 1 ≤ blockSize rand maxBlkSize i := by
  have hLength : (trace.map Op.request).length = 2 * numBlocks := by
    rw [List.length_map, h.length, Nat.two_mul]
  constructor
  · intro hAcceptable i hi
    have hMem : Request.alloc (decimal i) (decimal (blockSize rand maxBlkSize i)) ∈
        trace.map Op.request :=
      List.mem_map.mpr ⟨.alloc i (blockSize rand maxBlkSize i), h.alloc_mem.mpr ⟨hi, rfl⟩, rfl⟩
    obtain ⟨n, hn, hPositive⟩ := hAcceptable.sizes _ _ hMem
    rw [integerValue_size] at hn
    cases hn
    exact hPositive
  · intro hSizes
    refine ⟨hLength, ?_, ?_, h.freed, ?_, ?_⟩
    · rw [hLength]
      exact integerValue_decimal _
    · rw [h.allocated]
    · intro id hId
      obtain ⟨size, hOrder⟩ := h.order id hId
      exact ⟨decimal size, hOrder.map Op.request⟩
    · intro id size hMem
      obtain ⟨op, hOp, hRequest⟩ := List.mem_map.mp hMem
      cases op with
      | free seq => cases hRequest
      | alloc seq size' =>
        cases hRequest
        obtain ⟨hSeq, rfl⟩ := h.alloc_mem.mp hOp
        exact ⟨_, integerValue_size rand maxBlkSize seq, hSizes seq hSeq⟩

theorem writesAcceptable_iff (rand : Rand) (numBlocks maxBlkSize : Nat) :
    WritesAcceptable numBlocks (genRandom rand numBlocks maxBlkSize) ↔
      ∀ i < numBlocks, 1 ≤ blockSize rand maxBlkSize i := by
  obtain ⟨trace, heapSize, hTrace, hLines⟩ := lines_genRandom rand numBlocks maxBlkSize
  have hRequests : requests ((lines (genRandom rand numBlocks maxBlkSize)).drop 4) =
      some (trace.map Op.request) := by
    rw [hLines]
    exact requests_opLines trace
  have hHeader : (lines (genRandom rand numBlocks maxBlkSize))[2]?.getD [] =
      decimal (2 * numBlocks : Nat) := by
    rw [hLines]
    rfl
  have hCount : ((lines (genRandom rand numBlocks maxBlkSize)).drop 4).length =
      (trace.map Op.request).length := by
    rw [hLines]
    simp
  rw [WritesAcceptable, hRequests, hHeader, hCount]
  simp only [Option.some.injEq, exists_eq_left', hTrace.acceptable_iff, true_and]

end File

/-- The file is acceptable exactly if no size is drawn below 1. -/
theorem genRandom_acceptable_iff (rand : Rand) (numBlocks maxBlkSize : Nat) :
    WritesAcceptable numBlocks (genRandom rand numBlocks maxBlkSize) ↔
      ∀ i < numBlocks, 1 ≤ rand.draw i maxBlkSize := by
  rw [writesAcceptable_iff]
  exact forall₂_congr fun i _ => one_le_blockSize rand maxBlkSize i

/-- Every draw gives 0. -/
def zeroRand : Rand where
  draw _ _ := 0
  range _ _ h := ⟨le_rfl, h⟩
  zero _ := rfl

theorem empty_block_requested : ¬ WritesAcceptable 1 (genRandom zeroRand 1 32768) := by
  rw [writesAcceptable_iff]
  intro h
  exact absurd (h 0 Nat.zero_lt_one) (by decide)

end Cs33.Traces
