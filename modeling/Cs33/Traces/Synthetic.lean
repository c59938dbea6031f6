import Cs33.Traces.Pipeline

/-! # gen_binary.pl, gen_coalescing.pl and gen_realloc.pl

The five programs without random choices are three with different constants.
What a series of requests does to the live ids is stated by pre- and
postconditions, and a loop of a program is verified by its invariant.
-/

namespace Cs33.Traces

open Text GuardedRun

/-! ## The programs -/

def Request.line : Request → Chars
  | .alloc id size => ['a', ' '] ++ id ++ ' ' :: size
  | .realloc id size => ['r', ' '] ++ id ++ ' ' :: size
  | .free id => ['f', ' '] ++ id

def alloc (seq size : Nat) : Request := .alloc (decimal seq) (decimal size)

def realloc (seq size : Nat) : Request := .realloc (decimal seq) (decimal size)

def free (seq : Nat) : Request := .free (decimal seq)

/-- The four counts and the requests, each on a line. -/
def traceText (c : Counts) (rs : List Request) : Chars :=
  unlines (c.lines.map (fun n : Nat => decimal n) ++ rs.map Request.line)

def binaryCounts (blkSize1 blkSize2 numIters : Nat) : Counts :=
  let blkSize12 := blkSize1 + blkSize2
  { suggHeapsize := (blkSize1 + blkSize2 + blkSize12) * numIters + 100
    numIds := 3 * numIters
    numOps := 4 * numIters
    weight := 1 }

def binaryRequests (blkSize1 blkSize2 numIters : Nat) : List Request :=
  let blkSize12 := blkSize1 + blkSize2
  ((List.range numIters).flatMap fun i =>
    let seq1 := 2 * i
    let seq2 := 2 * i + 1
    [alloc seq1 blkSize1, alloc seq2 blkSize2]) ++
  ((List.range numIters).flatMap fun i =>
    let fseq := 2 * i + 1
    [free fseq]) ++
  (List.range numIters).flatMap fun i =>
    let aseq := 2 * numIters + i
    [alloc aseq blkSize12]

def binaryText (blkSize1 blkSize2 numIters : Nat) : Chars :=
  traceText (binaryCounts blkSize1 blkSize2 numIters) (binaryRequests blkSize1 blkSize2 numIters)

def genBinary : Chars := binaryText 64 (512 - 64) 2000

def genBinary2 : Chars := binaryText 16 (128 - 16) 4000

def coalescingCounts (blkSize numIters : Nat) : Counts where
  suggHeapsize := 2 * blkSize * numIters + 100
  numIds := 3 * numIters
  numOps := 6 * numIters
  weight := 1

def coalescingRequests (blkSize numIters : Nat) : List Request :=
  let blkSize2 := 2 * blkSize
  (List.range numIters).flatMap fun i =>
    let blk1 := 3 * i
    let blk2 := blk1 + 1
    let blk3 := blk1 + 2
    [alloc blk1 blkSize, alloc blk2 blkSize, free blk1, free blk2, alloc blk3 blkSize2, free blk3]

def coalescingText (blkSize numIters : Nat) : Chars :=
  traceText (coalescingCounts blkSize numIters) (coalescingRequests blkSize numIters)

def genCoalescing : Chars := coalescingText 4095 2400

/-- The rounds of the loop, with `$blk` and `$realloc_size` before them, and the last `$blk`. -/
def reallocRounds (sizeIncrement mallocSize : Nat) : Nat → Nat → Nat → List Request × Nat
  | 0, blk, _ => ([], blk)
  | rounds + 1, blk, reallocSize =>
    let blk := blk + 1
    let reallocSize := reallocSize + sizeIncrement
    let prevblk := blk - 1
    let (rs, finalblk) := reallocRounds sizeIncrement mallocSize rounds blk reallocSize
    ([realloc 0 reallocSize, alloc blk mallocSize, free prevblk] ++ rs, finalblk)

/-- The requests before the last one. -/
def reallocRequests (reallocSize sizeIncrement mallocSize numIters : Nat) : List Request :=
  let blk := 1
  let (rs, finalblk) := reallocRounds sizeIncrement mallocSize (numIters - 1) blk reallocSize
  [alloc 0 reallocSize, alloc blk mallocSize] ++ rs ++ [free finalblk]

def reallocCounts (suggHeapsize numIters : Nat) : Counts where
  suggHeapsize := suggHeapsize
  numIds := numIters + 1
  numOps := 3 * numIters + 1
  weight := 1

/-- No newline ends the last line: the file is closed in the argument of the next `print`. -/
def reallocText (suggHeapsize reallocSize sizeIncrement mallocSize numIters : Nat) : Chars :=
  traceText (reallocCounts suggHeapsize numIters)
    (reallocRequests reallocSize sizeIncrement mallocSize numIters) ++ (free 0).line

/-- `num_iters` without its dollar sign is a string, which counts as 0. -/
def genRealloc : Chars := reallocText (0 * (512 + 128 * 2) + 100) 512 128 128 4800

def genRealloc2 : Chars := reallocText (4092 + 5 * (4800 - 1) + 16 * 4800 + 100) 4092 5 16 4800

/-! ## The text -/

section Text

variable {c : Counts} {rs : List Request} {q : Request}

theorem isSpace_intNumeral {word : Chars} {n : Nat} (h : intNumeral word = some n) :
    word ≠ [] ∧ ∀ c ∈ word, isSpace c = false := by
  obtain ⟨hNonempty, hDigits, -, -⟩ := intNumeral_eq_some.mp h
  exact ⟨hNonempty, fun c hc => isSpace_of_isDigit (hDigits c hc)⟩

theorem words_line (h : Plain q) : words q.line = q.fields := by
  have hPair : ∀ (letter : Char) (i n : Nat) (size : Chars), isSpace letter = false →
      intNumeral size = some n →
      words ([letter, ' '] ++ decimal i ++ ' ' :: size) = [[letter], decimal i, size] := by
    intro letter i n size hLetter hSize
    obtain ⟨hId, hIdWord⟩ := decimal_word i
    obtain ⟨hNonempty, hSizeWord⟩ := isSpace_intNumeral hSize
    have hFirst : [letter, ' '] ++ decimal i ++ ' ' :: size =
        [letter] ++ ' ' :: (decimal i ++ ' ' :: size) := by simp
    rw [hFirst, words_letter hLetter, words_append hId hIdWord, words_word hNonempty hSizeWord]
  obtain ⟨op, hReplays⟩ := h
  cases hReplays with
  | @alloc i n size _ hSize _ => exact hPair 'a' i n size rfl hSize
  | @realloc i n size _ hSize _ => exact hPair 'r' i n size rfl hSize
  | @free i _ _ =>
    obtain ⟨hId, hIdWord⟩ := decimal_word i
    exact (words_letter (by rfl) (decimal i)).trans (congrArg _ (words_word hId hIdWord))

theorem newline_notMem_line (h : Plain q) : '\n' ∉ q.line := by
  obtain ⟨op, hReplays⟩ := h
  cases hReplays with
  | @alloc i n size _ hSize _ =>
    have hId := newline_notMem_of_word (decimal_word i).2
    have hSize := newline_notMem_of_word (isSpace_intNumeral hSize).2
    simp [Request.line, hId, hSize]
  | @realloc i n size _ hSize _ =>
    have hId := newline_notMem_of_word (decimal_word i).2
    have hSize := newline_notMem_of_word (isSpace_intNumeral hSize).2
    simp [Request.line, hId, hSize]
  | @free i _ _ =>
    have hId := newline_notMem_of_word (decimal_word i).2
    simp [Request.line, hId]

theorem requests_lines (h : ∀ q ∈ rs, Plain q) : requests (rs.map Request.line) = some rs := by
  induction rs with
  | nil => rfl
  | cons q rs ih =>
    obtain ⟨hFirst, hRest⟩ := List.forall_mem_cons.mp h
    have hWords := words_line hFirst
    have hSome : words q.line ≠ [] := by
      rw [hWords]
      cases q <;> exact List.cons_ne_nil _ _
    simp [requests, hSome, request_of_fields hWords, ih hRest]

theorem numberLine_decimal {n : Nat} (h : n < 2 ^ 31) : numberLine (decimal n) = some n := by
  unfold numberLine
  rw [words_word (decimal_word n).1 (decimal_word n).2]
  exact intNumeral_decimal h

def Counts.Small (c : Counts) : Prop := ∀ n ∈ c.lines, n < 2 ^ 31

theorem Counts.Small.numberLines (hSmall : c.Small) :
    (c.lines.map fun n : Nat => decimal n).map numberLine = c.lines.map some := by
  rw [List.map_map]
  exact List.map_congr_left fun n hn => numberLine_decimal (hSmall n hn)

theorem written_lines {ls : List Chars} (hSmall : c.Small) (hPlain : ∀ q ∈ rs, Plain q)
    (h : ls = c.lines.map (fun n : Nat => decimal n) ++ rs.map Request.line) : Written ls c rs := by
  have hTake : ls.take 4 = c.lines.map fun n : Nat => decimal n := by
    rw [h]
    rfl
  have hDrop : ls.drop 4 = rs.map Request.line := by
    rw [h]
    rfl
  refine ⟨?_, ?_, fun q hq => ?_⟩
  · rw [hTake]
    exact hSmall.numberLines
  · rw [hDrop]
    exact requests_lines hPlain
  · obtain ⟨op, hReplays⟩ := hPlain q hq
    exact hReplays.numeric

theorem newline_notMem_lines_of {l : Chars} (hPlain : ∀ q ∈ rs, Plain q)
    (hl : l ∈ c.lines.map (fun n : Nat => decimal n) ++ rs.map Request.line) : '\n' ∉ l := by
  obtain hl | hl := List.mem_append.mp hl
  · obtain ⟨n, -, rfl⟩ := List.mem_map.mp hl
    exact newline_notMem_decimal n
  · obtain ⟨q, hq, rfl⟩ := List.mem_map.mp hl
    exact newline_notMem_line (hPlain q hq)

theorem written_text (hSmall : c.Small) (hPlain : ∀ q ∈ rs, Plain q) :
    Written (lines (traceText c rs)) c rs :=
  written_lines hSmall hPlain (lines_unlines fun _ => newline_notMem_lines_of hPlain)

theorem written_text_append (hSmall : c.Small) (hPlain : ∀ q ∈ rs, Plain q) (hLast : Plain q) :
    Written (lines (traceText c rs ++ q.line)) c (rs ++ [q]) := by
  have hNonempty : q.line ≠ [] := by cases q <;> exact List.cons_ne_nil _ _
  refine written_lines hSmall (List.forall_mem_append.mpr ⟨hPlain, by simpa using hLast⟩) ?_
  rw [traceText, lines_unlines_append (fun _ => newline_notMem_lines_of hPlain)
    (newline_notMem_line hLast) hNonempty]
  simp

end Text

/-! ## The live ids of a series -/

section Series

variable {S T : Nat → Prop} {i n : Nat}

/-- The ids that are live are the numbers with `S`. -/
def LiveIds (S : Nat → Prop) (before : List Request) : Prop :=
  ∀ id, Live before id ↔ ∃ i, S i ∧ id = decimal i

/-- The requests are disciplined where the ids with `S` are live, and leave those with `T` live. -/
abbrev Series (S : Nat → Prop) (rs : List Request) (T : Nat → Prop) : Prop :=
  Leads Allowed (fun before q => before ++ [q]) (LiveIds S) rs (LiveIds T)

theorem LiveIds.iff {before : List Request} (h : LiveIds S before) : Live before (decimal i) ↔ S i := by
  rw [h (decimal i)]
  constructor
  · rintro ⟨j, hj, hEq⟩
    rwa [decimal_inj.mp hEq]
  · intro hi
    exact ⟨i, hi, rfl⟩

theorem LiveIds.congr {before : List Request} (h : LiveIds S before) (hSame : ∀ j, S j ↔ T j) :
    LiveIds T before := fun id =>
  (h id).trans (exists_congr fun j => and_congr_left fun _ => hSame j)

theorem Series.congr {S' T' : Nat → Prop} {rs : List Request} (h : Series S rs T)
    (hStart : ∀ j, S' j ↔ S j) (hEnd : ∀ j, T j ↔ T' j) : Series S' rs T' :=
  h.imp (fun _ hLive => hLive.congr hStart) fun _ hLive => hLive.congr hEnd

theorem series_alloc (hFresh : ¬ S i) (hAfter : ∀ j, T j ↔ S j ∨ j = i) : Series S [alloc i n] T := by
  refine leads_singleton fun before h => ⟨fun hLive => hFresh (h.iff.mp hLive), fun id => ?_⟩
  rw [live_append_one, h id]
  constructor
  · rintro (hId | ⟨⟨j, hj, rfl⟩, -⟩)
    · exact ⟨i, (hAfter i).mpr (.inr rfl), (Option.some.inj hId).symm⟩
    · exact ⟨j, (hAfter j).mpr (.inl hj), rfl⟩
  · rintro ⟨j, hj, rfl⟩
    obtain hj | rfl := (hAfter j).mp hj
    · exact .inr ⟨⟨j, hj, rfl⟩, nofun⟩
    · exact .inl rfl

theorem series_realloc (hLive : S i) : Series S [realloc i n] S := by
  refine leads_singleton fun before h => ⟨h.iff.mpr hLive, fun id => ?_⟩
  rw [live_append_one, h id]
  simp [realloc, Request.allocated]

theorem series_free (hLive : S i) (hAfter : ∀ j, T j ↔ S j ∧ j ≠ i) : Series S [free i] T := by
  refine leads_singleton fun before h => ⟨h.iff.mpr hLive, fun id => ?_⟩
  rw [live_append_one, h id]
  constructor
  · rintro (hId | ⟨⟨j, hj, rfl⟩, hOther⟩)
    · cases hId
    · exact ⟨j, (hAfter j).mpr ⟨hj, fun hEq => hOther (by rw [hEq, free])⟩, rfl⟩
  · rintro ⟨j, hj, rfl⟩
    obtain ⟨hj, hne⟩ := (hAfter j).mp hj
    exact .inr ⟨⟨j, hj, rfl⟩, fun hEq => hne (decimal_inj.mp (Request.free.inj hEq)).symm⟩

theorem disciplined_of_series {rs : List Request} (h : Series (fun _ => False) rs T) :
    Disciplined rs ∧ LiveIds T rs := by
  have hStart : LiveIds (fun _ => False) [] := fun id =>
    iff_of_false not_live_nil fun ⟨_, hFalse, _⟩ => hFalse
  obtain ⟨hPermits, hLive⟩ := h [] hStart
  rw [foldl_concat] at hLive
  exact ⟨disciplined_iff_permits.mpr hPermits, hLive⟩

end Series

/-! ## The traces -/

section Loops

theorem binary_series (blkSize1 blkSize2 numIters : Nat) :
    Series (fun _ => False) (binaryRequests blkSize1 blkSize2 numIters)
      fun j => (j < 2 * numIters ∧ j % 2 = 0) ∨ (2 * numIters ≤ j ∧ j < 3 * numIters) := by
  have hAllocs : Series (fun j => j < 2 * 0) ((List.range numIters).flatMap fun i =>
      [alloc (2 * i) blkSize1, alloc (2 * i + 1) blkSize2]) fun j => j < 2 * numIters := by
    refine leads_loop (I := fun k => LiveIds fun j => j < 2 * k) fun k _ => ?_
    refine .cons (series_alloc (T := fun j => j < 2 * k + 1) (by omega) (by omega)) ?_
    exact series_alloc (by omega) (by omega)
  have hFrees : Series (fun j => j < 2 * numIters ∧ (j % 2 = 1 → 2 * 0 < j))
      ((List.range numIters).flatMap fun i => [free (2 * i + 1)])
      fun j => j < 2 * numIters ∧ (j % 2 = 1 → 2 * numIters < j) := by
    refine leads_loop (I := fun k => LiveIds fun j => j < 2 * numIters ∧ (j % 2 = 1 → 2 * k < j))
      fun k hk => ?_
    exact series_free (by omega) (by omega)
  have hLast : Series (fun j => (j < 2 * numIters ∧ j % 2 = 0) ∨ (2 * numIters ≤ j ∧ j < 2 * numIters + 0))
      ((List.range numIters).flatMap fun i => [alloc (2 * numIters + i) (blkSize1 + blkSize2)])
      fun j => (j < 2 * numIters ∧ j % 2 = 0) ∨ (2 * numIters ≤ j ∧ j < 2 * numIters + numIters) := by
    refine leads_loop (I := fun k => LiveIds fun j =>
      (j < 2 * numIters ∧ j % 2 = 0) ∨ (2 * numIters ≤ j ∧ j < 2 * numIters + k)) fun k hk => ?_
    exact series_alloc (by omega) (by omega)
  have hStart : Series (fun _ => False) ((List.range numIters).flatMap fun i =>
      [alloc (2 * i) blkSize1, alloc (2 * i + 1) blkSize2])
      fun j => j < 2 * numIters ∧ (j % 2 = 1 → 2 * 0 < j) := hAllocs.congr (by simp) (by omega)
  have hMiddle := hStart.append hFrees
  have hEnd : Series (fun j => j < 2 * numIters ∧ (j % 2 = 1 → 2 * numIters < j))
      ((List.range numIters).flatMap fun i => [alloc (2 * numIters + i) (blkSize1 + blkSize2)])
      fun j => (j < 2 * numIters ∧ j % 2 = 0) ∨ (2 * numIters ≤ j ∧ j < 3 * numIters) :=
    hLast.congr (by omega) (by omega)
  exact hMiddle.append hEnd

theorem coalescing_series (blkSize numIters : Nat) :
    Series (fun _ => False) (coalescingRequests blkSize numIters) fun _ => False := by
  have hRound : ∀ i, Series (fun _ => False) [alloc (3 * i) blkSize, alloc (3 * i + 1) blkSize,
      free (3 * i), free (3 * i + 1), alloc (3 * i + 2) (2 * blkSize), free (3 * i + 2)]
      fun _ => False := by
    intro i
    refine .cons (series_alloc (T := fun j => j = 3 * i) id (by simp)) ?_
    refine .cons (series_alloc (T := fun j => j = 3 * i ∨ j = 3 * i + 1) (by omega) (by omega)) ?_
    refine .cons (series_free (T := fun j => j = 3 * i + 1) (by omega) (by omega)) ?_
    refine .cons (series_free (T := fun _ => False) (by omega) (by simp)) ?_
    refine .cons (series_alloc (T := fun j => j = 3 * i + 2) id (by simp)) ?_
    exact series_free rfl (by simp)
  exact leads_loop (I := fun _ => LiveIds fun _ => False) fun i _ => hRound i

/-- Between two rounds the reallocated block and the latest one are live. -/
theorem reallocRounds_series (sizeIncrement mallocSize rounds : Nat) {blk : Nat} (hBlk : 0 < blk)
    (reallocSize : Nat) :
    (reallocRounds sizeIncrement mallocSize rounds blk reallocSize).2 = blk + rounds ∧
      Series (fun j => j = 0 ∨ j = blk)
        (reallocRounds sizeIncrement mallocSize rounds blk reallocSize).1
        fun j => j = 0 ∨ j = blk + rounds := by
  induction rounds generalizing blk reallocSize with
  | zero => exact ⟨rfl, leads_nil⟩
  | succ rounds ih =>
    obtain ⟨hFinal, hRest⟩ := ih (Nat.succ_pos blk) (reallocSize + sizeIncrement)
    refine ⟨hFinal.trans (by omega), ?_⟩
    refine .cons (series_realloc (by omega)) ?_
    refine .cons (series_alloc (T := fun j => j = 0 ∨ j = blk ∨ j = blk + 1) (by omega) (by omega)) ?_
    refine .cons (series_free (T := fun j => j = 0 ∨ j = blk + 1) (by omega) (by omega)) ?_
    exact Series.congr hRest (by omega) (by omega)

theorem realloc_series (reallocSize sizeIncrement mallocSize numIters : Nat) :
    Series (fun _ => False)
      (reallocRequests reallocSize sizeIncrement mallocSize numIters ++ [free 0]) fun _ => False := by
  obtain ⟨hFinal, hRounds⟩ :=
    reallocRounds_series sizeIncrement mallocSize (numIters - 1) Nat.one_pos reallocSize
  rw [reallocRequests]
  dsimp only
  rw [hFinal]
  have hFirst : Series (fun _ => False) [alloc 0 reallocSize] fun j => j = 0 :=
    series_alloc id (by simp)
  have hSecond : Series (fun j => j = 0) [alloc 1 mallocSize] fun j => j = 0 ∨ j = 1 :=
    series_alloc (by omega) (by omega)
  have hFinalBlk : Series (fun j => j = 0 ∨ j = 1 + (numIters - 1)) [free (1 + (numIters - 1))]
      fun j => j = 0 := series_free (by omega) (by omega)
  have hLast : Series (fun j => j = 0) [free 0] fun _ => False :=
    series_free rfl (by simp)
  exact (((hFirst.cons hSecond).append hRounds).append hFinalBlk).append hLast

end Loops

/-! ## The files -/

/-- A file of consistent requests in plain decimals: the header counts the requests, the ids are
allocated in order and exhaust those that the header announces, and those with `left` stay live. -/
structure Synthetic (file : Chars) (c : Counts) (rs : List Request) (left : Nat → Prop) : Prop where
  written : Written (lines file) c rs
  plain : ∀ q ∈ rs, Plain q
  numOps : rs.length = c.numOps
  allocated : rs.filterMap Request.allocated = (List.range c.numIds).map fun i : Nat => decimal i
  disciplined : Disciplined rs
  leaves : LiveIds left rs

section Files

variable {n numIters : Nat}

theorem plain_alloc {i size : Nat} (hId : i < 2 ^ 31) (hSize : size < 2 ^ 31) (hPos : 0 < size) :
    Plain (alloc i size) :=
  ⟨_, .alloc hId (intNumeral_decimal hSize) hPos⟩

theorem plain_realloc {i size : Nat} (hId : i < 2 ^ 31) (hSize : size < 2 ^ 31) (hPos : 0 < size) :
    Plain (realloc i size) :=
  ⟨_, .realloc hId (intNumeral_decimal hSize) hPos⟩

theorem plain_free {i : Nat} (hId : i < 2 ^ 31) : Plain (free i) := ⟨_, .free hId 0⟩

theorem Counts.Small.ids_ops {c : Counts} (h : c.Small) : c.numIds < 2 ^ 31 ∧ c.numOps < 2 ^ 31 :=
  ⟨h _ (by simp [Counts.lines]), h _ (by simp [Counts.lines])⟩

theorem length_flatMap_range {α : Type} {body : Nat → List α} (n m : Nat)
    (h : ∀ i, (body i).length = m) : ((List.range n).flatMap body).length = m * n := by
  rw [List.length_flatMap]
  simp [h, Nat.mul_comm]

theorem allocated_loop (start m n : Nat) (body : Nat → List Request)
    (h : ∀ i, (body i).filterMap Request.allocated =
      (List.range m).map fun j : Nat => decimal (m * i + j + start : Nat)) :
    ((List.range n).flatMap body).filterMap Request.allocated =
      (List.range (m * n)).map fun i : Nat => decimal (i + start : Nat) := by
  induction n with
  | zero => simp
  | succ n ih =>
    rw [List.range_succ, List.flatMap_append, List.filterMap_append, ih, List.flatMap_singleton, h,
      Nat.mul_succ, List.range_add, List.map_append, List.map_map]
    rfl

theorem binary_plain {blkSize1 blkSize2 : Nat} (hSmall : (binaryCounts blkSize1 blkSize2 numIters).Small)
    (h1 : 0 < blkSize1) (h2 : 0 < blkSize2) :
    ∀ q ∈ binaryRequests blkSize1 blkSize2 numIters, Plain q := by
  have hOps : 4 * numIters < 2 ^ 31 := hSmall.ids_ops.2
  have hHeap : (blkSize1 + blkSize2 + (blkSize1 + blkSize2)) * numIters + 100 < 2 ^ 31 :=
    hSmall _ (by simp [Counts.lines, binaryCounts])
  have hSize : ∀ i < numIters, blkSize1 + blkSize2 < 2 ^ 31 := by
    intro i hi
    have hMul := Nat.le_mul_of_pos_right (blkSize1 + blkSize2 + (blkSize1 + blkSize2)) (Nat.zero_lt_of_lt hi)
    omega
  intro q hq
  simp only [binaryRequests, List.mem_append, List.mem_flatMap, List.mem_range, List.mem_cons,
    List.not_mem_nil, or_false] at hq
  obtain (⟨i, hi, rfl | rfl⟩ | ⟨i, hi, rfl⟩) | ⟨i, hi, rfl⟩ := hq
  · have hLt := hSize i hi
    exact plain_alloc (by omega) (by omega) h1
  · have hLt := hSize i hi
    exact plain_alloc (by omega) (by omega) h2
  · exact plain_free (by omega)
  · exact plain_alloc (by omega) (hSize i hi) (by omega)

theorem binary_synthetic {blkSize1 blkSize2 : Nat}
    (hSmall : (binaryCounts blkSize1 blkSize2 numIters).Small) (h1 : 0 < blkSize1) (h2 : 0 < blkSize2) :
    Synthetic (binaryText blkSize1 blkSize2 numIters) (binaryCounts blkSize1 blkSize2 numIters)
      (binaryRequests blkSize1 blkSize2 numIters)
      fun j => (j < 2 * numIters ∧ j % 2 = 0) ∨ (2 * numIters ≤ j ∧ j < 3 * numIters) := by
  have hPlain := binary_plain hSmall h1 h2
  obtain ⟨hDisciplined, hLeft⟩ := disciplined_of_series (binary_series blkSize1 blkSize2 numIters)
  refine ⟨written_text hSmall hPlain, hPlain, ?_, ?_, hDisciplined, hLeft⟩
  · unfold binaryRequests
    dsimp only
    rw [List.length_append, List.length_append, length_flatMap_range _ 2 fun _ => rfl,
      length_flatMap_range _ 1 fun _ => rfl, length_flatMap_range _ 1 fun _ => rfl]
    change _ = 4 * numIters
    omega
  · have hPairs := allocated_loop 0 2 numIters
      (fun i => [alloc (2 * i) blkSize1, alloc (2 * i + 1) blkSize2]) fun _ => rfl
    have hFrees := allocated_loop 0 0 numIters (fun i => [free (2 * i + 1)]) fun _ => rfl
    have hLast := allocated_loop (2 * numIters) 1 numIters
      (fun i => [alloc (2 * numIters + i) (blkSize1 + blkSize2)]) fun i => by
        simp [alloc, Request.allocated, Nat.add_comm]
    unfold binaryRequests
    dsimp only
    rw [List.filterMap_append, List.filterMap_append, hPairs, hFrees, hLast]
    have hIds : (binaryCounts blkSize1 blkSize2 numIters).numIds = 2 * numIters + 1 * numIters := by
      change 3 * numIters = _
      omega
    rw [hIds, List.range_add, List.map_append, List.map_map]
    simp [Function.comp_def, Nat.add_comm]

theorem coalescing_synthetic {blkSize : Nat} (hSmall : (coalescingCounts blkSize numIters).Small)
    (hSize : 0 < blkSize) :
    Synthetic (coalescingText blkSize numIters) (coalescingCounts blkSize numIters)
      (coalescingRequests blkSize numIters) fun _ => False := by
  have hPlain : ∀ q ∈ coalescingRequests blkSize numIters, Plain q := by
    have hOps : 6 * numIters < 2 ^ 31 := hSmall.ids_ops.2
    have hHeap : 2 * blkSize * numIters + 100 < 2 ^ 31 := hSmall _ (by simp [Counts.lines, coalescingCounts])
    intro q hq
    simp only [coalescingRequests, List.mem_flatMap, List.mem_range] at hq
    obtain ⟨i, hi, hq⟩ := hq
    have hMul := Nat.le_mul_of_pos_right (2 * blkSize) (Nat.zero_lt_of_lt hi)
    simp only [List.mem_cons, List.not_mem_nil, or_false] at hq
    obtain rfl | rfl | rfl | rfl | rfl | rfl := hq
    · exact plain_alloc (by omega) (by omega) hSize
    · exact plain_alloc (by omega) (by omega) hSize
    · exact plain_free (by omega)
    · exact plain_free (by omega)
    · exact plain_alloc (by omega) (by omega) (by omega)
    · exact plain_free (by omega)
  obtain ⟨hDisciplined, hLeft⟩ := disciplined_of_series (coalescing_series blkSize numIters)
  refine ⟨written_text hSmall hPlain, hPlain, ?_, ?_, hDisciplined, hLeft⟩
  · exact length_flatMap_range numIters 6 fun _ => rfl
  · exact allocated_loop 0 3 numIters _ fun _ => rfl

theorem reallocRounds_asked (sizeIncrement mallocSize rounds blk reallocSize : Nat) :
    (reallocRounds sizeIncrement mallocSize rounds blk reallocSize).1.length = 3 * rounds ∧
      (reallocRounds sizeIncrement mallocSize rounds blk reallocSize).1.filterMap Request.allocated =
        (List.range rounds).map fun i : Nat => decimal (blk + 1 + i : Nat) := by
  induction rounds generalizing blk reallocSize with
  | zero => exact ⟨rfl, rfl⟩
  | succ rounds ih =>
    obtain ⟨hLength, hAllocated⟩ := ih (blk + 1) (reallocSize + sizeIncrement)
    constructor
    · change (reallocRounds _ _ _ _ _).1.length + 3 = _
      rw [hLength]
      omega
    · change decimal (blk + 1 : Nat) :: (reallocRounds _ _ _ _ _).1.filterMap Request.allocated = _
      rw [hAllocated, List.range_succ_eq_map, List.map_cons, List.map_map]
      congr 1
      refine List.map_congr_left fun i _ => ?_
      simp only [Function.comp_apply]
      congr 2
      omega

theorem reallocRounds_plain {sizeIncrement mallocSize rounds blk reallocSize : Nat} (hPos : 0 < reallocSize)
    (hMalloc : 0 < mallocSize ∧ mallocSize < 2 ^ 31) (hIds : blk + rounds < 2 ^ 31)
    (hSize : reallocSize + sizeIncrement * rounds < 2 ^ 31) :
    ∀ q ∈ (reallocRounds sizeIncrement mallocSize rounds blk reallocSize).1, Plain q := by
  induction rounds generalizing blk reallocSize with
  | zero => exact nofun
  | succ rounds ih =>
    rw [Nat.mul_succ] at hSize
    refine List.forall_mem_cons.mpr ⟨plain_realloc (by omega) (by omega) (by omega), ?_⟩
    refine List.forall_mem_cons.mpr ⟨plain_alloc (by omega) hMalloc.2 hMalloc.1, ?_⟩
    refine List.forall_mem_cons.mpr ⟨plain_free (by omega), ?_⟩
    exact ih (by omega) (by omega) (by omega)

theorem realloc_synthetic {suggHeapsize reallocSize sizeIncrement mallocSize : Nat}
    (hSmall : (reallocCounts suggHeapsize numIters).Small) (hIters : 0 < numIters)
    (hRealloc : 0 < reallocSize ∧ reallocSize + sizeIncrement * (numIters - 1) < 2 ^ 31)
    (hMalloc : 0 < mallocSize ∧ mallocSize < 2 ^ 31) :
    Synthetic (reallocText suggHeapsize reallocSize sizeIncrement mallocSize numIters)
      (reallocCounts suggHeapsize numIters)
      (reallocRequests reallocSize sizeIncrement mallocSize numIters ++ [free 0]) fun _ => False := by
  have hIds : numIters + 1 < 2 ^ 31 := hSmall.ids_ops.1
  obtain ⟨hFinal, -⟩ :=
    reallocRounds_series sizeIncrement mallocSize (numIters - 1) Nat.one_pos reallocSize
  obtain ⟨hLength, hAllocated⟩ := reallocRounds_asked sizeIncrement mallocSize (numIters - 1) 1 reallocSize
  have hRounds : ∀ q ∈ (reallocRounds sizeIncrement mallocSize (numIters - 1) 1 reallocSize).1, Plain q :=
    reallocRounds_plain hRealloc.1 hMalloc (by omega) hRealloc.2
  have hPlain : ∀ q ∈ reallocRequests reallocSize sizeIncrement mallocSize numIters, Plain q := by
    unfold reallocRequests
    dsimp only
    rw [hFinal]
    refine List.forall_mem_append.mpr ⟨List.forall_mem_append.mpr ⟨?_, hRounds⟩, ?_⟩
    · refine List.forall_mem_cons.mpr ⟨plain_alloc (by omega) (by omega) hRealloc.1, ?_⟩
      exact List.forall_mem_singleton.mpr (plain_alloc (by omega) hMalloc.2 hMalloc.1)
    · exact List.forall_mem_singleton.mpr (plain_free (by omega))
  have hLast : Plain (free 0) := plain_free (by decide)
  obtain ⟨hDisciplined, hLeft⟩ :=
    disciplined_of_series (realloc_series reallocSize sizeIncrement mallocSize numIters)
  refine ⟨written_text_append hSmall hPlain hLast, ?_, ?_, ?_, hDisciplined, hLeft⟩
  · exact List.forall_mem_append.mpr ⟨hPlain, List.forall_mem_singleton.mpr hLast⟩
  · unfold reallocRequests
    dsimp only
    simp only [List.length_append, List.length_cons, List.length_nil, hLength]
    change _ = 3 * numIters + 1
    omega
  · unfold reallocRequests
    dsimp only
    rw [List.filterMap_append, List.filterMap_append, List.filterMap_append, hAllocated]
    have hIds : (reallocCounts suggHeapsize numIters).numIds = 2 + (numIters - 1) := by
      change numIters + 1 = _
      omega
    rw [hIds, List.range_add, List.map_append, List.map_map]
    simp [alloc, free, Request.allocated, List.range_succ, Function.comp_def]

end Files

/-! ## In the driver -/

section Driven

variable {file : Chars} {c : Counts} {rs : List Request} {left : Nat → Prop}

theorem Synthetic.read (h : Synthetic file c rs left) (hIds : 0 < c.numIds) (fresh : Driver.Header)
    (junk : Nat → Int) (size : Nat) :
    ∃ ops, Driver.readTrace fresh junk size file = .ok ⟨c.header, ops⟩ ∧ List.Forall₂ Replays rs ops := by
  obtain ⟨reqs, hNames, hResult⟩ := readTrace_of_written fresh junk size h.written
  obtain ⟨hIdsLt, -⟩ := h.written.small
  have hOps := replays_entries hNames h.plain junk 0
  have hNamed : ∀ q ∈ rs, ∀ r, Names q r → r.index < c.numIds := by
    intro q hq r hName
    obtain ⟨i, hIndex, hId⟩ := (hName.replays (h.plain q hq) 0).index
    replace hIndex : Driver.toInt r.index = i := hIndex
    have hAllocated := h.disciplined.allocates hq
    rw [h.allocated] at hAllocated
    obtain ⟨j, hj, hEq⟩ := List.mem_map.mp hAllocated
    rw [hId] at hEq
    obtain rfl := decimal_inj.mp hEq
    rw [toInt_small hName.index_lt] at hIndex
    have hLt := List.mem_range.mp hj
    omega
  have hBelow : Driver.largest 0 reqs < c.numIds := largest_lt hIds (forall_right hNames hNamed)
  have hAbove : c.numIds - 1 ≤ Driver.largest 0 reqs := by
    refine le_largest_allocated hNames ?_ (by omega)
    rw [h.allocated]
    exact List.mem_map.mpr ⟨c.numIds - 1, List.mem_range.mpr (by omega), rfl⟩
  rw [h.numOps, if_neg (Nat.lt_irrefl _), if_pos ⟨by omega, rfl⟩] at hResult
  exact ⟨_, hResult, hOps⟩

/-- No reallocated id has a low byte of 128 or more. -/
def CharRealloc (rs : List Request) : Prop :=
  ∀ id size, .realloc id size ∈ rs → ∃ i : Nat, i % 256 < 128 ∧ id = decimal i

theorem Driven.charIds {freed : List Chars} {numIds : Nat} {ops : List Driver.TraceOp}
    (h : Driven rs freed numIds ops) (hChar : CharRealloc rs) : Driver.CharIds ops := by
  refine forall_right h.replays fun q hq op hReplays hType => ?_
  cases hReplays with
  | alloc _ _ _ => cases hType
  | free _ _ => cases hType
  | @realloc i n size _ _ _ =>
    obtain hq | hq := List.mem_append.mp hq
    · obtain ⟨j, hLow, hEq⟩ := hChar _ _ hq
      obtain rfl := decimal_inj.mp hEq
      change Driver.lowByte i < 128
      unfold Driver.lowByte
      omega
    · obtain ⟨id, -, hEq⟩ := List.mem_map.mp hq
      cases hEq

/-- A synthetic file after checktrace.pl: the driver reads from it the generated requests followed by
frees of the ids left live, and `eval_mm_valid` returns 1 with every allocator that is correct along
that trace. -/
structure Replayable (file : Chars) (c : Counts) (rs : List Request) (left : Nat → Prop) : Prop extends
    Synthetic file c rs left where
  valid : ∀ (fresh : Driver.Header) (junk : Nat → Int) (size : Nat) (floating : Chars → Nat → Chars),
    ∃ freed stdout t, checktrace floating false file = ⟨stdout, none⟩ ∧
      checktrace floating true stdout = ⟨"Balanced trace.\n".toList, none⟩ ∧
      Driver.readTrace fresh junk size stdout = .ok t ∧ Driven rs freed c.numIds t.ops ∧
      (∀ id, id ∈ freed ↔ ∃ i, left i ∧ id = decimal i) ∧
      ∀ (σ : Type) (A : Driver.Allocator σ) (tracenum : Nat) (d : Driver.Mdriver σ),
        Driver.CorrectFor A d.heap t.ops →
          ∃ d', (Driver.evalMmValid A tracenum t.ops).run d = .ok (1, d')

theorem Synthetic.replayable (h : Synthetic file c rs left) (hIds : 0 < c.numIds)
    (hRoom : c.numOps + c.numIds < 2 ^ 31) (hChar : CharRealloc rs) : Replayable file c rs left := by
  refine ⟨h, fun fresh junk size floating => ?_⟩
  obtain ⟨ops, hRead, -⟩ := h.read hIds fresh junk size
  obtain ⟨freed, stdout, t, hRun, hSummary, hResult, -, hDriven⟩ :=
    checked_output fresh junk size floating h.written h.plain hRead hRoom h.disciplined
  refine ⟨freed, stdout, t, hRun, hSummary, hResult, hDriven, fun id => ?_, fun _ _ tracenum d hCorrect =>
    (valid_of_proper tracenum d hDriven.proper hCorrect).mpr (hDriven.charIds hChar)⟩
  rw [hDriven.live id]
  exact h.leaves id

end Driven

section Programs

theorem binary_charRealloc (blkSize1 blkSize2 numIters : Nat) :
    CharRealloc (binaryRequests blkSize1 blkSize2 numIters) := by
  intro id size hMem
  simp [binaryRequests, alloc, free] at hMem

theorem coalescing_charRealloc (blkSize numIters : Nat) :
    CharRealloc (coalescingRequests blkSize numIters) := by
  intro id size hMem
  simp [coalescingRequests, alloc, free] at hMem

/-- Block 0 is the one that is reallocated. -/
theorem realloc_charRealloc (reallocSize sizeIncrement mallocSize numIters : Nat) :
    CharRealloc (reallocRequests reallocSize sizeIncrement mallocSize numIters ++ [free 0]) := by
  have hRounds : ∀ rounds blk reallocSize,
      CharRealloc (reallocRounds sizeIncrement mallocSize rounds blk reallocSize).1 := by
    intro rounds
    induction rounds with
    | zero => exact fun _ _ _ _ => nofun
    | succ rounds ih =>
      intro blk reallocSize id size hMem
      obtain hFirst | hRest := List.mem_append.mp hMem
      · simp only [List.mem_cons, List.not_mem_nil, or_false, alloc, realloc, free] at hFirst
        obtain hEq | hEq | hEq := hFirst
        · cases hEq
          exact ⟨0, by decide, rfl⟩
        · cases hEq
        · cases hEq
      · exact ih _ _ id size hRest
  intro id size hMem
  simp only [reallocRequests, List.mem_append, List.mem_cons, List.not_mem_nil, or_false, alloc, free,
    reduceCtorEq, false_or] at hMem
  exact hRounds _ _ _ id size hMem

end Programs

/-- gen_binary.pl and gen_binary2.pl: the ids of the first blocks of the pairs and those of the
joined blocks stay live. -/
theorem binary_replayable (blkSize1 blkSize2 numIters : Nat)
    (hSmall : (binaryCounts blkSize1 blkSize2 numIters).Small) (h1 : 0 < blkSize1) (h2 : 0 < blkSize2)
    (hIters : 0 < numIters ∧ 7 * numIters < 2 ^ 31) :
    Replayable (binaryText blkSize1 blkSize2 numIters) (binaryCounts blkSize1 blkSize2 numIters)
      (binaryRequests blkSize1 blkSize2 numIters)
      fun j => (j < 2 * numIters ∧ j % 2 = 0) ∨ (2 * numIters ≤ j ∧ j < 3 * numIters) := by
  refine (binary_synthetic hSmall h1 h2).replayable ?_ ?_ (binary_charRealloc _ _ _)
  · change 0 < 3 * numIters
    omega
  · change 4 * numIters + 3 * numIters < 2 ^ 31
    omega

theorem binary_replayable_makefile :
    Replayable genBinary (binaryCounts 64 448 2000) (binaryRequests 64 448 2000)
        (fun j => (j < 4000 ∧ j % 2 = 0) ∨ (4000 ≤ j ∧ j < 6000)) ∧
      Replayable genBinary2 (binaryCounts 16 112 4000) (binaryRequests 16 112 4000)
        fun j => (j < 8000 ∧ j % 2 = 0) ∨ (8000 ≤ j ∧ j < 12000) :=
  ⟨binary_replayable 64 448 2000 (by simp [Counts.Small, Counts.lines, binaryCounts]) (by decide)
      (by decide) (by decide),
    binary_replayable 16 112 4000 (by simp [Counts.Small, Counts.lines, binaryCounts]) (by decide)
      (by decide) (by decide)⟩

/-- gen_coalescing.pl: no id stays live. -/
theorem coalescing_replayable (blkSize numIters : Nat)
    (hSmall : (coalescingCounts blkSize numIters).Small) (hSize : 0 < blkSize)
    (hIters : 0 < numIters ∧ 9 * numIters < 2 ^ 31) :
    Replayable (coalescingText blkSize numIters) (coalescingCounts blkSize numIters)
      (coalescingRequests blkSize numIters) fun _ => False := by
  refine (coalescing_synthetic hSmall hSize).replayable ?_ ?_ (coalescing_charRealloc _ _)
  · change 0 < 3 * numIters
    omega
  · change 6 * numIters + 3 * numIters < 2 ^ 31
    omega

theorem coalescing_replayable_makefile :
    Replayable genCoalescing (coalescingCounts 4095 2400) (coalescingRequests 4095 2400) fun _ => False :=
  coalescing_replayable 4095 2400 (by simp [Counts.Small, Counts.lines, coalescingCounts]) (by decide)
    (by decide)

/-- gen_realloc.pl and gen_realloc2.pl: no id stays live. -/
theorem realloc_replayable (suggHeapsize reallocSize sizeIncrement mallocSize numIters : Nat)
    (hSmall : (reallocCounts suggHeapsize numIters).Small)
    (hRealloc : 0 < reallocSize ∧ reallocSize + sizeIncrement * (numIters - 1) < 2 ^ 31)
    (hMalloc : 0 < mallocSize ∧ mallocSize < 2 ^ 31) (hIters : 0 < numIters ∧ 4 * numIters + 2 < 2 ^ 31) :
    Replayable (reallocText suggHeapsize reallocSize sizeIncrement mallocSize numIters)
      (reallocCounts suggHeapsize numIters)
      (reallocRequests reallocSize sizeIncrement mallocSize numIters ++ [free 0]) fun _ => False := by
  refine (realloc_synthetic hSmall hIters.1 hRealloc hMalloc).replayable ?_ ?_ (realloc_charRealloc _ _ _ _)
  · exact Nat.succ_pos numIters
  · change 3 * numIters + 1 + (numIters + 1) < 2 ^ 31
    omega

theorem realloc_replayable_makefile :
    Replayable genRealloc (reallocCounts 100 4800) (reallocRequests 512 128 128 4800 ++ [free 0])
        (fun _ => False) ∧
      Replayable genRealloc2 (reallocCounts 104987 4800) (reallocRequests 4092 5 16 4800 ++ [free 0])
        fun _ => False :=
  ⟨realloc_replayable 100 512 128 128 4800 (by simp [Counts.Small, Counts.lines, reallocCounts])
      (by decide) (by decide) (by decide),
    realloc_replayable 104987 4092 5 16 4800 (by simp [Counts.Small, Counts.lines, reallocCounts])
      (by decide) (by decide) (by decide)⟩

end Cs33.Traces
