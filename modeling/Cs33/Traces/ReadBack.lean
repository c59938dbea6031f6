import Cs33.Driver.ReadTrace
import Cs33.Driver.Trace
import Cs33.Traces.GenRandom

/-! # One file, two readers

checktrace.pl reads a trace line by line and compares ids as strings;
`read_trace` scans it with `fscanf` and counts. Both see the same words, so on a
file of decimal numbers they find the same requests.
-/

namespace Cs33.Traces

open Text

/-! ## Numbers -/

/-- The value of a word of digits, if it fits an `int`. -/
def intNumeral (word : Chars) : Option Nat :=
  if word ≠ [] ∧ word.all Char.isDigit = true ∧ Nat.ofDigitChars 10 word 0 < 2 ^ 31 then
    some (Nat.ofDigitChars 10 word 0)
  else
    none

/-- The request that `read_trace` stores for a line. A free line leaves the size alone. -/
inductive Names : Request → Driver.Request → Prop where
  | alloc {id size : Chars} {i n : Nat} (hId : intNumeral id = some i)
      (hSize : intNumeral size = some n) : Names (.alloc id size) ⟨.alloc, i, n⟩
  | realloc {id size : Chars} {i n : Nat} (hId : intNumeral id = some i)
      (hSize : intNumeral size = some n) : Names (.realloc id size) ⟨.realloc, i, n⟩
  | free {id : Chars} {i : Nat} (hId : intNumeral id = some i) (n : Nat) : Names (.free id) ⟨.free, i, n⟩

def Numeric (q : Request) : Prop := ∃ r, Names q r

theorem intNumeral_eq_some {word : Chars} {n : Nat} : intNumeral word = some n ↔
    word ≠ [] ∧ (∀ c ∈ word, c.isDigit = true) ∧ n < 2 ^ 31 ∧ Nat.ofDigitChars 10 word 0 = n := by
  unfold intNumeral
  constructor
  · intro h
    split at h
    · cases h
      rename_i h
      exact ⟨h.1, List.all_eq_true.mp h.2.1, h.2.2, rfl⟩
    · cases h
  · rintro ⟨hNonempty, hDigits, hLt, rfl⟩
    rw [if_pos ⟨hNonempty, List.all_eq_true.mpr hDigits, hLt⟩]

theorem intNumeral_decimal {n : Nat} (h : n < 2 ^ 31) : intNumeral (decimal n) = some n := by
  refine intNumeral_eq_some.mpr ⟨(decimal_word n).1, fun c hc => isDigit_decimal hc, h, ?_⟩
  rw [decimal_natCast, Nat.ofDigitChars_ten_toDigits]

section Scan

variable {s word : Chars} {ws : List Chars} {n : Nat}

theorem scanDecimal_of_numeral (h : words s = word :: ws) (hWord : intNumeral word = some n) :
    ∃ rest, scanDecimal s = (some (false, n), rest) ∧ WordEnd rest ∧ words rest = ws := by
  obtain ⟨-, hDigits, -, rfl⟩ := intNumeral_eq_some.mp hWord
  exact scanDecimal_of_words h hDigits

theorem scannedUnsigned_numeral (hWord : intNumeral word = some n) :
    Driver.scannedUnsigned false n = n := by
  obtain ⟨-, -, hLt, -⟩ := intNumeral_eq_some.mp hWord
  unfold Driver.scannedUnsigned Malloc.toUint32
  rw [if_neg (by omega), if_neg Bool.false_ne_true]
  omega

theorem scannedInt_numeral (hWord : intNumeral word = some n) :
    Driver.scannedInt false n = BitVec.ofNat 32 n := by
  obtain ⟨-, -, hLt, -⟩ := intNumeral_eq_some.mp hWord
  unfold Driver.scannedInt
  rw [if_neg Bool.false_ne_true, min_eq_right (by omega)]
  exact BitVec.ofInt_natCast 32 n

theorem fscanfInt_of_words (field : BitVec 32) (h : words s = word :: ws)
    (hWord : intNumeral word = some n) :
    ∃ rest, Driver.fscanfInt field s = (BitVec.ofNat 32 n, rest) ∧ words rest = ws := by
  obtain ⟨rest, hScan, -, hRest⟩ := scanDecimal_of_numeral h hWord
  refine ⟨rest, ?_, hRest⟩
  rw [Driver.fscanfInt, hScan, ← scannedInt_numeral hWord]

end Scan

/-! ## The requests -/

section Requests

variable {q : Request} {qs : List Request} {sc : Driver.Scan} {ws : List Chars} {s : Chars}

theorem scanArgs_pair (sc : Driver.Scan) {id size : Chars} {i n : Nat} (h : words sc.input = id :: size :: ws)
    (hId : intNumeral id = some i) (hSize : intNumeral size = some n) :
    ∃ rest, Driver.fscanfIndexSize sc = ⟨i, n, rest⟩ ∧ words rest = ws := by
  obtain ⟨middle, hFirst, -, hMiddle⟩ := scanDecimal_of_numeral h hId
  obtain ⟨rest, hSecond, -, hRest⟩ := scanDecimal_of_numeral hMiddle hSize
  refine ⟨rest, ?_, hRest⟩
  rw [Driver.fscanfIndexSize, hFirst]
  dsimp only
  rw [hSecond]
  dsimp only
  rw [scannedUnsigned_numeral hId, scannedUnsigned_numeral hSize]

/-- The `d` of the format finds no `d`. -/
theorem skipD_wordEnd (h : WordEnd s) : Driver.skipD s = s := by
  unfold Driver.skipD
  split
  · have hSpace := h 'd' rfl
    exact absurd hSpace (by decide)
  · rfl

theorem scanArgs_one (sc : Driver.Scan) {id : Chars} {i : Nat} (h : words sc.input = id :: ws)
    (hId : intNumeral id = some i) :
    ∃ rest, Driver.fscanfIndexD sc = ⟨i, sc.size, rest⟩ ∧ words rest = ws := by
  obtain ⟨rest, hScan, hEnd, hRest⟩ := scanDecimal_of_numeral h hId
  refine ⟨rest, ?_, hRest⟩
  rw [Driver.fscanfIndexD, hScan]
  dsimp only
  rw [scannedUnsigned_numeral hId, skipD_wordEnd hEnd]

theorem scan_request (h : words sc.input = q.fields ++ ws) (hNumeric : Numeric q) :
    ∃ word middle r rest, scanWord sc.input = some (word, middle) ∧
      Driver.requestType (word.headD ' ') = some r.type ∧
      Driver.scanArgs r.type { sc with input := middle } = ⟨r.index, r.size, rest⟩ ∧
      words rest = ws ∧ Names q r := by
  obtain ⟨r₀, hNames⟩ := hNumeric
  cases hNames with
  | @alloc id size i n hId hSize =>
    obtain ⟨middle, hWord, -, -, hMiddle⟩ := scanWord_of_words h
    obtain ⟨rest, hArgs, hRest⟩ :=
      scanArgs_pair ({ sc with input := middle }) hMiddle hId hSize
    exact ⟨_, middle, ⟨.alloc, i, n⟩, rest, hWord, rfl, hArgs, hRest, .alloc hId hSize⟩
  | @realloc id size i n hId hSize =>
    obtain ⟨middle, hWord, -, -, hMiddle⟩ := scanWord_of_words h
    obtain ⟨rest, hArgs, hRest⟩ :=
      scanArgs_pair ({ sc with input := middle }) hMiddle hId hSize
    exact ⟨_, middle, ⟨.realloc, i, n⟩, rest, hWord, rfl, hArgs, hRest, .realloc hId hSize⟩
  | @free id i hId n =>
    obtain ⟨middle, hWord, -, -, hMiddle⟩ := scanWord_of_words h
    obtain ⟨rest, hArgs, hRest⟩ := scanArgs_one ({ sc with input := middle }) hMiddle hId
    exact ⟨_, middle, ⟨.free, i, sc.size⟩, rest, hWord, rfl, hArgs, hRest, .free hId sc.size⟩

theorem scan_requests (rounds : Nat) (sc : Driver.Scan) (h : words sc.input = qs.flatMap Request.fields)
    (hNumeric : ∀ q ∈ qs, Numeric q) (hFuel : sc.input.length < rounds) :
    ∃ rs, Driver.requests rounds sc = (rs, none) ∧ List.Forall₂ Names qs rs := by
  induction rounds generalizing sc qs with
  | zero => exact absurd hFuel (Nat.not_lt_zero _)
  | succ rounds ih =>
    cases qs with
    | nil =>
      refine ⟨[], ?_, .nil⟩
      rw [Driver.requests, scanWord_of_blank h]
    | cons q qs =>
      obtain ⟨hFirst, hRest⟩ := List.forall_mem_cons.mp hNumeric
      rw [List.flatMap_cons] at h
      obtain ⟨word, middle, r, rest, hWord, hType, hArgs, hWords, hNames⟩ := scan_request h hFirst
      have hShorter := length_scanWord_lt hWord
      have hLength := Driver.length_scanArgs_le r.type { sc with input := middle }
      rw [hArgs] at hLength
      obtain ⟨rs, hRun, hAll⟩ := ih ⟨r.index, r.size, rest⟩ hWords hRest (by
        dsimp only at hLength ⊢
        omega)
      refine ⟨r :: rs, ?_, .cons hNames hAll⟩
      rw [Driver.requests, hWord]
      dsimp only
      rw [hType]
      dsimp only
      rw [hArgs, hRun]

end Requests

/-! ## The file -/

/-- The number alone on a line. -/
def numberLine (line : Chars) : Option Nat :=
  match words line with
  | [word] => intNumeral word
  | _ => none

/-- The numbers at the top of a trace file. -/
structure Counts where
  suggHeapsize : Nat
  numIds : Nat
  numOps : Nat
  weight : Nat
deriving DecidableEq, Repr

def Counts.lines (c : Counts) : List Nat := [c.suggHeapsize, c.numIds, c.numOps, c.weight]

def Counts.header (c : Counts) : Driver.Header :=
  ⟨BitVec.ofNat 32 c.suggHeapsize, BitVec.ofNat 32 c.numIds, BitVec.ofNat 32 c.numOps, BitVec.ofNat 32 c.weight⟩

/-- Lines of a trace file in decimal numbers: the counts, and then the requests. -/
structure Written (ls : List Chars) (c : Counts) (qs : List Request) : Prop where
  counts : (ls.take 4).map numberLine = c.lines.map some
  asked : requests (ls.drop 4) = some qs
  numeric : ∀ q ∈ qs, Numeric q

section File

variable {ls : List Chars} {c : Counts} {qs : List Request} {file : Chars}

theorem numberLine_eq_some {line : Chars} {n : Nat} (h : numberLine line = some n) :
    ∃ word, words line = [word] ∧ intNumeral word = some n := by
  unfold numberLine at h
  split at h
  · exact ⟨_, ‹_›, h⟩
  · cases h

theorem words_requests (h : requests ls = some qs) : ls.flatMap words = qs.flatMap Request.fields := by
  induction ls generalizing qs with
  | nil =>
    cases h
    rfl
  | cons line ls ih =>
    obtain ⟨hBlank, hRest⟩ | ⟨q, qs', -, hq, hRest, rfl⟩ := requests_cons h
    · rw [List.flatMap_cons, hBlank, ih hRest, List.nil_append]
    · rw [List.flatMap_cons, request_fields hq, ih hRest, List.flatMap_cons]

theorem Written.split (h : Written ls c qs) :
    ∃ l₀ l₁ l₂ l₃ body, ls = l₀ :: l₁ :: l₂ :: l₃ :: body ∧ requests body = some qs ∧
      numberLine l₀ = some c.suggHeapsize ∧ numberLine l₁ = some c.numIds ∧
      numberLine l₂ = some c.numOps ∧ numberLine l₃ = some c.weight := by
  have hCounts := h.counts
  obtain ⟨l₀, _, hTake, h₀, hCounts⟩ := List.map_eq_cons_iff.mp hCounts
  obtain ⟨l₁, _, rfl, h₁, hCounts⟩ := List.map_eq_cons_iff.mp hCounts
  obtain ⟨l₂, _, rfl, h₂, hCounts⟩ := List.map_eq_cons_iff.mp hCounts
  obtain ⟨l₃, _, rfl, h₃, hCounts⟩ := List.map_eq_cons_iff.mp hCounts
  obtain rfl := List.map_eq_nil_iff.mp hCounts
  refine ⟨l₀, l₁, l₂, l₃, ls.drop 4, ?_, h.asked, h₀, h₁, h₂, h₃⟩
  calc ls = ls.take 4 ++ ls.drop 4 := (List.take_append_drop 4 ls).symm
    _ = [l₀, l₁, l₂, l₃] ++ ls.drop 4 := by rw [hTake]

theorem Written.words (h : Written (Text.lines file) c qs) :
    ∃ w₀ w₁ w₂ w₃, Text.words file = w₀ :: w₁ :: w₂ :: w₃ :: qs.flatMap Request.fields ∧
      intNumeral w₀ = some c.suggHeapsize ∧ intNumeral w₁ = some c.numIds ∧
      intNumeral w₂ = some c.numOps ∧ intNumeral w₃ = some c.weight := by
  obtain ⟨l₀, l₁, l₂, l₃, body, hLines, hBody, h₀, h₁, h₂, h₃⟩ := h.split
  obtain ⟨w₀, hw₀, hn₀⟩ := numberLine_eq_some h₀
  obtain ⟨w₁, hw₁, hn₁⟩ := numberLine_eq_some h₁
  obtain ⟨w₂, hw₂, hn₂⟩ := numberLine_eq_some h₂
  obtain ⟨w₃, hw₃, hn₃⟩ := numberLine_eq_some h₃
  refine ⟨w₀, w₁, w₂, w₃, ?_, hn₀, hn₁, hn₂, hn₃⟩
  rw [← flatMap_words_lines, hLines, ← words_requests hBody]
  simp only [List.flatMap_cons, hw₀, hw₁, hw₂, hw₃]
  rfl

theorem integerValue_of_number {line : Chars} {n : Nat} (h : numberLine line = some n) :
    integerValue line = some (n : Int) := by
  obtain ⟨word, hWords, hWord⟩ := numberLine_eq_some h
  obtain ⟨rest, hScan, hEnd, -⟩ := scanDecimal_of_numeral hWords hWord
  rcases hSign : scanSign (skipSpace line) with ⟨neg, digits⟩
  rw [scanDecimal, hSign] at hScan
  rw [integerValue, hSign]
  obtain ⟨hValue, hRest⟩ := Prod.mk.inj hScan
  split at hValue
  · cases hValue
  · cases hValue
    dsimp only at hRest ⊢
    rw [hRest]
    cases rest with
    | nil => rfl
    | cons c rest =>
      have hc : isSpace c = true := hEnd c rfl
      have hOther : c ∉ ['.', 'e', 'E', 'i', 'I', 'n', 'N'] := by
        intro hMem
        simp only [List.mem_cons, List.not_mem_nil, or_false] at hMem
        obtain rfl | rfl | rfl | rfl | rfl | rfl | rfl := hMem <;> exact absurd hc (by decide)
      simp only [if_neg hOther]
      rfl

theorem Written.integerValue_numOps (h : Written ls c qs) :
    integerValue (ls[2]?.getD []) = some (c.numOps : Int) := by
  obtain ⟨l₀, l₁, l₂, l₃, body, rfl, -, -, -, h₂, -⟩ := h.split
  exact integerValue_of_number h₂

theorem readHeader_of_written (fresh : Driver.Header) (h : Written (lines file) c qs) :
    ∃ rest, Driver.readHeader fresh file = (c.header, rest) ∧
      words rest = qs.flatMap Request.fields := by
  obtain ⟨w₀, w₁, w₂, w₃, hWords, h₀, h₁, h₂, h₃⟩ := h.words
  obtain ⟨s₁, hScan₀, hRest₀⟩ := fscanfInt_of_words fresh.suggHeapsize hWords h₀
  obtain ⟨s₂, hScan₁, hRest₁⟩ := fscanfInt_of_words fresh.numIds hRest₀ h₁
  obtain ⟨s₃, hScan₂, hRest₂⟩ := fscanfInt_of_words fresh.numOps hRest₁ h₂
  obtain ⟨s₄, hScan₃, hRest₃⟩ := fscanfInt_of_words fresh.weight hRest₂ h₃
  refine ⟨s₄, ?_, hRest₃⟩
  simp only [Driver.readHeader, hScan₀, hScan₁, hScan₂, hScan₃]
  rfl

theorem toInt_count {n : Nat} (h : n < 2 ^ 31) : (BitVec.ofNat 32 n).toInt = n := by
  have hNat : (BitVec.ofNat 32 n).toNat = n := Nat.mod_eq_of_lt (by omega)
  rw [BitVec.toInt_eq_toNat_of_lt (by omega), hNat]

theorem Written.small (h : Written (lines file) c qs) : c.numIds < 2 ^ 31 ∧ c.numOps < 2 ^ 31 := by
  obtain ⟨w₀, w₁, w₂, w₃, -, -, h₁, h₂, -⟩ := h.words
  exact ⟨(intNumeral_eq_some.mp h₁).2.2.1, (intNumeral_eq_some.mp h₂).2.2.1⟩

theorem largest_lt {rs : List Driver.Request} {m bound : Nat} (hm : m < bound)
    (h : ∀ r ∈ rs, r.index < bound) : Driver.largest m rs < bound := by
  induction rs generalizing m with
  | nil => exact hm
  | cons r rs ih =>
    obtain ⟨hr, hRest⟩ := List.forall_mem_cons.mp h
    rw [Driver.largest]
    refine ih ?_ hRest
    split
    · exact hm
    · exact max_lt hm hr

/-- What relates to the elements of a list only by having a property has it. -/
theorem forall_right {α β : Type} {as : List α} {bs : List β} {R : α → β → Prop} {P : β → Prop}
    (h : List.Forall₂ R as bs) (hAll : ∀ a ∈ as, ∀ b, R a b → P b) : ∀ b ∈ bs, P b := by
  induction h with
  | nil => exact nofun
  | @cons a b _ _ hFirst _ ih =>
    obtain ⟨hHead, hTail⟩ := List.forall_mem_cons.mp hAll
    exact List.forall_mem_cons.mpr ⟨hHead b hFirst, ih hTail⟩

theorem Names.index_lt {q : Request} {r : Driver.Request} (h : Names q r) : r.index < 2 ^ 31 := by
  cases h with
  | alloc hId _ => exact (intNumeral_eq_some.mp hId).2.2.1
  | realloc hId _ => exact (intNumeral_eq_some.mp hId).2.2.1
  | free hId _ => exact (intNumeral_eq_some.mp hId).2.2.1

/-- Both readers find the same requests. `read_trace` returns them if the header counts them and
names one id more than the largest id of an `a` or `r` line; it stores past its array if the header
counts fewer. -/
theorem readTrace_of_written (fresh : Driver.Header) (junk : Nat → Int) (size : Nat)
    (h : Written (lines file) c qs) :
    ∃ rs, List.Forall₂ Names qs rs ∧ Driver.readTrace fresh junk size file =
      if c.numOps < qs.length then .error (.outside c.numOps)
      else if Driver.largest 0 rs + 1 = c.numIds ∧ qs.length = c.numOps then
        .ok ⟨c.header, Driver.entries junk 0 rs⟩
      else .error .assertion := by
  obtain ⟨rest, hHeader, hWords⟩ := readHeader_of_written fresh h
  obtain ⟨hIdsLt, hOpsLt⟩ := h.small
  obtain ⟨rs, hRun, hNames⟩ := scan_requests (rest.length + 1) ⟨0, size, rest⟩ hWords h.numeric
    (Nat.lt_add_one _)
  have hFile : Driver.fileRequests fresh size file = (rs, none) := by
    rw [Driver.fileRequests, hHeader]
    exact hRun
  have hIds : (Driver.readHeader fresh file).1.numIds.toInt = c.numIds := by
    rw [hHeader]
    exact toInt_count hIdsLt
  have hOps : (Driver.readHeader fresh file).1.numOps.toInt = c.numOps := by
    rw [hHeader]
    exact toInt_count hOpsLt
  have hLength := hNames.length_eq
  refine ⟨rs, hNames, ?_⟩
  by_cases hRoom : c.numOps < qs.length
  · rw [if_pos hRoom, Driver.readTrace_outside hFile (by omega) hOps (by omega)]
  · have hLargest : Driver.largest 0 rs < 2 ^ 31 :=
      largest_lt (by decide) (forall_right hNames fun _ _ _ hName => hName.index_lt)
    have hCheck : Driver.largest 0 rs = Driver.toUnsigned ((c.numIds : Int) - 1) ↔
        Driver.largest 0 rs + 1 = c.numIds := by
      unfold Driver.toUnsigned
      omega
    rw [if_neg hRoom, Driver.readTrace_finishes hFile (by omega) hOps (by omega), hIds, hHeader, hLength]
    simp only [hCheck]

end File

theorem written_short : Written (lines shortTrace) ⟨9, 2, 3, 1⟩ shortRequests where
  counts := by decide
  asked := by decide
  numeric := by
    have hNumerals : intNumeral ['0'] = some 0 ∧ intNumeral ['1'] = some 1 ∧ intNumeral ['8'] = some 8 :=
      by decide
    obtain ⟨h₀, h₁, h₈⟩ := hNumerals
    intro q hq
    simp only [shortRequests, List.mem_cons, List.not_mem_nil, or_false] at hq
    obtain rfl | rfl | rfl := hq
    · exact ⟨_, .alloc h₀ h₈⟩
    · exact ⟨_, .alloc h₁ h₈⟩
    · exact ⟨_, .free h₀ 0⟩

theorem readTrace_of_written_short :
    ∃ rs, List.Forall₂ Names shortRequests rs ∧ Driver.readTrace ⟨0, 0, 0, 0⟩ (fun _ => 0) 0 shortTrace =
      if 3 < shortRequests.length then .error (.outside 3)
      else if Driver.largest 0 rs + 1 = 2 ∧ shortRequests.length = 3 then
        .ok ⟨(⟨9, 2, 3, 1⟩ : Counts).header, Driver.entries (fun _ => 0) 0 rs⟩
      else .error .assertion :=
  readTrace_of_written ⟨0, 0, 0, 0⟩ (fun _ => 0) 0 written_short

end Cs33.Traces
