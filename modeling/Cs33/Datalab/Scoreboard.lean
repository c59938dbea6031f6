import Mathlib.Data.List.AList
import Mathlib.Data.List.Sort
import Cs33.Datalab.Btest
import Cs33.Traces.Balance

/-! # The scores that driver.pl reads

driver.pl runs `btest -g` twice and reads what it prints. A number is an
integer; a sum with anything else has no value here. A test that takes too long
prints two lines that are read as puzzles of their own.
-/

namespace Cs33.Datalab

open Text
open Traces (decimal Hash isDigit_decimal decimal_natCast newline_notMem_decimal)

/-! ## What btest prints -/

/-- A word as `%d[0x%x]`. -/
def argText (arg : Word) : Chars :=
  decimal arg.toInt ++ "[0x".toList ++ Nat.toDigits 16 arg.toNat ++ "]".toList

/-- What `printf` prints, without its last newline. -/
def Line.texts : Line → List Chars
  | .header => ["Score\tRating\tErrors\tFunction".toList]
  | .failed name args r rt =>
    ["ERROR: Test ".toList ++ name ++ "(".toList ++ [','].intercalate (args.map argText) ++
        ") failed...".toList,
      "...Gives ".toList ++ argText r ++ ". Should be ".toList ++ argText rt]
  | .timedOut name limit =>
    ["ERROR: Test ".toList ++ name ++ " failed.".toList,
      "  Timed out after ".toList ++ decimal limit ++ " secs (probably infinite loop)".toList]
  | .score tpoints rating terrors name =>
    [" ".toList ++ decimal tpoints ++ "\t".toList ++ decimal rating ++ "\t".toList ++
      decimal terrors ++ "\t".toList ++ name]
  | .total points maxPoints =>
    ["Total points: ".toList ++ decimal points ++ "/".toList ++ decimal maxPoints]

/-- The file that the shell collects. -/
def printed (out : List Line) : Chars := unlines (out.flatMap Line.texts)

/-! ## What driver.pl reads -/

/-- `split(/\s+/, line)`: a line that starts with a blank has an empty first field. -/
def fields (line : Chars) : List Chars :=
  if line.head?.any isSpace then [] :: words line else words line

/-- The integer that a string counts as. There is none where Perl sees a fraction, an exponent, an
infinity or no number. -/
def numericValue (s : Chars) : Option Int :=
  let (neg, s) := scanSign (skipSpace s)
  let ds := s.takeWhile Char.isDigit
  let rest := s.dropWhile Char.isDigit
  let named := (rest.take 3).map Char.toLower
  if rest.head? = some '.' then none
  else if ds = [] ∧ (named = "inf".toList ∨ named = "nan".toList) then none
  else if ds ≠ [] ∧ (rest.head? = some 'e' ∨ rest.head? = some 'E') then none
  else
    let n := Nat.ofDigitChars 10 ds 0
    some (if neg then -n else n)

def addTo (total : Option Int) (s : Chars) : Option Int := do
  let total ← total
  let n ← numericValue s
  return total + n

/-- The variables of the first loop. -/
structure Correctness where
  inpuzzles : Bool
  puzzlecnt : Nat
  puzzleCPoints : Hash
  puzzleCErrors : Hash
  puzzleCRating : Hash
  puzzleNumber : AList fun _ : Chars => Nat
  totalCPoints : Option Int
  totalCRating : Option Int

/-- The variables of the second loop. -/
structure Performance where
  inpuzzles : Bool
  puzzlePPoints : Hash
  totalPPoints : Option Int
  totalPRating : Option Int

/-- A field that the line does not have reads as the empty string. -/
def field (line : Chars) (k : Nat) : Chars := ((fields line)[k]?).getD []

/-- A line about a puzzle, after its fields. -/
def Correctness.record (b : Correctness) (cPoints cRating cErrors name : Chars) : Correctness :=
  { b with
    puzzleCPoints := b.puzzleCPoints.insert name cPoints
    puzzleCErrors := b.puzzleCErrors.insert name cErrors
    puzzleCRating := b.puzzleCRating.insert name cRating
    puzzleNumber := b.puzzleNumber.insert name b.puzzlecnt
    puzzlecnt := b.puzzlecnt + 1
    totalCPoints := addTo b.totalCPoints cPoints
    totalCRating := addTo b.totalCRating cRating }

def Correctness.readLine (b : Correctness) (line : Chars) : Correctness :=
  if "Score".toList <+: line then { b with inpuzzles := true }
  else if "Total".toList <+: line then { b with inpuzzles := false }
  else if b.inpuzzles then b.record (field line 1) (field line 2) (field line 3) (field line 4)
  else b

def Performance.record (b : Performance) (pPoints pRating name : Chars) : Performance :=
  { b with
    puzzlePPoints := b.puzzlePPoints.insert name pPoints
    totalPPoints := addTo b.totalPPoints pPoints
    totalPRating := addTo b.totalPRating pRating }

def Performance.readLine (b : Performance) (line : Chars) : Performance :=
  if "Score".toList <+: line then { b with inpuzzles := true }
  else if "Total".toList <+: line then { b with inpuzzles := false }
  else if b.inpuzzles then b.record (field line 1) (field line 2) (field line 4)
  else b

def readCorrectness (file : Chars) : Correctness :=
  (lines file).foldl Correctness.readLine ⟨false, 0, ∅, ∅, ∅, ∅, some 0, some 0⟩

def readPerformance (file : Chars) : Performance :=
  (lines file).foldl Performance.readLine ⟨false, ∅, some 0, some 0⟩

def Correctness.number (b : Correctness) (name : Chars) : Nat := (b.puzzleNumber.lookup name).getD 0

/-- `sort {$puzzle_number{$a} <=> $puzzle_number{$b}} keys %puzzle_number`. -/
def Correctness.sortedNames (b : Correctness) (keys : List Chars) : List Chars :=
  keys.insertionSort fun a a' => b.number a ≤ b.number a'

/-- A value that a hash does not have reads as the empty string. -/
def entry (hash : Hash) (name : Chars) : Chars := (hash.lookup name).getD []

/-- The string that is sent to the server. -/
def autoresult (c : Correctness) (p : Performance) (puzzlePOps : Hash) (tops : Int)
    (keys : List Chars) : Option Chars := do
  let totalCPoints ← c.totalCPoints
  let totalPPoints ← p.totalPPoints
  let tpoints := totalCPoints + totalPPoints
  let total := ['|'].intercalate
    [decimal tpoints, decimal totalCPoints, decimal totalPPoints, decimal tops]
  return total ++ (c.sortedNames keys).flatMap fun name =>
    " |".toList ++ [':'].intercalate [name, entry c.puzzleCPoints name, entry c.puzzleCRating name,
      entry p.puzzlePPoints name, entry puzzlePOps name]

/-! ## Fields -/

section Fields

variable {name : Chars}

theorem numericValue_decimal (n : Nat) : numericValue (decimal n) = some (n : Int) := by
  have hDigits : ∀ c ∈ decimal n, c.isDigit = true := fun c hc => isDigit_decimal hc
  have hNonempty : decimal n ≠ [] := by
    rw [decimal_natCast]
    exact Nat.toDigits_ne_nil
  obtain ⟨c, cs, hCons⟩ := List.exists_cons_of_ne_nil hNonempty
  have hSpace : skipSpace (decimal n) = decimal n := by
    rw [hCons]
    simp [skipSpace, isSpace_of_isDigit (hDigits c (hCons ▸ List.mem_cons_self))]
  have hSign : scanSign (decimal n) = (false, decimal n) := by
    unfold scanSign
    split
    · exact absurd (hDigits '-' (‹decimal n = _› ▸ List.mem_cons_self)) (by decide)
    · exact absurd (hDigits '+' (‹decimal n = _› ▸ List.mem_cons_self)) (by decide)
    · rfl
  have hTake : (decimal n).takeWhile Char.isDigit = decimal n := List.takeWhile_eq_self_iff.mpr hDigits
  have hDrop : (decimal n).dropWhile Char.isDigit = [] := List.dropWhile_eq_nil_iff.mpr hDigits
  rw [numericValue, hSpace, hSign]
  simp only [hTake, hDrop]
  simp [decimal_natCast, Nat.ofDigitChars_ten_toDigits]

/-- A name that a C function can have, and that Perl does not take for a number. -/
structure FunctionName (name : Chars) : Prop where
  nonempty : name ≠ []
  word : ∀ c ∈ name, isSpace c = false
  notDigits : ∀ n : Int, name ≠ decimal n
  number : numericValue name = some 0

theorem functionName_of (hHead : name.head?.any (fun c => !c.isDigit && c != '-') = true)
    (hWord : name.all (!isSpace ·) = true) (hNumber : numericValue name = some 0) :
    FunctionName name := by
  cases name with
  | nil => cases hHead
  | cons c cs =>
    have hFirst : c.isDigit = false ∧ c ≠ '-' := by simpa using hHead
    refine ⟨List.cons_ne_nil _ _, by simpa using hWord, ?_, hNumber⟩
    intro n hEq
    rw [decimal] at hEq
    split at hEq
    · exact hFirst.2 (List.cons.inj hEq).1
    · have hDigit := Nat.isDigit_of_mem_toDigits (by decide) (by decide) (hEq ▸ List.mem_cons_self)
      rw [hFirst.1] at hDigit
      cases hDigit

theorem word_decimal (n : Nat) : decimal n ≠ [] ∧ ∀ c ∈ decimal n, isSpace c = false := by
  refine ⟨?_, fun c hc => isSpace_of_isDigit (isDigit_decimal hc)⟩
  rw [decimal_natCast]
  exact Nat.toDigits_ne_nil

theorem word_literal {a : Chars} (h : (!a.isEmpty && a.all (!isSpace ·)) = true) :
    a ≠ [] ∧ ∀ c ∈ a, isSpace c = false := by
  simpa using h

theorem words_cons_blank {a : Chars} {c : Char} (ha : a ≠ [] ∧ ∀ d ∈ a, isSpace d = false)
    (hc : isSpace c = true) (s : Chars) : words (a ++ c :: s) = a :: words s := by
  rw [words_append_cons hc, words_word ha.1 ha.2]
  rfl

theorem fields_blank {line : Chars} (c : Char) (hc : isSpace c = true) :
    fields (c :: line) = [] :: words line := by
  rw [fields, if_pos (show (c :: line).head?.any isSpace = true from hc), words_cons hc]

theorem texts_score (tpoints rating terrors : Nat) (hName : FunctionName name) :
    ∃ line, (Line.score tpoints rating terrors name).texts = [line] ∧ line.head? = some ' ' ∧
      '\n' ∉ line ∧ fields line = [[], decimal tpoints, decimal rating, decimal terrors, name] := by
  have hTab : isSpace '\t' = true := rfl
  have hNewline : '\n' ∉ name := fun h => absurd (hName.word _ h) (by decide)
  refine ⟨' ' :: (decimal tpoints ++ '\t' :: (decimal rating ++ '\t' ::
    (decimal terrors ++ '\t' :: name))), by simp [Line.texts], rfl, ?_, ?_⟩
  · simp [newline_notMem_decimal, hNewline]
  · rw [fields_blank ' ' rfl, words_cons_blank (word_decimal _) hTab,
      words_cons_blank (word_decimal _) hTab, words_cons_blank (word_decimal _) hTab,
      words_word hName.nonempty hName.word]

/-- The two lines about a test that took too long have the fields of two puzzles. -/
theorem texts_timedOut (limit : Nat) (hName : FunctionName name) :
    ∃ line line', (Line.timedOut name limit).texts = [line, line'] ∧ line.head? = some 'E' ∧
      line'.head? = some ' ' ∧ '\n' ∉ line ∧ '\n' ∉ line' ∧
      fields line = ["ERROR:".toList, "Test".toList, name, "failed.".toList] ∧
      (fields line').take 5 = [[], "Timed".toList, "out".toList, "after".toList, decimal limit] := by
  have hBlank : isSpace ' ' = true := rfl
  have hNewline : '\n' ∉ name := fun h => absurd (hName.word _ h) (by decide)
  refine ⟨"ERROR:".toList ++ ' ' :: ("Test".toList ++ ' ' :: (name ++ ' ' :: "failed.".toList)),
    ' ' :: ' ' :: ("Timed".toList ++ ' ' :: ("out".toList ++ ' ' :: ("after".toList ++ ' ' ::
      (decimal limit ++ ' ' :: "secs (probably infinite loop)".toList)))), by simp [Line.texts], ?_, rfl,
    ?_, ?_, ?_, ?_⟩
  · simp
  · simp [hNewline]
  · simp [newline_notMem_decimal]
  · have hHead : ("ERROR:".toList ++ ' ' :: ("Test".toList ++ ' ' ::
        (name ++ ' ' :: "failed.".toList))).head?.any isSpace = false := by simp [isSpace]
    rw [fields, if_neg (by rw [hHead]; decide), words_cons_blank (word_literal rfl) hBlank,
      words_cons_blank (word_literal rfl) hBlank,
      words_cons_blank ⟨hName.nonempty, hName.word⟩ hBlank]
    rfl
  · rw [fields_blank ' ' hBlank, words_cons hBlank, words_cons_blank (word_literal rfl) hBlank,
      words_cons_blank (word_literal rfl) hBlank, words_cons_blank (word_literal rfl) hBlank,
      words_cons_blank (word_decimal _) hBlank]
    rfl

end Fields

/-! ## The loop over the lines -/

namespace Correctness

variable {o : Options} {w : Surroundings} {b : Correctness} {vs : List Verdict}
  {others : List Chars} {v : Verdict}

/-- The variables after the lines about some functions. The hashes may have other keys, from lines
that are about no function. -/
structure Reads (o : Options) (b : Correctness) (vs : List Verdict) (others : List Chars) : Prop where
  inpuzzles : b.inpuzzles = true
  points : b.totalCPoints = some ((vs.map (Verdict.tpoints o)).sum : Nat)
  rating : b.totalCRating = some ((vs.map fun v => o.ratingOf v.tested).sum : Nat)
  entries : ∀ v ∈ vs, b.puzzleCPoints.lookup v.tested.name = some (decimal (v.tpoints o)) ∧
    b.puzzleCRating.lookup v.tested.name = some (decimal (o.ratingOf v.tested)) ∧
    b.puzzleCErrors.lookup v.tested.name = some (decimal v.errors)
  numbered : ∀ v ∈ vs, ∃ k < b.puzzlecnt, b.puzzleNumber.lookup v.tested.name = some k
  increasing : vs.Pairwise fun v v' => b.number v.tested.name < b.number v'.tested.name
  keys : ∀ name ∈ b.puzzleNumber, name ∈ vs.map (·.tested.name) ∨ name ∈ others

theorem number_record_ne {cPoints cRating cErrors name name' : Chars} (h : name' ≠ name) :
    (b.record cPoints cRating cErrors name).number name' = b.number name' := by
  rw [number, record]
  dsimp only
  rw [AList.lookup_insert_ne h, number]

theorem Reads.other (h : Reads o b vs others) {cPoints cRating cErrors name : Chars}
    (hPoints : numericValue cPoints = some 0) (hRating : numericValue cRating = some 0)
    (hNew : ∀ v ∈ vs, v.tested.name ≠ name) :
    Reads o (b.record cPoints cRating cErrors name) vs (name :: others) where
  inpuzzles := h.inpuzzles
  points := by
    rw [record, h.points]
    simp [addTo, hPoints]
  rating := by
    rw [record, h.rating]
    simp [addTo, hRating]
  entries v hv := by
    rw [record]
    dsimp only
    rw [AList.lookup_insert_ne (hNew v hv), AList.lookup_insert_ne (hNew v hv),
      AList.lookup_insert_ne (hNew v hv)]
    exact h.entries v hv
  numbered v hv := by
    obtain ⟨k, hk, hLookup⟩ := h.numbered v hv
    refine ⟨k, Nat.lt_succ_of_lt hk, ?_⟩
    rw [record]
    dsimp only
    rw [AList.lookup_insert_ne (hNew v hv), hLookup]
  increasing := by
    apply h.increasing.imp_of_mem
    intro v v' hv hv' hLt
    rwa [number_record_ne (hNew v hv), number_record_ne (hNew v' hv')]
  keys name' hMem := by
    obtain rfl | hOld := (AList.mem_insert _).mp hMem
    · exact .inr List.mem_cons_self
    · obtain hFunct | hOther := h.keys name' hOld
      · exact .inl hFunct
      · exact .inr (List.mem_cons_of_mem _ hOther)

theorem Reads.score (h : Reads o b vs others) (hNew : ∀ v' ∈ vs, v'.tested.name ≠ v.tested.name) :
    Reads o (b.record (decimal (v.tpoints o)) (decimal (o.ratingOf v.tested)) (decimal v.errors)
      v.tested.name) (vs ++ [v]) others where
  inpuzzles := h.inpuzzles
  points := by
    rw [record, h.points]
    simp [addTo, numericValue_decimal]
  rating := by
    rw [record, h.rating]
    simp [addTo, numericValue_decimal]
  entries v' hv' := by
    rw [record]
    dsimp only
    obtain hv' | hv' := List.mem_append.mp hv'
    · rw [AList.lookup_insert_ne (hNew v' hv'), AList.lookup_insert_ne (hNew v' hv'),
        AList.lookup_insert_ne (hNew v' hv')]
      exact h.entries v' hv'
    · obtain rfl := List.mem_singleton.mp hv'
      simp
  numbered v' hv' := by
    rw [record]
    dsimp only
    obtain hv' | hv' := List.mem_append.mp hv'
    · obtain ⟨k, hk, hLookup⟩ := h.numbered v' hv'
      exact ⟨k, Nat.lt_succ_of_lt hk, by rw [AList.lookup_insert_ne (hNew v' hv'), hLookup]⟩
    · obtain rfl := List.mem_singleton.mp hv'
      exact ⟨b.puzzlecnt, Nat.lt_succ_self _, AList.lookup_insert _⟩
  increasing := by
    rw [List.pairwise_append]
    refine ⟨?_, List.pairwise_singleton _ _, ?_⟩
    · apply h.increasing.imp_of_mem
      intro v₁ v₂ hv₁ hv₂ hLt
      rwa [number_record_ne (hNew v₁ hv₁), number_record_ne (hNew v₂ hv₂)]
    · intro v₁ hv₁ v₂ hv₂
      obtain rfl := List.mem_singleton.mp hv₂
      obtain ⟨k, hk, hLookup⟩ := h.numbered v₁ hv₁
      have hLast : (b.record (decimal (v₂.tpoints o)) (decimal (o.ratingOf v₂.tested))
          (decimal v₂.errors) v₂.tested.name).number v₂.tested.name = b.puzzlecnt := by
        rw [number, record]
        dsimp only
        rw [AList.lookup_insert]
        rfl
      rw [number_record_ne (hNew v₁ hv₁), hLast, number, hLookup]
      exact hk
  keys name' hMem := by
    rw [List.map_append, List.mem_append]
    obtain rfl | hOld := (AList.mem_insert _).mp hMem
    · exact .inl (.inr List.mem_cons_self)
    · obtain hFunct | hOther := h.keys name' hOld
      · exact .inl (.inl hFunct)
      · exact .inr hOther

theorem readLine_puzzle {line : Chars} {c : Char} (hIn : b.inpuzzles = true)
    (hHead : line.head? = some c) (hBlank : c = ' ' ∨ c = 'E') :
    b.readLine line = b.record (field line 1) (field line 2) (field line 3) (field line 4) := by
  obtain ⟨line, rfl⟩ := List.head?_eq_some_iff.mp hHead
  have hScore : ¬ "Score".toList <+: c :: line := by
    obtain rfl | rfl := hBlank <;> simp
  have hTotal : ¬ "Total".toList <+: c :: line := by
    obtain rfl | rfl := hBlank <;> simp
  rw [readLine, if_neg hScore, if_neg hTotal, if_pos hIn]

theorem field_of_fields {line : Chars} {fs : List Chars} (h : fields line = fs) (k : Nat) :
    field line k = (fs[k]?).getD [] := by
  rw [field, h]

theorem field_of_take {line : Chars} {fs : List Chars} {n k : Nat} (h : (fields line).take n = fs)
    (hk : k < n) : field line k = (fs[k]?).getD [] := by
  rw [field, ← h, List.getElem?_take_of_lt hk]

theorem Reads.block (h : Reads o b vs others) (hGrade : o.grade = true) (hFair : v.Fair o w)
    (hName : FunctionName v.tested.name) (hNames : ∀ v' ∈ vs, FunctionName v'.tested.name)
    (hNew : ∀ v' ∈ vs, v'.tested.name ≠ v.tested.name) :
    Reads o (((v.block o).flatMap Line.texts).foldl readLine b) (vs ++ [v])
      (if v.report = [] then others else decimal o.timeoutLimit :: [] :: others) := by
  have hScore : ∀ {b others}, Reads o b vs others → Reads o ((Line.score (v.tpoints o)
      (o.ratingOf v.tested) v.errors v.tested.name).texts.foldl readLine b) (vs ++ [v]) others := by
    intro b others h
    obtain ⟨line, hTexts, hHead, -, hFields⟩ :=
      texts_score (v.tpoints o) (o.ratingOf v.tested) v.errors hName
    rw [hTexts, List.foldl_cons, List.foldl_nil, readLine_puzzle h.inpuzzles hHead (.inl rfl),
      field_of_fields hFields, field_of_fields hFields, field_of_fields hFields,
      field_of_fields hFields]
    exact h.score hNew
  rw [Verdict.block, hGrade, Bool.true_or, if_pos rfl, List.flatMap_append, List.flatMap_singleton,
    List.foldl_append]
  obtain hReport | ⟨hReport, hLimit, -⟩ := hFair.grading hGrade
  · rw [hReport, if_pos rfl]
    exact hScore h
  · obtain ⟨limit, hNat⟩ := Int.eq_ofNat_of_zero_le hLimit.le
    obtain ⟨line, line', hTexts, hHead, hHead', -, -, hFields, hFields'⟩ := texts_timedOut limit hName
    rw [hReport, if_neg (List.cons_ne_nil _ _), List.flatMap_singleton, hNat, hTexts]
    apply hScore
    have hError : Reads o (b.record "Test".toList v.tested.name "failed.".toList []) vs
        ([] :: others) :=
      h.other (by decide) hName.number fun v' hv' => (hNames v' hv').nonempty
    have hFirst : b.readLine line = b.record "Test".toList v.tested.name "failed.".toList [] := by
      rw [readLine_puzzle h.inpuzzles hHead (.inr rfl), field_of_fields hFields,
        field_of_fields hFields, field_of_fields hFields, field_of_fields hFields]
      rfl
    rw [List.foldl_cons, List.foldl_cons, List.foldl_nil, hFirst,
      readLine_puzzle hError.inpuzzles hHead' (.inl rfl), field_of_take hFields' (by decide),
      field_of_take hFields' (by decide), field_of_take hFields' (by decide),
      field_of_take hFields' (by decide)]
    have hTimed : numericValue "Timed".toList = some 0 := by decide
    have hOut : numericValue "out".toList = some 0 := by decide
    exact hError.other hTimed hOut fun v' hv' => (hNames v' hv').notDigits limit

theorem Reads.blocks (h : Reads o b vs others) (hGrade : o.grade = true) {vs' : List Verdict}
    (hFair : ∀ v ∈ vs', v.Fair o w) (hNames : ∀ v ∈ vs ++ vs', FunctionName v.tested.name)
    (hNodup : ((vs ++ vs').map (·.tested.name)).Nodup)
    (hOthers : ∀ name ∈ others, name = [] ∨ name = decimal o.timeoutLimit) :
    ∃ others', Reads o ((vs'.flatMap fun v => (v.block o).flatMap Line.texts).foldl readLine b)
        (vs ++ vs') others' ∧
      (∀ name ∈ others', name = [] ∨ name = decimal o.timeoutLimit) ∧
      ((∀ v ∈ vs', v.report = []) → others' = others) := by
  induction vs' generalizing b vs others with
  | nil =>
    rw [List.append_nil]
    exact ⟨others, h, hOthers, fun _ => rfl⟩
  | cons v vs' ih =>
    obtain ⟨hFairV, hFairRest⟩ := List.forall_mem_cons.mp hFair
    have hAll : vs ++ v :: vs' = vs ++ [v] ++ vs' := by simp
    have hNew : ∀ v' ∈ vs, v'.tested.name ≠ v.tested.name := by
      rw [List.map_append, List.nodup_append] at hNodup
      intro v' hv'
      exact hNodup.2.2 _ (List.mem_map_of_mem hv') _ List.mem_cons_self
    have hBlock := h.block hGrade hFairV (hNames v (by simp))
      (fun v' hv' => hNames v' (List.mem_append_left _ hv')) hNew
    rw [hAll] at hNames hNodup ⊢
    obtain ⟨others', hReads, hOthers', hSame⟩ := ih hBlock hFairRest hNames hNodup (by
      split
      · exact hOthers
      · intro name hMem
        obtain rfl | hMem := List.mem_cons.mp hMem
        · exact .inr rfl
        · obtain rfl | hMem := List.mem_cons.mp hMem
          · exact .inl rfl
          · exact hOthers name hMem)
    refine ⟨others', ?_, hOthers', ?_⟩
    · rw [List.flatMap_cons, List.foldl_append]
      exact hReads
    · intro hNone
      obtain ⟨hV, hRest⟩ := List.forall_mem_cons.mp hNone
      rw [hSame hRest, if_pos hV]

theorem notMem_block {line : Chars} (hGrade : o.grade = true) (hFair : v.Fair o w)
    (hName : FunctionName v.tested.name) (hLine : line ∈ (v.block o).flatMap Line.texts) :
    '\n' ∉ line := by
  have hScore : ∀ line ∈ (Line.score (v.tpoints o) (o.ratingOf v.tested) v.errors
      v.tested.name).texts, '\n' ∉ line := by
    obtain ⟨line, hTexts, -, hNewline, -⟩ :=
      texts_score (v.tpoints o) (o.ratingOf v.tested) v.errors hName
    simpa [hTexts] using hNewline
  rw [Verdict.block, hGrade, Bool.true_or, if_pos rfl, List.flatMap_append, List.flatMap_singleton,
    List.mem_append] at hLine
  obtain hLine | hLine := hLine
  · obtain hReport | ⟨hReport, hLimit, -⟩ := hFair.grading hGrade
    · rw [hReport] at hLine
      cases hLine
    · obtain ⟨limit, hNat⟩ := Int.eq_ofNat_of_zero_le hLimit.le
      obtain ⟨first, second, hTexts, -, -, hFirst, hSecond, -⟩ := texts_timedOut limit hName
      rw [hReport, List.flatMap_singleton, hNat, hTexts] at hLine
      simp only [List.mem_cons, List.not_mem_nil, or_false] at hLine
      obtain rfl | rfl := hLine
      · exact hFirst
      · exact hSecond
  · exact hScore line hLine

theorem readCorrectness_printed (hGrade : o.grade = true) (hFair : ∀ v ∈ vs, v.Fair o w)
    (hNames : ∀ v ∈ vs, FunctionName v.tested.name) (hNodup : (vs.map (·.tested.name)).Nodup)
    (points maxPoints : Nat) :
    ∃ b others, readCorrectness (printed ([.header] ++ vs.flatMap (Verdict.block o) ++
        [.total points maxPoints])) = { b with inpuzzles := false } ∧ Reads o b vs others ∧
      (∀ name ∈ others, name = [] ∨ name = decimal o.timeoutLimit) ∧
      ((∀ v ∈ vs, v.report = []) → others = []) := by
  have hLines : ∀ l ∈ ([Line.header] ++ vs.flatMap (Verdict.block o) ++
      [Line.total points maxPoints]).flatMap Line.texts, '\n' ∉ l := by
    intro l hl
    simp only [List.flatMap_append, List.mem_append, List.flatMap_singleton] at hl
    obtain (hl | hl) | hl := hl
    · obtain rfl := List.mem_singleton.mp hl
      decide
    · rw [List.flatMap_assoc] at hl
      obtain ⟨v, hv, hl⟩ := List.mem_flatMap.mp hl
      exact notMem_block hGrade (hFair v hv) (hNames v hv) hl
    · obtain rfl := List.mem_singleton.mp hl
      simp [newline_notMem_decimal]
  have hStart : Reads o ⟨true, 0, ∅, ∅, ∅, ∅, some 0, some 0⟩ [] [] :=
    ⟨rfl, rfl, rfl, nofun, nofun, .nil, nofun⟩
  obtain ⟨others, hReads, hOthers, hNone⟩ := hStart.blocks hGrade hFair hNames hNodup nofun
  refine ⟨_, others, ?_, hReads, hOthers, hNone⟩
  have hTotal : "Total".toList <+: "Total points: ".toList ++ decimal points ++ "/".toList ++
      decimal maxPoints := by simp
  have hNotScore : ¬ "Score".toList <+: "Total points: ".toList ++ decimal points ++ "/".toList ++
      decimal maxPoints := by simp
  have hHeader : readLine ⟨false, 0, ∅, ∅, ∅, ∅, some 0, some 0⟩
      "Score\tRating\tErrors\tFunction".toList = ⟨true, 0, ∅, ∅, ∅, ∅, some 0, some 0⟩ := rfl
  rw [readCorrectness, printed, lines_unlines hLines]
  simp only [List.flatMap_append, List.flatMap_singleton, List.flatMap_assoc, List.foldl_append]
  rw [Line.texts, Line.texts, List.foldl_cons, List.foldl_nil, List.foldl_cons, List.foldl_nil,
    readLine, if_neg hNotScore, if_pos hTotal, hHeader]

/-- The functions stand in the sorted list in their order. Keys that are no functions may stand
between them. -/
theorem Reads.sortedNames (h : Reads o b vs others) (hNodup : (vs.map (·.tested.name)).Nodup)
    {keys : List Chars} (hKeys : keys.Perm b.puzzleNumber.keys) :
    (vs.map (·.tested.name)).Sublist (b.sortedNames keys) ∧
      (others = [] → b.sortedNames keys = vs.map (·.tested.name)) := by
  let names := vs.map (·.tested.name)
  have hTotal : Std.Total fun a a' => b.number a ≤ b.number a' := ⟨fun a a' => Nat.le_total _ _⟩
  have hTrans : IsTrans Chars fun a a' => b.number a ≤ b.number a' := ⟨fun _ _ _ => Nat.le_trans⟩
  have hSorted : (b.sortedNames keys).Pairwise fun a a' => b.number a ≤ b.number a' :=
    List.pairwise_insertionSort _ keys
  have hPerm : (b.sortedNames keys).Perm keys := List.perm_insertionSort _ keys
  have hMem : ∀ name, name ∈ b.sortedNames keys ↔ name ∈ b.puzzleNumber := by
    intro name
    rw [hPerm.mem_iff, hKeys.mem_iff, AList.mem_keys]
  have hFound : ∀ name ∈ names, name ∈ b.sortedNames keys := by
    intro name hName
    obtain ⟨v, hv, rfl⟩ := List.mem_map.mp hName
    obtain ⟨k, -, hLookup⟩ := h.numbered v hv
    rw [hMem, ← AList.lookup_isSome, hLookup]
    rfl
  have hIncreasing : names.Pairwise fun a a' => b.number a < b.number a' :=
    List.pairwise_map.mpr h.increasing
  have hInjective : ∀ a a', a ∈ names → a' ∈ names → b.number a ≤ b.number a' →
      b.number a' ≤ b.number a → a = a' := by
    intro a a' ha ha' hLe hGe
    have hOf := (List.pairwise_map.mpr hIncreasing : (names.map b.number).Pairwise (· < ·)).imp
      (fun hLt => Nat.ne_of_lt hLt)
    exact List.inj_on_of_nodup_map hOf ha ha' (Nat.le_antisymm hLe hGe)
  let kept := (b.sortedNames keys).filter (· ∈ names)
  have hKept : names = kept := by
    have hBoth : names.Perm kept := by
      rw [List.perm_ext_iff_of_nodup hNodup
        ((hPerm.nodup_iff.mpr (hKeys.nodup_iff.mpr b.puzzleNumber.keys_nodup)).filter _)]
      intro name
      rw [List.mem_filter, decide_eq_true_iff]
      exact ⟨fun hName => ⟨hFound name hName, hName⟩, And.right⟩
    refine hBoth.eq_of_pairwise ?_ (hIncreasing.imp Nat.le_of_lt) (hSorted.filter _)
    intro a a' ha ha' hLe hGe
    exact hInjective a a' ha (by simpa using (List.mem_filter.mp ha').2) hLe hGe
  refine ⟨?_, ?_⟩
  · change names.Sublist _
    rw [hKept]
    exact List.filter_sublist
  · rintro rfl
    change _ = names
    rw [hKept]
    refine (List.filter_eq_self.mpr ?_).symm
    intro name hName
    obtain hFunct | hOther := h.keys name ((hMem name).mp hName)
    · exact decide_eq_true hFunct
    · cases hOther

end Correctness

/-! ## Both runs -/

/-- What the second loop keeps of what the first one would. -/
def Correctness.performance (b : Correctness) : Performance :=
  ⟨b.inpuzzles, b.puzzleCPoints, b.totalCPoints, b.totalCRating⟩

theorem readPerformance_eq (file : Chars) :
    readPerformance file = (readCorrectness file).performance := by
  have hLine : ∀ (b : Correctness) line, b.performance.readLine line = (b.readLine line).performance := by
    intro b line
    rw [Performance.readLine, Correctness.readLine]
    by_cases hScore : "Score".toList <+: line
    · rw [if_pos hScore, if_pos hScore]
      rfl
    · by_cases hTotal : "Total".toList <+: line
      · rw [if_neg hScore, if_pos hTotal, if_neg hScore, if_pos hTotal]
        rfl
      · rw [if_neg hScore, if_neg hTotal, if_neg hScore, if_neg hTotal]
        change (if b.inpuzzles = true then _ else _) = _
        split <;> rfl
  have hLoop : ∀ (ls : List Chars) (b : Correctness), ls.foldl Performance.readLine b.performance =
      (ls.foldl Correctness.readLine b).performance := by
    intro ls
    induction ls with
    | nil => exact fun _ => rfl
    | cons l ls ih =>
      intro b
      rw [List.foldl_cons, List.foldl_cons, hLine, ih]
  exact hLoop _ ⟨false, 0, ∅, ∅, ∅, ∅, some 0, some 0⟩

/-- The command line `btest -g`, and with a rating `btest -g -r`. -/
def graded (limit : Int) (rating : Nat) : Options :=
  ⟨true, limit, none, fun _ => false, fun _ => 0, rating⟩

theorem names_tested {vs : List Verdict} {ts : List TestRec} (h : vs.map Verdict.tested = ts) :
    vs.map (·.tested.name) = ts.map (·.name) := by
  rw [← h, List.map_map]
  rfl

section BothRuns

variable {limit : Int} {w : Surroundings} {ts : List TestRec} {errors : Nat} {out : List Line}

theorem read_graded {rating : Nat} (h : (runTests (graded limit rating) w ts).run [] = .ok (errors, out))
    (hNames : ∀ t ∈ ts, FunctionName t.name) (hNodup : (ts.map (·.name)).Nodup) :
    ∃ (vs : List Verdict) (b : Correctness) (others : List Chars), vs.map Verdict.tested = ts ∧
      (∀ v ∈ vs, v.Given (graded limit rating) w) ∧
      errors = (vs.map Verdict.errors).sum ∧ readCorrectness (printed out) = { b with inpuzzles := false } ∧
      b.Reads (graded limit rating) vs others ∧
      ((∀ i, w.timedOut i = false) → others = []) := by
  obtain ⟨vs, hTested, hVerdicts, hErrors, rfl⟩ := runTests_returns h
  have hAll : ts.filter (fun t => (graded limit rating).selects t.name) = ts :=
    List.filter_eq_self.mpr fun _ _ => rfl
  rw [hAll] at hTested
  have hVerdictNames : ∀ v ∈ vs, FunctionName v.tested.name :=
    fun v hv => hNames v.tested (hTested ▸ List.mem_map_of_mem hv)
  have hVerdictNodup : (vs.map (·.tested.name)).Nodup := names_tested hTested ▸ hNodup
  obtain ⟨b, others, hRead, hReads, -, hNone⟩ := Correctness.readCorrectness_printed rfl
    (fun v hv => (hVerdicts v hv).2) hVerdictNames hVerdictNodup
    (vs.map (Verdict.tpoints (graded limit rating))).sum
    (vs.map fun v => (graded limit rating).ratingOf v.tested).sum
  refine ⟨vs, b, others, hTested, fun v hv => (hVerdicts v hv).1, hErrors, hRead, hReads, ?_⟩
  intro hTime
  refine hNone fun v hv => ?_
  obtain hReport | ⟨-, -, i, hAlarm⟩ := (hVerdicts v hv).2.grading rfl
  · exact hReport
  · rw [hTime i] at hAlarm
    cases hAlarm

theorem Verdict.tpoints_graded (rating : Nat) (v : Verdict) : v.tpoints (graded limit rating) =
    if v.errors = 0 then (if rating ≠ 0 then rating else v.tested.rating) else 0 := rfl

section MapEntries

variable {b b' : Correctness} {vs vs' : List Verdict} {others others' : List Chars} {limit' : Int}

theorem map_entries {γ : Type} (f : Chars → Chars → Chars → Chars → Chars → γ)
    (h : b.Reads (graded limit 0) vs others) (h' : b'.Reads (graded limit' 2) vs' others')
    (hSame : vs'.map (·.tested.name) = vs.map (·.tested.name)) :
    (vs.map (·.tested.name)).map (fun name => f name (entry b.puzzleCPoints name)
        (entry b.puzzleCRating name) (entry b.puzzleCErrors name) (entry b'.puzzleCPoints name)) =
      List.zipWith (fun v v' => f v.tested.name (decimal (v.tpoints (graded limit 0)))
        (decimal v.tested.rating) (decimal v.errors) (decimal (v'.tpoints (graded limit' 2)))) vs vs' := by
  have hEntries := h.entries
  have hEntries' := h'.entries
  clear h h'
  induction vs generalizing vs' with
  | nil => rfl
  | cons v vs ih =>
    cases vs' with
    | nil => cases hSame
    | cons v' vs' =>
      obtain ⟨hName, hRest⟩ := List.cons.inj hSame
      obtain ⟨⟨hPoints, hRating, hErrors⟩, hTail⟩ := List.forall_mem_cons.mp hEntries
      obtain ⟨⟨hPerf, -⟩, hTail'⟩ := List.forall_mem_cons.mp hEntries'
      have hHere : v'.tested.name = v.tested.name := hName
      rw [hHere] at hPerf
      rw [List.map_cons, List.map_cons, List.zipWith_cons_cons, ih hRest hTail hTail', entry, entry, entry,
        entry, hPoints, hRating, hErrors, hPerf]
      rfl

/-- What the string for the server says about a function. -/
def testedPart (puzzlePOps : Hash) (v v' : Verdict) : Chars :=
  " |".toList ++ [':'].intercalate [v.tested.name, decimal (v.tpoints (graded 0 0)),
    decimal v.tested.rating, decimal (v'.tpoints (graded 0 2)), entry puzzlePOps v.tested.name]

theorem autoresult_of_reads (h : b.Reads (graded limit 0) vs others)
    (h' : b'.Reads (graded limit' 2) vs' others')
    (hSame : vs'.map (·.tested.name) = vs.map (·.tested.name)) (puzzlePOps : Hash) (tops : Int)
    {keys : List Chars} (hNames : b.sortedNames keys = vs.map (·.tested.name)) :
    autoresult b b'.performance puzzlePOps tops keys =
      some (['|'].intercalate [decimal ((vs.map (Verdict.tpoints (graded limit 0))).sum +
          (vs'.map (Verdict.tpoints (graded limit' 2))).sum : Nat),
        decimal (vs.map (Verdict.tpoints (graded limit 0))).sum,
        decimal (vs'.map (Verdict.tpoints (graded limit' 2))).sum, decimal tops] ++
        (List.zipWith (testedPart puzzlePOps) vs vs').flatten) := by
  have hParts := map_entries (fun name points rating _ perf => " |".toList ++ [':'].intercalate
    [name, points, rating, perf, entry puzzlePOps name]) h h' hSame
  have hTotal : b'.performance.totalPPoints = b'.totalCPoints := rfl
  rw [autoresult, h.points, hTotal, h'.points, hNames, List.flatMap_def, Nat.cast_add]
  exact congrArg (fun parts => some (_ ++ List.flatten parts)) hParts

end MapEntries

theorem performance_points (vs : List Verdict) : (vs.map (Verdict.tpoints (graded limit 2))).sum =
    2 * vs.countP (·.errors = 0) := by
  induction vs with
  | nil => rfl
  | cons v vs ih =>
    rw [List.map_cons, List.sum_cons, ih, List.countP_cons, Verdict.tpoints_graded]
    by_cases hPass : v.errors = 0
    · simp [hPass]
      omega
    · simp [hPass]

theorem correctness_points (vs : List Verdict) : (vs.map (Verdict.tpoints (graded limit 0))).sum =
    ((vs.filter (·.errors = 0)).map (·.tested.rating)).sum := by
  induction vs with
  | nil => rfl
  | cons v vs ih =>
    rw [List.map_cons, List.sum_cons, ih, Verdict.tpoints_graded]
    by_cases hPass : v.errors = 0
    · simp [hPass]
    · simp [hPass]

end BothRuns

section Three

end Three

end Cs33.Datalab
