import Mathlib.Data.List.TakeWhile

/-! # Lines, words and numerals in ASCII text

A text is a list of characters. A line reader drops the newline that ends a
line, and what follows the last newline is a line of its own unless it is
empty. Words are the maximal runs of characters that are not blank. A numeral
scanner skips blanks, takes an optional sign and then as many digits as there
are, and leaves the rest.
-/

namespace Text

abbrev Chars := List Char

/-- `isspace` in the C locale. -/
def isSpace (c : Char) : Bool := c.toNat == 32 || (9 ≤ c.toNat && c.toNat ≤ 13)

def skipSpace (s : Chars) : Chars := s.dropWhile isSpace

/-- The first word, and the text after it. -/
def scanWord (s : Chars) : Option (Chars × Chars) :=
  match skipSpace s with
  | [] => none
  | c :: s => some (c :: s.takeWhile (!isSpace ·), s.dropWhile (!isSpace ·))

/-- An optional sign: whether it is a minus. -/
def scanSign : Chars → Bool × Chars
  | '-' :: s => (true, s)
  | '+' :: s => (false, s)
  | s => (false, s)

/-- A decimal numeral with an optional sign, and the text after it. A sign with no digit after it
is consumed. -/
def scanDecimal (s : Chars) : Option (Bool × Nat) × Chars :=
  let (neg, s) := scanSign (skipSpace s)
  let ds := s.takeWhile Char.isDigit
  (if ds = [] then none else some (neg, Nat.ofDigitChars 10 ds 0), s.dropWhile Char.isDigit)

/-- The lines of a text, without their newlines. -/
def lines (s : Chars) : List Chars :=
  let parts := s.splitOn '\n'
  if parts.getLast? = some [] then parts.dropLast else parts

/-- Every line with a newline after it. -/
def unlines (ls : List Chars) : Chars := ls.flatMap (· ++ ['\n'])

def words (s : Chars) : List Chars := (s.splitOnP isSpace).filter (· ≠ [])

theorem length_skipSpace_le (s : Chars) : (skipSpace s).length ≤ s.length :=
  (List.dropWhile_suffix _).length_le

theorem length_scanSign_le (s : Chars) : (scanSign s).2.length ≤ s.length := by
  unfold scanSign
  split
  · exact Nat.le_succ _
  · exact Nat.le_succ _
  · exact Nat.le_refl _

theorem length_scanDecimal_le (s : Chars) : (scanDecimal s).2.length ≤ s.length :=
  calc (scanDecimal s).2.length ≤ (scanSign (skipSpace s)).2.length := (List.dropWhile_suffix _).length_le
    _ ≤ (skipSpace s).length := length_scanSign_le _
    _ ≤ s.length := length_skipSpace_le s

theorem length_scanWord_lt {s word rest : Chars} (h : scanWord s = some (word, rest)) :
    rest.length < s.length := by
  have hSkip := length_skipSpace_le s
  unfold scanWord at h
  split at h
  · cases h
  · rename_i c s' hs
    cases h
    have hDrop := (List.dropWhile_suffix (l := s') (!isSpace ·)).length_le
    rw [hs, List.length_cons] at hSkip
    omega

/-! ## Lines and words -/

/-- A text is split at the first separator in one way. -/
theorem append_cons_inj {x x' z z' : Chars} {a : Char} (hx : a ∉ x) (hx' : a ∉ x')
    (h : x ++ a :: z = x' ++ a :: z') : x = x' ∧ z = z' := by
  obtain ⟨mid, rfl, hMid⟩ | ⟨mid, rfl, hMid⟩ := List.append_eq_append_iff.mp h
  · cases mid with
    | nil => exact ⟨(List.append_nil x).symm, (List.cons.inj hMid).2⟩
    | cons b mid =>
      obtain ⟨rfl, -⟩ := List.cons.inj hMid
      exact absurd (List.mem_append_right x List.mem_cons_self) hx'
  · cases mid with
    | nil => exact ⟨List.append_nil x', (List.cons.inj hMid).2.symm⟩
    | cons b mid =>
      obtain ⟨rfl, -⟩ := List.cons.inj hMid
      exact absurd (List.mem_append_right x' List.mem_cons_self) hx

/-- No part of a split has a character that was split on. -/
theorem not_of_mem_splitOnP {p : Char → Bool} {s part : Chars} (h : part ∈ s.splitOnP p) :
    ∀ c ∈ part, p c = false := by
  induction s generalizing part with
  | nil =>
    rw [List.splitOnP_nil, List.mem_singleton] at h
    simp [h]
  | cons d s ih =>
    rw [List.splitOnP_cons_eq_if_modifyHead] at h
    obtain ⟨first, rest, hParts⟩ := List.exists_cons_of_ne_nil (List.splitOnP_ne_nil p s)
    split at h
    · obtain rfl | h := List.mem_cons.mp h
      · simp
      · exact ih h
    · rename_i hd
      rw [hParts, List.modifyHead_cons] at h
      obtain rfl | h := List.mem_cons.mp h
      · intro c hc
        obtain rfl | hc := List.mem_cons.mp hc
        · exact Bool.eq_false_iff.mpr hd
        · exact ih (hParts ▸ List.mem_cons_self) c hc
      · exact ih (hParts ▸ List.mem_cons_of_mem first h)

theorem newline_notMem_lines {s l : Chars} (h : l ∈ lines s) : '\n' ∉ l := by
  have hPart : l ∈ s.splitOn '\n' := by
    unfold lines at h
    dsimp only at h
    split at h
    · exact List.dropLast_subset _ h
    · exact h
  rw [List.splitOn_eq_splitOnP] at hPart
  intro hMem
  simpa using not_of_mem_splitOnP hPart '\n' hMem

theorem unlines_append (ls ls' : List Chars) : unlines (ls ++ ls') = unlines ls ++ unlines ls' :=
  List.flatMap_append

theorem splitOn_unlines {ls : List Chars} (h : ∀ l ∈ ls, '\n' ∉ l) :
    (unlines ls).splitOn '\n' = ls ++ [[]] := by
  induction ls with
  | nil => rfl
  | cons l ls ih =>
    have hRest := ih fun l' hl' => h l' (List.mem_cons_of_mem l hl')
    have hCons : unlines (l :: ls) = l ++ '\n' :: unlines ls := by simp [unlines]
    rw [hCons, List.splitOn_append_cons_self_of_not_mem (h l List.mem_cons_self), hRest]
    rfl

theorem lines_unlines {ls : List Chars} (h : ∀ l ∈ ls, '\n' ∉ l) : lines (unlines ls) = ls := by
  simp [lines, splitOn_unlines h]

/-- A last line without a newline is read as well. -/
theorem lines_unlines_append {ls : List Chars} {last : Chars} (h : ∀ l ∈ ls, '\n' ∉ l)
    (hLast : '\n' ∉ last) (hNonempty : last ≠ []) : lines (unlines ls ++ last) = ls ++ [last] := by
  have hParts : (unlines ls ++ last).splitOn '\n' = ls ++ [last] := by
    induction ls with
    | nil => exact List.splitOn_eq_singleton hLast
    | cons l ls ih =>
      have hRest := ih fun l' hl' => h l' (List.mem_cons_of_mem l hl')
      have hCons : unlines (l :: ls) ++ last = l ++ '\n' :: (unlines ls ++ last) := by simp [unlines]
      rw [hCons, List.splitOn_append_cons_self_of_not_mem (h l List.mem_cons_self), hRest]
      rfl
  have hOther : (ls ++ [last]).getLast? ≠ some [] := by simpa using hNonempty
  rw [lines, hParts]
  exact if_neg hOther

theorem mem_words {s word : Chars} (h : word ∈ words s) :
    word ≠ [] ∧ ∀ c ∈ word, isSpace c = false := by
  obtain ⟨hPart, hNonempty⟩ := List.mem_filter.mp h
  exact ⟨by simpa using hNonempty, not_of_mem_splitOnP hPart⟩

theorem words_word {a : Chars} (ha : a ≠ []) (haWord : ∀ c ∈ a, isSpace c = false) : words a = [a] := by
  rw [words, List.splitOnP_eq_singleton haWord]
  simp [ha]

theorem words_append {a : Chars} (ha : a ≠ []) (haWord : ∀ c ∈ a, isSpace c = false) (s : Chars) :
    words (a ++ ' ' :: s) = a :: words s := by
  rw [words, List.splitOnP_append_cons_of_forall_mem haWord ' ' rfl s]
  simp [words, ha]

/-! ## Scanning word by word -/

section Scan

variable {s word rest : Chars} {ws : List Chars} {c : Char}

theorem words_append_cons (hc : isSpace c = true) (s rest : Chars) :
    words (s ++ c :: rest) = words s ++ words rest := by
  rw [words, List.splitOnP_append_cons s rest hc, List.filter_append]
  rfl

theorem words_cons (hc : isSpace c = true) (s : Chars) : words (c :: s) = words s :=
  words_append_cons hc [] s

theorem words_intercalate (parts : List Chars) : words (['\n'].intercalate parts) = parts.flatMap words := by
  induction parts with
  | nil => rfl
  | cons part parts ih =>
    cases parts with
    | nil => simp
    | cons part' parts =>
      rw [List.intercalate_cons_cons, List.append_assoc, List.singleton_append, words_append_cons rfl, ih]
      rfl

theorem flatMap_words_lines (s : Chars) : (lines s).flatMap words = words s := by
  have hParts : (s.splitOn '\n').flatMap words = words s := by
    rw [← words_intercalate, List.intercalate_splitOn]
  unfold lines
  dsimp only
  split
  · rename_i hLast
    obtain ⟨parts, hSplit⟩ := List.getLast?_eq_some_iff.mp hLast
    rw [hSplit, List.flatMap_append] at hParts
    rw [hSplit, List.dropLast_concat, ← hParts]
    exact (List.append_nil _).symm
  · exact hParts

theorem words_skipSpace (s : Chars) : words (skipSpace s) = words s := by
  induction s with
  | nil => rfl
  | cons c s ih =>
    cases hc : isSpace c with
    | true => rw [words_cons hc, ← ih, skipSpace, List.dropWhile_cons_of_pos hc, skipSpace]
    | false => rw [skipSpace, List.dropWhile_cons_of_neg (by simp [hc])]

/-- No word goes on in the text. -/
def WordEnd (s : Chars) : Prop := ∀ c ∈ s.head?, isSpace c = true

theorem words_append_end (hNonempty : word ≠ []) (hWord : ∀ c ∈ word, isSpace c = false)
    (hEnd : WordEnd rest) : words (word ++ rest) = word :: words rest := by
  cases rest with
  | nil =>
    rw [List.append_nil, words_word hNonempty hWord]
    rfl
  | cons c rest =>
    have hc : isSpace c = true := hEnd c rfl
    rw [words_append_cons hc, words_word hNonempty hWord, words_cons hc, List.singleton_append]

theorem wordEnd_dropWhile (s : Chars) : WordEnd (s.dropWhile (!isSpace ·)) := by
  intro c hc
  have hHead := List.head?_dropWhile_not (!isSpace ·) s
  rw [Option.mem_def.mp hc] at hHead
  simpa using hHead

/-- A scan finds the first word, and the rest has the others. -/
theorem scanWord_cases (s : Chars) :
    (scanWord s = none ∧ words s = []) ∨
    ∃ word rest, scanWord s = some (word, rest) ∧ skipSpace s = word ++ rest ∧ WordEnd rest ∧
      words s = word :: words rest := by
  rw [← words_skipSpace]
  cases hSkip : skipSpace s with
  | nil => exact .inl ⟨by rw [scanWord, hSkip], rfl⟩
  | cons c t =>
    have hc : isSpace c = false := by
      have hHead := List.head?_dropWhile_not isSpace s
      rw [show s.dropWhile isSpace = c :: t from hSkip] at hHead
      exact hHead
    have hSplit : c :: t = (c :: t.takeWhile (!isSpace ·)) ++ t.dropWhile (!isSpace ·) := by
      rw [List.cons_append, List.takeWhile_append_dropWhile]
    have hWord : ∀ d ∈ c :: t.takeWhile (!isSpace ·), isSpace d = false := by
      intro d hd
      obtain rfl | hd := List.mem_cons.mp hd
      · exact hc
      · simpa using List.mem_takeWhile_imp hd
    have hEnd := wordEnd_dropWhile t
    refine .inr ⟨c :: t.takeWhile (!isSpace ·), t.dropWhile (!isSpace ·), ?_, hSplit, hEnd, ?_⟩
    · rw [scanWord, hSkip]
    · rw [hSplit, words_append_end (List.cons_ne_nil _ _) hWord hEnd]

theorem scanWord_of_words (h : words s = word :: ws) :
    ∃ rest, scanWord s = some (word, rest) ∧ skipSpace s = word ++ rest ∧ WordEnd rest ∧
      words rest = ws := by
  obtain ⟨-, hNone⟩ | ⟨word', rest, hScan, hSkip, hEnd, hWords⟩ := scanWord_cases s
  · rw [hNone] at h
    cases h
  · rw [hWords] at h
    obtain ⟨rfl, rfl⟩ := List.cons.inj h
    exact ⟨rest, hScan, hSkip, hEnd, rfl⟩

theorem scanWord_of_blank (h : words s = []) : scanWord s = none := by
  obtain ⟨hNone, -⟩ | ⟨word, rest, -, -, -, hWords⟩ := scanWord_cases s
  · exact hNone
  · rw [hWords] at h
    cases h

theorem isSpace_of_isDigit {c : Char} (h : c.isDigit = true) : isSpace c = false := by
  simp only [Char.isDigit, Bool.and_eq_true, decide_eq_true_eq] at h
  have hLow : 48 ≤ c.toNat := h.1
  simp [isSpace]
  omega

theorem scanDecimal_of_words (h : words s = word :: ws) (hDigits : ∀ c ∈ word, c.isDigit = true) :
    ∃ rest, scanDecimal s = (some (false, Nat.ofDigitChars 10 word 0), rest) ∧ WordEnd rest ∧
      words rest = ws := by
  have hNonempty : word ≠ [] := (mem_words (h ▸ List.mem_cons_self : word ∈ words s)).1
  obtain ⟨rest, -, hSkip, hEnd, hRest⟩ := scanWord_of_words h
  have hSign : scanSign (word ++ rest) = (false, word ++ rest) := by
    obtain ⟨c, cs, rfl⟩ := List.exists_cons_of_ne_nil hNonempty
    have hc := hDigits c List.mem_cons_self
    rw [List.cons_append]
    unfold scanSign
    split
    · cases ‹c :: (cs ++ rest) = _›
      exact absurd hc (by decide)
    · cases ‹c :: (cs ++ rest) = _›
      exact absurd hc (by decide)
    · rfl
  have hStop : ∀ c ∈ rest.head?, Char.isDigit c = false := by
    intro c hc
    by_contra hDigit
    have hSpace := hEnd c hc
    rw [isSpace_of_isDigit (by simpa using hDigit)] at hSpace
    cases hSpace
  have hTake : (word ++ rest).takeWhile Char.isDigit = word := by
    rw [List.takeWhile_append_of_pos hDigits]
    cases rest with
    | nil => simp
    | cons c rest => simp [hStop c rfl]
  have hDrop : (word ++ rest).dropWhile Char.isDigit = rest := by
    rw [List.dropWhile_append_of_pos hDigits]
    cases rest with
    | nil => rfl
    | cons c rest => simp [hStop c rfl]
  refine ⟨rest, ?_, hEnd, hRest⟩
  rw [scanDecimal, hSkip, hSign]
  simp only [hTake, hDrop, if_neg hNonempty]

end Scan

end Text
