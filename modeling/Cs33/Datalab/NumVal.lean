import Cs33.Lib.Numeral
import Cs33.Datalab.Bits

/-! # The three copies of `get_num_val`

btest.c, fshow.c and ishow.c each have one. The scanning loop is the same in
all of them; they differ in what they do with a floating-point string and in
the test in front of the range test. The result is the value returned, with
what `*valp` is afterwards; the callers never pass a null pointer.
-/

namespace Cs33.Datalab

open Text

/-! ## The program -/

/-- `strtoll` in base 0: the value, cut off at the ends of `long long`, and the text at `endp`. -/
def strtoll (s : Chars) : Int × Chars :=
  match scanConstant s with
  | none => (0, s)
  | some (n, rest) => (max (-2 ^ 63) (min (2 ^ 63 - 1) n), rest)

/-- `ishex` and `isfloat` after the scanning loop, from the values before it. -/
def scanKind : Bool → Bool → Chars → Bool × Bool
  | ishex, isfloat, [] => (ishex, isfloat)
  | ishex, isfloat, c :: s =>
    if c = 'x' ∨ c = 'X' then scanKind true isfloat s
    else if c = 'e' ∨ c = 'E' then scanKind ishex (if !ishex then true else isfloat) s
    else if c = '.' then scanKind ishex true s
    else scanKind ishex isfloat s

def isFloat (sval : Chars) : Bool := (scanKind false false sval).2

/-- The integer branch, behind the given test. -/
def intVal (test : Bool) (sval : Chars) (val : Word) : Int × Word :=
  let llval := (strtoll sval).1
  let upperbits := llval >>> (31 : Nat)
  if test && (upperbits == 0 || upperbits == -1 || upperbits == 1) then (1, BitVec.ofInt 32 llval)
  else (0, val)

/-- The floating-point branch of btest.c and fshow.c; `strtof` gives the bits of the float and the
text at `endp`. -/
def floatVal (strtof : Chars → Word × Chars) (sval : Chars) (val : Word) : Int × Word :=
  let (fval, endp) := strtof sval
  if endp = [] then (1, fval) else (0, val)

def Btest.getNumVal (strtof : Chars → Word × Chars) (sval : Chars) (val : Word) : Int × Word :=
  if isFloat sval then floatVal strtof sval val else intVal (val == 0) sval val

def Fshow.getNumVal (strtof : Chars → Word × Chars) (sval : Chars) (val : Word) : Int × Word :=
  if isFloat sval then floatVal strtof sval val else intVal true sval val

def Ishow.getNumVal (sval : Chars) (val : Word) : Int × Word :=
  if isFloat sval then (0, val) else intVal true sval val

/-! ## What they are for -/

def InRange32 (n : Int) : Prop := -2 ^ 31 ≤ n ∧ n ≤ 2 ^ 32 - 1

/-- The answer for the given string: its value when all of it is one constant in range. -/
def Exact (sval : Chars) (val : Word) (result : Int × Word) : Prop :=
  (∃ n, Constant sval n ∧ InRange32 n ∧ result = (1, BitVec.ofInt 32 n)) ∨
    ((¬ ∃ n, Constant sval n ∧ InRange32 n) ∧ result = (0, val))

section Accept

variable {sval rest : Chars} {val : Word} {n : Int}

/-- The shift leaves the sign and the bits from the 32nd on. -/
theorem upperbits_iff (n : Int) :
    (n >>> (31 : Nat) == 0 || n >>> (31 : Nat) == -1 || n >>> (31 : Nat) == 1) = true ↔ InRange32 n := by
  have hShift : n >>> (31 : Nat) = n / 2 ^ 31 := Int.shiftRight_eq_div_pow n 31
  simp only [hShift, Bool.or_eq_true, beq_iff_eq, InRange32]
  omega

theorem intVal_of_range (h : InRange32 (strtoll sval).1) :
    intVal true sval val = (1, BitVec.ofInt 32 (strtoll sval).1) := by
  rw [intVal, (upperbits_iff _).mpr h]
  rfl

theorem intVal_of_not_range (h : ¬ InRange32 (strtoll sval).1) (test : Bool) :
    intVal test sval val = (0, val) := by
  rw [intVal, Bool.eq_false_iff.mpr fun hTrue => h ((upperbits_iff _).mp hTrue), Bool.and_false]
  rfl

/-- The test of btest.c reads the old value, so a second number is never accepted. -/
theorem intVal_occupied (h : val ≠ 0) : intVal (val == 0) sval val = (0, val) := by
  rw [beq_false_of_ne h]
  rfl

theorem inRange32_cut (n : Int) :
    InRange32 (max (-2 ^ 63) (min (2 ^ 63 - 1) n)) ↔ InRange32 n := by
  unfold InRange32
  omega

theorem cut_eq (h : InRange32 n) : max (-2 ^ 63) (min (2 ^ 63 - 1) n) = n := by
  unfold InRange32 at h
  omega

/-- A string that is one constant is read to its end. -/
theorem rest_of_constant (hScan : scanConstant sval = some (n, rest)) {n' : Int}
    (h : Constant sval n') : n' = n ∧ rest = [] := by
  obtain ⟨p, hText, hLongest⟩ := scanConstant_longest hScan
  have hLength := hLongest.longest sval n' List.prefix_rfl h
  rw [hText, List.length_append] at hLength
  have hRest : rest = [] := List.eq_nil_of_length_eq_zero (by omega)
  rw [hRest, List.append_nil] at hText
  rw [← hText] at hLongest
  exact ⟨h.unique hLongest.constant, hRest⟩

theorem strtoll_of_range (hScan : scanConstant sval = some (n, rest)) (h : InRange32 n) :
    (strtoll sval).1 = n := by
  rw [strtoll, hScan]
  exact cut_eq h

theorem strtoll_range_iff (hScan : scanConstant sval = some (n, rest)) :
    InRange32 (strtoll sval).1 ↔ InRange32 n := by
  rw [strtoll, hScan]
  exact inRange32_cut n

theorem exact_accept_iff {w : Word} :
    Exact sval val (1, w) ↔ ∃ n, Constant sval n ∧ InRange32 n ∧ w = BitVec.ofInt 32 n := by
  simp [Exact]

theorem exact_reject_iff :
    Exact sval val (0, val) ↔ ¬ ∃ n, Constant sval n ∧ InRange32 n := by
  simp [Exact]

/-- Nothing to convert counts as 0, so it is accepted. -/
theorem not_exact_of_none (hScan : scanConstant sval = none) :
    ¬ Exact sval val (intVal true sval val) := by
  have hRange : InRange32 (strtoll sval).1 := by
    rw [strtoll, hScan]
    change InRange32 0
    exact ⟨by decide, by decide⟩
  rw [intVal_of_range hRange, exact_accept_iff]
  rintro ⟨n, hn, -⟩
  exact not_constant_of_none hScan List.prefix_rfl hn

/-- What starts with a constant in range is accepted, whatever follows. -/
theorem exact_iff_of_range (val : Word) (hScan : scanConstant sval = some (n, rest)) (hn : InRange32 n) :
    Exact sval val (intVal true sval val) ↔ ∃ n', Constant sval n' := by
  have hValue := strtoll_of_range hScan hn
  rw [intVal_of_range (hValue.symm ▸ hn), exact_accept_iff, hValue]
  constructor
  · rintro ⟨n', hn', -⟩
    exact ⟨n', hn'⟩
  · rintro ⟨n', hn'⟩
    obtain ⟨rfl, -⟩ := rest_of_constant hScan hn'
    exact ⟨n', hn', hn, rfl⟩

theorem exact_of_not_range (hScan : scanConstant sval = some (n, rest)) (hn : ¬ InRange32 n)
    (val : Word) (test : Bool) : Exact sval val (intVal test sval val) := by
  rw [intVal_of_not_range fun h => hn ((strtoll_range_iff hScan).mp h), exact_reject_iff]
  rintro ⟨n', hn', hRange⟩
  rw [(rest_of_constant hScan hn').1] at hRange
  exact hn hRange

end Accept

/-- The three copies are right exactly if the longest constant at the start of the string is out of
range, or `*valp` was 0 and all of the string is one constant. -/
theorem getNumVal_exact_iff (strtof : Chars → Word × Chars) (sval : Chars) (val : Word)
    (hInt : isFloat sval = false) :
    (Exact sval val (Btest.getNumVal strtof sval val) ∧ Exact sval val (Fshow.getNumVal strtof sval val) ∧
        Exact sval val (Ishow.getNumVal sval val)) ↔
      (∃ p n, LongestConstant sval p n ∧ ¬ InRange32 n) ∨ (val = 0 ∧ ∃ n, Constant sval n) := by
  have hBtest : Btest.getNumVal strtof sval val = intVal (val == 0) sval val := by
    rw [Btest.getNumVal, hInt, if_neg Bool.false_ne_true]
  have hFshow : Fshow.getNumVal strtof sval val = intVal true sval val := by
    rw [Fshow.getNumVal, hInt, if_neg Bool.false_ne_true]
  have hIshow : Ishow.getNumVal sval val = intVal true sval val := by
    rw [Ishow.getNumVal, hInt, if_neg Bool.false_ne_true]
  rw [hBtest, hFshow, hIshow]
  cases hScan : scanConstant sval with
  | none =>
    refine iff_of_false (fun h => not_exact_of_none hScan h.2.1) ?_
    rintro (⟨p, n, hLongest, -⟩ | ⟨-, n, hn⟩)
    · exact not_constant_of_none hScan hLongest.starts hLongest.constant
    · exact not_constant_of_none hScan List.prefix_rfl hn
  | some found =>
    obtain ⟨n, rest⟩ := found
    obtain ⟨p, -, hLongest⟩ := scanConstant_longest hScan
    by_cases hn : InRange32 n
    · have hWhole := exact_iff_of_range val hScan hn
      constructor
      · rintro ⟨hFirst, hSecond, -⟩
        obtain ⟨n', hn'⟩ := hWhole.mp hSecond
        refine .inr ⟨?_, n', hn'⟩
        by_contra hVal
        rw [intVal_occupied hVal, exact_reject_iff] at hFirst
        obtain ⟨rfl, -⟩ := rest_of_constant hScan hn'
        exact hFirst ⟨n', hn', hn⟩
      · rintro (⟨p', n', hLongest', hn'⟩ | ⟨rfl, hConstant⟩)
        · rw [hLongest'.unique hLongest] at hn'
          exact absurd hn hn'
        · have hExact := hWhole.mpr hConstant
          exact ⟨hExact, hExact, hExact⟩
    · have hExact := exact_of_not_range hScan hn val
      exact iff_of_true ⟨hExact _, hExact _, hExact _⟩ (.inl ⟨p, n, hLongest, hn⟩)

/-- Digits with something else after them are a number to all three copies. -/
theorem trailing_text_accepted :
    isFloat ['1', '2', 'a'] = false ∧
      Btest.getNumVal (fun s => (0, s)) ['1', '2', 'a'] 0 = (1, 12) ∧
      Fshow.getNumVal (fun s => (0, s)) ['1', '2', 'a'] 0 = (1, 12) ∧
      Ishow.getNumVal ['1', '2', 'a'] 0 = (1, 12) ∧ ¬ Exact ['1', '2', 'a'] 0 (1, 12) := by
  refine ⟨by decide, by decide, by decide, by decide, fun h => ?_⟩
  obtain ⟨n, hn, -⟩ := exact_accept_iff.mp h
  have hScan : scanConstant ['1', '2', 'a'] = some (12, ['a']) := by decide
  exact absurd (rest_of_constant hScan hn).2 (by decide)

theorem getNumVal_exact_iff_twelve :
    (Exact ['1', '2'] 0 (Btest.getNumVal (fun s => (0, s)) ['1', '2'] 0) ∧
        Exact ['1', '2'] 0 (Fshow.getNumVal (fun s => (0, s)) ['1', '2'] 0) ∧
        Exact ['1', '2'] 0 (Ishow.getNumVal ['1', '2'] 0)) ↔
      (∃ p n, LongestConstant ['1', '2'] p n ∧ ¬ InRange32 n) ∨
        ((0 : Word) = 0 ∧ ∃ n, Constant ['1', '2'] n) :=
  getNumVal_exact_iff (fun s => (0, s)) ['1', '2'] 0 (by decide)

end Cs33.Datalab
