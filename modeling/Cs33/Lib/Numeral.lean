import Mathlib.Data.List.TakeWhile
import Cs33.Lib.Text

/-! # Integer constants and their scanner

A constant is what `strtoll` reads in base 0: blanks, a sign, and digits whose
base their beginning decides. The scanner takes the longest constant at the
start of a text.
-/

namespace Text

/-- What a character counts as a digit; 36 if it is none. -/
def digitValue (c : Char) : Nat :=
  if '0'.toNat ≤ c.toNat ∧ c.toNat ≤ '9'.toNat then c.toNat - '0'.toNat
  else if 'a'.toNat ≤ c.toNat ∧ c.toNat ≤ 'z'.toNat then c.toNat - 'a'.toNat + 10
  else if 'A'.toNat ≤ c.toNat ∧ c.toNat ≤ 'Z'.toNat then c.toNat - 'A'.toNat + 10
  else 36

def digitIn (base : Nat) (c : Char) : Bool := digitValue c < base

def digitsValue (base : Nat) (ds : Chars) : Nat := ds.foldl (fun n c => base * n + digitValue c) 0

/-- The digits of a constant and its value, without a sign. -/
inductive Unsigned : Chars → Nat → Prop
  | decimal {d : Char} {ds : Chars} : d ≠ '0' → (∀ c ∈ d :: ds, digitIn 10 c = true) →
      Unsigned (d :: ds) (digitsValue 10 (d :: ds))
  | octal {ds : Chars} : (∀ c ∈ ds, digitIn 8 c = true) →
      Unsigned ('0' :: ds) (digitsValue 8 ('0' :: ds))
  | hex {x d : Char} {ds : Chars} : x = 'x' ∨ x = 'X' → (∀ c ∈ d :: ds, digitIn 16 c = true) →
      Unsigned ('0' :: x :: d :: ds) (digitsValue 16 (d :: ds))

inductive Constant : Chars → Int → Prop
  | plain {blanks u : Chars} {n : Nat} : (∀ c ∈ blanks, isSpace c = true) → Unsigned u n →
      Constant (blanks ++ u) n
  | plus {blanks u : Chars} {n : Nat} : (∀ c ∈ blanks, isSpace c = true) → Unsigned u n →
      Constant (blanks ++ '+' :: u) n
  | minus {blanks u : Chars} {n : Nat} : (∀ c ∈ blanks, isSpace c = true) → Unsigned u n →
      Constant (blanks ++ '-' :: u) (-n)

/-- The longest constant that a text starts with. -/
structure LongestConstant (s p : Chars) (n : Int) : Prop where
  starts : p <+: s
  constant : Constant p n
  longest : ∀ p' n', p' <+: s → Constant p' n' → p'.length ≤ p.length

/-- The base of a numeral, and the text its digits are read from. -/
def baseOf (t : Chars) : Nat × Chars :=
  match t with
  | '0' :: x :: d :: s => if (x = 'x' ∨ x = 'X') ∧ digitIn 16 d then (16, d :: s) else (8, t)
  | '0' :: _ => (8, t)
  | _ => (10, t)

def scanUnsigned (t : Chars) : Option (Nat × Chars) :=
  let (base, u) := baseOf t
  let ds := u.takeWhile (digitIn base)
  if ds = [] then none else some (digitsValue base ds, u.dropWhile (digitIn base))

/-- The value of a constant, and the text after it. -/
def scanConstant (s : Chars) : Option (Int × Chars) :=
  let (neg, t) := scanSign (skipSpace s)
  match scanUnsigned t with
  | none => none
  | some (n, rest) => some (if neg then -n else n, rest)

/-! ## Digits -/

section Digits

variable {rest t u : Chars} {n : Nat}

theorem scanUnsigned_hex {x d : Char} {s : Chars} (hx : x = 'x' ∨ x = 'X') (hd : digitIn 16 d = true) :
    scanUnsigned ('0' :: x :: d :: s) =
      some (digitsValue 16 (d :: s.takeWhile (digitIn 16)), s.dropWhile (digitIn 16)) := by
  simp [scanUnsigned, baseOf, hx, hd]

theorem scanUnsigned_octal {s : Chars} (h : baseOf ('0' :: s) = (8, '0' :: s)) :
    scanUnsigned ('0' :: s) =
      some (digitsValue 8 ('0' :: s.takeWhile (digitIn 8)), s.dropWhile (digitIn 8)) := by
  have hZero : digitIn 8 '0' = true := by decide
  simp [scanUnsigned, h, hZero]

theorem baseOf_nonzero {d : Char} {s : Chars} (hZero : d ≠ '0') : baseOf (d :: s) = (10, d :: s) := by
  unfold baseOf
  split
  · rename_i hEq
    exact absurd (List.cons.inj hEq).1 hZero
  · rename_i hEq
    exact absurd (List.cons.inj hEq).1 hZero
  · rfl

theorem scanUnsigned_decimal {d : Char} {s : Chars} (hZero : d ≠ '0') (hd : digitIn 10 d = true) :
    scanUnsigned (d :: s) =
      some (digitsValue 10 (d :: s.takeWhile (digitIn 10)), s.dropWhile (digitIn 10)) := by
  simp [scanUnsigned, baseOf_nonzero hZero, hd]

theorem scanUnsigned_other {d : Char} {s : Chars} (hZero : d ≠ '0') (hd : digitIn 10 d = false) :
    scanUnsigned (d :: s) = none := by
  simp [scanUnsigned, baseOf_nonzero hZero, hd]

/-- A zero starts an octal constant, unless `x` and a hexadecimal digit follow. -/
theorem baseOf_zero (s : Chars) :
    baseOf ('0' :: s) = (8, '0' :: s) ∨
      ∃ x d s', s = x :: d :: s' ∧ (x = 'x' ∨ x = 'X') ∧ digitIn 16 d = true := by
  match s with
  | [] => exact .inl rfl
  | [x] => exact .inl rfl
  | x :: d :: s' =>
    by_cases hHex : (x = 'x' ∨ x = 'X') ∧ digitIn 16 d = true
    · exact .inr ⟨x, d, s', rfl, hHex⟩
    · exact .inl (if_neg hHex)

theorem digitIn_of_mem {base : Nat} {d c : Char} {s : Chars} (hd : digitIn base d = true)
    (h : c ∈ d :: s.takeWhile (digitIn base)) : digitIn base c = true := by
  obtain rfl | h := List.mem_cons.mp h
  · exact hd
  · exact List.mem_takeWhile_imp h

theorem scanUnsigned_sound (h : scanUnsigned t = some (n, rest)) :
    ∃ u, t = u ++ rest ∧ Unsigned u n := by
  cases t with
  | nil => cases h
  | cons d s =>
    by_cases hZero : d = '0'
    · subst hZero
      obtain hBase | ⟨x, d, s', rfl, hx, hd⟩ := baseOf_zero s
      · rw [scanUnsigned_octal hBase] at h
        cases h
        exact ⟨'0' :: s.takeWhile (digitIn 8), by simp, .octal fun c => List.mem_takeWhile_imp⟩
      · rw [scanUnsigned_hex hx hd] at h
        cases h
        exact ⟨'0' :: x :: d :: s'.takeWhile (digitIn 16), by simp,
          .hex hx fun c hc => digitIn_of_mem hd hc⟩
    · by_cases hd : digitIn 10 d = true
      · rw [scanUnsigned_decimal hZero hd] at h
        cases h
        exact ⟨d :: s.takeWhile (digitIn 10), by simp, .decimal hZero fun c hc => digitIn_of_mem hd hc⟩
      · rw [scanUnsigned_other hZero (Bool.eq_false_iff.mpr hd)] at h
        cases h

/-- The scanner reads at least every constant that the text starts with. -/
theorem scanUnsigned_complete (h : Unsigned u n) (r : Chars) :
    ∃ n' rest, scanUnsigned (u ++ r) = some (n', rest) ∧ rest.length ≤ r.length ∧
      (r = [] → n' = n) := by
  cases h with
  | @decimal d ds hZero hds =>
    have hd := hds d List.mem_cons_self
    have hRest : ∀ c ∈ ds, digitIn 10 c = true := fun c hc => hds c (List.mem_cons_of_mem d hc)
    rw [List.cons_append, scanUnsigned_decimal hZero hd, List.takeWhile_append_of_pos hRest,
      List.dropWhile_append_of_pos hRest]
    refine ⟨_, _, rfl, (List.dropWhile_suffix _).length_le, ?_⟩
    rintro rfl
    simp
  | @octal ds hds =>
    obtain hBase | ⟨x, d, s', hs, hx, hd⟩ := baseOf_zero (ds ++ r)
    · rw [List.cons_append, scanUnsigned_octal hBase, List.takeWhile_append_of_pos hds,
        List.dropWhile_append_of_pos hds]
      refine ⟨_, _, rfl, (List.dropWhile_suffix _).length_le, ?_⟩
      rintro rfl
      simp
    · -- the digits of an octal constant do not include an `x`
      cases ds with
      | nil =>
        rw [List.nil_append] at hs
        subst hs
        rw [List.cons_append, List.nil_append, scanUnsigned_hex hx hd]
        refine ⟨_, _, rfl, ?_, nofun⟩
        have hLength := (List.dropWhile_suffix (l := s') (digitIn 16)).length_le
        simp only [List.length_cons]
        omega
      | cons c ds =>
        obtain rfl : c = x := by simpa using (List.cons.inj hs).1
        have hOctal := hds c List.mem_cons_self
        obtain rfl | rfl := hx <;> exact absurd hOctal (by decide)
  | @hex x d ds hx hds =>
    have hd := hds d List.mem_cons_self
    have hRest : ∀ c ∈ ds, digitIn 16 c = true := fun c hc => hds c (List.mem_cons_of_mem d hc)
    rw [List.cons_append, List.cons_append, List.cons_append, scanUnsigned_hex hx hd,
      List.takeWhile_append_of_pos hRest, List.dropWhile_append_of_pos hRest]
    refine ⟨_, _, rfl, (List.dropWhile_suffix _).length_le, ?_⟩
    rintro rfl
    simp

theorem Unsigned.head (h : Unsigned u n) : ∃ d ds, u = d :: ds ∧ digitIn 10 d = true := by
  cases h with
  | @decimal d ds hZero hds => exact ⟨d, ds, rfl, hds d List.mem_cons_self⟩
  | @octal ds hds => exact ⟨'0', ds, rfl, by decide⟩
  | @hex x d ds hx hds => exact ⟨'0', x :: d :: ds, rfl, by decide⟩

end Digits

/-! ## Constants -/

section Constants

variable {s p rest blanks : Chars} {n : Int}

theorem skipSpace_blanks (h : ∀ c ∈ blanks, isSpace c = true) {d : Char} (hd : isSpace d = false)
    (s : Chars) : skipSpace (blanks ++ d :: s) = d :: s := by
  rw [skipSpace, List.dropWhile_append_of_pos h]
  simp [hd]

theorem isSpace_of_digitIn {d : Char} (h : digitIn 10 d = true) : isSpace d = false := by
  have hValue : digitValue d < 10 := of_decide_eq_true h
  have hDigit : 48 ≤ d.toNat := by
    unfold digitValue at hValue
    split at hValue
    · rename_i hRange
      exact hRange.1
    · split at hValue
      · omega
      · split at hValue <;> omega
  simp [isSpace]
  omega

theorem scanSign_digit {d : Char} (h : digitIn 10 d = true) (s : Chars) :
    scanSign (d :: s) = (false, d :: s) := by
  unfold scanSign
  split
  · rename_i hEq
    rw [(List.cons.inj hEq).1] at h
    exact absurd h (by decide)
  · rename_i hEq
    rw [(List.cons.inj hEq).1] at h
    exact absurd h (by decide)
  · rfl

theorem scanConstant_blanks {d : Char} {t u : Chars} {neg : Bool} {m : Nat} {rest : Chars}
    (hBlanks : ∀ c ∈ blanks, isSpace c = true) (hd : isSpace d = false)
    (hSign : scanSign (d :: t) = (neg, u)) (hScan : scanUnsigned u = some (m, rest)) :
    scanConstant (blanks ++ d :: t) = some (if neg then -(m : Int) else m, rest) := by
  rw [scanConstant, skipSpace_blanks hBlanks hd, hSign]
  dsimp only
  rw [hScan]

theorem scanConstant_unsigned {u : Chars} {m : Nat} (hBlanks : ∀ c ∈ blanks, isSpace c = true)
    (hu : Unsigned u m) (r : Chars) :
    ∃ m' rest, rest.length ≤ r.length ∧ (r = [] → m' = m) ∧
      scanConstant (blanks ++ u ++ r) = some ((m' : Int), rest) ∧
      scanConstant (blanks ++ '+' :: u ++ r) = some ((m' : Int), rest) ∧
      scanConstant (blanks ++ '-' :: u ++ r) = some (-(m' : Int), rest) := by
  obtain ⟨m', rest, hScan, hRest, hSame⟩ := scanUnsigned_complete hu r
  obtain ⟨d, ds, rfl, hd⟩ := hu.head
  refine ⟨m', rest, hRest, hSame, ?_, ?_, ?_⟩
  · rw [List.append_assoc]
    exact scanConstant_blanks hBlanks (isSpace_of_digitIn hd) (scanSign_digit hd _) hScan
  · rw [List.append_assoc]
    exact scanConstant_blanks hBlanks (by decide) rfl hScan
  · rw [List.append_assoc]
    exact scanConstant_blanks hBlanks (by decide) rfl hScan

theorem scanConstant_complete (h : Constant p n) (r : Chars) :
    ∃ n' rest, scanConstant (p ++ r) = some (n', rest) ∧ rest.length ≤ r.length ∧
      (r = [] → n' = n) := by
  cases h with
  | plain hBlanks hu =>
    obtain ⟨m', rest, hRest, hSame, hPlain, -, -⟩ := scanConstant_unsigned hBlanks hu r
    exact ⟨m', rest, hPlain, hRest, fun hr => congrArg _ (hSame hr)⟩
  | plus hBlanks hu =>
    obtain ⟨m', rest, hRest, hSame, -, hPlus, -⟩ := scanConstant_unsigned hBlanks hu r
    exact ⟨m', rest, hPlus, hRest, fun hr => congrArg _ (hSame hr)⟩
  | minus hBlanks hu =>
    obtain ⟨m', rest, hRest, hSame, -, -, hMinus⟩ := scanConstant_unsigned hBlanks hu r
    exact ⟨-m', rest, hMinus, hRest, fun hr => by rw [hSame hr]⟩

theorem scanSign_cases {t t' : Chars} {neg : Bool} (h : scanSign t = (neg, t')) :
    (t = '-' :: t' ∧ neg = true) ∨ (t = '+' :: t' ∧ neg = false) ∨ (t = t' ∧ neg = false) := by
  unfold scanSign at h
  split at h <;> cases h <;> simp

theorem scanConstant_sound (h : scanConstant s = some (n, rest)) :
    ∃ p, s = p ++ rest ∧ Constant p n := by
  have hText : s = s.takeWhile isSpace ++ skipSpace s := List.takeWhile_append_dropWhile.symm
  have hBlanks : ∀ c ∈ s.takeWhile isSpace, isSpace c = true := fun c => List.mem_takeWhile_imp
  generalize s.takeWhile isSpace = blanks at hText hBlanks
  unfold scanConstant at h
  generalize skipSpace s = t at h hText
  rcases hSign : scanSign t with ⟨neg, t'⟩
  rw [hSign] at h
  dsimp only at h
  split at h <;> cases h
  obtain ⟨u, rfl, hu⟩ := scanUnsigned_sound ‹_›
  obtain ⟨rfl, rfl⟩ | ⟨rfl, rfl⟩ | ⟨rfl, rfl⟩ := scanSign_cases hSign
  · exact ⟨blanks ++ '-' :: u, by simp [hText], .minus hBlanks hu⟩
  · exact ⟨blanks ++ '+' :: u, by simp [hText], .plus hBlanks hu⟩
  · exact ⟨blanks ++ u, by simp [hText], .plain hBlanks hu⟩

theorem Constant.unique {n' : Int} (h : Constant p n) (h' : Constant p n') : n = n' := by
  obtain ⟨m, _, hScan, -, hm⟩ := scanConstant_complete h []
  obtain ⟨m', _, hScan', -, hm'⟩ := scanConstant_complete h' []
  rw [hScan] at hScan'
  cases hScan'
  rw [← hm rfl, hm' rfl]

theorem scanConstant_longest (h : scanConstant s = some (n, rest)) :
    ∃ p, s = p ++ rest ∧ LongestConstant s p n := by
  obtain ⟨p, rfl, hp⟩ := scanConstant_sound h
  refine ⟨p, rfl, List.prefix_append p rest, hp, ?_⟩
  rintro p' n' ⟨rest', hText⟩ hp'
  obtain ⟨m, rest'', hScan, hLength, -⟩ := scanConstant_complete hp' rest'
  rw [hText, h] at hScan
  cases hScan
  have hTotal := congrArg List.length hText
  rw [List.length_append, List.length_append] at hTotal
  omega

theorem LongestConstant.unique {p' : Chars} {n' : Int} (h : LongestConstant s p n)
    (h' : LongestConstant s p' n') : n = n' := by
  have hLength : p.length = p'.length :=
    Nat.le_antisymm (h'.longest p n h.starts h.constant) (h.longest p' n' h'.starts h'.constant)
  obtain rfl : p = p' := List.prefix_iff_eq_take.mp h.starts ▸ hLength ▸
    (List.prefix_iff_eq_take.mp h'.starts).symm
  exact h.constant.unique h'.constant

theorem not_constant_of_none (h : scanConstant s = none) (hStarts : p <+: s) : ¬ Constant p n := by
  intro hp
  obtain ⟨rest, rfl⟩ := hStarts
  obtain ⟨m, rest', hScan, -⟩ := scanConstant_complete hp rest
  rw [h] at hScan
  cases hScan

end Constants

end Text
