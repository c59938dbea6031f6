import Cs33.Lib.Numeral

/-! # Percent encoding

A byte that is not safe is written as `%` and two hexadecimal digits.
-/

namespace Text

/-- The digits of `%02X`. -/
def hexByte (n : Nat) : Chars :=
  let ds := Nat.toDigits 16 n
  (if ds.length < 2 then '0' :: ds else ds).map Char.toUpper

def percentEncode (safe : Char → Bool) (s : Chars) : Chars :=
  s.flatMap fun c => if safe c then [c] else '%' :: hexByte c.toNat

/-- A `%` that two hexadecimal digits follow stands for a byte, and every other character for
itself. -/
def percentDecode : Chars → Chars
  | '%' :: a :: b :: s =>
    if digitIn 16 a && digitIn 16 b then
      Char.ofNat (16 * digitValue a + digitValue b) :: percentDecode s
    else
      '%' :: percentDecode (a :: b :: s)
  | c :: s => c :: percentDecode s
  | [] => []

/-! ## Round trips -/

section RoundTrip

variable {safe : Char → Bool} {s : Chars} {c : Char}

theorem percentDecode_plain (hc : c ≠ '%') (s : Chars) :
    percentDecode (c :: s) = c :: percentDecode s := by
  rw [percentDecode.eq_def]
  split
  · rename_i h
    exact absurd (List.cons.inj h).1 hc
  · rename_i h
    obtain ⟨rfl, rfl⟩ := List.cons.inj h
    rfl
  · cases ‹_ = []›

theorem hexByte_eq {n : Nat} (hn : n < 256) :
    hexByte n = [(n / 16).digitChar.toUpper, (n % 16).digitChar.toUpper] := by
  by_cases hSmall : n < 16
  · rw [hexByte, Nat.toDigits_of_lt_base hSmall, Nat.div_eq_of_lt hSmall, Nat.mod_eq_of_lt hSmall]
    rfl
  · have hHigh : n / 16 < 16 := by omega
    rw [hexByte, Nat.toDigits_of_base_le (by decide) (by omega), Nat.toDigits_of_lt_base hHigh]
    rfl

theorem digitValue_digitChar {k : Nat} (hk : k < 16) : digitValue k.digitChar.toUpper = k := by
  have hAll : ∀ k : Fin 16, digitValue k.val.digitChar.toUpper = k.val := by decide
  exact hAll ⟨k, hk⟩

theorem percentDecode_hexByte (hc : c.toNat < 256) (s : Chars) :
    percentDecode ('%' :: (hexByte c.toNat ++ s)) = c :: percentDecode s := by
  have hHigh : c.toNat / 16 < 16 := by omega
  have hLow : c.toNat % 16 < 16 := by omega
  have hSum : 16 * (c.toNat / 16) + c.toNat % 16 = c.toNat := by omega
  have hDigits : (digitIn 16 (c.toNat / 16).digitChar.toUpper &&
      digitIn 16 (c.toNat % 16).digitChar.toUpper) = true := by
    rw [digitIn, digitIn, digitValue_digitChar hHigh, digitValue_digitChar hLow, decide_eq_true hHigh,
      decide_eq_true hLow]
    rfl
  rw [hexByte_eq hc, List.cons_append, List.cons_append, List.nil_append, percentDecode, if_pos hDigits,
    digitValue_digitChar hHigh, digitValue_digitChar hLow, hSum, Char.ofNat_toNat]

/-- Bytes survive if the escape character is not safe. -/
theorem percentDecode_encode (hSafe : safe '%' = false) (hBytes : ∀ c ∈ s, c.toNat < 256) :
    percentDecode (percentEncode safe s) = s := by
  induction s with
  | nil => rfl
  | cons c s ih =>
    obtain ⟨hc, hs⟩ := List.forall_mem_cons.mp hBytes
    rw [percentEncode, List.flatMap_cons, ← percentEncode]
    cases hPlain : safe c with
    | true =>
      have hNe : c ≠ '%' := by
        rintro rfl
        rw [hSafe] at hPlain
        cases hPlain
      rw [if_pos rfl, List.singleton_append, percentDecode_plain hNe, ih hs]
    | false =>
      rw [if_neg Bool.false_ne_true, List.cons_append, percentDecode_hexByte hc, ih hs]

theorem percentEncode_inj {t : Chars} (hSafe : safe '%' = false) (hs : ∀ c ∈ s, c.toNat < 256)
    (ht : ∀ c ∈ t, c.toNat < 256) (h : percentEncode safe s = percentEncode safe t) : s = t := by
  have hDecoded := congrArg percentDecode h
  rwa [percentDecode_encode hSafe hs, percentDecode_encode hSafe ht] at hDecoded

/-- An encoded text has safe characters, percent signs and hexadecimal digits. -/
theorem mem_percentEncode (hBytes : ∀ c ∈ s, c.toNat < 256) (h : c ∈ percentEncode safe s) :
    safe c = true ∨ c = '%' ∨ ∃ k < 16, c = k.digitChar.toUpper := by
  obtain ⟨d, hd, hMem⟩ := List.mem_flatMap.mp h
  split at hMem
  · rename_i hSafe
    exact .inl (List.mem_singleton.mp hMem ▸ hSafe)
  · have hByte := hBytes d hd
    obtain hPercent | hMem := List.mem_cons.mp hMem
    · exact .inr (.inl hPercent)
    · rw [hexByte_eq hByte] at hMem
      simp only [List.mem_cons, List.not_mem_nil, or_false] at hMem
      obtain hHigh | hLow := hMem
      · exact .inr (.inr ⟨d.toNat / 16, by omega, hHigh⟩)
      · exact .inr (.inr ⟨d.toNat % 16, by omega, hLow⟩)

end RoundTrip

end Text
