import Cs33.Datalab.Bits

/-! # bits.c agrees with tests.c

`addOK` compares three sign bits, its reference a sum in 64 bits with its own
truncation. `greatestBitPos` narrows a window around the highest set bit to
half its width in every stage, its reference scans down from the sign bit.
-/

namespace Cs33.Datalab

/-! ## Overflow -/

/-- The sum of `x` and `y` is a 32-bit integer. -/
def SumFits (x y : Word) : Prop :=
  -2 ^ 31 ≤ x.toInt + y.toInt ∧ x.toInt + y.toInt ≤ 2 ^ 31 - 1

instance (x y : Word) : Decidable (SumFits x y) := inferInstanceAs (Decidable (_ ∧ _))

theorem sumFits_iff (x y : Word) : SumFits x y ↔ ((x + y).msb = x.msb ∨ (x + y).msb = y.msb) := by
  have hOverflow : SumFits x y ↔ x.saddOverflow y = false := by
    simp only [SumFits, BitVec.saddOverflow, Bool.or_eq_false_iff, decide_eq_false_iff_not]
    omega
  rw [hOverflow, BitVec.saddOverflow_eq]
  cases x.msb <;> cases y.msb <;> cases (x + y).msb <;> decide

theorem and_signBit (v : Word) : v &&& 0x80000000 = if v.msb then 0x80000000 else 0 := by
  have hMask : (0x80000000 : Word).toNat = (2 ^ 1 - 1) <<< 31 := rfl
  have hLt := v.isLt
  apply BitVec.eq_of_toNat_eq
  rw [BitVec.toNat_and, hMask, and_mask, BitVec.msb_eq_decide]
  obtain hv | hv := lt_or_ge v.toNat (2 ^ 31)
  · have hQuot : v.toNat / 2 ^ 31 = 0 := Nat.div_eq_of_lt hv
    rw [hQuot, decide_eq_false (Nat.not_le.mpr hv)]
    rfl
  · have hQuot : v.toNat / 2 ^ 31 = 1 := by omega
    rw [hQuot, decide_eq_true hv]
    rfl

theorem addOK_run (x y : Word) : addOK x y = some (if SumFits x y then 1 else 0) := by
  have hShift : shl 0x80 24 = some 0x80000000 := rfl
  rw [addOK, hShift]
  simp only [sumFits_iff, Option.bind_eq_bind, Option.bind_some, and_signBit]
  cases x.msb <;> cases y.msb <;> cases (x + y).msb <;> decide

theorem toInt_signExtend_add (x y : Word) :
    (x.signExtend 64 + y.signExtend 64).toInt = x.toInt + y.toInt := by
  have hx := x.toInt_lt
  have hx' := x.le_toInt
  have hy := y.toInt_lt
  have hy' := y.le_toInt
  rw [BitVec.toInt_add, BitVec.toInt_signExtend_of_le (by decide),
    BitVec.toInt_signExtend_of_le (by decide)]
  apply Int.bmod_eq_of_le <;> omega

theorem testAddOK_eq (x y : Word) : testAddOK x y = if SumFits x y then 1 else 0 := by
  let lsum := x.signExtend 64 + y.signExtend 64
  have hSum : lsum.toInt = x.toInt + y.toInt := toInt_signExtend_add x y
  have hEq : lsum = (lsum.setWidth 32).signExtend 64 ↔ SumFits x y := by
    have hTrunc : ((lsum.setWidth 32).signExtend 64).toInt = lsum.toInt.bmod (2 ^ 32) := by
      rw [BitVec.toInt_signExtend_of_le (by decide), ← BitVec.signExtend_eq_setWidth_of_le _ (by decide),
        BitVec.toInt_signExtend_eq_toInt_bmod_of_le _ (by decide)]
    rw [← BitVec.toInt_inj, hTrunc, hSum, SumFits]
    constructor
    · intro hBmod
      have hLt := Int.bmod_lt (x := x.toInt + y.toInt) (m := 2 ^ 32) (by decide)
      have hLe := Int.le_bmod (x := x.toInt + y.toInt) (m := 2 ^ 32) (by decide)
      omega
    · rintro ⟨hLo, hHi⟩
      exact (Int.bmod_eq_of_le (by omega) (by omega)).symm
  rw [testAddOK]
  exact if_congr hEq rfl rfl

/-- `addOK` answers 1 exactly when the sum of its arguments is a 32-bit integer, as its
reference does. -/
theorem addOK_exact (x y : Word) :
    addOK x y = some (if -2 ^ 31 ≤ x.toInt + y.toInt ∧ x.toInt + y.toInt ≤ 2 ^ 31 - 1 then 1 else 0) ∧
      addOK x y = some (testAddOK x y) := by
  constructor
  · exact addOK_run x y
  · rw [addOK_run, testAddOK_eq]

example : addOK 0x80000000 0x80000000 = some 0 ∧ addOK 0x80000000 0x70000000 = some 1 := by decide

/-! ## The highest set bit -/

/-- The highest set bit of `n` is one of the `w` bits from `s` on. -/
def Window (n s w : Nat) : Prop := 2 ^ s ≤ n ∧ n < 2 ^ (s + w)

def topBit (x : Word) : Word := if x = 0 then 0 else BitVec.twoPow 32 (Nat.log2 x.toNat)

theorem Window.halve {n s w : Nat} (h : Window n s (2 * w)) :
    (n / 2 ^ s < 2 ^ w ∧ Window n s w) ∨ (2 ^ w ≤ n / 2 ^ s ∧ Window n (s + w) w) := by
  obtain ⟨hLo, hHi⟩ := h
  have hPow := Nat.two_pow_pos s
  have hSum : s + 2 * w = s + w + w := by omega
  obtain hn | hn := lt_or_ge n (2 ^ (s + w))
  · refine .inl ⟨?_, hLo, hn⟩
    rwa [Nat.div_lt_iff_lt_mul hPow, ← pow_add, Nat.add_comm w s]
  · refine .inr ⟨?_, hn, by rwa [← hSum]⟩
    rwa [Nat.le_div_iff_mul_le hPow, ← pow_add, Nat.add_comm w s]

theorem Window.eq_log2 {n s : Nat} (h : Window n s 1) : s = Nat.log2 n := by
  obtain ⟨hLo, hHi⟩ := h
  have hPos : n ≠ 0 := by
    rintro rfl
    exact absurd hLo (Nat.not_le.mpr (Nat.two_pow_pos s))
  exact ((Nat.log2_eq_iff hPos).mpr ⟨hLo, hHi⟩).symm

theorem Window.div_lt {n s w : Nat} (h : Window n s w) : n / 2 ^ s < 2 ^ w := by
  rw [Nat.div_lt_iff_lt_mul (Nat.two_pow_pos s), ← pow_add, Nat.add_comm]
  exact h.2

theorem shl_of_lt (x : Word) {n : Nat} (hn : n < 32) : shl x (BitVec.ofNat 32 n) = some (x <<< n) := by
  have hCount : (BitVec.ofNat 32 n).toNat = n := Nat.mod_eq_of_lt (hn.trans (by decide))
  rw [shl, hCount, if_pos hn]

theorem sar_of_lt (x : Word) {n : Nat} (hn : n < 32) :
    sar x (BitVec.ofNat 32 n) = some (x.sshiftRight n) := by
  have hCount : (BitVec.ofNat 32 n).toNat = n := Nat.mod_eq_of_lt (hn.trans (by decide))
  rw [sar, hCount, if_pos hn]

/-- One stage: the window halves, and its start moves up when the upper half has a bit. -/
theorem Window.stage {n s w : Nat} {signif : Word} (h : Window n s (2 * w))
    (hSignif : signif.toNat = n / 2 ^ s) (mask step : Word)
    (hMask : mask.toNat = (2 ^ w - 1) <<< w) (hStep : step.toNat = w) :
    ∃ s' ≤ s + w, Window n s' w ∧
      BitVec.ofNat 32 s + (if signif &&& mask = 0 then 0 else step) = BitVec.ofNat 32 s' := by
  have hLt : signif.toNat < 2 ^ (w + w) := by
    rw [hSignif, ← Nat.two_mul]
    exact h.div_lt
  have hTest := and_eq_zero_iff hMask hLt
  rw [hSignif] at hTest
  obtain ⟨hLow, hWindow⟩ | ⟨hHigh, hWindow⟩ := h.halve
  · refine ⟨s, Nat.le_add_right s w, hWindow, ?_⟩
    rw [if_pos (hTest.mpr hLow)]
    exact BitVec.add_zero _
  · refine ⟨s + w, le_rfl, hWindow, ?_⟩
    rw [if_neg (mt hTest.mp (Nat.not_lt.mpr hHigh)), ← hStep, BitVec.ofNat_add, BitVec.ofNat_toNat,
      BitVec.setWidth_eq]

theorem toNat_window {x : Word} {s w : Nat} (h : Window x.toNat s w) (hw : s + w ≤ 32) (mask : Word)
    (hMask : mask.toNat = 2 ^ w - 1) : (x.sshiftRight s &&& mask).toNat = x.toNat / 2 ^ s := by
  rw [toNat_sshiftRight_and hMask hw, Nat.mod_eq_of_lt h.div_lt]

/-- The three byte tests count the bytes below the highest nonzero one. -/
theorem window_byte {x : Word} (hx : x ≠ 0) : ∃ s ≤ 24, Window x.toNat s 8 ∧
    (0 + (if x &&& 0xFFFFFF00 = 0 then 0 else 8) + (if x &&& 0xFFFF0000 = 0 then 0 else 8) +
      (if x &&& 0xFF000000 = 0 then 0 else 8) : Word) = BitVec.ofNat 32 s := by
  have hLt := x.isLt
  have hPos : x.toNat ≠ 0 := fun hZero => hx (BitVec.eq_of_toNat_eq hZero)
  have hMask1 : x &&& 0xFFFFFF00 = 0 ↔ x.toNat < 2 ^ 8 := and_eq_zero_iff (j := 24) rfl hLt
  have hMask2 : x &&& 0xFFFF0000 = 0 ↔ x.toNat < 2 ^ 16 := and_eq_zero_iff (j := 16) rfl hLt
  have hMask3 : x &&& 0xFF000000 = 0 ↔ x.toNat < 2 ^ 24 := and_eq_zero_iff (j := 8) rfl hLt
  simp only [hMask1, hMask2, hMask3]
  obtain h1 | h1 := lt_or_ge x.toNat (2 ^ 8)
  · refine ⟨0, by decide, ⟨Nat.one_le_iff_ne_zero.mpr hPos, h1⟩, ?_⟩
    rw [if_pos h1, if_pos (by omega), if_pos (by omega)]
    rfl
  obtain h2 | h2 := lt_or_ge x.toNat (2 ^ 16)
  · refine ⟨8, by decide, ⟨h1, h2⟩, ?_⟩
    rw [if_neg (by omega), if_pos h2, if_pos (by omega)]
    rfl
  obtain h3 | h3 := lt_or_ge x.toNat (2 ^ 24)
  · refine ⟨16, by decide, ⟨h2, h3⟩, ?_⟩
    rw [if_neg (by omega), if_neg (by omega), if_pos h3]
    rfl
  · refine ⟨24, le_rfl, ⟨h3, hLt⟩, ?_⟩
    rw [if_neg (by omega), if_neg (by omega), if_neg (by omega)]
    rfl

theorem shl_flag (v : Word) {e : Nat} (he : e < 32) :
    shl (lnot (lnot v)) (BitVec.ofNat 32 e) =
      some (if v = 0 then 0 else BitVec.ofNat 32 (2 ^ e)) := by
  rw [shl_of_lt _ he, lnot_lnot]
  split
  · simp
  · congr 1
    apply BitVec.eq_of_toNat_eq
    rw [BitVec.toNat_shiftLeft, Nat.shiftLeft_eq]
    simp

theorem greatestBitPos_run (x : Word) : greatestBitPos x = some (topBit x) := by
  obtain rfl | hx := eq_or_ne x 0
  · decide
  have hMask3 : shl 0xFF 24 = some 0xFF000000 := rfl
  have hMask2 : sar 0xFF000000 8 = some 0xFFFF0000 := by decide
  have hMask1 : sar 0xFFFF0000 8 = some 0xFFFFFF00 := by decide
  have hByte : ∀ v : Word, shl (lnot (lnot v)) 3 = some (if v = 0 then 0 else 8) :=
    fun v => shl_flag v (e := 3) (by decide)
  have hNibble : ∀ v : Word, shl (lnot (lnot v)) 2 = some (if v = 0 then 0 else 4) :=
    fun v => shl_flag v (e := 2) (by decide)
  have hPair : ∀ v : Word, shl (lnot (lnot v)) 1 = some (if v = 0 then 0 else 2) :=
    fun v => shl_flag v (e := 1) (by decide)
  obtain ⟨a, ha, hWindowA, hShiftA⟩ := window_byte hx
  obtain ⟨b, hb, hWindowB, hShiftB⟩ :=
    hWindowA.stage (w := 4) (toNat_window hWindowA (by omega) 0xFF rfl) 0xF0 4 rfl rfl
  obtain ⟨c, hc, hWindowC, hShiftC⟩ :=
    hWindowB.stage (w := 2) (toNat_window hWindowB (by omega) 0x0F rfl) 0x0C 2 rfl rfl
  obtain ⟨d, hd, hWindowD, hShiftD⟩ :=
    hWindowC.stage (w := 1) (toNat_window hWindowC (by omega) 0x3 rfl) 0x2 1 rfl rfl
  have hLast : x.sshiftRight d &&& 0x1 = 1 := by
    apply BitVec.eq_of_toNat_eq
    rw [toNat_window hWindowD (by omega) 0x1 rfl]
    have hLt := hWindowD.div_lt
    have hPos := Nat.div_pos hWindowD.1 (Nat.two_pow_pos d)
    change _ = 1
    omega
  simp only [greatestBitPos, Option.bind_eq_bind]
  rw [hMask3, Option.bind_some, hMask2, Option.bind_some, hMask1, Option.bind_some, hByte,
    Option.bind_some, hByte, Option.bind_some, hByte, Option.bind_some, hShiftA,
    sar_of_lt _ (by omega), Option.bind_some, hNibble, Option.bind_some, hShiftB,
    sar_of_lt _ (by omega), Option.bind_some, hPair, Option.bind_some, hShiftC,
    sar_of_lt _ (by omega), Option.bind_some, lnot_lnot]
  rw [hShiftD, sar_of_lt _ (by omega), Option.bind_some, hLast, shl_of_lt _ (by omega), topBit,
    if_neg hx, ← hWindowD.eq_log2]
  rfl

theorem twoPow_ushiftRight {k : Nat} (hk : k + 1 < 32) :
    BitVec.twoPow 32 (k + 1) >>> 1 = BitVec.twoPow 32 k := by
  apply BitVec.eq_of_toNat_eq
  rw [BitVec.toNat_ushiftRight, BitVec.toNat_twoPow_of_lt hk, BitVec.toNat_twoPow_of_lt (by omega),
    Nat.shiftRight_eq_div_pow, pow_succ, pow_one, Nat.mul_div_cancel _ (by decide)]

/-- From bit `log2 x + k` down: every round either halves the mask or stands on the top bit. -/
theorem scanDown_run {x : Word} (hx : x ≠ 0) {rounds k : Nat} (hk : Nat.log2 x.toNat + k < 32)
    (hRounds : k < rounds) : scanDown x rounds (BitVec.twoPow 32 (Nat.log2 x.toNat + k)) =
      some (BitVec.twoPow 32 (Nat.log2 x.toNat)) := by
  have hPos : x.toNat ≠ 0 := fun hZero => hx (BitVec.eq_of_toNat_eq hZero)
  have hPow : ∀ i < 32, BitVec.twoPow 32 i ≠ 0 := by
    intro i hi hZero
    have hNat := congrArg BitVec.toNat hZero
    rw [BitVec.toNat_twoPow_of_lt hi] at hNat
    exact absurd hNat (Nat.two_pow_pos i).ne'
  induction k generalizing rounds with
  | zero =>
    obtain _ | rounds := rounds
    · cases hRounds
    have hTop : x.getLsbD (Nat.log2 x.toNat) = true := Nat.testBit_log2 hPos
    have hMeets : BitVec.twoPow 32 (Nat.log2 x.toNat) &&& x ≠ 0 := by
      rw [BitVec.twoPow_and, if_pos hTop]
      exact hPow _ hk
    exact if_neg hMeets
  | succ k ih =>
    obtain _ | rounds := rounds
    · cases hRounds
    have hBelow : x.toNat < 2 ^ (Nat.log2 x.toNat + (k + 1)) :=
      (Nat.log2_lt hPos).mp (by omega)
    have hClear : ¬ x.getLsbD (Nat.log2 x.toNat + (k + 1)) = true := by
      rw [BitVec.getLsbD, Nat.testBit_lt_two_pow hBelow]
      decide
    have hMisses : BitVec.twoPow 32 (Nat.log2 x.toNat + (k + 1)) &&& x = 0 := by
      rw [BitVec.twoPow_and, if_neg hClear]
      rfl
    rw [scanDown, if_pos hMisses, ← Nat.add_assoc, twoPow_ushiftRight (by omega)]
    exact ih (by omega) (Nat.lt_of_succ_lt_succ hRounds)

theorem testGreatestBitPos_run (x : Word) {rounds : Nat} (hRounds : 32 ≤ rounds) :
    testGreatestBitPos rounds x = some (topBit x) := by
  rw [testGreatestBitPos, topBit]
  split
  · rfl
  · rename_i hx
    have hPos : x.toNat ≠ 0 := fun hZero => hx (BitVec.eq_of_toNat_eq hZero)
    have hLog : Nat.log2 x.toNat < 32 := (Nat.log2_lt hPos).mpr x.isLt
    have hSum : Nat.log2 x.toNat + (31 - Nat.log2 x.toNat) = 31 := by omega
    have hStart : Nat.log2 x.toNat + (31 - Nat.log2 x.toNat) < 32 := by omega
    have hRun := scanDown_run hx hStart (show 31 - Nat.log2 x.toNat < rounds by omega)
    rw [hSum] at hRun
    exact hRun

/-- Every shift of `greatestBitPos` has a count in range and the result is the highest set bit
of `x`. The loop of its reference ends within 32 rounds, on the same bit. -/
theorem greatestBitPos_exact (x : Word) :
    greatestBitPos x = some (if x = 0 then 0 else BitVec.ofNat 32 (2 ^ Nat.log2 x.toNat)) ∧
      ∀ rounds, 32 ≤ rounds → testGreatestBitPos rounds x = greatestBitPos x := by
  have hTop : topBit x = if x = 0 then 0 else BitVec.ofNat 32 (2 ^ Nat.log2 x.toNat) := by
    rw [topBit]
    split
    · rfl
    · apply BitVec.eq_of_toNat_eq
      rw [BitVec.toNat_twoPow, BitVec.toNat_ofNat]
  constructor
  · rw [greatestBitPos_run, hTop]
  · intro rounds hRounds
    rw [greatestBitPos_run, testGreatestBitPos_run x hRounds]

end Cs33.Datalab
