import Cs33.Datalab.References

/-! # The other puzzles of bits.c

Each puzzle is the branch-free text of bits.c, and each reference that of
tests.c. `getByte` and `bitMask` promise nothing outside the ranges that
decl.c declares, where their shift counts leave the word.
-/

namespace Cs33.Datalab

def minusOne : Word := ~~~0

def testMinusOne : Word := -1

def isZero (x : Word) : Word := lnot x

def testIsZero (x : Word) : Word := if x = 0 then 1 else 0

def getByte (x n : Word) : Option Word := do
  let times ← shl n 3
  let x ← sar x times
  return x &&& 0xFF

/-- The switch gives `byte`, an unsigned char. -/
def testGetByte (x n : Word) : Option Word := do
  let shifted ←
    if n = 0 then some x
    else if n = 1 then sar x 8
    else if n = 2 then sar x 16
    else sar x 24
  let byte : BitVec 8 := shifted.setWidth 8
  return byte.setWidth 32

def negate (x : Word) : Word := ~~~x + 1

def testNegate (x : Word) : Word := -x

def bitMask (highbit lowbit : Word) : Option Word := do
  let y := highbit ^^^ 31
  let x ← shl 0x80 24
  let x ← sar x (32 + ~~~lowbit)
  let y := lnot (lnot y)
  let y ← shl y 31
  let y ← sar y (32 + ~~~highbit)
  let y ← shl y 1
  let y := ~~~y
  return x &&& y

/-- The loop of `test_bitMask` from `i` on. -/
def maskLoop (highbit : Word) : Nat → Word → Word → Option Word
  | 0, _, _ => none
  | rounds + 1, i, result =>
    if i.toInt ≤ highbit.toInt then do
      let bit ← shl 1 i
      maskLoop highbit rounds (i + 1) (result ||| bit)
    else
      some result

def testBitMask (rounds : Nat) (highbit lowbit : Word) : Option Word :=
  maskLoop highbit rounds lowbit 0

def absVal (x : Word) : Option Word := do
  let signBitMask ← shl 0x80 24
  let signBit ← sar (x &&& signBitMask) 31
  let ifNegative := signBit &&& (~~~x + 1)
  let ifPositive := ~~~signBit &&& x
  return ifNegative + ifPositive

def testAbsVal (x : Word) : Word := if x.toInt < 0 then -x else x

/-! ## Bytes -/

theorem and_byte (x : Word) : x &&& 0xFF = (x.setWidth 8).setWidth 32 := by
  apply BitVec.eq_of_toNat_eq
  have hMask : (0xFF : Word).toNat = 2 ^ 8 - 1 := rfl
  have hSmall : x.toNat % 2 ^ 8 < 2 ^ 32 := (Nat.mod_lt _ (by decide)).trans (by decide)
  rw [BitVec.toNat_and, hMask, Nat.and_two_pow_sub_one_eq_mod, BitVec.toNat_setWidth,
    BitVec.toNat_setWidth, Nat.mod_eq_of_lt hSmall]

theorem getByte_run (x : Word) {n : Nat} (hn : n < 4) :
    getByte x (BitVec.ofNat 32 n) = some (x.sshiftRight (8 * n) &&& 0xFF) := by
  have hTimes : shl (BitVec.ofNat 32 n) 3 = some (BitVec.ofNat 32 (8 * n)) := by
    have hShl := shl_of_lt (BitVec.ofNat 32 n) (n := 3) (by decide)
    rw [show (3 : Word) = BitVec.ofNat 32 3 from rfl, hShl]
    congr 1
    apply BitVec.eq_of_toNat_eq
    rw [BitVec.toNat_shiftLeft, BitVec.toNat_ofNat, BitVec.toNat_ofNat, Nat.shiftLeft_eq]
    omega
  rw [getByte, hTimes, Option.bind_eq_bind, Option.bind_some, sar_of_lt _ (by omega)]
  rfl

theorem testGetByte_run (x : Word) {n : Nat} (hn : n < 4) :
    testGetByte x (BitVec.ofNat 32 n) = some (((x.sshiftRight (8 * n)).setWidth 8).setWidth 32) := by
  obtain _ | _ | _ | _ | n := n
  · simp [testGetByte]
  · rfl
  · rfl
  · rfl
  · omega

/-! ## Masks -/

/-- The bits from `lo` to `hi` are set, and no others. -/
def IsMask (hi lo : Nat) (r : Word) : Prop := ∀ i < 32, r.getLsbD i = decide (lo ≤ i ∧ i ≤ hi)

theorem IsMask.unique {hi lo : Nat} {r r' : Word} (h : IsMask hi lo r) (h' : IsMask hi lo r') :
    r = r' := by
  apply BitVec.eq_of_getLsbD_eq
  intro i hi
  rw [h i hi, h' i hi]

theorem thirty_two_add_not {n : Nat} (hn : n < 32) :
    (32 : Word) + ~~~BitVec.ofNat 32 n = BitVec.ofNat 32 (31 - n) := by
  apply BitVec.eq_of_toNat_eq
  have h32 : (32 : Word).toNat = 32 := rfl
  rw [BitVec.toNat_add, BitVec.toNat_not, BitVec.toNat_ofNat, BitVec.toNat_ofNat, h32]
  omega

theorem getLsbD_signBit (i : Nat) : (0x80000000 : Word).getLsbD i = decide (i = 31) := by
  rw [show (0x80000000 : Word) = BitVec.twoPow 32 31 from rfl, BitVec.getLsbD_twoPow]
  simp [eq_comm]

/-- The sign bit, copied down to bit `n`. -/
theorem getLsbD_signBit_shifted {n i : Nat} (hn : n < 32) (hi : i < 32) :
    ((0x80000000 : Word).sshiftRight (31 - n)).getLsbD i = decide (n ≤ i) := by
  have hMsb : (0x80000000 : Word).msb = true := rfl
  rw [BitVec.getLsbD_sshiftRight, hMsb, getLsbD_signBit]
  by_cases hLt : 31 - n + i < 32
  · simp only [Nat.not_le.mpr hi, hLt, decide_false, Bool.not_false, Bool.true_and, if_true]
    congr 1
    exact propext (by omega)
  · simp [Nat.not_le.mpr hi, hLt]
    omega

theorem bitMask_run (hi lo : Nat) (hHi : hi < 32) (hLo : lo < 32) :
    ∃ r, bitMask (BitVec.ofNat 32 hi) (BitVec.ofNat 32 lo) = some r ∧ IsMask hi lo r := by
  have hSign : shl 0x80 24 = some 0x80000000 := rfl
  let low : Word := (0x80000000 : Word).sshiftRight (31 - lo)
  have hLow : sar 0x80000000 (32 + ~~~BitVec.ofNat 32 lo) = some low := by
    rw [thirty_two_add_not hLo, sar_of_lt _ (by omega)]
  let y : Word := lnot (lnot (BitVec.ofNat 32 hi ^^^ 31))
  have hTop : y = if hi = 31 then 0 else 1 := by
    have hXor : BitVec.ofNat 32 hi ^^^ 31 = 0 ↔ hi = 31 := by
      have hEq : BitVec.ofNat 32 hi ^^^ 31 = 0 ↔ BitVec.ofNat 32 hi = 31 := BitVec.xor_eq_zero_iff
      rw [hEq, ← BitVec.toNat_inj, BitVec.toNat_ofNat, Nat.mod_eq_of_lt (by omega)]
      rfl
    rw [show y = lnot (lnot (BitVec.ofNat 32 hi ^^^ 31)) from rfl, lnot_lnot]
    exact if_congr hXor rfl rfl
  let start : Word := y <<< 31
  have hStart : shl y 31 = some start := shl_of_lt y (n := 31) (by decide)
  have hHigh : sar start (32 + ~~~BitVec.ofNat 32 hi) = some (start.sshiftRight (31 - hi)) := by
    rw [thirty_two_add_not hHi, sar_of_lt _ (by omega)]
  have hDouble : shl (start.sshiftRight (31 - hi)) 1 = some (start.sshiftRight (31 - hi) <<< 1) :=
    shl_of_lt _ (n := 1) (by decide)
  refine ⟨low &&& ~~~(start.sshiftRight (31 - hi) <<< 1), ?_, ?_⟩
  · rw [bitMask]
    simp only [Option.bind_eq_bind]
    rw [hSign, Option.bind_some, hLow, Option.bind_some, hStart, Option.bind_some, hHigh,
      Option.bind_some, hDouble, Option.bind_some]
    rfl
  · intro i hi'
    have hUp : (~~~(start.sshiftRight (31 - hi) <<< 1)).getLsbD i = decide (i ≤ hi) := by
      rw [BitVec.getLsbD_not, BitVec.getLsbD_shiftLeft]
      by_cases hAll : hi = 31
      · have hZero : start = 0 := by
          rw [show start = y <<< 31 from rfl, hTop, if_pos hAll]
          rfl
        rw [hZero, BitVec.getLsbD_sshiftRight]
        simp [hi']
        omega
      · have hOne : start = 0x80000000 := by
          rw [show start = y <<< 31 from rfl, hTop, if_neg hAll]
          rfl
        rw [hOne]
        by_cases hFirst : i < 1
        · simp [hi', hFirst]
          omega
        · rw [getLsbD_signBit_shifted hHi (by omega)]
          simp only [hi', hFirst, decide_true, decide_false, Bool.true_and, Bool.not_false]
          rw [← decide_not]
          congr 1
          exact propext (by omega)
    rw [BitVec.getLsbD_and, hUp, getLsbD_signBit_shifted hLo hi', ← Bool.decide_and]

/-- The bits below `i` are those of the mask, the others are not set yet. -/
theorem maskLoop_run {hi lo : Nat} (hHi : hi < 32) {rounds i : Nat} {result : Word} (hLo : lo ≤ i)
    (hi' : i ≤ 32) (hRounds : hi + 1 - i < rounds)
    (hResult : ∀ k < 32, result.getLsbD k = decide (lo ≤ k ∧ k ≤ hi ∧ k < i)) :
    ∃ r, maskLoop (BitVec.ofNat 32 hi) rounds (BitVec.ofNat 32 i) result = some r ∧
      IsMask hi lo r := by
  have hInt : ∀ {n : Nat}, n ≤ 32 → (BitVec.ofNat 32 n).toInt = n := by
    intro n hn
    rw [BitVec.toInt_eq_toNat_of_lt, BitVec.toNat_ofNat]
    · omega
    · rw [BitVec.toNat_ofNat]
      omega
  induction rounds generalizing i result with
  | zero => exact absurd hRounds (Nat.not_lt_zero _)
  | succ rounds ih =>
    rw [maskLoop, hInt hi', hInt (by omega)]
    by_cases hMore : i ≤ hi
    · rw [if_pos (by omega), shl_of_lt _ (by omega), Option.bind_eq_bind, Option.bind_some]
      have hNext : BitVec.ofNat 32 i + 1 = BitVec.ofNat 32 (i + 1) := (BitVec.ofNat_add i 1).symm
      rw [hNext]
      apply ih (by omega) (by omega) (by omega)
      intro k hk
      have hBit : ((1 : Word) <<< i).getLsbD k = decide (k = i) := by
        rw [show ((1 : Word) <<< i) = BitVec.twoPow 32 i from (BitVec.twoPow_eq 32 i).symm,
          BitVec.getLsbD_twoPow]
        by_cases hEq : k = i
        · simp [hEq]
          omega
        · simp [hEq, Ne.symm hEq]
      rw [BitVec.getLsbD_or, hResult k hk, hBit, ← Bool.decide_or]
      congr 1
      exact propext (by omega)
    · rw [if_neg (by omega)]
      refine ⟨result, rfl, ?_⟩
      intro k hk
      rw [hResult k hk]
      congr 1
      exact propext (by omega)

theorem testBitMask_run (hi lo : Nat) {rounds : Nat} (hHi : hi < 32) (hLo : lo < 32)
    (hRounds : 33 ≤ rounds) :
    ∃ r, testBitMask rounds (BitVec.ofNat 32 hi) (BitVec.ofNat 32 lo) = some r ∧ IsMask hi lo r := by
  apply maskLoop_run hHi le_rfl (by omega) (by omega)
  intro k _
  have hNone : ¬ (lo ≤ k ∧ k ≤ hi ∧ k < lo) := by omega
  rw [decide_eq_false hNone]
  exact BitVec.getLsbD_zero

/-! ## The sign -/

theorem absVal_run (x : Word) : absVal x = some (testAbsVal x) := by
  have hSign : shl 0x80 24 = some 0x80000000 := rfl
  have hSar : ∀ v : Word, sar v 31 = some (v.sshiftRight 31) :=
    fun v => sar_of_lt v (n := 31) (by decide)
  have hNeg : x.toInt < 0 ↔ x.msb = true := (BitVec.msb_eq_toInt (x := x)).symm ▸ by simp
  have hMinus : ~~~x + 1 = -x := BitVec.neg_eq_not_add x ▸ rfl
  rw [absVal, hSign, Option.bind_eq_bind, Option.bind_some, hSar, Option.bind_some, and_signBit,
    testAbsVal, hMinus]
  by_cases hx : x.msb = true
  · have hOnes : (0x80000000 : Word).sshiftRight 31 = BitVec.allOnes 32 := by decide
    rw [if_pos hx, if_pos (hNeg.mpr hx), hOnes, BitVec.allOnes_and, BitVec.not_allOnes]
    exact congrArg some ((congrArg (-x + ·) BitVec.zero_and).trans (BitVec.add_zero _))
  · have hZero : (0 : Word).sshiftRight 31 = 0 := by decide
    have hNot : ~~~(0 : Word) = BitVec.allOnes 32 := rfl
    rw [if_neg hx, if_neg (mt hNeg.mp hx), hZero, hNot, BitVec.allOnes_and]
    exact congrArg some ((congrArg (· + x) BitVec.zero_and).trans (BitVec.zero_add _))

/-! ## The ranges of decl.c -/

theorem ofNat_of_range {n : Word} {k : Nat} (hn : 0 ≤ n.toInt ∧ n.toInt ≤ k) :
    n.toNat ≤ k ∧ n = BitVec.ofNat 32 n.toNat := by
  have hLt := n.isLt
  rw [BitVec.toInt_eq_toNat_cond] at hn
  refine ⟨?_, by simp⟩
  split at hn <;> omega

theorem getByte_inRange (x : Word) {n : Word} (hn : 0 ≤ n.toInt ∧ n.toInt ≤ 3) :
    ∃ r, getByte x n = some r ∧ testGetByte x n = some r ∧
      r.toNat = x.toNat / 2 ^ (8 * n.toNat) % 2 ^ 8 := by
  obtain ⟨hLe, hEq⟩ := ofNat_of_range (k := 3) hn
  refine ⟨x.sshiftRight (8 * n.toNat) &&& 0xFF, ?_, ?_, ?_⟩
  · rw [hEq]
    simpa using getByte_run x (n := n.toNat) (by omega)
  · rw [hEq, and_byte]
    simpa using testGetByte_run x (n := n.toNat) (by omega)
  · exact toNat_sshiftRight_and rfl (by omega)

theorem bitMask_inRange {highbit lowbit : Word} (hHi : 0 ≤ highbit.toInt ∧ highbit.toInt ≤ 31)
    (hLo : 0 ≤ lowbit.toInt ∧ lowbit.toInt ≤ 31) :
    ∃ r, bitMask highbit lowbit = some r ∧
      (∀ rounds, 33 ≤ rounds → testBitMask rounds highbit lowbit = some r) ∧
      IsMask highbit.toNat lowbit.toNat r := by
  obtain ⟨hHi, hEqHi⟩ := ofNat_of_range (k := 31) hHi
  obtain ⟨hLo, hEqLo⟩ := ofNat_of_range (k := 31) hLo
  obtain ⟨r, hRun, hMask⟩ := bitMask_run highbit.toNat lowbit.toNat (by omega) (by omega)
  rw [← hEqHi, ← hEqLo] at hRun
  refine ⟨r, hRun, ?_, hMask⟩
  intro rounds hRounds
  obtain ⟨r', hTest, hMask'⟩ := testBitMask_run highbit.toNat lowbit.toNat (by omega)
    (by omega) hRounds
  rw [← hEqHi, ← hEqLo] at hTest
  rw [hTest, hMask'.unique hMask]

theorem negate_eq (x : Word) : negate x = -x := BitVec.neg_eq_not_add x ▸ rfl

/-- On the ranges that decl.c declares every puzzle has a value: the one of its reference, and
the one that its header comment describes. -/
theorem puzzles_exact :
    minusOne = testMinusOne ∧ minusOne.toInt = -1 ∧
    (∀ x, isZero x = testIsZero x ∧ isZero x = if x.toInt = 0 then 1 else 0) ∧
    (∀ x n : Word, 0 ≤ n.toInt ∧ n.toInt ≤ 3 → ∃ r, getByte x n = some r ∧
      testGetByte x n = some r ∧ r.toNat = x.toNat / 2 ^ (8 * n.toNat) % 2 ^ 8) ∧
    (∀ x, negate x = testNegate x ∧ negate x + x = 0) ∧
    (∀ highbit lowbit : Word, (0 ≤ highbit.toInt ∧ highbit.toInt ≤ 31) →
      (0 ≤ lowbit.toInt ∧ lowbit.toInt ≤ 31) → ∃ r, bitMask highbit lowbit = some r ∧
        (∀ rounds, 33 ≤ rounds → testBitMask rounds highbit lowbit = some r) ∧
        IsMask highbit.toNat lowbit.toNat r) ∧
    ∀ x : Word, absVal x = some (testAbsVal x) ∧
      (-2147483647 ≤ x.toInt → (testAbsVal x).toInt = |x.toInt|) := by
  refine ⟨by decide, by decide, ?_, fun x n => getByte_inRange x, ?_,
    fun highbit lowbit => bitMask_inRange, ?_⟩
  · intro x
    have hZero : x = 0 ↔ x.toInt = 0 := by
      rw [← BitVec.toInt_inj]
      rfl
    exact ⟨rfl, if_congr hZero rfl rfl⟩
  · intro x
    refine ⟨negate_eq x, ?_⟩
    rw [negate_eq]
    exact BitVec.add_left_neg x
  · intro x
    refine ⟨absVal_run x, ?_⟩
    intro hMin
    have hLt := x.toInt_lt
    rw [testAbsVal]
    split
    · rename_i hx
      rw [BitVec.toInt_neg, abs_of_neg hx]
      exact Int.bmod_eq_of_le (by omega) (by omega)
    · rename_i hx
      rw [abs_of_nonneg (by omega)]

example : bitMask 5 3 = some 0x38 ∧ getByte 0x12345678 1 = some 0x56 := by decide

end Cs33.Datalab
