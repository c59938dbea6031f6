import Mathlib.Tactic.NormNum
import Mathlib.Tactic.Ring

/-! # Functions of bits.c and their references in tests.c

The machine of bits.c has 32-bit two's complement words and arithmetic right
shifts, and promises nothing for a shift count outside 0..31: such a shift has
no value here. The loop of a reference runs on a budget of rounds and has no
value when that is used up.
-/

namespace Cs33.Datalab

abbrev Word := BitVec 32

/-- `!x`. -/
def lnot (x : Word) : Word := if x = 0 then 1 else 0

/-- `x << n`. -/
def shl (x n : Word) : Option Word := if n.toNat < 32 then some (x <<< n.toNat) else none

/-- `x >> n`. -/
def sar (x n : Word) : Option Word := if n.toNat < 32 then some (x.sshiftRight n.toNat) else none

def addOK (x y : Word) : Option Word := do
  let sum := x + y
  let shift ← shl 0x80 24
  let signOfSum := sum &&& shift
  let signOfX := x &&& shift
  let signOfY := y &&& shift
  let sumMatchesX := signOfSum ^^^ ~~~signOfX
  let sumMatchesY := signOfSum ^^^ ~~~signOfY
  let sumMatchesX := sumMatchesX &&& shift
  let sumMatchesY := sumMatchesY &&& shift
  return lnot (lnot (sumMatchesX ||| sumMatchesY))

/-- `test_addOK`: `long long` is a word of 64 bits. -/
def testAddOK (x y : Word) : Word :=
  let lsum : BitVec 64 := x.signExtend 64 + y.signExtend 64
  if lsum = (lsum.setWidth 32).signExtend 64 then 1 else 0

def greatestBitPos (x : Word) : Option Word := do
  let shift : Word := 0
  let mask3 : Word := 0xFF
  let mask3 ← shl mask3 24
  let mask2 ← sar mask3 8
  let mask1 ← sar mask2 8
  let shift := shift + (← shl (lnot (lnot (x &&& mask1))) 3)
  let shift := shift + (← shl (lnot (lnot (x &&& mask2))) 3)
  let shift := shift + (← shl (lnot (lnot (x &&& mask3))) 3)
  let signif := (← sar x shift) &&& 0xFF
  let shift := shift + (← shl (lnot (lnot (signif &&& 0xF0))) 2)
  let signif := (← sar x shift) &&& 0x0F
  let shift := shift + (← shl (lnot (lnot (signif &&& 0x0C))) 1)
  let signif := (← sar x shift) &&& 0x3
  let shift := shift + lnot (lnot (signif &&& 0x2))
  let signif := (← sar x shift) &&& 0x1
  shl signif shift

/-- The loop of `test_greatestBitPos`. Its mask is unsigned, so the shift is logical. -/
def scanDown (x : Word) : Nat → Word → Option Word
  | 0, _ => none
  | rounds + 1, mask =>
    if mask &&& x = 0 then scanDown x rounds (mask >>> 1) else some mask

def testGreatestBitPos (rounds : Nat) (x : Word) : Option Word :=
  let mask : Word := 1 <<< 31
  if x = 0 then some 0 else scanDown x rounds mask

/-! ## Tests of bits -/

theorem lnot_lnot (x : Word) : lnot (lnot x) = if x = 0 then 0 else 1 := by
  rw [lnot, lnot]
  split <;> simp

theorem and_mask (n i j : Nat) :
    n &&& ((2 ^ j - 1) <<< i) = (n / 2 ^ i % 2 ^ j) <<< i := by
  rw [← Nat.shiftRight_eq_div_pow, ← Nat.and_two_pow_sub_one_eq_mod, Nat.shiftLeft_and_distrib]
  apply Nat.eq_of_testBit_eq
  intro k
  simp only [Nat.testBit_and, Nat.testBit_shiftLeft, Nat.testBit_shiftRight]
  obtain hk | hk := lt_or_ge k i
  · simp [Nat.not_le.mpr hk]
  · simp [hk]

theorem and_eq_zero_iff {x mask : Word} {i j : Nat} (hMask : mask.toNat = (2 ^ j - 1) <<< i)
    (hx : x.toNat < 2 ^ (i + j)) : x &&& mask = 0 ↔ x.toNat < 2 ^ i := by
  have hPow : 0 < 2 ^ i := Nat.two_pow_pos i
  have hDiv : x.toNat / 2 ^ i < 2 ^ j := by
    rw [Nat.div_lt_iff_lt_mul hPow, ← pow_add, Nat.add_comm]
    exact hx
  rw [← BitVec.toNat_inj, BitVec.toNat_and, hMask, and_mask, Nat.mod_eq_of_lt hDiv,
    Nat.shiftLeft_eq]
  change x.toNat / 2 ^ i * 2 ^ i = 0 ↔ _
  rw [Nat.mul_eq_zero, or_iff_left hPow.ne', Nat.div_eq_zero_iff_lt hPow]

/-- Low bits of an arithmetic shift, none of them a copy of the sign. -/
theorem toNat_sshiftRight_and {x mask : Word} {s w : Nat} (hMask : mask.toNat = 2 ^ w - 1)
    (hw : s + w ≤ 32) : (x.sshiftRight s &&& mask).toNat = x.toNat / 2 ^ s % 2 ^ w := by
  rw [BitVec.toNat_and, hMask, Nat.and_two_pow_sub_one_eq_mod, ← Nat.shiftRight_eq_div_pow]
  apply Nat.eq_of_testBit_eq
  intro i
  simp only [Nat.testBit_mod_two_pow, Nat.testBit_shiftRight, BitVec.testBit_toNat,
    BitVec.getLsbD_sshiftRight]
  obtain hi | hi := lt_or_ge i w
  · have hIn : ¬ 32 ≤ i := by omega
    have hLow : s + i < 32 := by omega
    simp [hIn, hLow]
  · simp [Nat.not_lt.mpr hi]

end Cs33.Datalab
