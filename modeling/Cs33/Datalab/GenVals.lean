import Cs33.Datalab.Bits

/-! # `gen_vals` of btest.c

Ints are integers, and an operation whose result is out of range stops the
program, as does a store past the end of `test_vals`. The list holds the
entries stored so far; its length is `test_count`.
-/

namespace Cs33.Datalab

def TMin : Int := -2147483648
def TMax : Int := 2147483647

def TEST_RANGE : Nat := 500000
def MAX_TEST_VALS : Nat := 13 * TEST_RANGE

/-- A signed overflow, or a store outside the array. -/
inductive Fault where
  | overflow
  | outside
deriving DecidableEq, Repr

def checkedInt (v : Int) : Except Fault Int :=
  if TMin ≤ v ∧ v ≤ TMax then .ok v else .error .overflow

/-- `test_vals[test_count++] = v`. -/
def putVal (vals : List Int) (v : Int) : Except Fault (List Int) :=
  if vals.length < MAX_TEST_VALS then .ok (vals ++ [v]) else .error .outside

/-- A store under a test. -/
def putValIf (test : Bool) (vals : List Int) (v : Int) : Except Fault (List Int) :=
  if test then putVal vals v else .ok vals

def putVals (vals : List Int) (vs : List Int) : Except Fault (List Int) := vs.foldlM putVal vals

/-- The values around the interesting floats, for one distance from them. -/
def floatRound (i : Nat) : List Int :=
  let i := BitVec.ofNat 32 i
  let smallestNorm : Word := 0x00800000
  let one : Word := 0x3f800000
  let largestNorm : Word := 0x7f000000
  let sign : Word := 0x80000000
  [i, sign ||| i, smallestNorm + i, smallestNorm - i, sign ||| (smallestNorm + i),
    sign ||| (smallestNorm - i), one + i, one - i, sign ||| (one + i), sign ||| (one - i),
    largestNorm - i, sign ||| (largestNorm - i)].map BitVec.toInt

def floatSpecials : List Int :=
  let inf : Word := 0x7f800000
  let nan : Word := 0x7fc00000
  let sign : Word := 0x80000000
  [inf, sign ||| inf, nan, sign ||| nan].map BitVec.toInt

/-- The entries after the first rounds of the loop over the floats. -/
def floatRounds : Nat → Except Fault (List Int)
  | 0 => .ok []
  | i + 1 => do
    let vals ← floatRounds i
    putVals vals (floatRound i)

/-- The exhaustive loop from `i` on. -/
def exhaust (max i : Int) (vals : List Int) : Except Fault (List Int) :=
  if i ≤ max then do
    let vals ← putVal vals i
    if i = TMax then .error .overflow else exhaust max (i + 1) vals
  else
    .ok vals
termination_by (max + 1 - i).toNat
decreasing_by omega

/-- One round of the sampling loop. -/
def sampleRound (randomVal : Nat → Int) (min max : Int) (i : Nat) (vals : List Int) :
    Except Fault (List Int) := do
  let low ← checkedInt (min + i)
  let vals ← putVal vals low
  let high ← checkedInt (max - i)
  let vals ← putVal vals high
  let vals ← putValIf ((i : Int) ≥ min ∧ (i : Int) ≤ max) vals i
  let vals ← putValIf (-(i : Int) ≥ min ∧ -(i : Int) ≤ max) vals (-i)
  putVal vals (randomVal i)

/-- The entries after the first rounds of the sampling loop. -/
def sampleRounds (randomVal : Nat → Int) (min max : Int) : Nat → Except Fault (List Int)
  | 0 => .ok []
  | i + 1 => do
    let vals ← sampleRounds randomVal min max i
    sampleRound randomVal min max i vals

/-- `randomVal` gives what the calls of `random_val` return, in their order. -/
def genVals (hasArg : Fin 3 → Bool) (argval : Fin 3 → Word) (randomVal : Int → Int → Nat → Int)
    (min max : Int) (testRange : Nat) (arg : Fin 3) : Except Fault (List Int) :=
  if hasArg arg then
    putVal [] (argval arg).toInt
  else if min = 1 ∧ max = 1 then do
    let vals ← floatRounds (if testRange > 1 <<< 23 then 1 <<< 23 else testRange)
    putVals vals floatSpecials
  else do
    let low ← checkedInt (max - MAX_TEST_VALS)
    if low ≤ min then exhaust max min [] else sampleRounds (randomVal min max) min max testRange

/-! ## Stores -/

section Stores

variable {vals vs : List Int} {min max v i : Int}

/-- What a call writes: no more entries than the array has, and nothing outside the range. -/
structure InRange (min max : Int) (vals : List Int) : Prop where
  bounded : vals.length ≤ MAX_TEST_VALS
  range : ∀ v ∈ vals, min ≤ v ∧ v ≤ max

theorem putVal_room (h : vals.length < MAX_TEST_VALS) (v : Int) :
    putVal vals v = .ok (vals ++ [v]) := by
  rw [putVal, if_pos h]

theorem putVal_full (h : ¬ vals.length < MAX_TEST_VALS) (v : Int) :
    putVal vals v = .error .outside := by
  rw [putVal, if_neg h]

theorem putValIf_room (h : vals.length < MAX_TEST_VALS) (test : Bool) (v : Int) :
    putValIf test vals v = .ok (vals ++ if test then [v] else []) := by
  cases test with
  | true => exact putVal_room h v
  | false => rw [if_neg Bool.false_ne_true, List.append_nil]; rfl

theorem InRange.append (h : InRange min max vals) (hRoom : vals.length + vs.length ≤ MAX_TEST_VALS)
    (hvs : ∀ v ∈ vs, min ≤ v ∧ v ≤ max) : InRange min max (vals ++ vs) where
  bounded := by rwa [List.length_append]
  range v hv := by
    obtain hv | hv := List.mem_append.mp hv
    · exact h.range v hv
    · exact hvs v hv

theorem InRange.nil : InRange min max [] where
  bounded := Nat.zero_le _
  range := nofun

theorem checkedInt_fits (h : TMin ≤ v ∧ v ≤ TMax) : checkedInt v = .ok v := by
  rw [checkedInt, if_pos h]

theorem checkedInt_overflow (h : ¬ (TMin ≤ v ∧ v ≤ TMax)) : checkedInt v = .error .overflow := by
  rw [checkedInt, if_neg h]

end Stores

/-! ## The loops -/

section Loops

variable {vals vals' : List Int} {min max i : Int} {n : Nat} {randomVal : Nat → Int}

theorem exhaust_done (h : ¬ i ≤ max) : exhaust max i vals = .ok vals := by
  rw [exhaust, if_neg h]

theorem exhaust_next (h : i ≤ max) (hRoom : vals.length < MAX_TEST_VALS) (hi : i ≠ TMax) :
    exhaust max i vals = exhaust max (i + 1) (vals ++ [i]) := by
  rw [exhaust, if_pos h, putVal_room hRoom]
  change (if i = TMax then _ else _) = _
  rw [if_neg hi]

/-- The loop ends if its count fits in the array and `max` is not the largest int. -/
theorem exhaust_ends (hLow : min ≤ i) (h : InRange min max vals)
    (hRoom : vals.length + (max + 1 - i).toNat ≤ MAX_TEST_VALS) (hMax : max < TMax) :
    ∃ vals', exhaust max i vals = .ok vals' ∧ InRange min max vals' := by
  induction hGap : (max + 1 - i).toNat generalizing i vals with
  | zero => exact ⟨vals, exhaust_done (by omega), h⟩
  | succ gap ih =>
    have hNext : InRange min max (vals ++ [i]) := by
      refine h.append ?_ fun v hv => ?_
      · rw [List.length_singleton]
        omega
      · rw [List.mem_singleton.mp hv]
        omega
    rw [exhaust_next (by omega) (by omega) (by omega)]
    refine ih (by omega) hNext ?_ (by omega)
    rw [List.length_append, List.length_singleton]
    omega

/-- Otherwise it stops at the end of the array or at the increment of the largest int. -/
theorem exhaust_fits (h : exhaust max i vals = .ok vals') (hi : i ≤ max) (hMax : max ≤ TMax) :
    max < TMax ∧ vals.length + (max + 1 - i).toNat ≤ MAX_TEST_VALS := by
  induction hGap : (max + 1 - i).toNat generalizing i vals with
  | zero => omega
  | succ gap ih =>
    by_cases hRoom : vals.length < MAX_TEST_VALS
    · by_cases hTop : i = TMax
      · rw [exhaust, if_pos hi, putVal_room hRoom] at h
        change (if i = TMax then _ else _) = _ at h
        rw [if_pos hTop] at h
        cases h
      · rw [exhaust_next hi hRoom hTop] at h
        by_cases hMore : i + 1 ≤ max
        · have hRest := ih h hMore (by omega)
          rw [List.length_append, List.length_singleton] at hRest
          omega
        · omega
    · rw [exhaust, if_pos hi, putVal_full hRoom] at h
      cases h

/-- What a round of the sampling loop writes. -/
def sampleVals (randomVal : Nat → Int) (min max : Int) (i : Nat) : List Int :=
  [min + i, max - i] ++ (if (i : Int) ≥ min ∧ (i : Int) ≤ max then [(i : Int)] else []) ++
    (if -(i : Int) ≥ min ∧ -(i : Int) ≤ max then [-(i : Int)] else []) ++ [randomVal i]

theorem length_sampleVals_le (randomVal : Nat → Int) (min max : Int) (i : Nat) :
    (sampleVals randomVal min max i).length ≤ 5 := by
  unfold sampleVals
  split <;> split <;> simp

theorem mem_sampleVals {v : Int} (hWide : MAX_TEST_VALS < max - min) {i : Nat} (hi : i < TEST_RANGE)
    (hRandom : ∀ k, min ≤ randomVal k ∧ randomVal k ≤ max) (hv : v ∈ sampleVals randomVal min max i) :
    min ≤ v ∧ v ≤ max := by
  have hCount : i < MAX_TEST_VALS := hi.trans (by decide)
  simp only [sampleVals, List.mem_append, List.mem_cons, List.mem_ite_nil_right, List.not_mem_nil,
    or_false] at hv
  obtain (((rfl | rfl) | ⟨hZero, rfl⟩) | ⟨hZero, rfl⟩) | rfl := hv
  · omega
  · omega
  · exact hZero
  · exact hZero
  · exact hRandom i

theorem sampleRound_run (hMin : TMin ≤ min) (hMax : max ≤ TMax) (hWide : MAX_TEST_VALS < max - min)
    {i : Nat} (hi : i < TEST_RANGE) (hRoom : vals.length + 5 ≤ MAX_TEST_VALS) :
    sampleRound randomVal min max i vals = .ok (vals ++ sampleVals randomVal min max i) := by
  have hCount : i < MAX_TEST_VALS := hi.trans (by decide)
  have hLow : checkedInt (min + i) = .ok (min + i) := checkedInt_fits (by omega)
  have hHigh : checkedInt (max - i) = .ok (max - i) := checkedInt_fits (by omega)
  have hTail : vals.length + 4 < MAX_TEST_VALS := hRoom
  simp only [sampleRound, hLow, hHigh, bind, Except.bind]
  rw [putVal_room (by omega)]
  dsimp only
  rw [putVal_room (by simp; omega)]
  dsimp only
  rw [putValIf_room (by simp; omega)]
  dsimp only
  rw [putValIf_room (by simp; split <;> simp <;> omega)]
  dsimp only
  rw [putVal_room (by simp; split <;> split <;> simp <;> omega)]
  simp [sampleVals]

theorem sampleRounds_run (hMin : TMin ≤ min) (hMax : max ≤ TMax) (hWide : MAX_TEST_VALS < max - min)
    (hn : n ≤ TEST_RANGE) (hRandom : ∀ k, min ≤ randomVal k ∧ randomVal k ≤ max) :
    ∃ vals, sampleRounds randomVal min max n = .ok vals ∧ vals.length ≤ 5 * n ∧ InRange min max vals := by
  induction n with
  | zero => exact ⟨[], rfl, Nat.le_refl _, InRange.nil⟩
  | succ i ih =>
    obtain ⟨vals, hRun, hLength, hVals⟩ := ih (by omega)
    have hLimit : MAX_TEST_VALS = 13 * TEST_RANGE := rfl
    have hRound := length_sampleVals_le randomVal min max i
    refine ⟨vals ++ sampleVals randomVal min max i, ?_, ?_, ?_⟩
    · rw [sampleRounds, hRun]
      exact sampleRound_run hMin hMax hWide (by omega) (by omega)
    · rw [List.length_append]
      omega
    · exact hVals.append (by omega) fun v hv => mem_sampleVals hWide (by omega) hRandom hv

end Loops

/-! ## A call -/

section Call

variable {hasArg : Fin 3 → Bool} {argval : Fin 3 → Word} {randomVal : Int → Int → Nat → Int}
  {min max : Int} {testRange : Nat} {arg : Fin 3}

/-- The call returns, with entries that are in the range. -/
def GeneratesInRange (min max : Int) (result : Except Fault (List Int)) : Prop :=
  ∃ vals, result = .ok vals ∧ InRange min max vals

theorem genVals_given (hArg : hasArg arg = true) :
    GeneratesInRange min max (genVals hasArg argval randomVal min max testRange arg) ↔
      min ≤ (argval arg).toInt ∧ (argval arg).toInt ≤ max := by
  have hRun : genVals hasArg argval randomVal min max testRange arg = .ok [(argval arg).toInt] := by
    rw [genVals, if_pos hArg]
    exact putVal_room (by decide) _
  rw [hRun]
  constructor
  · rintro ⟨_, ⟨⟩, h⟩
    exact h.range _ List.mem_cons_self
  · intro h
    exact ⟨_, rfl, show 1 ≤ MAX_TEST_VALS by decide, by simpa using h⟩

theorem genVals_int (hArg : hasArg arg = false) (hInt : ¬ (min = 1 ∧ max = 1)) :
    genVals hasArg argval randomVal min max testRange arg =
      (checkedInt (max - MAX_TEST_VALS) >>= fun low =>
        if low ≤ min then exhaust max min [] else sampleRounds (randomVal min max) min max testRange) := by
  rw [genVals, hArg, if_neg Bool.false_ne_true, if_neg hInt]

/-- The exhaustive branch counts to `max`, and it is taken one value too early. -/
theorem exhaust_iff (hRange : min ≤ max) (hMax : max ≤ TMax) :
    GeneratesInRange min max (exhaust max min []) ↔ max - min < MAX_TEST_VALS ∧ max < TMax := by
  constructor
  · rintro ⟨vals, hRun, -⟩
    obtain ⟨hTop, hRoom⟩ := exhaust_fits hRun hRange hMax
    rw [List.length_nil] at hRoom
    omega
  · rintro ⟨hFits, hTop⟩
    exact exhaust_ends le_rfl InRange.nil (by rw [List.length_nil]; omega) hTop

end Call

/-- Exactly when `gen_vals` does its work without an overflow, inside its array and in its range. -/
theorem genVals_in_range_iff (hasArg : Fin 3 → Bool) (argval : Fin 3 → Word)
    (randomVal : Int → Int → Nat → Int) (min max : Int) (testRange : Nat) (arg : Fin 3)
    (hMin : TMin ≤ min) (hRange : min ≤ max) (hMax : max ≤ TMax) (hInt : ¬ (min = 1 ∧ max = 1))
    (hTests : 1 ≤ testRange ∧ testRange ≤ TEST_RANGE)
    (hRandom : ∀ k, min ≤ randomVal min max k ∧ randomVal min max k ≤ max) :
    GeneratesInRange min max (genVals hasArg argval randomVal min max testRange arg) ↔
      if hasArg arg then
        min ≤ (argval arg).toInt ∧ (argval arg).toInt ≤ max
      else
        TMin + MAX_TEST_VALS ≤ max ∧
          (MAX_TEST_VALS < max - min ∨ (max - min < MAX_TEST_VALS ∧ max < TMax)) := by
  split
  · exact genVals_given ‹_›
  · rw [genVals_int (Bool.eq_false_of_not_eq_true ‹_›) hInt]
    by_cases hFits : TMin + MAX_TEST_VALS ≤ max
    · rw [checkedInt_fits (by omega)]
      change GeneratesInRange min max (if max - MAX_TEST_VALS ≤ min then _ else _) ↔ _
      by_cases hSmall : max - MAX_TEST_VALS ≤ min
      · rw [if_pos hSmall, exhaust_iff hRange hMax]
        omega
      · rw [if_neg hSmall]
        obtain ⟨vals, hRun, -, hVals⟩ :=
          sampleRounds_run hMin hMax (by omega) hTests.2 hRandom
        exact iff_of_true ⟨vals, hRun, hVals⟩ ⟨hFits, .inl (by omega)⟩
    · rw [checkedInt_overflow (by omega)]
      refine iff_of_false ?_ fun h => hFits h.1
      rintro ⟨vals, hRun, -⟩
      cases hRun

/-- The smallest range at the bottom of the ints: the range test overflows. -/
theorem range_test_overflows :
    genVals (fun _ => false) (fun _ => 0) (fun min _ _ => min) TMin TMin 1 0 = .error .overflow ∧
      ¬ GeneratesInRange TMin TMin
        (genVals (fun _ => false) (fun _ => 0) (fun min _ _ => min) TMin TMin 1 0) := by
  have hRun : genVals (fun _ => false) (fun _ => 0) (fun min _ _ => min) TMin TMin 1 0 =
      .error .overflow := by decide
  refine ⟨hRun, ?_⟩
  rw [hRun]
  rintro ⟨vals, hOk, -⟩
  cases hOk

theorem genVals_in_range_iff_shift :
    GeneratesInRange 0 31 (genVals (fun _ => false) (fun _ => 0) (fun min _ _ => min) 0 31 707 0) ↔
      TMin + MAX_TEST_VALS ≤ (31 : Int) ∧
        (MAX_TEST_VALS < (31 - 0 : Int) ∨ ((31 - 0 : Int) < MAX_TEST_VALS ∧ (31 : Int) < TMax)) :=
  genVals_in_range_iff (fun _ => false) (fun _ => 0) (fun min _ _ => min) 0 31 707 0 (by decide)
    (by decide) (by decide) (by decide) (by decide) fun _ => by decide

end Cs33.Datalab
