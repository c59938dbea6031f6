import Cs33.Datalab.Btest

/-! # The test set of decl.c

btest tests the functions of bits.c against those of tests.c. Both agree on
every value that a function can be given, so a run in which no test takes too
long ends with the full score. The loops of the references have a budget of
rounds, as their own definitions do.
-/

namespace Cs33.Datalab

open Text

def ranges (r0 r1 r2 : Int × Int) : Fin 3 → Int × Int
  | 0 => r0
  | 1 => r1
  | 2 => r2

/-- The range of an argument that decl.c does not restrict. -/
def anyInt : Int × Int := (TMin, TMax)

/-- The entries before the one without a function. -/
def testSet (rounds : Nat) : List TestRec :=
  [ ⟨"minusOne".toList, .funct0 (some minusOne), .funct0 (some testMinusOne), 0, 1,
      ranges anyInt anyInt anyInt⟩,
    ⟨"isZero".toList, .funct1 (some ∘ isZero), .funct1 (some ∘ testIsZero), 1, 1,
      ranges anyInt anyInt anyInt⟩,
    ⟨"getByte".toList, .funct2 getByte, .funct2 testGetByte, 2, 2,
      ranges anyInt (0, 3) anyInt⟩,
    ⟨"negate".toList, .funct1 (some ∘ negate), .funct1 (some ∘ testNegate), 1, 2,
      ranges anyInt anyInt anyInt⟩,
    ⟨"addOK".toList, .funct2 addOK, .funct2 fun x y => some (testAddOK x y), 2, 3,
      ranges anyInt anyInt anyInt⟩,
    ⟨"bitMask".toList, .funct2 bitMask, .funct2 (testBitMask rounds), 2, 3,
      ranges (0, 31) (0, 31) anyInt⟩,
    ⟨"absVal".toList, .funct1 absVal, .funct1 (some ∘ testAbsVal), 1, 4,
      ranges (-TMax, TMax) anyInt anyInt⟩,
    ⟨"greatestBitPos".toList, .funct1 greatestBitPos, .funct1 (testGreatestBitPos rounds), 1, 4,
      ranges anyInt anyInt anyInt⟩ ]

/-! ## The test values -/

def Within (range : Int × Int) (v : Word) : Prop := range.1 ≤ v.toInt ∧ v.toInt ≤ range.2

/-- The bounds of an argument are ones for which `gen_vals` works: a small range below the
largest int, or a wide one. -/
def Workable (range : Int × Int) : Prop :=
  TMin ≤ range.1 ∧ range.1 ≤ range.2 ∧ range.2 ≤ TMax ∧ ¬ (range.1 = 1 ∧ range.2 = 1) ∧
    TMin + MAX_TEST_VALS ≤ range.2 ∧
    (MAX_TEST_VALS < range.2 - range.1 ∨ range.2 - range.1 < MAX_TEST_VALS ∧ range.2 < TMax)

instance (range : Int × Int) : Decidable (Workable range) := inferInstanceAs (Decidable (_ ∧ _))

/-- The random values and the values of the command line are in the ranges of the function. -/
structure Supplied (o : Options) (w : Surroundings) (t : TestRec) : Prop where
  random : ∀ i arg k, (t.argRanges arg).1 ≤ w.randomVal i arg (t.argRanges arg).1 (t.argRanges arg).2 k ∧
    w.randomVal i arg (t.argRanges arg).1 (t.argRanges arg).2 k ≤ (t.argRanges arg).2
  given : ∀ arg : Fin 3, (arg : Int) < t.args → o.hasArg arg = true →
    Within (t.argRanges arg) (o.argval arg)

/-- Each argument is in the range of its number. -/
def TestRec.InRanges (t : TestRec) (args : List Word) : Prop :=
  List.Forall₂ (fun k v => Within (t.argRanges (argNumber k)) v) (List.range t.args.toNat) args

/-- The function has the value of its reference on all arguments that decl.c declares. -/
def TestRec.Correct (t : TestRec) : Prop :=
  ∀ args, t.InRanges args → ∃ r, t.solutionFunct.call args = some r ∧ t.testFunct.call args = some r

section Supply

variable {o : Options} {w : Surroundings} {i : Nat} {t : TestRec}

theorem genVals_workable {hasArg : Fin 3 → Bool} {argval : Fin 3 → Word}
    {randomVal : Int → Int → Nat → Int} {range : Int × Int} {testRange : Nat} {arg : Fin 3}
    (h : Workable range) (hTests : testRange ≤ TEST_RANGE)
    (hGiven : hasArg arg = true → Within range (argval arg))
    (hRandom : ∀ k, range.1 ≤ randomVal range.1 range.2 k ∧ randomVal range.1 range.2 k ≤ range.2) :
    GeneratesInRange range.1 range.2
      (genVals hasArg argval randomVal range.1 range.2 testRange arg) := by
  obtain ⟨hMin, hRange, hMax, hInt, hLow, hShape⟩ := h
  cases hArg : hasArg arg with
  | true => exact (genVals_given hArg).mpr (hGiven hArg)
  | false =>
    rw [genVals_int hArg hInt, checkedInt_fits (by omega)]
    change GeneratesInRange range.1 range.2 (if range.2 - MAX_TEST_VALS ≤ range.1 then _ else _)
    split
    · exact (exhaust_iff hRange hMax).mpr (by omega)
    · obtain ⟨vals, hRun, -, hVals⟩ := sampleRounds_run hMin hMax (by omega) hTests hRandom
      exact ⟨vals, hRun, hVals⟩

theorem argTestRange_le (hSqrt : w.sqrtRange ≤ TEST_RANGE) (hCbrt : w.cbrtRange ≤ TEST_RANGE)
    (args : Int) : argTestRange w args ≤ TEST_RANGE := by
  have hOne : ∀ {range : Int}, range ≤ TEST_RANGE → atLeastOne range ≤ TEST_RANGE := by
    intro range h
    have hPos : 1 ≤ TEST_RANGE := by decide
    unfold atLeastOne
    split <;> omega
  unfold argTestRange
  split
  · exact hOne le_rfl
  · split
    · exact hOne hSqrt
    · exact hOne hCbrt

/-- An int in the range of an argument survives its conversion to a word. -/
theorem within_ofInt {range : Int × Int} {v : Int} (h : Workable range)
    (hv : range.1 ≤ v ∧ v ≤ range.2) : Within range (BitVec.ofInt 32 v) := by
  obtain ⟨hMin, -, hMax, -⟩ := h
  have hLow : TMin = -2147483648 := rfl
  have hHigh : TMax = 2147483647 := rfl
  rw [Within, BitVec.toInt_ofInt, Int.bmod_eq_of_le (by omega) (by omega)]
  exact hv

theorem genArgs_run (hSupplied : Supplied o w t) (hRange : argTestRange w t.args ≤ TEST_RANGE)
    (hWorkable : ∀ arg, Workable (t.argRanges arg)) {n : Nat} (hn : n ≤ 3) (hArgs : n ≤ t.args) :
    ∃ vals, genArgs o w i t n = .ok vals ∧ List.Forall₂ (fun k vals =>
      ∀ v ∈ vals, Within (t.argRanges (argNumber k)) v) (List.range n) vals := by
  induction n with
  | zero => exact ⟨[], rfl, .nil⟩
  | succ n ih =>
    obtain ⟨before, hBefore, hVals⟩ := ih (by omega) (by omega)
    have hNumber : (argNumber n : Int) < t.args := by
      rw [argNumber]
      dsimp only
      rw [Nat.mod_eq_of_lt hn]
      omega
    obtain ⟨last, hLast, hIn⟩ := genVals_workable (hWorkable (argNumber n)) hRange
      (hSupplied.given _ hNumber) (hSupplied.random i (argNumber n))
    refine ⟨before ++ [last.map (BitVec.ofInt 32)], ?_, ?_⟩
    · rw [genArgs, hBefore]
      change Except.bind (genVals _ _ _ _ _ _ _) _ = _
      rw [hLast]
      rfl
    · rw [List.range_succ]
      refine List.rel_append hVals (.cons ?_ .nil)
      intro v hv
      obtain ⟨n', hMem, rfl⟩ := List.mem_map.mp hv
      exact within_ofInt (hWorkable _) (hIn.range n' hMem)

theorem within_chosen {ks : List Nat} {vals : List (List Word)} {args : List Word}
    (hWithin : List.Forall₂ (fun k vals => ∀ v ∈ vals, Within (t.argRanges (argNumber k)) v) ks vals)
    (hChosen : List.Forall₂ (· ∈ ·) args vals) :
    List.Forall₂ (fun k v => Within (t.argRanges (argNumber k)) v) ks args := by
  induction hWithin generalizing args with
  | nil =>
    cases hChosen
    exact .nil
  | cons hFirst _ ih =>
    cases hChosen with
    | cons ha hRest => exact .cons (hFirst _ ha) (ih hRest)

theorem testFunction_correct (hCorrect : t.Correct) (hArgs : 0 ≤ t.args ∧ t.args ≤ 3)
    (hSupplied : Supplied o w t) (hRange : argTestRange w t.args ≤ TEST_RANGE)
    (hWorkable : ∀ arg, Workable (t.argRanges arg)) (hTime : w.timedOut i = false)
    (out : List Line) : (testFunction o w i t).run out = .ok (0, out) := by
  obtain ⟨vals, hVals, hWithin⟩ := genArgs_run (i := i) hSupplied hRange hWorkable
    (n := t.args.toNat) (by omega) (by omega)
  have hAll : ∀ args ∈ combinations vals, ∃ r, t.solutionFunct.call args = some r ∧
      t.testFunct.call args = some r := by
    intro args hMem
    apply hCorrect args
    have hChosen := mem_combinations.mp hMem
    exact within_chosen hWithin hChosen
  have hDefined : ∀ args ∈ combinations vals, t.Defined args := by
    intro args hMem
    obtain ⟨r, hr, hrt⟩ := hAll args hMem
    exact ⟨r, r, hr, hrt⟩
  have hNone : ∀ args ∈ combinations vals, ¬ t.differs args = true := by
    intro args hMem
    obtain ⟨r, hr, hrt⟩ := hAll args hMem
    simp [TestRec.differs, hr, hrt]
  have hAlarm : ¬ (0 < o.timeoutLimit ∧ w.timedOut i = true) := by simp [hTime]
  rw [testFunction_run hArgs hVals hDefined hAlarm, List.any_eq_false.mpr hNone,
    List.find?_eq_none.mpr hNone]
  exact congrArg (fun o => Except.ok (0, o)) (List.append_nil out)

end Supply

/-! ## The full score -/

section FullScore

variable {o : Options} {w : Surroundings} {rounds : Nat}

theorem TestRec.Correct.funct0 {t : TestRec} {f g : Option Word} (hf : t.solutionFunct = .funct0 f)
    (hg : t.testFunct = .funct0 g) (hArgs : t.args = 0)
    (h : ∃ r, f = some r ∧ g = some r) : t.Correct := by
  intro args hRanges
  rw [TestRec.InRanges, hArgs] at hRanges
  cases hRanges
  rw [hf, hg]
  exact h

theorem TestRec.Correct.funct1 {t : TestRec} {f g : Word → Option Word}
    (hf : t.solutionFunct = .funct1 f) (hg : t.testFunct = .funct1 g) (hArgs : t.args = 1)
    (h : ∀ a, Within (t.argRanges 0) a → ∃ r, f a = some r ∧ g a = some r) : t.Correct := by
  intro args hRanges
  rw [TestRec.InRanges, hArgs] at hRanges
  cases hRanges with
  | cons ha hRest =>
    cases hRest
    rw [hf, hg]
    exact h _ ha

theorem TestRec.Correct.funct2 {t : TestRec} {f g : Word → Word → Option Word}
    (hf : t.solutionFunct = .funct2 f) (hg : t.testFunct = .funct2 g) (hArgs : t.args = 2)
    (h : ∀ a b, Within (t.argRanges 0) a → Within (t.argRanges 1) b →
      ∃ r, f a b = some r ∧ g a b = some r) : t.Correct := by
  intro args hRanges
  rw [TestRec.InRanges, hArgs] at hRanges
  cases hRanges with
  | cons ha hRest =>
    cases hRest with
    | cons hb hRest =>
      cases hRest
      rw [hf, hg]
      exact h _ _ ha hb

theorem testSet_correct (hRounds : 33 ≤ rounds) : ∀ t ∈ testSet rounds, t.Correct := by
  simp only [testSet, List.forall_mem_cons]
  refine ⟨.funct0 rfl rfl rfl ?_, .funct1 rfl rfl rfl ?_, .funct2 rfl rfl rfl ?_,
    .funct1 rfl rfl rfl ?_, .funct2 rfl rfl rfl ?_, .funct2 rfl rfl rfl ?_, .funct1 rfl rfl rfl ?_,
    .funct1 rfl rfl rfl ?_, nofun⟩
  · have hSame : testMinusOne = minusOne := by decide
    exact ⟨minusOne, rfl, congrArg some hSame⟩
  · intro x _
    exact ⟨isZero x, rfl, rfl⟩
  · intro x n _ hn
    obtain ⟨r, hRun, hTest, -⟩ := getByte_inRange x hn
    exact ⟨r, hRun, hTest⟩
  · intro x _
    exact ⟨-x, congrArg some (negate_eq x), rfl⟩
  · intro x y _ _
    refine ⟨testAddOK x y, ?_, rfl⟩
    rw [addOK_run, testAddOK_eq]
  · intro highbit lowbit hHi hLo
    obtain ⟨r, hRun, hTest, -⟩ := bitMask_inRange hHi hLo
    exact ⟨r, hRun, hTest rounds hRounds⟩
  · intro x _
    exact ⟨testAbsVal x, absVal_run x, rfl⟩
  · intro x _
    exact ⟨topBit x, greatestBitPos_run x, testGreatestBitPos_run x (by omega)⟩

theorem testSet_bounds : ∀ t ∈ testSet rounds, (0 ≤ t.args ∧ t.args ≤ 3) ∧
    ∀ arg, Workable (t.argRanges arg) := by
  have hAll : ∀ {r0 r1 r2 : Int × Int}, Workable r0 → Workable r1 → Workable r2 →
      ∀ arg, Workable (ranges r0 r1 r2 arg) := by
    intro r0 r1 r2 h0 h1 h2 arg
    match arg with
    | 0 => exact h0
    | 1 => exact h1
    | 2 => exact h2
  have hAny : Workable anyInt := by decide
  simp only [testSet, List.forall_mem_cons]
  refine ⟨⟨by decide, hAll hAny hAny hAny⟩, ⟨by decide, hAll hAny hAny hAny⟩,
    ⟨by decide, hAll hAny (by decide) hAny⟩, ⟨by decide, hAll hAny hAny hAny⟩,
    ⟨by decide, hAll hAny hAny hAny⟩, ⟨by decide, hAll (by decide) (by decide) hAny⟩,
    ⟨by decide, hAll (by decide) hAny hAny⟩, ⟨by decide, hAll hAny hAny hAny⟩, nofun⟩

/-- The points of the selected functions. -/
def fullScore (o : Options) (ts : List TestRec) : Nat :=
  ((ts.filter (fun t => o.selects t.name)).map o.ratingOf).sum

/-- The lines about functions that pass. -/
def scores (o : Options) (ts : List TestRec) : List Line :=
  (ts.filter (fun t => o.selects t.name)).map fun t =>
    .score (o.ratingOf t) (o.ratingOf t) 0 t.name

theorem runTestsFrom_correct {ts : List TestRec} (hTests : ∀ t ∈ ts, t.Correct ∧
      (0 ≤ t.args ∧ t.args ≤ 3) ∧ ∀ arg, Workable (t.argRanges arg))
    (hSupplied : ∀ t ∈ ts, o.selects t.name = true → Supplied o w t)
    (hRange : ∀ args, argTestRange w args ≤ TEST_RANGE) (hTime : ∀ i, w.timedOut i = false)
    (i : Nat) (s : Sums) (out : List Line) :
    (runTestsFrom o w i ts s).run out =
      .ok (⟨s.errors, s.points + fullScore o ts, s.maxPoints + fullScore o ts⟩,
        out ++ scores o ts) := by
  induction ts generalizing i s out with
  | nil => exact congrArg (fun o => Except.ok (s, o)) (List.append_nil out).symm
  | cons t ts ih =>
    obtain ⟨⟨hCorrect, hArgs, hWorkable⟩, hRest⟩ := List.forall_mem_cons.mp hTests
    have hSuppliedRest := fun t' hMem => hSupplied t' (List.mem_cons_of_mem t hMem)
    rw [runTestsFrom, scores, fullScore]
    split
    · rename_i hSelected
      have hRun := testFunction_correct (i := i) hCorrect hArgs
        (hSupplied t List.mem_cons_self hSelected) (hRange t.args) hWorkable (hTime i) out
      have hPoints : (if (0 : Nat) = 0 then o.ratingOf t else 0) = o.ratingOf t := if_pos rfl
      have hPrint : (printIf (o.grade || decide ((0 : Nat) < 1))
          (.score (o.ratingOf t) (o.ratingOf t) 0 t.name)).run out =
          .ok ((), out ++ [.score (o.ratingOf t) (o.ratingOf t) 0 t.name]) := by
        rw [show decide ((0 : Nat) < 1) = true from rfl, Bool.or_true]
        rfl
      rw [Exec.run_bind_ok hRun, hPoints, Exec.run_bind_ok hPrint, ih hRest hSuppliedRest,
        List.filter_cons_of_pos (by exact hSelected)]
      simp only [List.map_cons, List.sum_cons, Nat.add_assoc, List.append_assoc, Nat.add_zero]
      rfl
    · rename_i hOther
      rw [List.filter_cons_of_neg (by exact hOther), ih hRest hSuppliedRest]
      rfl

theorem fullScore_testSet (hAll : o.testFname = none) : fullScore o (testSet rounds) =
    if o.globalRating ≠ 0 then 8 * o.globalRating else 20 := by
  have hSelects : ∀ t ∈ testSet rounds, o.selects t.name = true := by
    intro t _
    rw [Options.selects, hAll]
    rfl
  rw [fullScore, List.filter_eq_self.mpr hSelects]
  by_cases hGlobal : o.globalRating ≠ 0
  · simp [testSet, Options.ratingOf, hGlobal]
    omega
  · simp [testSet, Options.ratingOf, hGlobal]

theorem runTests_correct (hRounds : 33 ≤ rounds)
    (hSupplied : ∀ t ∈ testSet rounds, o.selects t.name = true → Supplied o w t)
    (hSqrt : w.sqrtRange ≤ TEST_RANGE) (hCbrt : w.cbrtRange ≤ TEST_RANGE)
    (hTime : ∀ i, w.timedOut i = false) (out : List Line) :
    (runTests o w (testSet rounds)).run out = .ok (0, out ++ .header :: scores o (testSet rounds) ++
      [.total (fullScore o (testSet rounds)) (fullScore o (testSet rounds))]) := by
  have hTests := fun t hMem => And.intro (testSet_correct hRounds t hMem) (testSet_bounds t hMem)
  have hRun := runTestsFrom_correct hTests hSupplied (argTestRange_le hSqrt hCbrt) hTime 0 ⟨0, 0, 0⟩
    (out ++ [.header])
  have hPrint : ∀ line out, (printLine line).run out = .ok ((), out ++ [line]) := fun _ _ => rfl
  rw [runTests, Exec.run_bind_ok (hPrint _ _), Exec.run_bind_ok hRun, Exec.run_bind_ok (hPrint _ _)]
  simp

end FullScore

/-- Whatever the random values and the selection, every selected function gets its full rating and
btest counts no error. -/
theorem runTests_full (o : Options) (w : Surroundings) (rounds : Nat) (hRounds : 33 ≤ rounds)
    (hSupplied : ∀ t ∈ testSet rounds, o.selects t.name = true → Supplied o w t)
    (hSqrt : w.sqrtRange ≤ TEST_RANGE) (hCbrt : w.cbrtRange ≤ TEST_RANGE)
    (hTime : ∀ i, w.timedOut i = false) (out : List Line) :
    (runTests o w (testSet rounds)).run out = .ok (0, out ++ .header :: scores o (testSet rounds) ++
        [.total (fullScore o (testSet rounds)) (fullScore o (testSet rounds))]) ∧
      (o.testFname = none → fullScore o (testSet rounds) =
        if o.globalRating ≠ 0 then 8 * o.globalRating else 20) :=
  ⟨runTests_correct hRounds hSupplied hSqrt hCbrt hTime out, fullScore_testSet⟩

/-- A run without arguments, where `random_val` always returns its lower bound. -/
theorem runTests_full_default :
    let o : Options := ⟨false, 10, none, fun _ => false, fun _ => 0, 0⟩
    let w : Surroundings := ⟨fun _ _ min _ _ => min, fun _ => false, 707, 79⟩
    (runTests o w (testSet 33)).run [] =
        .ok (0, .header :: scores o (testSet 33) ++
          [.total (fullScore o (testSet 33)) (fullScore o (testSet 33))]) ∧
      fullScore o (testSet 33) = 20 := by
  intro o w
  have hSupplied : ∀ t ∈ testSet 33, o.selects t.name = true → Supplied o w t := by
    intro t hMem _
    obtain ⟨-, hWorkable⟩ := testSet_bounds t hMem
    exact ⟨fun _ arg _ => ⟨le_rfl, (hWorkable arg).2.1⟩, nofun⟩
  obtain ⟨hRun, hScore⟩ := runTests_full o w 33 le_rfl hSupplied (by decide) (by decide) (fun _ => rfl) []
  exact ⟨hRun, hScore rfl⟩

end Cs33.Datalab
