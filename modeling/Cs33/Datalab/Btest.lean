import Cs33.Datalab.GenVals
import Cs33.Datalab.Puzzles
import Cs33.Lib.Exec
import Cs33.Lib.Text
import Mathlib.Data.List.Forall2

/-! # The test harness btest.c

`test_function` runs a function and its reference on every combination of the
generated values and returns at the first difference; `run_tests` scores all
functions of the test set. A test that takes too long ends with an alarm, and
which ones do is given, as are the values of `random_val` and `pow`. Ratings
are not negative, and the points are whole numbers.
-/

namespace Cs33.Datalab

open Text

/-- A function pointer with its number of arguments; a call may be undefined. -/
inductive Funct where
  | funct0 (f : Option Word)
  | funct1 (f : Word → Option Word)
  | funct2 (f : Word → Word → Option Word)
  | funct3 (f : Word → Word → Word → Option Word)

def Funct.call : Funct → List Word → Option Word
  | .funct0 f, [] => f
  | .funct1 f, [arg1] => f arg1
  | .funct2 f, [arg1, arg2] => f arg1 arg2
  | .funct3 f, [arg1, arg2, arg3] => f arg1 arg2 arg3
  | _, _ => none

/-- The fields of a `test_rec` that btest.c reads. -/
structure TestRec where
  name : Chars
  solutionFunct : Funct
  testFunct : Funct
  args : Int
  rating : Nat
  argRanges : Fin 3 → Int × Int

/-- The globals that the command line sets. -/
structure Options where
  grade : Bool
  timeoutLimit : Int
  testFname : Option Chars
  hasArg : Fin 3 → Bool
  argval : Fin 3 → Word
  globalRating : Nat

/-- What the process meets: for each test the random values and whether its alarm goes off, and
the roots of `TEST_RANGE` as `pow` gives them. -/
structure Surroundings where
  randomVal : Nat → Fin 3 → Int → Int → Nat → Int
  timedOut : Nat → Bool
  sqrtRange : Int
  cbrtRange : Int

/-- What btest prints. -/
inductive Line where
  | header
  | failed (name : Chars) (args : List Word) (r rt : Word)
  | timedOut (name : Chars) (limit : Int)
  | score (tpoints rating terrors : Nat) (name : Chars)
  | total (points maxPoints : Nat)
deriving DecidableEq, Repr

inductive BtestHalt where
  | configuration (args : Int) (name : Chars)
  | generation (fault : Fault)
  | undefined
deriving DecidableEq, Repr

abbrev B := Exec (List Line) BtestHalt

def printLine (line : Line) : B Unit := Exec.modify (· ++ [line])

/-- A line under a test. -/
def printIf (test : Bool) (line : Line) : B Unit := Exec.modify (· ++ if test then [line] else [])

def callFunct (f : Funct) (args : List Word) : B Word where
  run out :=
    match f.call args with
    | some r => .ok (r, out)
    | none => .error .undefined

def generated (vals : Except Fault (List (List Word))) : B (List (List Word)) where
  run out :=
    match vals with
    | .ok vals => .ok (vals, out)
    | .error fault => .error (.generation fault)

/-- What `test_0_arg` to `test_3_arg` do with their arguments. -/
def testArgs (o : Options) (f ft : Funct) (args : List Word) (name : Chars) : B Nat := do
  let r ← callFunct f args
  let rt ← callFunct ft args
  let error := if r ≠ rt then 1 else 0
  printIf (error != 0 && !o.grade) (.failed name args r rt)
  return error

def test0Arg (o : Options) (f ft : Funct) (name : Chars) : B Nat := testArgs o f ft [] name

def test1Arg (o : Options) (f ft : Funct) (arg1 : Word) (name : Chars) : B Nat :=
  testArgs o f ft [arg1] name

def test2Arg (o : Options) (f ft : Funct) (arg1 arg2 : Word) (name : Chars) : B Nat :=
  testArgs o f ft [arg1, arg2] name

def test3Arg (o : Options) (f ft : Funct) (arg1 arg2 arg3 : Word) (name : Chars) : B Nat :=
  testArgs o f ft [arg1, arg2, arg3] name

/-- A loop over test values that stops testing if there is an error. -/
def firstError {α : Type} (test : α → B Nat) : List α → B Nat
  | [] => return 0
  | val :: vals => do
    let errors ← test val
    if errors ≠ 0 then
      return errors
    else
      firstError test vals

/-- The sanity check on a range. -/
def atLeastOne (range : Int) : Nat := if range < 1 then 1 else range.toNat

def argTestRange (w : Surroundings) (args : Int) : Nat :=
  if args = 1 then atLeastOne TEST_RANGE
  else if args = 2 then atLeastOne w.sqrtRange
  else atLeastOne w.cbrtRange

def argNumber (n : Nat) : Fin 3 := ⟨n % 3, Nat.mod_lt n (by decide)⟩

/-- The test values of the first `n` arguments. -/
def genArgs (o : Options) (w : Surroundings) (i : Nat) (t : TestRec) :
    Nat → Except Fault (List (List Word))
  | 0 => .ok []
  | n + 1 => do
    let before ← genArgs o w i t n
    let arg := argNumber n
    let (min, max) := t.argRanges arg
    let vals ← genVals o.hasArg o.argval (w.randomVal i arg) min max (argTestRange w t.args) arg
    return before ++ [vals.map (BitVec.ofInt 32)]

def testFunction (o : Options) (w : Surroundings) (i : Nat) (t : TestRec) : B Nat := do
  if t.args < 0 ∨ 3 < t.args then
    Exec.stop (.configuration t.args t.name)
  else
    let vals ← generated (genArgs o w i t t.args.toNat)
    if 0 < o.timeoutLimit ∧ w.timedOut i = true then
      printLine (.timedOut t.name o.timeoutLimit)
      return 1
    else
      match vals with
      | [] => test0Arg o t.solutionFunct t.testFunct t.name
      | [vals1] =>
        firstError (fun a1 => test1Arg o t.solutionFunct t.testFunct a1 t.name) vals1
      | [vals1, vals2] =>
        firstError (fun a1 =>
          firstError (fun a2 => test2Arg o t.solutionFunct t.testFunct a1 a2 t.name) vals2) vals1
      | [vals1, vals2, vals3] =>
        firstError (fun a1 =>
          firstError (fun a2 =>
            firstError (fun a3 => test3Arg o t.solutionFunct t.testFunct a1 a2 a3 t.name)
              vals3) vals2) vals1
      | _ => Exec.stop (.configuration t.args t.name)

/-- The sums of `run_tests`. -/
structure Sums where
  errors : Nat
  points : Nat
  maxPoints : Nat
deriving DecidableEq, Repr

def Options.selects (o : Options) (name : Chars) : Bool := o.testFname.all (· == name)

def Options.ratingOf (o : Options) (t : TestRec) : Nat :=
  if o.globalRating ≠ 0 then o.globalRating else t.rating

def runTestsFrom (o : Options) (w : Surroundings) : Nat → List TestRec → Sums → B Sums
  | _, [], s => return s
  | i, t :: ts, s =>
    if o.selects t.name = true then do
      let rating := o.ratingOf t
      let terrors ← testFunction o w i t
      let tpoints := if terrors = 0 then rating else 0
      printIf (o.grade || terrors < 1) (.score tpoints rating terrors t.name)
      runTestsFrom o w (i + 1) ts ⟨s.errors + terrors, s.points + tpoints, s.maxPoints + rating⟩
    else
      runTestsFrom o w (i + 1) ts s

/-- The test set up to the entry without a function. -/
def runTests (o : Options) (w : Surroundings) (testSet : List TestRec) : B Nat := do
  printLine .header
  let s ← runTestsFrom o w 0 testSet ⟨0, 0, 0⟩
  printLine (.total s.points s.maxPoints)
  return s.errors

/-! ## The loops over the test values -/

theorem firstError_append {α : Type} (test : α → B Nat) (xs ys : List α) :
    firstError test (xs ++ ys) = (do
      let errors ← firstError test xs
      if errors ≠ 0 then return errors else firstError test ys) := by
  induction xs with
  | nil => rfl
  | cons x xs ih =>
    rw [List.cons_append, firstError, firstError, Exec.bind_assoc]
    congr 1
    funext errors
    rw [Exec.ite_bind, ih]
    split
    · rename_i hError
      exact (if_pos hError).symm
    · rfl

/-- Nested loops that stop at the first error are one loop over all combinations. -/
theorem firstError_flatMap {α β : Type} (test : β → B Nat) (f : α → List β) (xs : List α) :
    firstError (fun x => firstError test (f x)) xs = firstError test (xs.flatMap f) := by
  induction xs with
  | nil => rfl
  | cons x xs ih => rw [List.flatMap_cons, firstError_append, firstError, ih]

theorem firstError_map {α β : Type} (test : β → B Nat) (f : α → β) (xs : List α) :
    firstError (fun x => test (f x)) xs = firstError test (xs.map f) := by
  induction xs with
  | nil => rfl
  | cons x xs ih => rw [List.map_cons, firstError, firstError, ih]

/-- The combinations of the test values, one list for each argument, in the order of the loops. -/
def combinations : List (List Word) → List (List Word)
  | [] => [[]]
  | vals :: rest => vals.flatMap fun a => (combinations rest).map (a :: ·)

theorem combinations_last (vals : List Word) : combinations [vals] = vals.map fun a => [a] := by
  rw [combinations, List.map_eq_flatMap]
  rfl

theorem firstError_run {α : Type} {test : α → B Nat} {bad : α → Bool} {msg : α → List Line}
    {xs : List α} (hTest : ∀ x ∈ xs, ∀ out, (test x).run out =
      .ok (if bad x then 1 else 0, out ++ if bad x then msg x else [])) (out : List Line) :
    (firstError test xs).run out =
      .ok (if xs.any bad then 1 else 0, out ++ ((xs.find? bad).elim [] msg)) := by
  induction xs generalizing out with
  | nil => exact congrArg (fun o => Except.ok (0, o)) (List.append_nil out).symm
  | cons x xs ih =>
    obtain ⟨hFirst, hRest⟩ := List.forall_mem_cons.mp hTest
    rw [firstError, Exec.run_bind_ok (hFirst out)]
    cases hBad : bad x with
    | true =>
      rw [List.any_cons, hBad, List.find?_cons_of_pos hBad]
      rfl
    | false =>
      have hNot : ¬ bad x = true := by simp [hBad]
      rw [List.any_cons, hBad, List.find?_cons_of_neg hNot, Bool.false_or, ← ih hRest out]
      simp

/-! ## The verdict on one function -/

/-- Both functions have a value for these arguments. -/
def TestRec.Defined (t : TestRec) (args : List Word) : Prop :=
  ∃ r rt, t.solutionFunct.call args = some r ∧ t.testFunct.call args = some rt

def TestRec.differs (t : TestRec) (args : List Word) : Bool :=
  t.solutionFunct.call args != t.testFunct.call args

/-- The message on a difference; there is none when grading. -/
def TestRec.message (t : TestRec) (o : Options) (args : List Word) : List Line :=
  match t.solutionFunct.call args, t.testFunct.call args with
  | some r, some rt => if o.grade then [] else [.failed t.name args r rt]
  | _, _ => []

section Verdict

variable {o : Options} {w : Surroundings} {i : Nat} {t : TestRec} {vals : List (List Word)}

theorem testArgs_run {args : List Word} (h : t.Defined args) (out : List Line) :
    (testArgs o t.solutionFunct t.testFunct args t.name).run out =
      .ok (if t.differs args then 1 else 0,
        out ++ if t.differs args then t.message o args else []) := by
  obtain ⟨r, rt, hr, hrt⟩ := h
  have hCall : (callFunct t.solutionFunct args).run out = .ok (r, out) := by
    rw [callFunct]
    dsimp only
    rw [hr]
  have hCall' : (callFunct t.testFunct args).run out = .ok (rt, out) := by
    rw [callFunct]
    dsimp only
    rw [hrt]
  have hDiffers : t.differs args = decide (r ≠ rt) := by
    rw [TestRec.differs, hr, hrt]
    by_cases h : r = rt <;> simp [h]
  have hMessage : t.message o args = if o.grade then [] else [.failed t.name args r rt] := by
    rw [TestRec.message, hr, hrt]
  rw [testArgs, Exec.run_bind_ok hCall, Exec.run_bind_ok hCall', hDiffers, hMessage]
  by_cases h : r = rt
  · rw [if_neg (not_not.mpr h), decide_eq_false (not_not.mpr h)]
    rfl
  · rw [if_pos h, decide_eq_true h]
    cases o.grade <;>
    · simp only [printIf]
      rfl

theorem genArgs_length {n : Nat} (h : genArgs o w i t n = .ok vals) : vals.length = n := by
  induction n generalizing vals with
  | zero =>
    cases h
    rfl
  | succ n ih =>
    rw [genArgs] at h
    cases hBefore : genArgs o w i t n with
    | error fault =>
      rw [hBefore] at h
      cases h
    | ok before =>
      rw [hBefore] at h
      change Except.bind (genVals _ _ _ _ _ _ _) _ = _ at h
      cases hVals : genVals o.hasArg o.argval (w.randomVal i (argNumber n))
          (t.argRanges (argNumber n)).1 (t.argRanges (argNumber n)).2 (argTestRange w t.args)
          (argNumber n) with
      | error fault =>
        rw [hVals] at h
        cases h
      | ok last =>
        rw [hVals] at h
        cases h
        rw [List.length_append, ih hBefore]
        rfl

theorem generated_run (hVals : genArgs o w i t t.args.toNat = .ok vals) (out : List Line) :
    (generated (genArgs o w i t t.args.toNat)).run out = .ok (vals, out) := by
  rw [generated]
  dsimp only
  rw [hVals]

theorem testFunction_late (hArgs : 0 ≤ t.args ∧ t.args ≤ 3)
    (hVals : genArgs o w i t t.args.toNat = .ok vals)
    (hTime : 0 < o.timeoutLimit ∧ w.timedOut i = true) (out : List Line) :
    (testFunction o w i t).run out = .ok (1, out ++ [.timedOut t.name o.timeoutLimit]) := by
  rw [testFunction, if_neg (by omega), Exec.run_bind_ok (generated_run hVals out), if_pos hTime]
  rfl

/-- The nested loops run the test on the combinations until one differs. -/
theorem testFunction_run (hArgs : 0 ≤ t.args ∧ t.args ≤ 3)
    (hVals : genArgs o w i t t.args.toNat = .ok vals)
    (hDefined : ∀ args ∈ combinations vals, t.Defined args)
    (hTime : ¬ (0 < o.timeoutLimit ∧ w.timedOut i = true)) (out : List Line) :
    (testFunction o w i t).run out =
      .ok (if (combinations vals).any t.differs then 1 else 0,
        out ++ ((combinations vals).find? t.differs).elim [] (t.message o)) := by
  let test := fun args => testArgs o t.solutionFunct t.testFunct args t.name
  have hTest : ∀ args ∈ combinations vals, ∀ out, (test args).run out =
      .ok (if t.differs args then 1 else 0, out ++ if t.differs args then t.message o args else []) :=
    fun args hMem => testArgs_run (hDefined args hMem)
  have hAll := firstError_run hTest out
  have hLength : vals.length ≤ 3 := by
    rw [genArgs_length hVals]
    omega
  rw [testFunction, if_neg (by omega), Exec.run_bind_ok (generated_run hVals out), if_neg hTime, ← hAll]
  match vals, hLength with
  | [], _ =>
    have hOne : firstError test (combinations []) = test [] := by
      change (test [] >>= fun errors => if errors ≠ 0 then pure errors else pure 0) = _
      have hSame : (fun errors : Nat => if errors ≠ 0 then (pure errors : B Nat) else pure 0) = pure := by
        funext errors
        split
        · rfl
        · rename_i h
          rw [not_not.mp h]
      rw [hSame]
      ext1
      funext out
      rw [Exec.run_bind]
      cases (test []).run out <;> rfl
    rw [hOne]
    rfl
  | [vals1], _ =>
    have hOne : combinations [vals1] = vals1.map fun a1 => [a1] := combinations_last vals1
    rw [hOne, ← firstError_map]
    rfl
  | [vals1, vals2], _ =>
    have hLast : ∀ a1, firstError (fun a2 => test [a1, a2]) vals2 =
        firstError test ((combinations [vals2]).map (a1 :: ·)) := by
      intro a1
      rw [combinations_last, List.map_map, ← firstError_map]
      rfl
    rw [combinations, ← firstError_flatMap]
    simp only [← hLast]
    rfl
  | [vals1, vals2, vals3], _ =>
    have hLast : ∀ a1 a2, firstError (fun a3 => test [a1, a2, a3]) vals3 =
        firstError test ((combinations [vals3]).map fun rest => a1 :: a2 :: rest) := by
      intro a1 a2
      rw [combinations_last, List.map_map, ← firstError_map]
      rfl
    have hInner : ∀ a1, firstError (fun a2 => firstError (fun a3 => test [a1, a2, a3]) vals3) vals2 =
        firstError test ((combinations [vals2, vals3]).map (a1 :: ·)) := by
      intro a1
      rw [combinations, List.map_flatMap, ← firstError_flatMap]
      simp only [hLast, List.map_map]
      rfl
    rw [combinations, ← firstError_flatMap]
    simp only [← hInner]
    rfl

theorem mem_combinations {args : List Word} :
    args ∈ combinations vals ↔ List.Forall₂ (· ∈ ·) args vals := by
  induction vals generalizing args with
  | nil => rw [combinations, List.mem_singleton, List.forall₂_nil_right_iff]
  | cons vals rest ih =>
    constructor
    · intro h
      obtain ⟨a, ha, hArgs⟩ := List.mem_flatMap.mp h
      obtain ⟨args, hRest, rfl⟩ := List.mem_map.mp hArgs
      exact .cons ha (ih.mp hRest)
    · intro h
      cases h with
      | cons ha hRest =>
        exact List.mem_flatMap.mpr ⟨_, ha, List.mem_map.mpr ⟨_, ih.mpr hRest, rfl⟩⟩

theorem TestRec.Defined.differs_iff {args : List Word} (h : t.Defined args) :
    t.differs args = true ↔ ∃ r rt, t.solutionFunct.call args = some r ∧
      t.testFunct.call args = some rt ∧ r ≠ rt := by
  obtain ⟨r, rt, hr, hrt⟩ := h
  simp [TestRec.differs, hr, hrt]

end Verdict

/-- A function passes if its test ends in time and it agrees with its reference on every combination
of the test values. Otherwise it has one error, and the message is about the time or about the first
combination that differs. -/
theorem testFunction_verdict (o : Options) (w : Surroundings) (i : Nat) (t : TestRec)
    (vals : List (List Word)) (hArgs : 0 ≤ t.args ∧ t.args ≤ 3)
    (hVals : genArgs o w i t t.args.toNat = .ok vals)
    (hDefined : ¬ (0 < o.timeoutLimit ∧ w.timedOut i = true) →
      ∀ args, List.Forall₂ (· ∈ ·) args vals → t.Defined args) (out : List Line) :
    ∃ errors report, (testFunction o w i t).run out = .ok (errors, out ++ report) ∧
      if 0 < o.timeoutLimit ∧ w.timedOut i = true then
        errors = 1 ∧ report = [.timedOut t.name o.timeoutLimit]
      else
        errors = 0 ∧ report = [] ∧ (∀ args, List.Forall₂ (· ∈ ·) args vals →
            t.solutionFunct.call args = t.testFunct.call args) ∨
          errors = 1 ∧ ∃ before args after r rt, combinations vals = before ++ args :: after ∧
            (∀ args ∈ before, t.solutionFunct.call args = t.testFunct.call args) ∧
            t.solutionFunct.call args = some r ∧ t.testFunct.call args = some rt ∧ r ≠ rt ∧
            report = if o.grade then [] else [.failed t.name args r rt] := by
  split
  · rename_i hTime
    exact ⟨_, _, testFunction_late hArgs hVals hTime out, rfl, rfl⟩
  · rename_i hTime
    have hMem : ∀ args ∈ combinations vals, t.Defined args :=
      fun args h => hDefined hTime args (mem_combinations.mp h)
    have hRun := testFunction_run hArgs hVals hMem hTime out
    have hSame : ∀ args, t.differs args = false →
        t.solutionFunct.call args = t.testFunct.call args := by
      intro args h
      simpa [TestRec.differs] using h
    refine ⟨_, _, hRun, ?_⟩
    cases hFind : (combinations vals).find? t.differs with
    | none =>
      have hAll := List.find?_eq_none.mp hFind
      have hAny : (combinations vals).any t.differs = false := List.any_eq_false.mpr hAll
      refine .inl ⟨by rw [hAny]; rfl, rfl, ?_⟩
      intro args h
      apply hSame
      exact Bool.eq_false_of_not_eq_true (hAll args (mem_combinations.mpr h))
    | some args =>
      obtain ⟨hDiffers, before, after, hSplit, hBefore⟩ := List.find?_eq_some_iff_append.mp hFind
      have hHere : args ∈ combinations vals := by rw [hSplit]; simp
      have hAny : (combinations vals).any t.differs = true :=
        List.any_eq_true.mpr ⟨args, hHere, hDiffers⟩
      obtain ⟨r, rt, hr, hrt, hNe⟩ := (hMem args hHere).differs_iff.mp hDiffers
      refine .inr ⟨by rw [hAny]; rfl, before, args, after, r, rt, hSplit, ?_, hr, hrt, hNe, ?_⟩
      · intro args' h
        apply hSame
        simpa using hBefore args' h
      · rw [Option.elim_some, TestRec.message, hr, hrt]

section Mask

/-- A mask that does not mind the order of its bounds. -/
def looseMask (highbit lowbit : Word) : Option Word :=
  some ((-1 <<< (highbit.toNat + 1)) ^^^ (-1 <<< lowbit.toNat))

def looseTest : TestRec :=
  ⟨"bitMask".toList, .funct2 looseMask, .funct2 (testBitMask 33), 2, 3, fun _ => (0, 2)⟩

def plainOptions : Options := ⟨false, 10, none, fun _ => false, fun _ => 0, 0⟩

def calmSurroundings : Surroundings := ⟨fun _ _ min _ _ => min, fun _ => false, 707, 79⟩

theorem genArgs_loose :
    genArgs plainOptions calmSurroundings 0 looseTest 2 = .ok [[0, 1, 2], [0, 1, 2]] := by
  have hGen : ∀ arg, genVals plainOptions.hasArg plainOptions.argval (calmSurroundings.randomVal 0 arg)
      0 2 707 arg = .ok [0, 1, 2] := by
    intro arg
    rw [genVals_int rfl (by decide), checkedInt_fits (by decide)]
    change exhaust 2 0 [] = _
    rw [exhaust_next (by decide) (by decide) (by decide),
      exhaust_next (by decide) (by decide) (by decide),
      exhaust_next (by decide) (by decide) (by decide), exhaust_done (by decide)]
    rfl
  have hNext : ∀ n before, genArgs plainOptions calmSurroundings 0 looseTest n = .ok before →
      genArgs plainOptions calmSurroundings 0 looseTest (n + 1) = .ok (before ++ [[0, 1, 2]]) := by
    intro n before h
    rw [genArgs, h]
    change Except.bind (genVals _ _ _ 0 2 707 _) _ = _
    rw [hGen]
    rfl
  exact hNext 1 _ (hNext 0 _ rfl)

theorem looseTest_defined (args : List Word) (h : List.Forall₂ (· ∈ ·) args [[0, 1, 2], [0, 1, 2]]) :
    looseTest.Defined args := by
  have hSome : ∀ args ∈ combinations [[0, 1, 2], [0, 1, 2]],
      (looseTest.solutionFunct.call args).isSome ∧ (looseTest.testFunct.call args).isSome := by decide
  obtain ⟨hr, hrt⟩ := hSome args (mem_combinations.mpr h)
  exact ⟨_, _, (Option.some_get hr).symm, (Option.some_get hrt).symm⟩

/-- Of the nine combinations the third is the first on which the mask is wrong. -/
theorem looseTest_first {before after : List (List Word)} {args : List Word}
    (hSplit : combinations [[0, 1, 2], [0, 1, 2]] = before ++ args :: after)
    (hBefore : ∀ args ∈ before, looseTest.solutionFunct.call args = looseTest.testFunct.call args)
    (hWrong : looseTest.solutionFunct.call args ≠ looseTest.testFunct.call args) : args = [0, 2] := by
  have hThird : looseTest.solutionFunct.call [0, 2] ≠ looseTest.testFunct.call [0, 2] := by decide
  match before, hSplit, hBefore with
  | [], hSplit, _ =>
    obtain ⟨rfl, -⟩ := List.cons.inj hSplit
    exact absurd (by decide) hWrong
  | [_], hSplit, _ =>
    obtain ⟨-, hSplit⟩ := List.cons.inj hSplit
    obtain ⟨rfl, -⟩ := List.cons.inj hSplit
    exact absurd (by decide) hWrong
  | [_, _], hSplit, _ =>
    obtain ⟨-, hSplit⟩ := List.cons.inj hSplit
    obtain ⟨-, hSplit⟩ := List.cons.inj hSplit
    exact (List.cons.inj hSplit).1.symm
  | a :: b :: c :: rest, hSplit, hBefore =>
    obtain ⟨-, hSplit⟩ := List.cons.inj hSplit
    obtain ⟨-, hSplit⟩ := List.cons.inj hSplit
    obtain ⟨rfl, -⟩ := List.cons.inj hSplit
    exact absurd (hBefore _ (by simp)) hThird

end Mask

theorem testFunction_verdict_mask : (testFunction plainOptions calmSurroundings 0 looseTest).run [] =
    .ok (1, [.failed "bitMask".toList [0, 2] 2 0]) := by
  obtain ⟨errors, report, hRun, h⟩ := testFunction_verdict plainOptions calmSurroundings 0 looseTest
    [[0, 1, 2], [0, 1, 2]] ⟨by decide, by decide⟩ genArgs_loose (fun _ => looseTest_defined) []
  rw [if_neg (by decide)] at h
  obtain ⟨-, -, hSame⟩ | ⟨rfl, before, args, after, r, rt, hSplit, hBefore, hr, hrt, hNe, rfl⟩ := h
  · have hThird := hSame [0, 2] (mem_combinations.mp (by decide))
    exact absurd hThird (by decide)
  · have hWrong : looseTest.solutionFunct.call args ≠ looseTest.testFunct.call args := by
      rw [hr, hrt]
      simpa using hNe
    obtain rfl := looseTest_first hSplit hBefore hWrong
    have hTwo : looseTest.solutionFunct.call [0, 2] = some 2 := by decide
    have hZero : looseTest.testFunct.call [0, 2] = some 0 := by decide
    obtain rfl := Option.some.inj (hTwo.symm.trans hr)
    obtain rfl := Option.some.inj (hZero.symm.trans hrt)
    exact hRun

/-! ## The run over all functions -/

/-- What `run_tests` learns about a function, and what its test prints. -/
structure Verdict where
  tested : TestRec
  errors : Nat
  report : List Line

namespace Verdict

def tpoints (o : Options) (v : Verdict) : Nat := if v.errors = 0 then o.ratingOf v.tested else 0

/-- The lines about a function. -/
def block (o : Options) (v : Verdict) : List Line :=
  v.report ++ if o.grade || v.errors < 1 then
    [.score (v.tpoints o) (o.ratingOf v.tested) v.errors v.tested.name] else []

/-- A run of the test gave this verdict. -/
def Given (o : Options) (w : Surroundings) (v : Verdict) : Prop :=
  ∃ i out, (testFunction o w i v.tested).run out = .ok (v.errors, out ++ v.report)

/-- One error at most, and only an error is reported. When grading that is the end of a test
that takes too long. -/
structure Fair (o : Options) (w : Surroundings) (v : Verdict) : Prop where
  errors_le : v.errors ≤ 1
  silent : v.errors = 0 → v.report = []
  grading : o.grade = true → v.report = [] ∨
    v.report = [.timedOut v.tested.name o.timeoutLimit] ∧ 0 < o.timeoutLimit ∧
      ∃ i, w.timedOut i = true

end Verdict

section RunTests

variable {o : Options} {w : Surroundings} {i : Nat} {t : TestRec} {out out' : List Line} {errors : Nat}

/-- What a test of some arguments returns and prints. -/
def Reports (o : Options) (w : Surroundings) (t : TestRec) (x : B Nat) : Prop :=
  ∀ {out errors out'}, x.run out = .ok (errors, out') →
    ∃ report, out' = out ++ report ∧ Verdict.Fair o w ⟨t, errors, report⟩

theorem testArgs_reports (args : List Word) :
    Reports o w t (testArgs o t.solutionFunct t.testFunct args t.name) := by
  intro out errors out' h
  obtain ⟨r, s, hr, h⟩ := Exec.run_bind_eq_ok.mp h
  obtain ⟨rt, s', hrt, h⟩ := Exec.run_bind_eq_ok.mp h
  have hCall : ∀ {f args s s'} {r : Word}, (callFunct f args).run s = .ok (r, s') → s = s' := by
    intro f args s s' r h
    rw [callFunct] at h
    dsimp only at h
    split at h <;> cases h
    rfl
  obtain rfl := hCall hr
  obtain rfl := hCall hrt
  cases h
  refine ⟨_, rfl, ?_, ?_, ?_⟩
  · dsimp only
    split <;> decide
  · intro hZero
    simp only at hZero
    simp [hZero]
  · intro hGrade
    simp [hGrade]

theorem firstError_reports {α : Type} {test : α → B Nat} (h : ∀ x, Reports o w t (test x))
    (xs : List α) : Reports o w t (firstError test xs) := by
  induction xs with
  | nil =>
    intro out errors out' hRun
    cases hRun
    exact ⟨[], (List.append_nil _).symm, Nat.zero_le _, fun _ => rfl, fun _ => .inl rfl⟩
  | cons x xs ih =>
    intro out errors out' hRun
    obtain ⟨first, s, hFirst, hRest⟩ := Exec.run_bind_eq_ok.mp hRun
    obtain ⟨report, rfl, hFair⟩ := h x hFirst
    split at hRest
    · cases hRest
      exact ⟨report, rfl, hFair⟩
    · rename_i hNone
      have hSilent : report = [] := hFair.silent (not_not.mp hNone)
      rw [hSilent, List.append_nil] at hRest
      exact ih hRest

theorem testFunction_reports : Reports o w t (testFunction o w i t) := by
  intro out errors out' h
  unfold testFunction at h
  split at h
  · cases h
  · obtain ⟨vals, s, hGenerated, hRest⟩ := Exec.run_bind_eq_ok.mp h
    have hSame : s = out := by
      rw [generated] at hGenerated
      dsimp only at hGenerated
      split at hGenerated <;> cases hGenerated
      rfl
    subst hSame
    split at hRest
    · rename_i hTime
      cases hRest
      exact ⟨_, rfl, le_rfl, nofun, fun _ => .inr ⟨rfl, hTime.1, i, hTime.2⟩⟩
    · split at hRest
      · exact testArgs_reports _ hRest
      · exact firstError_reports (fun _ => testArgs_reports _) _ hRest
      · exact firstError_reports (fun _ => firstError_reports (fun _ => testArgs_reports _) _) _ hRest
      · exact firstError_reports (fun _ => firstError_reports (fun _ =>
          firstError_reports (fun _ => testArgs_reports _) _) _) _ hRest
      · cases hRest

/-- The sums after some verdicts. -/
def Sums.after (o : Options) (s : Sums) (vs : List Verdict) : Sums where
  errors := s.errors + (vs.map Verdict.errors).sum
  points := s.points + (vs.map (Verdict.tpoints o)).sum
  maxPoints := s.maxPoints + (vs.map fun v => o.ratingOf v.tested).sum

theorem runTestsFrom_returns {ts : List TestRec} {s s' : Sums}
    (h : (runTestsFrom o w i ts s).run out = .ok (s', out')) :
    ∃ vs : List Verdict, vs.map Verdict.tested = ts.filter (fun t => o.selects t.name) ∧
      (∀ v ∈ vs, v.Given o w ∧ v.Fair o w) ∧ s' = s.after o vs ∧
      out' = out ++ vs.flatMap (Verdict.block o) := by
  induction ts generalizing i s out with
  | nil =>
    cases h
    exact ⟨[], rfl, nofun, rfl, (List.append_nil _).symm⟩
  | cons t ts ih =>
    unfold runTestsFrom at h
    split at h
    · rename_i hSelected
      obtain ⟨terrors, s1, hTest, h⟩ := Exec.run_bind_eq_ok.mp h
      obtain ⟨report, rfl, hFair⟩ := testFunction_reports hTest
      obtain ⟨_, s2, hPrint, h⟩ := Exec.run_bind_eq_ok.mp h
      cases hPrint
      obtain ⟨vs, hNames, hFairs, rfl, rfl⟩ := ih h
      have hHere : (⟨t, terrors, report⟩ : Verdict).Given o w := ⟨i, out, hTest⟩
      refine ⟨⟨t, terrors, report⟩ :: vs, ?_, List.forall_mem_cons.mpr ⟨⟨hHere, hFair⟩, hFairs⟩, ?_, ?_⟩
      · rw [List.map_cons, hNames, List.filter_cons_of_pos (by exact hSelected)]
      · simp only [Sums.after, List.map_cons, List.sum_cons, Nat.add_assoc]
        rfl
      · rw [List.flatMap_cons, Verdict.block, List.append_assoc, List.append_assoc,
          List.append_assoc]
        rfl
    · rename_i hOther
      rw [List.filter_cons_of_neg (by exact hOther)]
      exact ih h

/-- A run that returns has printed the header, the lines about each selected function in their
order, and the sums of their points. -/
theorem runTests_returns {ts : List TestRec} (h : (runTests o w ts).run out = .ok (errors, out')) :
    ∃ vs : List Verdict, vs.map Verdict.tested = ts.filter (fun t => o.selects t.name) ∧
      (∀ v ∈ vs, v.Given o w ∧ v.Fair o w) ∧ errors = (vs.map Verdict.errors).sum ∧
      out' = out ++ [.header] ++ vs.flatMap (Verdict.block o) ++
        [.total (vs.map (Verdict.tpoints o)).sum (vs.map fun v => o.ratingOf v.tested).sum] := by
  obtain ⟨_, s, hHeader, h⟩ := Exec.run_bind_eq_ok.mp h
  cases hHeader
  obtain ⟨sums, s, hTests, h⟩ := Exec.run_bind_eq_ok.mp h
  obtain ⟨vs, hNames, hFairs, rfl, rfl⟩ := runTestsFrom_returns hTests
  cases h
  refine ⟨vs, hNames, hFairs, Nat.zero_add _, ?_⟩
  simp only [Sums.after, Nat.zero_add]

end RunTests

end Cs33.Datalab
