import Mathlib.Data.List.Induction
import Cs33.Lib.Smallest

/-! # The K-best sampler of fcyc.c

Measured values come from a linear order: no measurement is NaN. The array
`values` is a list, and an access past its end stops the program. `samplecount`
is an int; `fcyc` never takes more than `maxsamples` samples beyond the first,
so it is a number that does not overflow. The cache is not modelled.
-/

namespace Cs33.Timing

variable {α : Type}

/-- An access outside `values`, or a loop that does not end. -/
inductive Halt where
  | outside
  | endless
deriving DecidableEq, Repr

structure Sampler (α : Type) where
  values : List α
  samplecount : Nat
deriving DecidableEq, Repr

def load (values : List α) (i : Nat) : Except Halt α :=
  match values[i]? with
  | some val => .ok val
  | none => .error .outside

def store (values : List α) (i : Nat) (val : α) : Except Halt (List α) :=
  if i < values.length then .ok (values.set i val) else .error .outside

theorem load_append (before after : List α) (val : α) :
    load (before ++ val :: after) before.length = .ok val := by
  simp [load]

theorem store_append (before after : List α) (old val : α) :
    store (before ++ old :: after) before.length val = .ok (before ++ val :: after) := by
  simp [store]

/-- `calloc` fills the array with `zero`. -/
def initSampler (zero : α) (kbest : Nat) : Sampler α := ⟨List.replicate kbest zero, 0⟩

/-- The first `n` values that a counter gives. -/
def measured (counter : Nat → α) (n : Nat) : List α := (List.range n).map counter

theorem measured_succ (counter : Nat → α) (n : Nat) :
    measured counter (n + 1) = measured counter n ++ [counter n] := by
  simp [measured, List.range_succ]

theorem mem_measured {counter : Nat → α} {n : Nat} {a : α} : a ∈ measured counter n ↔ ∃ i < n, counter i = a := by
  simp [measured]

variable [LinearOrder α]

/-- The insertion sort of `add_sample`. -/
def insertDown : Nat → List α → Except Halt (List α)
  | 0, values => .ok values
  | pos + 1, values => do
    let before ← load values pos
    let here ← load values (pos + 1)
    if before > here then
      let values ← store values pos here
      let values ← store values (pos + 1) before
      insertDown pos values
    else
      return values

def addSample (kbest : Nat) (s : Sampler α) (val : α) : Except Halt (Sampler α) := do
  let (pos, values) ←
    if s.samplecount < kbest then do
      let values ← store s.values s.samplecount val
      pure (s.samplecount, values)
    else do
      let last ← load s.values (kbest - 1)
      if val < last then do
        let values ← store s.values (kbest - 1) val
        pure (kbest - 1, values)
      else
        pure (0, s.values)
  let values ← insertDown pos values
  return ⟨values, s.samplecount + 1⟩

/-- `within` is the test `(1 + epsilon)*values[0] >= values[kbest-1]`. -/
def hasConverged (within : α → α → Bool) (kbest : Nat) (s : Sampler α) : Except Halt Bool :=
  if kbest ≤ s.samplecount then do
    let first ← load s.values 0
    let last ← load s.values (kbest - 1)
    return within first last
  else
    return false

/-- The loop of `fcyc`; the counter gives the value that each round measures. -/
def sampleLoop (within : α → α → Bool) (kbest : Nat) (maxsamples : Int) (counter : Nat → α) :
    Nat → Sampler α → Except Halt (Sampler α)
  | 0, _ => .error .endless
  | rounds + 1, s => do
    let s ← addSample kbest s (counter s.samplecount)
    let converged ← hasConverged within kbest s
    if !converged && (s.samplecount : Int) < maxsamples then
      sampleLoop within kbest maxsamples counter rounds s
    else
      return s

/-- The result, and the number of samples taken. -/
def fcyc (zero : α) (within : α → α → Bool) (kbest : Nat) (maxsamples : Int) (compensate : Bool)
    (getCompCounter getCounter : Nat → α) (rounds : Nat) : Except Halt (α × Nat) := do
  let s := initSampler zero kbest
  let s ←
    if compensate then sampleLoop within kbest maxsamples getCompCounter rounds s
    else sampleLoop within kbest maxsamples getCounter rounds s
  let result ← load s.values 0
  return (result, s.samplecount)

/-! ## Insertion -/

section Insertion

variable {before : List α}

/-- The value at the end of a sorted stretch sinks to its place there. -/
theorem insertDown_sorted (val : α) (after : List α) (hSorted : before.Pairwise (· ≤ ·)) :
    ∃ before', insertDown before.length (before ++ val :: after) = .ok (before' ++ after) ∧
      before'.Pairwise (· ≤ ·) ∧ before'.Perm (val :: before) := by
  induction before using List.reverseRecOn generalizing after with
  | nil => exact ⟨[val], rfl, List.pairwise_singleton _ _, List.Perm.refl _⟩
  | append_singleton before last ih =>
    obtain ⟨hBefore, -, hLast⟩ := List.pairwise_append.mp hSorted
    have hBelow : ∀ a ∈ before, a ≤ last := fun a ha => hLast a ha last (List.mem_singleton_self last)
    have hHere : load (before ++ [last] ++ val :: after) (before.length + 1) = .ok val := by
      simpa using load_append (before ++ [last]) after val
    have hPrevious : load (before ++ [last] ++ val :: after) before.length = .ok last := by
      simpa using load_append before (val :: after) last
    rw [List.length_append, List.length_singleton, insertDown, hHere, hPrevious]
    change ∃ before', (if last > val then _ else _) = _ ∧ _
    by_cases hSwap : last > val
    · have hFirst : store (before ++ [last] ++ val :: after) before.length val =
          .ok (before ++ val :: val :: after) := by
        simpa using store_append before (val :: after) last val
      have hSecond : store (before ++ val :: val :: after) (before.length + 1) last =
          .ok (before ++ val :: last :: after) := by
        simpa using store_append (before ++ [val]) after val last
      obtain ⟨before', hRun, hSorted', hPerm⟩ := ih (last :: after) hBefore
      refine ⟨before' ++ [last], ?_, ?_, ?_⟩
      · rw [if_pos hSwap, hFirst]
        change (store (before ++ val :: val :: after) (before.length + 1) last >>= _) = _
        rw [hSecond]
        change insertDown before.length (before ++ val :: last :: after) = _
        rw [hRun]
        simp
      · refine List.pairwise_append.mpr ⟨hSorted', List.pairwise_singleton _ _, ?_⟩
        intro a ha b hb
        rw [List.mem_singleton.mp hb]
        obtain rfl | ha := List.mem_cons.mp (hPerm.mem_iff.mp ha)
        · exact hSwap.le
        · exact hBelow a ha
      · exact hPerm.append_right [last]
    · refine ⟨before ++ [last] ++ [val], ?_, ?_, List.perm_append_singleton _ _⟩
      · rw [if_neg hSwap]
        simp [pure, Except.pure]
      · refine List.pairwise_append.mpr ⟨hSorted, List.pairwise_singleton _ _, ?_⟩
        intro a ha b hb
        rw [List.mem_singleton.mp hb]
        have hLe : last ≤ val := not_lt.mp hSwap
        obtain ha | ha := List.mem_append.mp ha
        · exact (hBelow a ha).trans hLe
        · rwa [List.mem_singleton.mp ha]

end Insertion

/-! ## Samples -/

section Samples

variable {kbest : Nat} {s : Sampler α} {xs values values' : List α} {val last : α}

theorem addSample_fill (hRoom : s.samplecount < kbest)
    (hStore : store s.values s.samplecount val = .ok values)
    (hInsert : insertDown s.samplecount values = .ok values') :
    addSample kbest s val = .ok ⟨values', s.samplecount + 1⟩ := by
  simp [addSample, hRoom, hStore, hInsert, bind, Except.bind, pure, Except.pure]

theorem addSample_replace (hFull : ¬ s.samplecount < kbest)
    (hLoad : load s.values (kbest - 1) = .ok last) (hBelow : val < last)
    (hStore : store s.values (kbest - 1) val = .ok values)
    (hInsert : insertDown (kbest - 1) values = .ok values') :
    addSample kbest s val = .ok ⟨values', s.samplecount + 1⟩ := by
  simp [addSample, hFull, hLoad, hBelow, hStore, hInsert, bind, Except.bind, pure, Except.pure]

theorem addSample_discard (hFull : ¬ s.samplecount < kbest)
    (hLoad : load s.values (kbest - 1) = .ok last) (hAbove : ¬ val < last) :
    addSample kbest s val = .ok ⟨s.values, s.samplecount + 1⟩ := by
  simp [addSample, hFull, hLoad, hAbove, insertDown, bind, Except.bind, pure, Except.pure]

/-- The sampler after the samples `xs`: its array starts with the smallest of them. -/
structure Holds (kbest : Nat) (xs : List α) (s : Sampler α) : Prop where
  count : s.samplecount = xs.length
  length : s.values.length = kbest
  window : ∃ kept unused, s.values = kept ++ unused ∧ kept.length = min xs.length kbest ∧
    Smallest xs kept

theorem holds_init (zero : α) (kbest : Nat) : Holds kbest [] (initSampler zero kbest) where
  count := rfl
  length := List.length_replicate
  window := ⟨[], _, rfl, by simp, Smallest.nil⟩

theorem Holds.fill (h : Holds kbest xs s) (hRoom : s.samplecount < kbest) (val : α) :
    ∃ s', addSample kbest s val = .ok s' ∧ Holds kbest (xs ++ [val]) s' := by
  obtain ⟨kept, unused, hValues, hLength, hSmallest⟩ := h.window
  have hCount := h.count
  have hAll := h.length
  rw [hValues, List.length_append] at hAll
  have hKept : kept.length = xs.length := by omega
  cases unused with
  | nil =>
    rw [List.length_nil] at hAll
    omega
  | cons old unused =>
    rw [List.length_cons] at hAll
    obtain ⟨kept', hRun, hSorted, hPerm⟩ := insertDown_sorted val unused hSmallest.sorted
    have hLength' := hPerm.length_eq
    rw [List.length_cons] at hLength'
    have hStore : store s.values s.samplecount val = .ok (kept ++ val :: unused) := by
      rw [hValues, hCount, ← hKept]
      exact store_append kept unused old val
    rw [hKept, ← hCount] at hRun
    refine ⟨⟨kept' ++ unused, s.samplecount + 1⟩, addSample_fill hRoom hStore hRun, ?_, ?_, ?_⟩
    · simp [hCount]
    · rw [List.length_append]
      omega
    · refine ⟨kept', unused, rfl, ?_, hSmallest.add hKept hSorted hPerm⟩
      rw [List.length_append, List.length_singleton]
      omega

/-- The full array keeps a sample below the largest one it holds, in the place of that one. -/
theorem Holds.full (h : Holds kbest xs s) (hPositive : 1 ≤ kbest) (hFull : ¬ s.samplecount < kbest)
    (val : α) : ∃ s', addSample kbest s val = .ok s' ∧ Holds kbest (xs ++ [val]) s' := by
  obtain ⟨kept, unused, hValues, hLength, hSmallest⟩ := h.window
  have hCount := h.count
  have hAll := h.length
  rw [hValues, List.length_append] at hAll
  obtain rfl : unused = [] := List.eq_nil_of_length_eq_zero (by omega)
  obtain rfl | ⟨kept, last, rfl⟩ := List.eq_nil_or_concat' kept
  · rw [List.length_nil] at hLength
    omega
  · rw [List.append_nil] at hValues
    rw [List.length_append, List.length_singleton] at hLength
    have hPlace : kbest - 1 = kept.length := by omega
    have hLoad : load s.values (kbest - 1) = .ok last := by
      rw [hValues, hPlace]
      exact load_append kept [] last
    by_cases hBelow : val < last
    · obtain ⟨kept', hRun, hSorted, hPerm⟩ :=
        insertDown_sorted val [] (List.pairwise_append.mp hSmallest.sorted).1
      have hLength' := hPerm.length_eq
      rw [List.length_cons] at hLength'
      have hStore : store s.values (kbest - 1) val = .ok (kept ++ [val]) := by
        rw [hValues, hPlace]
        exact store_append kept [] last val
      rw [List.append_nil, ← hPlace] at hRun
      refine ⟨⟨kept', s.samplecount + 1⟩, addSample_replace hFull hLoad hBelow hStore hRun, ?_, ?_, ?_⟩
      · simp [hCount]
      · change kept'.length = kbest
        omega
      · refine ⟨kept', [], (List.append_nil _).symm, ?_, hSmallest.replace hBelow hSorted hPerm⟩
        rw [List.length_append, List.length_singleton]
        omega
    · refine ⟨⟨s.values, s.samplecount + 1⟩, addSample_discard hFull hLoad hBelow, ?_, h.length, ?_⟩
      · simp [hCount]
      · refine ⟨kept ++ [last], [], ?_, ?_, hSmallest.discard (not_lt.mp hBelow)⟩
        · rw [List.append_nil]
          exact hValues
        · simp only [List.length_append, List.length_singleton]
          omega

theorem Holds.addSample (h : Holds kbest xs s) (hPositive : 1 ≤ kbest) (val : α) :
    ∃ s', addSample kbest s val = .ok s' ∧ Holds kbest (xs ++ [val]) s' := by
  by_cases hRoom : s.samplecount < kbest
  · exact h.fill hRoom val
  · exact h.full hPositive hRoom val

theorem Holds.samples (h : Holds kbest xs s) (hPositive : 1 ≤ kbest) (ys : List α) :
    ∃ s', ys.foldlM (Timing.addSample kbest) s = .ok s' ∧ Holds kbest (xs ++ ys) s' := by
  induction ys generalizing xs s with
  | nil => exact ⟨s, rfl, by simpa using h⟩
  | cons val ys ih =>
    obtain ⟨s', hRun, hHolds⟩ := h.addSample hPositive val
    obtain ⟨s'', hRest, hHolds'⟩ := ih hHolds
    refine ⟨s'', ?_, by simpa using hHolds'⟩
    rw [List.foldlM_cons, hRun]
    exact hRest

theorem Holds.take (h : Holds kbest xs s) :
    (s.values.take (min xs.length kbest)).length = min xs.length kbest ∧
      Smallest xs (s.values.take (min xs.length kbest)) := by
  obtain ⟨kept, unused, hValues, hLength, hSmallest⟩ := h.window
  rw [hValues, ← hLength, List.take_left]
  exact ⟨rfl, hSmallest⟩

theorem Holds.result (h : Holds kbest xs s) (hPositive : 1 ≤ kbest) (hSome : xs ≠ []) :
    ∃ result, load s.values 0 = .ok result ∧ IsLeast {a | a ∈ xs} result := by
  obtain ⟨kept, unused, hValues, hLength, hSmallest⟩ := h.window
  have hXs := List.length_pos_iff.mpr hSome
  cases kept with
  | nil =>
    rw [List.length_nil] at hLength
    omega
  | cons result kept =>
    refine ⟨result, ?_, hSmallest.isLeast⟩
    rw [hValues]
    rfl

theorem Holds.converged (h : Holds kbest xs s) (hPositive : 1 ≤ kbest) (within : α → α → Bool) :
    ∃ converged, hasConverged within kbest s = .ok converged := by
  rw [hasConverged]
  split
  · have hFirst : 0 < s.values.length := by rw [h.length]; omega
    have hLast : kbest - 1 < s.values.length := by rw [h.length]; omega
    refine ⟨within s.values[0] s.values[kbest - 1], ?_⟩
    simp [load, hFirst, hLast]
    rfl
  · exact ⟨false, rfl⟩

end Samples

/-! ## The loop -/

section Loop

variable {kbest n : Nat} {s : Sampler α} {within : α → α → Bool} {maxsamples : Int}
  {counter : Nat → α}

theorem sampleLoop_round (h : Holds kbest (measured counter n) s) (hPositive : 1 ≤ kbest)
    (within : α → α → Bool) (maxsamples : Int) :
    ∃ s', Holds kbest (measured counter (n + 1)) s' ∧
      ((∀ rounds, sampleLoop within kbest maxsamples counter (rounds + 1) s = .ok s') ∨
        (((n + 1 : Nat) : Int) < maxsamples ∧
          ∀ rounds, sampleLoop within kbest maxsamples counter (rounds + 1) s =
            sampleLoop within kbest maxsamples counter rounds s')) := by
  have hCount : s.samplecount = n := by simpa [measured] using h.count
  obtain ⟨s', hAdd, hHolds⟩ := h.addSample hPositive (counter n)
  rw [← measured_succ] at hHolds
  have hCount' : s'.samplecount = n + 1 := by simpa [measured] using hHolds.count
  obtain ⟨converged, hConverged⟩ := hHolds.converged hPositive within
  refine ⟨s', hHolds, ?_⟩
  by_cases hMore : converged = false ∧ (s'.samplecount : Int) < maxsamples
  · refine .inr ⟨hCount' ▸ hMore.2, fun rounds => ?_⟩
    simp [sampleLoop, hCount, hAdd, hConverged, hMore, bind, Except.bind]
  · refine .inl fun rounds => ?_
    simp only [sampleLoop, hCount, hAdd, hConverged, bind, Except.bind]
    rw [if_neg (by simpa using hMore)]
    rfl

/-- The loop stops by itself, after at most `maxsamples` samples or after one. -/
theorem sampleLoop_stops (h : Holds kbest (measured counter n) s) (hPositive : 1 ≤ kbest)
    (within : α → α → Bool) (maxsamples : Int) :
    ∃ m s', n + 1 ≤ m ∧ (m : Int) ≤ max ((n + 1 : Nat) : Int) maxsamples ∧
      Holds kbest (measured counter m) s' ∧
      ∀ rounds, m ≤ n + rounds → sampleLoop within kbest maxsamples counter rounds s = .ok s' := by
  induction hGap : (maxsamples - n).toNat generalizing n s with
  | zero =>
    obtain ⟨s', hHolds, hStop | ⟨hMore, -⟩⟩ := sampleLoop_round h hPositive within maxsamples
    · refine ⟨n + 1, s', le_rfl, le_max_left _ _, hHolds, fun rounds hRounds => ?_⟩
      obtain ⟨rounds, rfl⟩ := Nat.exists_eq_add_of_le' (show 1 ≤ rounds by omega)
      exact hStop rounds
    · omega
  | succ gap ih =>
    obtain ⟨s', hHolds, hStop | ⟨hMore, hNext⟩⟩ := sampleLoop_round h hPositive within maxsamples
    · refine ⟨n + 1, s', le_rfl, le_max_left _ _, hHolds, fun rounds hRounds => ?_⟩
      obtain ⟨rounds, rfl⟩ := Nat.exists_eq_add_of_le' (show 1 ≤ rounds by omega)
      exact hStop rounds
    · obtain ⟨m, s'', hLow, hHigh, hHolds', hRest⟩ := ih hHolds (by omega)
      refine ⟨m, s'', by omega, by omega, hHolds', fun rounds hRounds => ?_⟩
      obtain ⟨rounds, rfl⟩ := Nat.exists_eq_add_of_le' (show 1 ≤ rounds by omega)
      rw [hNext rounds]
      exact hRest rounds (by omega)

end Loop

/-- After any samples the array starts with the smallest of them, and `fcyc` returns the minimum of
the samples it takes. -/
theorem sampler_keeps_smallest (zero : α) (within : α → α → Bool) (kbest : Nat) (maxsamples : Int)
    (hPositive : 1 ≤ kbest) :
    (∀ xs : List α, ∃ s, xs.foldlM (addSample kbest) (initSampler zero kbest) = .ok s ∧
      s.samplecount = xs.length ∧ s.values.length = kbest ∧
      (s.values.take (min xs.length kbest)).length = min xs.length kbest ∧
      Smallest xs (s.values.take (min xs.length kbest))) ∧
    ∀ (compensate : Bool) (getCompCounter getCounter : Nat → α), ∃ (m : Nat) (result : α),
      1 ≤ m ∧ (m : Int) ≤ max 1 maxsamples ∧
      IsLeast {a | ∃ i < m, (if compensate then getCompCounter else getCounter) i = a} result ∧
      ∀ rounds, m ≤ rounds →
        fcyc zero within kbest maxsamples compensate getCompCounter getCounter rounds =
          .ok (result, m) := by
  constructor
  · intro xs
    obtain ⟨s, hRun, hHolds⟩ := (holds_init zero kbest).samples hPositive xs
    exact ⟨s, hRun, hHolds.count, hHolds.length, hHolds.take⟩
  · intro compensate getCompCounter getCounter
    generalize hCounter : (if compensate then getCompCounter else getCounter) = counter
    have hStart : Holds kbest (measured counter 0) (initSampler zero kbest) := holds_init zero kbest
    obtain ⟨m, s, hLow, hHigh, hHolds, hRun⟩ := sampleLoop_stops hStart hPositive within maxsamples
    have hSome : measured counter m ≠ [] := by
      simp [measured]
      omega
    obtain ⟨result, hLoad, hLeast⟩ := hHolds.result hPositive hSome
    have hCount : s.samplecount = m := by simpa [measured] using hHolds.count
    refine ⟨m, result, by omega, by simpa using hHigh, ?_, fun rounds hRounds => ?_⟩
    · simpa only [mem_measured] using hLeast
    · have hLoop := hRun rounds (by omega)
      rw [← hCounter] at hLoop
      cases compensate <;> simp_all [fcyc, bind, Except.bind, pure, Except.pure]

theorem sampler_keeps_smallest_three :
    ∃ s, [5, 3, 4].foldlM (addSample 2) (initSampler 0 2) = .ok s ∧ s.samplecount = 3 ∧
      s.values.length = 2 ∧ (s.values.take 2).length = 2 ∧ Smallest [5, 3, 4] (s.values.take 2) :=
  (sampler_keeps_smallest 0 (fun first last => last ≤ first) 2 20 (by decide)).1 [5, 3, 4]

end Cs33.Timing
