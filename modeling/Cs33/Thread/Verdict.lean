import Mathlib.Data.BitVec
import Cs33.Thread.Histogram

/-! # The verdict of `run_threads` in util.c

`run_threads` fills `bucket` with the counts of the data it generates, runs each
kernel on a cleared histogram and compares the sum of what the kernel leaves
with `DATA_SIZE`. An `int` is a word whose arithmetic wraps. A kernel is any
function of the data and the histogram; time measurement is left out.
-/

namespace Cs33.Thread

def DATA_SIZE : Nat := 100000000

def DATA_MAX : Nat := 255

/-- An `int`. -/
abbrev CInt := BitVec 32

/-- An array of `BUCKET_SIZE` ints. -/
abbrev Buckets := Bucket → CInt

abbrev ThreadRt := Fin 5

structure Generated where
  data : Nat → UInt8
  bucket : Buckets

/-- One round of the loop that generates the data, `r` what `rand` returns. -/
def generateOne (g : Generated) (i r : Nat) : Generated :=
  let datum := r % DATA_MAX
  let b : Bucket := ⟨datum % BUCKET_SIZE, Nat.mod_lt _ (by decide)⟩
  { data := Function.update g.data i (UInt8.ofNat datum)
    bucket := Function.update g.bucket b (g.bucket b + 1) }

def generate (rand : Nat → Nat) (dataSize : Nat) : Generated :=
  (List.range dataSize).foldl (fun g i => generateOne g i (rand i)) ⟨fun _ => 0, fun _ => 0⟩

/-- The sum that `printHistogram` returns. -/
def printHistogram (hist : Buckets) : CInt :=
  (List.finRange BUCKET_SIZE).foldl (fun sum i => sum + hist i) 0

inductive Notice where
  | wrongResult
deriving DecidableEq, Repr

def Notice.format : Notice → String
  | .wrongResult => "Wrong result. Please check the correctness of your code.\n"

structure Verdicts where
  globalHistogram : Buckets
  correctness : ThreadRt → Int
  out : List Notice

/-- A thread routine: what its threads leave in `global_histogram`. -/
abbrev Routine := (Nat → UInt8) → Buckets → Buckets

/-- One round of the loop over the thread routines. -/
def runRoutine (routine : ThreadRt → Routine) (data : Nat → UInt8) (v : Verdicts) (id : ThreadRt) :
    Verdicts :=
  let v := { v with globalHistogram := fun _ => 0 }
  let v := { v with globalHistogram := routine id data v.globalHistogram }
  let sum := printHistogram v.globalHistogram
  if sum = BitVec.ofNat 32 DATA_SIZE then
    { v with correctness := Function.update v.correctness id 1 }
  else
    { v with out := v.out ++ [.wrongResult] }

def runThreads (rand : Nat → Nat) (routine : ThreadRt → Routine) : Verdicts :=
  let g := generate rand DATA_SIZE
  (List.finRange 5).foldl (runRoutine routine g.data) ⟨fun _ => 0, fun _ => 0, []⟩

/-! ## The generated counts -/

theorem generate_succ (rand : Nat → Nat) (n : Nat) :
    generate rand (n + 1) = generateOne (generate rand n) n (rand n) := by
  rw [generate, List.range_succ, List.foldl_append]
  rfl

theorem generate_data (rand : Nat → Nat) {n i : Nat} (h : i < n) :
    (generate rand n).data i = UInt8.ofNat (rand i % DATA_MAX) := by
  induction n with
  | zero => exact absurd h (Nat.not_lt_zero i)
  | succ n ih =>
    rw [generate_succ]
    change Function.update (generate rand n).data n _ i = _
    obtain hi | hi := eq_or_ne i n
    · rw [hi, Function.update_self]
    · rw [Function.update_of_ne hi, ih (by omega)]

theorem tally_congr {data data' : Nat → UInt8} {lo len : Nat}
    (h : ∀ i, lo ≤ i → i < lo + len → data i = data' i) : tally data lo len = tally data' lo len := by
  funext b
  have hMap : (List.range' lo len).map (bucketOf data) = (List.range' lo len).map (bucketOf data') := by
    apply List.map_congr_left
    intro i hi
    obtain ⟨hLo, hHi⟩ := List.mem_range'_1.mp hi
    rw [bucketOf, bucketOf, Fin.mk.injEq, h i hLo hHi]
  rw [tally, hMap, tally]

theorem generate_bucket (rand : Nat → Nat) (n : Nat) (b : Bucket) :
    (generate rand n).bucket b = BitVec.ofNat 32 (tally (generate rand n).data 0 n b) := by
  induction n with
  | zero => rfl
  | succ n ih =>
    have hData : tally (generate rand (n + 1)).data 0 n = tally (generate rand n).data 0 n := by
      apply tally_congr
      intro i _ hi
      rw [generate_data rand (by omega), generate_data rand (by omega)]
    have hLast : bucketOf (generate rand (n + 1)).data (0 + n) =
        ⟨rand n % DATA_MAX % BUCKET_SIZE, Nat.mod_lt _ (by decide)⟩ := by
      have hDatum : rand n % DATA_MAX < 256 := by
        unfold DATA_MAX
        omega
      rw [bucketOf, Fin.mk.injEq, Nat.zero_add, generate_data rand (Nat.lt_succ_self n),
        UInt8.toNat_ofNat', Nat.mod_eq_of_lt hDatum]
    rw [tally_add, hData, tally_one, hLast, BitVec.ofNat_add, ← ih, generate_succ]
    change Function.update (generate rand n).bucket _ _ b = _
    split
    · rename_i hb
      rw [hb, Function.update_self]
      rfl
    · rename_i hb
      rw [Function.update_of_ne hb]
      exact (BitVec.add_zero _).symm

theorem sum_tally_univ (data : Nat → UInt8) (lo len : Nat) : ∑ b, tally data lo len b = len := by
  induction len with
  | zero => simp
  | succ n ih =>
    simp only [tally_add, tally_one, Finset.sum_add_distrib, ih, Finset.sum_ite_eq',
      Finset.mem_univ, if_true]

/-! ## The flag -/

theorem printHistogram_eq (hist : Buckets) : printHistogram hist = ∑ b, hist b := by
  rw [printHistogram, Fin.sum_univ_def, List.sum_eq_foldl, List.foldl_map]

/-- The sum of what the kernel leaves in a cleared histogram is the one expected. -/
def Passes (routine : ThreadRt → Routine) (data : Nat → UInt8) (id : ThreadRt) : Prop :=
  ∑ b, routine id data (fun _ => 0) b = BitVec.ofNat 32 DATA_SIZE

instance (routine : ThreadRt → Routine) (data : Nat → UInt8) (id : ThreadRt) :
    Decidable (Passes routine data id) := inferInstanceAs (Decidable (_ = _))

theorem correctness_runRoutine (routine : ThreadRt → Routine) (data : Nat → UInt8) (v : Verdicts)
    (first id : ThreadRt) :
    (runRoutine routine data v first).correctness id =
      if id = first ∧ Passes routine data id then 1 else v.correctness id := by
  have hSum : printHistogram (routine first data fun _ => 0) = BitVec.ofNat 32 DATA_SIZE ↔
      Passes routine data first := by rw [printHistogram_eq, Passes]
  rw [runRoutine]
  by_cases hPass : Passes routine data first
  · rw [if_pos (hSum.mpr hPass)]
    change Function.update v.correctness first 1 id = _
    obtain rfl | hId := eq_or_ne id first
    · rw [Function.update_self, if_pos ⟨rfl, hPass⟩]
    · rw [Function.update_of_ne hId, if_neg fun h => hId h.1]
  · have hNot : ¬ (id = first ∧ Passes routine data id) := by
      rintro ⟨rfl, h⟩
      exact hPass h
    rw [if_neg (mt hSum.mp hPass), if_neg hNot]

theorem correctness_foldl (routine : ThreadRt → Routine) (data : Nat → UInt8) (ids : List ThreadRt)
    (v : Verdicts) (id : ThreadRt) :
    (ids.foldl (runRoutine routine data) v).correctness id =
      if id ∈ ids ∧ Passes routine data id then 1 else v.correctness id := by
  induction ids generalizing v with
  | nil => simp
  | cons first ids ih =>
    rw [List.foldl_cons, ih, correctness_runRoutine]
    by_cases hPass : Passes routine data id
    · by_cases hMem : id ∈ ids <;> simp [hPass, hMem]
    · simp [hPass]

/-- What a kernel leaves in a cleared histogram. -/
def leftBy (rand : Nat → Nat) (routine : ThreadRt → Routine) (id : ThreadRt) : Buckets :=
  routine id (generate rand DATA_SIZE).data fun _ => 0

theorem correctness_eq_one (rand : Nat → Nat) (routine : ThreadRt → Routine) (id : ThreadRt) :
    (runThreads rand routine).correctness id = 1 ↔
      ∑ b, leftBy rand routine id b = BitVec.ofNat 32 DATA_SIZE := by
  rw [runThreads, correctness_foldl]
  by_cases hPass : Passes routine (generate rand DATA_SIZE).data id
  · rw [if_pos ⟨List.mem_finRange id, hPass⟩]
    exact iff_of_true rfl hPass
  · rw [if_neg fun h => hPass h.2]
    exact iff_of_false (Int.zero_ne_one) hPass

/-- By how much a bucket differs from the number of data that belong in it. -/
def deviation (data : Nat → UInt8) (hist : Buckets) (b : Bucket) : CInt :=
  hist b - BitVec.ofNat 32 (tally data 0 DATA_SIZE b)

theorem sum_deviation (data : Nat → UInt8) (hist : Buckets) :
    ∑ b, deviation data hist b = ∑ b, hist b - BitVec.ofNat 32 DATA_SIZE := by
  have hTally : ∑ b, BitVec.ofNat 32 (tally data 0 DATA_SIZE b) = BitVec.ofNat 32 DATA_SIZE := by
    have hCast := congrArg (BitVec.ofNat 32) (sum_tally_univ data 0 DATA_SIZE)
    rw [← hCast]
    exact (map_sum (Nat.castAddMonoidHom CInt) _ _).symm
  simp only [deviation, Finset.sum_sub_distrib, hTally]

/-- Some bucket is wrong, and the deviations of all buckets cancel. -/
def ErrorsCancel (data : Nat → UInt8) (hist : Buckets) : Prop :=
  (∃ b, deviation data hist b ≠ 0) ∧ ∑ b, deviation data hist b = 0

/-- For every kernel the flag vouches for the recorded counts if and only if the deviations of
the histogram it leaves do not cancel. -/
theorem correctness_sound_iff (rand : Nat → Nat) (routine : ThreadRt → Routine) (id : ThreadRt) :
    ((runThreads rand routine).correctness id = 1 →
        ∀ b, leftBy rand routine id b = (generate rand DATA_SIZE).bucket b) ↔
      ¬ ErrorsCancel (generate rand DATA_SIZE).data (leftBy rand routine id) := by
  have hDeviation : ∀ b, leftBy rand routine id b = (generate rand DATA_SIZE).bucket b ↔
      deviation (generate rand DATA_SIZE).data (leftBy rand routine id) b = 0 := by
    intro b
    rw [generate_bucket, deviation, sub_eq_zero]
  rw [correctness_eq_one, ErrorsCancel, sum_deviation, sub_eq_zero]
  simp only [hDeviation, not_and, forall_exists_index]
  constructor
  · intro h b hb hSum
    exact hb (h hSum b)
  · intro h hSum b
    by_contra hb
    exact h b hb hSum

theorem generate_zero_bucket (n : Nat) {b : Bucket} (hb : b.val ≠ 0) :
    (generate (fun _ => 0) n).bucket b = 0 := by
  have hTally : tally (generate (fun _ => 0) n).data 0 n b = 0 := by
    rw [tally, List.count_eq_zero]
    intro hMem
    obtain ⟨i, hi, rfl⟩ := List.mem_map.mp hMem
    obtain ⟨-, hi⟩ := List.mem_range'_1.mp hi
    apply hb
    change ((generate (fun _ => 0) n).data i).toNat % BUCKET_SIZE = 0
    rw [generate_data _ (by omega)]
    rfl
  rw [generate_bucket, hTally]
  rfl

/-- A kernel that puts all of equal data into the next bucket passes. -/
theorem wrong_bucket_passes : ¬ ∀ (rand : Nat → Nat) (routine : ThreadRt → Routine) (id : ThreadRt),
    (runThreads rand routine).correctness id = 1 →
      ∀ b, leftBy rand routine id b = (generate rand DATA_SIZE).bucket b := by
  intro hAll
  let next : Bucket := ⟨1, by decide⟩
  let wrong : Buckets := fun b => if b = next then BitVec.ofNat 32 DATA_SIZE else 0
  have hFlag : (runThreads (fun _ => 0) fun _ _ _ => wrong).correctness 0 = 1 := by
    rw [correctness_eq_one]
    change ∑ b, wrong b = _
    decide
  have hLeft : wrong next = (generate (fun _ => 0) DATA_SIZE).bucket next := hAll _ _ 0 hFlag next
  rw [generate_zero_bucket _ (by decide)] at hLeft
  exact absurd hLeft (by decide)

end Cs33.Thread
