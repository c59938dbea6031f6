import Mathlib.Algebra.BigOperators.Fin

/-! # The sequential histogram of thread.c

`histo_0` counts the data elements by their remainder modulo `BUCKET_SIZE`.
What it computes is the tally of the whole array, and the tallies of the
slices that the parallel kernels divide the array into sum to it.
-/

namespace Cs33.Thread

def BUCKET_SIZE : Nat := 8

abbrev Bucket := Fin BUCKET_SIZE

abbrev Histogram := Bucket → Nat

def STEP (dataSize nthreads : Nat) : Nat := dataSize / nthreads

/-- `data[j]%BUCKET_SIZE`. -/
def bucketOf (data : Nat → UInt8) (j : Nat) : Bucket :=
  ⟨(data j).toNat % BUCKET_SIZE, Nat.mod_lt _ (by decide)⟩

def increment (g : Histogram) (b : Bucket) : Histogram := Function.update g b (g b + 1)

def zeroHistogram : Histogram := fun _ => 0

/-- What thread `threadId` makes of `global_histogram`. -/
def histo0 (dataSize : Nat) (data : Nat → UInt8) (threadId : Nat) (g : Histogram) : Histogram :=
  if threadId = 0 then
    (List.range dataSize).foldl (fun g j => increment g (bucketOf data j)) g
  else
    g

/-- How many of the `len` elements from `lo` on belong in a bucket. -/
def tally (data : Nat → UInt8) (lo len : Nat) (b : Bucket) : Nat :=
  ((List.range' lo len).map (bucketOf data)).count b

variable (data : Nat → UInt8)

@[simp] theorem tally_zero (lo : Nat) (b : Bucket) : tally data lo 0 b = 0 := rfl

theorem tally_add (lo m n : Nat) (b : Bucket) :
    tally data lo (m + n) b = tally data lo m b + tally data (lo + m) n b := by
  rw [tally, ← List.range'_append_1, List.map_append, List.count_append]
  rfl

theorem tally_one (lo : Nat) (b : Bucket) :
    tally data lo 1 b = if b = bucketOf data lo then 1 else 0 := by
  rw [tally, List.range'_one, List.map_singleton, List.count_singleton]
  obtain hb | hb := eq_or_ne b (bucketOf data lo)
  · rw [if_pos hb, if_pos (by simp [hb])]
  · rw [if_neg hb, if_neg (by simpa using Ne.symm hb)]

theorem tally_succ (lo len : Nat) (b : Bucket) :
    tally data lo (len + 1) b =
      tally data (lo + 1) len b + if b = bucketOf data lo then 1 else 0 := by
  rw [Nat.add_comm len 1, tally_add, tally_one, Nat.add_comm]

theorem tally_le (lo len : Nat) (b : Bucket) : tally data lo len b ≤ len := by
  calc tally data lo len b ≤ ((List.range' lo len).map (bucketOf data)).length :=
        List.count_le_length
    _ = len := by rw [List.length_map, List.length_range']

theorem histo0_eq_tally (dataSize : Nat) :
    histo0 dataSize data 0 zeroHistogram = tally data 0 dataSize := by
  rw [histo0, if_pos rfl]
  induction dataSize with
  | zero => rfl
  | succ n ih =>
    rw [List.range_succ, List.foldl_append, ih]
    funext b
    rw [tally_add, tally_one, Nat.zero_add, List.foldl_cons, List.foldl_nil, increment]
    obtain hb | hb := eq_or_ne b (bucketOf data n)
    · rw [hb, Function.update_self, if_pos rfl]
    · rw [Function.update_of_ne hb, if_neg hb, Nat.add_zero]

/-- Equal slices, one for each thread, make up the whole array: for a sum that adjacent slices
add up to. -/
theorem sum_slices {f : Nat → Nat → Nat} (hZero : ∀ lo, f lo 0 = 0)
    (hAdd : ∀ lo m n, f lo (m + n) = f lo m + f (lo + m) n) (nthreads step : Nat) :
    ∑ id : Fin nthreads, f (id * step) step = f 0 (nthreads * step) := by
  induction nthreads with
  | zero => rw [Nat.zero_mul, hZero, Finset.univ_eq_empty, Finset.sum_empty]
  | succ n ih =>
    rw [Fin.sum_univ_castSucc, Nat.succ_mul, hAdd, Nat.zero_add, ← ih]
    rfl

theorem sum_tally (nthreads step : Nat) (b : Bucket) :
    ∑ id : Fin nthreads, tally data (id * step) step b = tally data 0 (nthreads * step) b :=
  sum_slices (f := fun lo len => tally data lo len b) (fun lo => tally_zero data lo b)
    (fun lo m n => tally_add data lo m n b) nthreads step

theorem sum_count_slices (nthreads step j : Nat) :
    ∑ id : Fin nthreads, (List.range' (id * step) step).count j =
      (List.range' 0 (nthreads * step)).count j := by
  refine sum_slices (f := fun lo len => (List.range' lo len).count j) (fun _ => rfl) ?_ nthreads step
  intro lo m n
  rw [← List.range'_append_1, List.count_append]

end Cs33.Thread
