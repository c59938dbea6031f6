import Cs33.Lib.ByteMemory

/-! # The simulated memory system of memlib.c

Addresses are 64-bit numbers. `Memlib` holds the three private pointers of
memlib.c and the bytes of the storage behind them, with what `mem_init`
establishes and no later call can break: the storage is one nonempty block of
`MAX_HEAP` bytes inside the address space and the brk stays inside it.
-/

namespace Cs33.Malloc

open ByteMemory

def NULL : Nat := 0

/-- `(void *)-1`, the failure value of `mem_sbrk`. -/
def minusOne : Nat := 2 ^ 64 - 1

def maxHeap : Nat := 2000 * 2 ^ 20

structure Memlib where
  memStartBrk : Nat
  memBrk : Nat
  memMaxAddr : Nat
  bytes : Bytes
  start_pos : 0 < memStartBrk
  start_le_brk : memStartBrk ≤ memBrk
  brk_le_max : memBrk ≤ memMaxAddr
  max_eq : memMaxAddr = memStartBrk + maxHeap
  max_lt : memMaxAddr < 2 ^ 64

/-- `mem_init` on the storage that `malloc` returned at `start`. -/
def memInit (start : Nat) (bytes : Bytes) (hPos : 0 < start)
    (hFits : start + maxHeap < 2 ^ 64) : Memlib where
  memStartBrk := start
  memBrk := start
  memMaxAddr := start + maxHeap
  bytes := bytes
  start_pos := hPos
  start_le_brk := le_rfl
  brk_le_max := Nat.le_add_right _ _
  max_eq := rfl
  max_lt := hFits

/-! Storage that starts at 4096 is a legal one. -/

theorem page_pos : 0 < 4096 := by decide

theorem page_max : 4096 + maxHeap < 2 ^ 64 := by decide

def memResetBrk (s : Memlib) : Memlib where
  memStartBrk := s.memStartBrk
  memBrk := s.memStartBrk
  memMaxAddr := s.memMaxAddr
  bytes := s.bytes
  start_pos := s.start_pos
  start_le_brk := le_rfl
  brk_le_max := s.start_le_brk.trans s.brk_le_max
  max_eq := s.max_eq
  max_lt := s.max_lt

def memSbrk (incr : Int) (s : Memlib) : Nat × Memlib :=
  if h : incr < 0 ∨ (s.memMaxAddr : Int) < s.memBrk + incr then (minusOne, s)
  else (s.memBrk,
    { s with
      memBrk := s.memBrk + incr.toNat
      start_le_brk := s.start_le_brk.trans (Nat.le_add_right _ _)
      brk_le_max := by omega })

def memHeapLo (s : Memlib) : Nat := s.memStartBrk

def memHeapHi (s : Memlib) : Nat := s.memBrk - 1

def memHeapsize (s : Memlib) : Nat := s.memBrk - s.memStartBrk

/-- The `n` bytes from `a` on lie inside `[mem_heap_lo, mem_heap_hi]`. -/
def Memlib.InHeap (s : Memlib) (a : Nat) (n : Nat) : Prop :=
  memHeapLo s ≤ a ∧ a + n ≤ memHeapHi s + 1

instance (s : Memlib) (a : Nat) (n : Nat) : Decidable (s.InHeap a n) :=
  inferInstanceAs (Decidable (_ ∧ _))

theorem Memlib.brk_lt (s : Memlib) : s.memBrk < 2 ^ 64 := s.brk_le_max.trans_lt s.max_lt

theorem Memlib.brk_pos (s : Memlib) : 0 < s.memBrk := s.start_pos.trans_le s.start_le_brk

theorem Memlib.heapsize_le (s : Memlib) : memHeapsize s ≤ maxHeap := by
  have hBrk := s.brk_le_max
  have hMax := s.max_eq
  rw [memHeapsize]
  omega

theorem Memlib.inHeap_iff (s : Memlib) (a : Nat) (n : Nat) :
    s.InHeap a n ↔ s.memStartBrk ≤ a ∧ a + n ≤ s.memBrk := by
  have hPos := s.brk_pos
  simp only [Memlib.InHeap, memHeapLo, memHeapHi]
  omega

theorem memSbrk_refuse {incr : Int} {s : Memlib}
    (h : incr < 0 ∨ (s.memMaxAddr : Int) < s.memBrk + incr) :
    memSbrk incr s = (minusOne, s) := by
  rw [memSbrk, dif_pos h]

theorem memSbrk_fst {incr : Int} {s : Memlib} (hPos : 0 ≤ incr)
    (hFits : s.memBrk + incr ≤ s.memMaxAddr) : (memSbrk incr s).1 = s.memBrk := by
  rw [memSbrk, dif_neg (by omega)]

theorem memSbrk_brk {incr : Int} {s : Memlib} (hPos : 0 ≤ incr)
    (hFits : s.memBrk + incr ≤ s.memMaxAddr) :
    (memSbrk incr s).2.memBrk = s.memBrk + incr.toNat := by
  rw [memSbrk, dif_neg (by omega)]

@[simp] theorem memSbrk_start (incr : Int) (s : Memlib) :
    (memSbrk incr s).2.memStartBrk = s.memStartBrk := by
  rw [memSbrk]
  split <;> rfl

theorem memSbrk_brk_le (incr : Int) (s : Memlib) : s.memBrk ≤ (memSbrk incr s).2.memBrk := by
  rw [memSbrk]
  split
  · exact le_rfl
  · exact Nat.le_add_right _ _

end Cs33.Malloc
