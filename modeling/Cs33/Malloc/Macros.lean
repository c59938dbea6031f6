import Cs33.Lib.Exec
import Cs33.Malloc.Memlib

/-! # State, memory accesses and the boundary-tag macros of mm.c

A program of mm.c runs on memlib's state and the two static pointers of the
file. Its loads and stores reach the whole storage of `MAX_HEAP` bytes, past
the brk too, and one that leaves the storage stops it. A guarded run stops at
the first access outside `[mem_heap_lo, mem_heap_hi]`. The macros read the
memory they navigate by, so most of them are programs.
-/

namespace Cs33.Malloc

open ByteMemory

def WSIZE : Nat := 4

def DSIZE : Nat := 8

def CHUNKSIZE : Nat := 2 ^ 16

def OVERHEAD : Nat := 8

def FREEBLOCKSIZE : Nat := 24

/-- The error messages of mm.c, with the arguments they print. -/
inductive Message where
  | badPrologueHeader
  | badEpilogueHeader
  | notAligned (bp : Nat)
  | headerFooterMismatch
  | mallocFailedInRealloc
deriving DecidableEq, Repr

def Message.format : Message → String
  | .badPrologueHeader => "Bad prologue header\n"
  | .badEpilogueHeader => "Bad epilogue header\n"
  | .notAligned _ => "Error: %p is not doubleword aligned\n"
  | .headerFooterMismatch => "Error: header does not match footer\n"
  | .mallocFailedInRealloc => "ERROR: mm_malloc failed in mm_realloc\n"

/-- The two statics, the messages printed so far, and whether the run is guarded. -/
structure State extends Memlib where
  heapListp : Nat
  heapBasefree : Nat
  out : List Message
  guarded : Bool

/-- Why a program of mm.c does not return: an access at an address out of reach,
a loop that never ends, or a call of `exit`. -/
inductive Stop where
  | outside (a : Nat)
  | endless
  | exit (code : Int)
deriving DecidableEq, Repr

abbrev M := Exec State Stop

def State.withBytes (s : State) (m : Bytes) : State := { s with bytes := m }

/-- The end of what a run can access. -/
def State.limit (s : State) : Nat := if s.guarded then memHeapHi s.toMemlib + 1 else s.memMaxAddr

def State.Reaches (s : State) (p n : Nat) : Prop := s.memStartBrk ≤ p ∧ p + n ≤ s.limit

instance (s : State) (p n : Nat) : Decidable (s.Reaches p n) :=
  inferInstanceAs (Decidable (_ ∧ _))

/-- The state before a run that may access the heap only. -/
def State.guard (s : State) : State := { s with guarded := true }

/-- The state before a run that may access the whole storage. -/
def State.bare (s : State) : State := { s with guarded := false }

def load (n p : Nat) : M Nat where
  run s := if s.Reaches p n then .ok (loadLE s.bytes p n, s) else .error (.outside p)

def store (n p v : Nat) : M Unit where
  run s :=
    if s.Reaches p n then .ok ((), s.withBytes (storeLE s.bytes p n v)) else .error (.outside p)

def sbrk (incr : Int) : M Nat where
  run s := .ok ((memSbrk incr s.toMemlib).1, { s with toMemlib := (memSbrk incr s.toMemlib).2 })

def getHeapListp : M Nat := Exec.gets State.heapListp

def setHeapListp (p : Nat) : M Unit := Exec.modify fun s => { s with heapListp := p }

def getHeapBasefree : M Nat := Exec.gets State.heapBasefree

def setHeapBasefree (p : Nat) : M Unit := Exec.modify fun s => { s with heapBasefree := p }

def printf (msg : Message) : M Unit := Exec.modify fun s => { s with out := s.out ++ [msg] }

/-- `(char *)p + n`. -/
def plus (p n : Nat) : Nat := (p + n) % 2 ^ 64

/-- `(char *)p - n`. -/
def minus (p n : Nat) : Nat := (p + (2 ^ 64 - n)) % 2 ^ 64

def pack (size alloc : Nat) : Nat := size ||| alloc

def get (p : Nat) : M Nat := load 4 p

def put (p val : Nat) : M Unit := store 4 p val

/-- `& ~0x7` on a 32-bit word. -/
def sizeBits (w : Nat) : Nat := w &&& 0xFFFFFFF8

/-- `& 0x1`. -/
def allocBit (w : Nat) : Nat := w &&& 1

def getSize (p : Nat) : M Nat := return sizeBits (← get p)

def getAlloc (p : Nat) : M Nat := return allocBit (← get p)

def hdrp (bp : Nat) : Nat := minus bp WSIZE

def ftrp (bp : Nat) : M Nat := return minus (plus bp (← getSize (hdrp bp))) DSIZE

def nextBlkp (bp : Nat) : M Nat := return plus bp (← getSize (minus bp WSIZE))

def prevBlkp (bp : Nat) : M Nat := return minus bp (← getSize (minus bp DSIZE))

def blkNxtp (bp : Nat) : Nat := bp

def blkPrvp (bp : Nat) : Nat := plus bp DSIZE

def pred (bp : Nat) : M Nat := load 8 bp

def succ (bp : Nat) : M Nat := load 8 (plus bp WSIZE)

/-- The assignment `SUCC(bp) = newp`. -/
def setSucc (bp newp : Nat) : M Unit := store 8 (plus bp WSIZE) newp

def put64val (ptr value : Nat) : M Unit := store 8 ptr value

/-- Stores through the address that the `SUCC` field holds. -/
def putNxt (bp newp : Nat) : M Unit := do store 8 (← succ bp) newp

/-- Stores through the address that the `PRED` field holds. -/
def putPrev (bp newp : Nat) : M Unit := do store 8 (← pred bp) newp

theorem plus_eq {p n : Nat} (h : p + n < 2 ^ 64) : plus p n = p + n := Nat.mod_eq_of_lt h

theorem minus_eq {p n : Nat} (h : n ≤ p) (hp : p < 2 ^ 64) : minus p n = p - n := by
  unfold minus
  omega

theorem sizeBits_eq {w : Nat} (h : w < 2 ^ 32) : sizeBits w = w / 8 * 8 := by
  have hMask : (0xFFFFFFF8 : Nat) = (2 ^ 29 - 1) <<< 3 := rfl
  have hShift : w / 8 * 8 = (w >>> 3) <<< 3 := by
    rw [Nat.shiftLeft_eq, Nat.shiftRight_eq_div_pow]
  have hBits : w >>> 3 &&& (2 ^ 29 - 1) = w >>> 3 := by
    rw [Nat.and_two_pow_sub_one_eq_mod, Nat.mod_eq_of_lt]
    rw [Nat.shiftRight_eq_div_pow]
    omega
  rw [hShift, ← hBits, Nat.shiftLeft_and_distrib, ← hMask, sizeBits, hMask]
  apply Nat.eq_of_testBit_eq
  intro i
  simp only [Nat.testBit_and, Nat.testBit_shiftLeft, Nat.testBit_shiftRight]
  by_cases hi : 3 ≤ i
  · simp [hi]
  · simp [hi]

theorem allocBit_eq (w : Nat) : allocBit w = w % 2 := Nat.and_one_is_mod w

theorem pack_eq {size alloc : Nat} (hSize : size % 8 = 0) (hAlloc : alloc ≤ 1) :
    pack size alloc = size + alloc := by
  have h := Nat.two_pow_add_eq_or_of_lt (show alloc < 2 ^ 3 by omega) (size / 8)
  have hMul : 2 ^ 3 * (size / 8) = size := by omega
  rw [hMul] at h
  exact h.symm

theorem heapHi_succ (m : Memlib) : memHeapHi m + 1 = m.memBrk := by
  have hPos := m.brk_pos
  rw [memHeapHi]
  omega

section Reaches

variable {s : State} {p n : Nat}

theorem State.limit_guarded (h : s.guarded = true) : s.limit = s.memBrk := by
  rw [State.limit, if_pos h, heapHi_succ]

theorem State.brk_le_limit (s : State) : s.memBrk ≤ s.limit := by
  rw [State.limit, heapHi_succ]
  split
  · exact le_rfl
  · exact s.brk_le_max

theorem State.limit_le_max (s : State) : s.limit ≤ s.memMaxAddr := by
  rw [State.limit, heapHi_succ]
  split
  · exact s.brk_le_max
  · exact le_rfl

theorem State.limit_lt (s : State) : s.limit < 2 ^ 64 := s.limit_le_max.trans_lt s.max_lt

theorem reaches_of_inHeap (h : s.InHeap p n) : s.Reaches p n := by
  rw [s.inHeap_iff] at h
  exact ⟨h.1, h.2.trans s.brk_le_limit⟩

theorem inHeap_of_reaches (hGuard : s.guarded = true) (h : s.Reaches p n) : s.InHeap p n := by
  rw [State.Reaches, State.limit_guarded hGuard] at h
  exact (s.inHeap_iff p n).mpr h

theorem not_reaches_null (s : State) (n : Nat) : ¬ s.Reaches NULL n := by
  have hPos := s.start_pos
  rw [State.Reaches, NULL]
  omega

end Reaches

section Access

variable {s s' : State} {n p v : Nat}

theorem load_reach (h : s.Reaches p n) : (load n p).run s = .ok (loadLE s.bytes p n, s) := by
  simp only [load, if_pos h]

theorem load_run (h : s.InHeap p n) : (load n p).run s = .ok (loadLE s.bytes p n, s) :=
  load_reach (reaches_of_inHeap h)

theorem load_stop (h : ¬ s.Reaches p n) : (load n p).run s = .error (.outside p) := by
  simp only [load, if_neg h]

theorem store_reach (h : s.Reaches p n) :
    (store n p v).run s = .ok ((), s.withBytes (storeLE s.bytes p n v)) := by
  simp only [store, if_pos h]

theorem store_run (h : s.InHeap p n) :
    (store n p v).run s = .ok ((), s.withBytes (storeLE s.bytes p n v)) :=
  store_reach (reaches_of_inHeap h)

theorem store_stop (h : ¬ s.Reaches p n) : (store n p v).run s = .error (.outside p) := by
  simp only [store, if_neg h]

theorem load_ok (h : (load n p).run s = .ok (v, s')) :
    s.Reaches p n ∧ v = loadLE s.bytes p n ∧ s' = s := by
  simp only [load] at h
  split at h
  · cases h
    exact ⟨‹_›, rfl, rfl⟩
  · cases h

theorem store_ok (h : (store n p v).run s = .ok ((), s')) :
    s.Reaches p n ∧ s' = s.withBytes (storeLE s.bytes p n v) := by
  simp only [store] at h
  split at h
  · cases h
    exact ⟨‹_›, rfl⟩
  · cases h

theorem load_bind_iff {α : Type} {f : Nat → M α} {r : α × State} :
    (load n p >>= f).run s = .ok r ↔ s.Reaches p n ∧ (f (loadLE s.bytes p n)).run s = .ok r := by
  by_cases h : s.Reaches p n
  · rw [Exec.run_bind_ok (load_reach h)]
    simp only [h, true_and]
  · rw [Exec.run_bind_error (load_stop h)]
    simp only [h, false_and, reduceCtorEq]

theorem store_bind_iff {α : Type} {f : Unit → M α} {r : α × State} :
    (store n p v >>= f).run s = .ok r ↔
      s.Reaches p n ∧ (f ()).run (s.withBytes (storeLE s.bytes p n v)) = .ok r := by
  by_cases h : s.Reaches p n
  · rw [Exec.run_bind_ok (store_reach h)]
    simp only [h, true_and]
  · rw [Exec.run_bind_error (store_stop h)]
    simp only [h, false_and, reduceCtorEq]

end Access

end Cs33.Malloc
