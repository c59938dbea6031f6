import Cs33.Driver.Allocator

/-! # The replays of mdriver.c

Each definition follows the source statement by statement. The range list
and the two arrays of the trace are part of the driver's state, and `int`
arithmetic wraps and raises a flag. The driver stops when the allocator does,
when an assertion fails, or in `app_error`.
-/

namespace Cs33.Driver

open Cs33.Malloc ByteMemory

def ALIGNMENT : Nat := 8

def FREE_HEAP : Nat := 65536

inductive OpType where
  | alloc
  | free
  | realloc
deriving DecidableEq, Repr

structure TraceOp where
  type : OpType
  index : Int
  size : Int
deriving DecidableEq, Repr

/-- A `range_t` without its link. -/
structure Range where
  lo : Nat
  hi : Nat
deriving DecidableEq, Repr

/-- The messages that `malloc_error` is given, with the addresses they print. -/
inductive MallocError where
  | initFailed
  | mallocFailed
  | reallocFailed
  | notPreserved
  | notAligned (lo : Nat)
  | outsideHeap (lo hi heapLo heapHi : Nat)
  | overlaps (lo hi otherLo otherHi : Nat)
deriving DecidableEq, Repr

def MallocError.format : MallocError → String
  | .initFailed => "mm_init failed."
  | .mallocFailed => "mm_malloc failed."
  | .reallocFailed => "mm_realloc failed."
  | .notPreserved => "mm_realloc did not preserve the data from old block"
  | .notAligned _ => "Payload address (%p) not aligned to %d bytes"
  | .outsideHeap .. => "Payload (%p:%p) lies outside heap (%p:%p)"
  | .overlaps .. => "Payload (%p:%p) overlaps another payload (%p:%p)\n"

structure Report where
  tracenum : Nat
  line : Nat
  error : MallocError
deriving DecidableEq, Repr

/-- The messages that the replays give to `app_error`. -/
inductive AppError where
  | initFailedUtil
  | mallocFailedUtil
  | reallocFailedUtil
  | initFailedSpeed
  | mallocErrorSpeed
  | reallocErrorSpeed
deriving DecidableEq, Repr

def AppError.format : AppError → String
  | .initFailedUtil => "mm_init failed in eval_mm_util"
  | .mallocFailedUtil => "mm_malloc failed in eval_mm_util"
  | .reallocFailedUtil => "mm_realloc failed in eval_mm_util"
  | .initFailedSpeed => "mm_init failed in eval_mm_speed"
  | .mallocErrorSpeed => "mm_malloc error in eval_mm_speed"
  | .reallocErrorSpeed => "mm_realloc error in eval_mm_speed"

inductive Halt where
  | allocator (reason : Stop)
  | assertion
  | appError (msg : AppError)
deriving DecidableEq, Repr

structure Mdriver (σ : Type) where
  heap : σ × Memlib
  ranges : List Range
  blocks : Int → Nat
  blockSizes : Int → Nat
  reports : List Report
  overflowed : Bool

abbrev D (σ : Type) := Exec (Mdriver σ) Halt

variable {σ : Type}

def call {α : Type} (x : Exec (σ × Memlib) Stop α) : D σ α where
  run d :=
    match x.run d.heap with
    | .ok (a, h) => .ok (a, { d with heap := h })
    | .error e => .error (.allocator e)

def getMem : D σ Memlib := Exec.gets fun d => d.heap.2

def memResetBrk : D σ Unit :=
  Exec.modify fun d => { d with heap := (d.heap.1, Malloc.memResetBrk d.heap.2) }

def memset (p : Nat) (c : UInt8) (n : Nat) : D σ Unit :=
  Exec.modify fun d =>
    { d with heap := (d.heap.1, { d.heap.2 with bytes := fill d.heap.2.bytes p n c }) }

def getRanges : D σ (List Range) := Exec.gets Mdriver.ranges

def setRanges (ranges : List Range) : D σ Unit := Exec.modify fun d => { d with ranges := ranges }

def getBlock (index : Int) : D σ Nat := Exec.gets fun d => d.blocks index

def setBlock (index : Int) (p : Nat) : D σ Unit :=
  Exec.modify fun d => { d with blocks := Function.update d.blocks index p }

def getBlockSize (index : Int) : D σ Nat := Exec.gets fun d => d.blockSizes index

def setBlockSize (index : Int) (n : Nat) : D σ Unit :=
  Exec.modify fun d => { d with blockSizes := Function.update d.blockSizes index n }

def appError {α : Type} (msg : AppError) : D σ α := Exec.stop (.appError msg)

/-! ## Conversions and `int` arithmetic -/

/-- An `int` converted to `size_t`. -/
def toSizeT (n : Int) : Nat := (n % 2 ^ 64).toNat

/-- A `size_t` converted to `int`. -/
def toInt (n : Nat) : Int := uint32ToInt (toUint32 n)

def wrapInt (n : Int) : Int := (n + 2 ^ 31) % 2 ^ 32 - 2 ^ 31

/-- The value of an `int` operation, with the flag raised when it does not fit. -/
def intOp (n : Int) : D σ Int := do
  if n < -2 ^ 31 ∨ 2 ^ 31 ≤ n then
    Exec.modify fun d => { d with overflowed := true }
    return wrapInt n
  else
    return n

/-- `index & 0xFF`. -/
def lowByte (index : Int) : Nat := (index % 256).toNat

/-- A `char` promoted to `int`: plain `char` is signed. -/
def charToInt (c : UInt8) : Int := if c.toNat < 128 then c.toNat else (c.toNat : Int) - 256

/-! ## The range list -/

def lineNum (i : Nat) : Nat := i + 5

def mallocError (tracenum opnum : Nat) (error : MallocError) : D σ Unit :=
  Exec.modify fun d => { d with reports := d.reports ++ [⟨tracenum, lineNum opnum, error⟩] }

def isAligned (p : Nat) : Bool := p % 2 ^ 32 % ALIGNMENT == 0

/-- Whether an end of the new payload lies in the range. -/
def endIn (lo hi : Nat) (p : Range) : Bool :=
  (decide (p.lo ≤ lo) && decide (lo ≤ p.hi)) || (decide (p.lo ≤ hi) && decide (hi ≤ p.hi))

def addRange (lo : Nat) (size : Int) (tracenum opnum : Nat) : D σ Int := do
  let hi := minus (plus lo (toSizeT size)) 1
  if size ≤ 0 then
    Exec.stop .assertion
  else if isAligned lo = false then
    mallocError tracenum opnum (.notAligned lo)
    return 0
  else
    let mem ← getMem
    if lo < memHeapLo mem ∨ memHeapHi mem < lo ∨ hi < memHeapLo mem ∨ memHeapHi mem < hi then
      mallocError tracenum opnum (.outsideHeap lo hi (memHeapLo mem) (memHeapHi mem))
      return 0
    else
      let ranges ← getRanges
      match ranges.find? (endIn lo hi) with
      | some p =>
        mallocError tracenum opnum (.overlaps lo hi p.lo p.hi)
        return 0
      | none =>
        setRanges (⟨lo, hi⟩ :: ranges)
        return 1

def removeRange (lo : Nat) : D σ Unit := do
  setRanges ((← getRanges).eraseP fun p => p.lo == lo)

def clearRanges : D σ Unit := setRanges []

/-! ## `eval_mm_valid` -/

/-- Whether one of the first `n` bytes at `p` differs from the low byte of the index. -/
def differs (m : Bytes) (p : Nat) (n : Nat) (index : Int) : Bool :=
  (List.range n).any fun j => charToInt (m (plus p j)) != lowByte index

/-- One request of `eval_mm_valid`: whether the replay goes on. -/
def validOp (A : Allocator σ) (tracenum i : Nat) (op : TraceOp) : D σ Bool := do
  let index := op.index
  let size := op.size
  match op.type with
  | .alloc =>
    let p ← call (A.mmMalloc (toSizeT size))
    if p = NULL then
      mallocError tracenum i .mallocFailed
      return false
    else if (← addRange p size tracenum i) = 0 then
      return false
    else
      memset p (UInt8.ofNat (lowByte index)) (toSizeT size)
      setBlock index p
      setBlockSize index (toSizeT size)
      return true
  | .realloc =>
    let oldp ← getBlock index
    let newp ← call (A.mmRealloc oldp (toSizeT size))
    if newp = NULL then
      mallocError tracenum i .reallocFailed
      return false
    else
      removeRange oldp
      if (← addRange newp size tracenum i) = 0 then
        return false
      else
        let oldsize := toInt (← getBlockSize index)
        let oldsize := if size < oldsize then size else oldsize
        let mem ← getMem
        if differs mem.bytes newp oldsize.toNat index then
          mallocError tracenum i .notPreserved
          return false
        else
          memset newp (UInt8.ofNat (lowByte index)) (toSizeT size)
          setBlock index newp
          setBlockSize index (toSizeT size)
          return true
  | .free =>
    let p ← getBlock index
    removeRange p
    call (A.mmFree p)
    return true

def validOps (A : Allocator σ) (tracenum : Nat) : Nat → List TraceOp → D σ Int
  | _, [] => return 1
  | i, op :: ops => do
    if (← validOp A tracenum i op) then
      validOps A tracenum (i + 1) ops
    else
      return 0

def evalMmValid (A : Allocator σ) (tracenum : Nat) (ops : List TraceOp) : D σ Int := do
  memResetBrk
  clearRanges
  if (← call A.mmInit) < 0 then
    mallocError tracenum 0 .initFailed
    return 0
  else
    validOps A tracenum 0 ops

/-! ## `eval_mm_util` -/

/-- One request of `eval_mm_util`, from `total_size` and `max_total_size` to their next values. -/
def utilOp (A : Allocator σ) (op : TraceOp) (total maxTotal : Int) : D σ (Int × Int) := do
  let index := op.index
  match op.type with
  | .alloc =>
    let size := op.size
    let p ← call (A.mmMalloc (toSizeT size))
    if p = NULL then
      appError .mallocFailedUtil
    else
      setBlock index p
      setBlockSize index (toSizeT size)
      let total ← intOp (total + size)
      return (total, if maxTotal < total then total else maxTotal)
  | .realloc =>
    let newsize := op.size
    let oldsize := toInt (← getBlockSize index)
    let oldp ← getBlock index
    let newp ← call (A.mmRealloc oldp (toSizeT newsize))
    if newp = NULL then
      appError .reallocFailedUtil
    else
      setBlock index newp
      setBlockSize index (toSizeT newsize)
      let total ← intOp (total + (← intOp (newsize - oldsize)))
      return (total, if maxTotal < total then total else maxTotal)
  | .free =>
    let size := toInt (← getBlockSize index)
    let p ← getBlock index
    call (A.mmFree p)
    let total ← intOp (total - size)
    return (total, maxTotal)

def utilOps (A : Allocator σ) : List TraceOp → Int → Int → D σ (Int × Int)
  | [], total, maxTotal => return (total, maxTotal)
  | op :: ops, total, maxTotal => do
    let (total, maxTotal) ← utilOp A op total maxTotal
    utilOps A ops total maxTotal

structure Util where
  idealMaxHeap : Int
  maxHeap : Int

/-- The returned ratio, as an exact number. -/
def Util.ratio (u : Util) : ℚ := u.idealMaxHeap / u.maxHeap

def evalMmUtil (A : Allocator σ) (ops : List TraceOp) : D σ Util := do
  memResetBrk
  if (← call A.mmInit) < 0 then
    appError .initFailedUtil
  else
    let (_, maxTotal) ← utilOps A ops 0 FREE_HEAP
    let heapsize := memHeapsize (← getMem)
    return ⟨maxTotal, toInt (if FREE_HEAP < heapsize then heapsize else FREE_HEAP)⟩

/-! ## `eval_mm_speed` -/

def speedOp (A : Allocator σ) (op : TraceOp) : D σ Unit := do
  let index := op.index
  match op.type with
  | .alloc =>
    let p ← call (A.mmMalloc (toSizeT op.size))
    if p = NULL then
      appError .mallocErrorSpeed
    else
      setBlock index p
  | .realloc =>
    let oldp ← getBlock index
    let newp ← call (A.mmRealloc oldp (toSizeT op.size))
    if newp = NULL then
      appError .reallocErrorSpeed
    else
      setBlock index newp
  | .free =>
    let block ← getBlock index
    call (A.mmFree block)

def speedOps (A : Allocator σ) : List TraceOp → D σ Unit
  | [] => return ()
  | op :: ops => do
    speedOp A op
    speedOps A ops

def evalMmSpeed (A : Allocator σ) (ops : List TraceOp) : D σ Unit := do
  memResetBrk
  if (← call A.mmInit) < 0 then
    appError .initFailedSpeed
  else
    speedOps A ops

end Cs33.Driver
