import Cs33.Malloc.Macros

/-! # The functions of mm.c

Each definition follows the source statement by statement. Trace output is
left out except for the loads its arguments make and for the error messages.
The search and check loops get one round more than a run can access bytes, so
a loop that uses them up has visited some address twice and runs for ever.
-/

namespace Cs33.Malloc

open ByteMemory

def rounds : M Nat := Exec.gets fun s => s.limit - s.memStartBrk + 1

/-- A `size_t` or pointer value converted to `uint32_t`. -/
def toUint32 (n : Nat) : Nat := n % 2 ^ 32

/-- A `uint32_t` value converted to `int`. -/
def uint32ToInt (n : Nat) : Int := if n < 2 ^ 31 then n else (n : Int) - 2 ^ 32

/-- `a - b` on `size_t`. -/
def sizeSub (a b : Nat) : Nat := (a + (2 ^ 64 - b)) % 2 ^ 64

def printblock (bp : Nat) : M Unit := do
  let hsize ← getSize (hdrp bp)
  let _halloc ← getAlloc (hdrp bp)
  let _fsize ← getSize (← ftrp bp)
  let _falloc ← getAlloc (← ftrp bp)
  if hsize = 0 then
    return ()
  else
    let _succ ← succ bp
    let _pred ← pred bp
    return ()

def checkblock (bp : Nat) : M Unit := do
  if toUint32 bp % 8 ≠ 0 then
    printf (.notAligned bp)
  if (← get (hdrp bp)) ≠ (← get (← ftrp bp)) then
    printf .headerFooterMismatch

/-- One round of the loop of `mm_checkheap`. -/
def mmCheckheapRound (verbose : Bool) (bp : Nat) : M (Nat ⊕ Nat) := do
  if 0 < (← getSize (hdrp bp)) then
    if verbose then printblock bp
    checkblock bp
    return .inl (← nextBlkp bp)
  else
    return .inr bp

def mmCheckheap (verbose : Bool) : M Unit := do
  let heapListp ← getHeapListp
  let badSize := decide ((← getSize (hdrp heapListp)) ≠ 24)
  if badSize || decide ((← getAlloc (hdrp heapListp)) = 0) then
    printf .badPrologueHeader
  checkblock heapListp
  let bp ← Exec.loop .endless (mmCheckheapRound verbose) (← rounds) heapListp
  if verbose then printblock bp
  let badSize := decide ((← getSize (hdrp bp)) ≠ 0)
  if badSize || decide ((← getAlloc (hdrp bp)) = 0) then
    printf .badEpilogueHeader

def coalesceHelper (bp : Nat) : M Unit := do
  if bp ≠ NULL then
    if (← pred bp) ≠ NULL then
      setSucc (← pred bp) (← succ bp)
    else
      setHeapBasefree (← succ bp)
    if (← succ bp) ≠ NULL then
      put64val (← pred (← succ bp)) (← pred bp)

def coalesce (bp : Nat) : M Nat := do
  let prevAlloc ← getAlloc (← ftrp (← prevBlkp bp))
  let nextAlloc ← getAlloc (hdrp (← nextBlkp bp))
  let size ← getSize (hdrp bp)
  if prevAlloc ≠ 0 ∧ nextAlloc ≠ 0 then
    return bp
  else if prevAlloc ≠ 0 ∧ nextAlloc = 0 then
    let size := toUint32 (size + (← getSize (hdrp (← nextBlkp bp))))
    put (hdrp bp) (pack size 0)
    put (← ftrp bp) (pack size 0)
    return bp
  else if prevAlloc = 0 ∧ nextAlloc ≠ 0 then
    let size := toUint32 (size + (← getSize (hdrp (← prevBlkp bp))))
    put (← ftrp bp) (pack size 0)
    put (hdrp (← prevBlkp bp)) (pack size 0)
    prevBlkp bp
  else
    let prevSize ← getSize (hdrp (← prevBlkp bp))
    let nextSize ← getSize (← ftrp (← nextBlkp bp))
    let size := toUint32 (size + toUint32 (prevSize + nextSize))
    put (hdrp (← prevBlkp bp)) (pack size 0)
    put (← ftrp (← nextBlkp bp)) (pack size 0)
    prevBlkp bp

/-- The four statements that end case 1 and the joined path of `exp_coalesce`. -/
def linkAtBase (bp : Nat) : M Nat := do
  put64val (← pred (← getHeapBasefree)) bp
  put64val (← succ bp) (← getHeapBasefree)
  put64val (← pred bp) NULL
  setHeapBasefree bp
  return bp

def expCoalesce (bp : Nat) : M Nat := do
  mmCheckheap true
  let prevAlloc ← getAlloc (← ftrp (← prevBlkp bp))
  let prevAlloc := if bp = NULL then 1 else prevAlloc
  let nextAlloc ← getAlloc (hdrp (← nextBlkp bp))
  let size ← getSize (hdrp bp)
  if prevAlloc ≠ 0 ∧ nextAlloc ≠ 0 then
    linkAtBase bp
  else
    let bp ← (if prevAlloc ≠ 0 ∧ nextAlloc = 0 then do
        let size := toUint32 (size + (← getSize (hdrp (← nextBlkp bp))))
        coalesceHelper (← nextBlkp bp)
        put (hdrp bp) (pack size 0)
        put (← ftrp bp) (pack size 0)
        return bp
      else if prevAlloc = 0 ∧ nextAlloc ≠ 0 then do
        let size := toUint32 (size + (← getSize (hdrp (← prevBlkp bp))))
        let bp ← prevBlkp bp
        coalesceHelper bp
        put (hdrp bp) (pack size 0)
        put (← ftrp bp) (pack size 0)
        return bp
      else do
        let prevSize ← getSize (hdrp (← prevBlkp bp))
        let nextSize ← getSize (← ftrp (← nextBlkp bp))
        let size := toUint32 (size + toUint32 (prevSize + nextSize))
        coalesceHelper (← prevBlkp bp)
        coalesceHelper (← nextBlkp bp)
        let bp ← prevBlkp bp
        put (hdrp bp) (pack size 0)
        put (← ftrp bp) (pack size 0)
        return bp : M Nat)
    mmCheckheap true
    let _first ← load 1 (← getHeapBasefree)
    let _printed ← load 8 (← getHeapBasefree)
    linkAtBase bp

def extendHeap (words : Nat) : M Nat := do
  let size := toUint32 (if words % 2 ≠ 0 then (words + 1) * WSIZE else words * WSIZE)
  let size := if size < FREEBLOCKSIZE then FREEBLOCKSIZE else size
  let bp ← sbrk (uint32ToInt size)
  if bp = minusOne then
    return NULL
  else
    put (hdrp bp) (pack size 0)
    put (← ftrp bp) (pack size 0)
    put (hdrp (← nextBlkp bp)) (pack 0 1)
    expCoalesce bp

def mmInit : M Int := do
  setHeapListp (← sbrk (4 * WSIZE))
  if (← getHeapListp) = NULL then
    return -1
  else
    put (← getHeapListp) 0
    setHeapListp (plus (← getHeapListp) WSIZE)
    put (← getHeapListp) (pack FREEBLOCKSIZE 1)
    setHeapListp (plus (← getHeapListp) WSIZE)
    printblock (← getHeapListp)
    put (plus (← getHeapListp) (DSIZE * 2)) (pack FREEBLOCKSIZE 1)
    put (plus (plus (← getHeapListp) (DSIZE * 2)) WSIZE) (pack 0 1)
    setHeapBasefree (← getHeapListp)
    put64val (← getHeapListp) NULL
    put64val (plus (← getHeapListp) DSIZE) NULL
    let _hsize ← getSize (hdrp (← getHeapListp))
    let _halloc ← getAlloc (hdrp (← getHeapListp))
    let _fsize ← getSize (← ftrp (← getHeapListp))
    let _falloc ← getAlloc (← ftrp (← getHeapListp))
    let _succ ← succ (← getHeapListp)
    let _pred ← pred (← getHeapListp)
    mmCheckheap true
    if (← extendHeap (CHUNKSIZE / WSIZE)) = NULL then
      return -1
    else
      return 0

def expPlace (bp asize : Nat) : M Unit := do
  let csize ← getSize (hdrp bp)
  let prev := blkPrvp bp
  let next := blkNxtp bp
  putNxt (← prevBlkp bp) next
  putPrev (← nextBlkp bp) prev
  if FREEBLOCKSIZE ≤ sizeSub csize asize then
    put (hdrp bp) (pack asize 1)
    put (← ftrp bp) (pack asize 1)
    coalesceHelper bp
    let bp ← nextBlkp bp
    put (hdrp bp) (pack (sizeSub csize asize) 0)
    put (← ftrp bp) (pack (sizeSub csize asize) 0)
    let _merged ← expCoalesce bp
    return ()
  else
    put (hdrp bp) (pack csize 1)
    put (← ftrp bp) (pack csize 1)
    coalesceHelper bp

def place (bp asize : Nat) : M Unit := do
  let csize ← getSize (hdrp bp)
  if DSIZE + OVERHEAD ≤ sizeSub csize asize then
    put (hdrp bp) (pack asize 1)
    put (← ftrp bp) (pack asize 1)
    let bp ← nextBlkp bp
    put (hdrp bp) (pack (sizeSub csize asize) 0)
    put (← ftrp bp) (pack (sizeSub csize asize) 0)
  else
    put (hdrp bp) (pack csize 1)
    put (← ftrp bp) (pack csize 1)

/-- One round of the loop of `find_fit_exp`: its condition looks at `heap_basefree`, not
at `bp`. -/
def findFitExpRound (asize bp : Nat) : M (Nat ⊕ Nat) := do
  if (← getAlloc (hdrp (← getHeapBasefree))) = 0 then
    if asize ≤ (← getSize (hdrp bp)) then
      return .inr bp
    else
      return .inl (← succ bp)
  else
    return .inr NULL

def findFitExp (asize : Nat) : M Nat := do
  Exec.loop .endless (findFitExpRound asize) (← rounds) (← getHeapBasefree)

/-- One round of the loop of `find_fit`. -/
def findFitRound (asize bp : Nat) : M (Nat ⊕ Nat) := do
  if 0 < (← getSize (hdrp bp)) then
    let free := decide ((← getAlloc (hdrp bp)) = 0)
    if free && decide (asize ≤ (← getSize (hdrp bp))) then
      return .inr bp
    else
      return .inl (← nextBlkp bp)
  else
    return .inr NULL

def findFit (asize : Nat) : M Nat := do
  Exec.loop .endless (findFitRound asize) (← rounds) (← getHeapListp)

/-- The `asize` that `mm_malloc` computes: `size_t` arithmetic stored in a `uint32_t`. -/
def adjust (size : Nat) : Nat :=
  if size ≤ DSIZE then DSIZE + OVERHEAD
  else toUint32 (DSIZE * ((size + OVERHEAD + (DSIZE - 1)) % 2 ^ 64 / DSIZE))

def mmMalloc (size : Nat) : M Nat := do
  if size = 0 then
    return NULL
  else
    let asize := adjust size
    let bp ← findFitExp asize
    if bp ≠ NULL then
      expPlace bp asize
      return bp
    else
      let extendsize := max asize CHUNKSIZE
      let bp ← extendHeap (extendsize / WSIZE)
      if bp = NULL then
        return NULL
      else
        expPlace bp asize
        return bp

def mmFree (bp : Nat) : M Unit := do
  let size ← getSize (hdrp bp)
  put (hdrp bp) (pack size 0)
  put (← ftrp bp) (pack size 0)
  putNxt bp (← getHeapBasefree)
  putPrev (← getHeapBasefree) bp
  setHeapBasefree bp
  let _merged ← expCoalesce bp
  return ()

def memcpy (dst src n : Nat) : M Unit where
  run s :=
    if n = 0 then .ok ((), s)
    else if ¬ s.Reaches src n then .error (.outside src)
    else if ¬ s.Reaches dst n then .error (.outside dst)
    else .ok ((), s.withBytes (copy s.bytes dst src n))

def mmRealloc (ptr size : Nat) : M Nat := do
  let newp ← mmMalloc size
  if newp = NULL then
    printf .mallocFailedInRealloc
    Exec.stop (.exit 1)
  else
    let blockSize ← getSize (hdrp ptr)
    let copySize := if size < blockSize then size else blockSize
    memcpy newp ptr copySize
    mmFree ptr
    return newp

end Cs33.Malloc
