import Cs33.Malloc.Coalesce
import Cs33.Malloc.Frame
import Cs33.Malloc.FreeList

/-! # `exp_coalesce` is not `coalesce` with a list

A list that is sound has at most two blocks, and the first of two lies below
`2^32`, the address of the second. `coalesce_helper` unlinks from such a list,
but the four statements that link the merged block store through fields where
they mean the fields themselves. Whatever the heap, they store through NULL or
leave a wrong link behind.
-/

namespace Cs33.Malloc

open ByteMemory Exec

/-- The block `x` is free, and the list holds every other free block. -/
structure Detached (s : State) (bs : List Block) (links : List (Nat × Block)) (x : Nat × Block) :
    Prop where
  heap : BoundaryHeap s bs
  linked : Linked s.bytes NULL s.heapBasefree links
  visits : (x :: links).Perm (freeBlocks s.heapListp bs)

/-- The blocks of the list that lie outside the block `m` at `p`. -/
def outsideOf (p : Nat) (m : Block) (links : List (Nat × Block)) : List (Nat × Block) :=
  links.filter fun x => p + m.size ≤ x.1 ∨ x.1 + x.2.size ≤ p

/-- `exp_coalesce` returns what `coalesce` does and leaves the same blocks, the list afterwards is
the merged block and the blocks it has not absorbed, and no byte outside the free blocks differs. -/
def AgreesWithCoalesce (s : State) (bs : List Block) (links : List (Nat × Block)) (bp : Nat) :
    Prop :=
  ∃ p s' t cs m, (expCoalesce bp).run s = .ok (p, s') ∧ (coalesce bp).run s = .ok (p, t) ∧
    BoundaryHeap t cs ∧ BoundaryHeap s' cs ∧ (p, m) ∈ addressed s.heapListp cs ∧
    Linked s'.bytes NULL s'.heapBasefree ((p, m) :: outsideOf p m links) ∧
    ∀ a, (∀ x ∈ freeBlocks s.heapListp bs, a < x.1 - 4 ∨ x.1 + x.2.size - 4 ≤ a) →
      s'.bytes a = s.bytes a

/-! ## `coalesce_helper` -/

section Helper

variable {t : State} {q m : Nat}

theorem setSucc_run {v : Nat} (hLo : t.memStartBrk ≤ m) (hHi : m + 12 ≤ t.memBrk) :
    (setSucc m v).run t = .ok ((), t.withBytes (storeLE t.bytes (m + 4) 8 v)) := by
  have hBrk := t.brk_lt
  have hPlus : plus m WSIZE = m + 4 := plus_eq (by unfold WSIZE; omega)
  rw [setSucc, hPlus, store_run]
  rw [t.inHeap_iff]
  omega

theorem ne_null_of_start_le (hLo : t.memStartBrk ≤ q) : q ≠ NULL := by
  have hPos := t.start_pos
  rw [NULL]
  omega

theorem pred_at {v : Nat} (hLo : t.memStartBrk ≤ q) (hHi : q + 8 ≤ t.memBrk)
    (h : loadLE t.bytes q 8 = v) : (pred q).run t = .ok (v, t) := by
  rw [pred_run hLo hHi, h]

theorem succ_at {v : Nat} (hLo : t.memStartBrk ≤ q) (hHi : q + 12 ≤ t.memBrk)
    (h : loadLE t.bytes (q + 4) 8 = v) : (succ q).run t = .ok (v, t) := by
  rw [succ_run hLo hHi, h]

theorem coalesceHelper_alone (hLo : t.memStartBrk ≤ q) (hHi : q + 12 ≤ t.memBrk)
    (hPred : loadLE t.bytes q 8 = NULL) (hSucc : loadLE t.bytes (q + 4) 8 = NULL) :
    (coalesceHelper q).run t = .ok ((), { t with heapBasefree := NULL }) := by
  let u : State := { t with heapBasefree := NULL }
  have hSet : (setHeapBasefree NULL).run t = .ok ((), u) := rfl
  rw [coalesceHelper, if_pos (ne_null_of_start_le hLo)]
  dsimp only
  rw [run_bind_ok (pred_at hLo (by omega) hPred), if_neg (not_not.mpr rfl),
    run_bind_ok (succ_at hLo hHi hSucc), run_bind_ok hSet,
    run_bind_ok (succ_at (t := u) hLo hHi hSucc), if_neg (not_not.mpr rfl), run_pure]

/-- The head of the list gives way to its successor, and storing its null `PRED` through the
back link of that changes nothing. -/
theorem coalesceHelper_front (hLo : t.memStartBrk ≤ q) (hHi : q + 12 ≤ t.memBrk)
    (hLo' : t.memStartBrk ≤ m) (hHi' : m + 8 ≤ t.memBrk) (hPred : loadLE t.bytes q 8 = NULL)
    (hSucc : loadLE t.bytes (q + 4) 8 = m) (hBack : loadLE t.bytes m 8 = q) :
    (coalesceHelper q).run t = .ok ((), { t with heapBasefree := m }) := by
  let u : State := { t with heapBasefree := m }
  have hSet : (setHeapBasefree m).run t = .ok ((), u) := rfl
  have hPredU := pred_at (t := u) hLo (show q + 8 ≤ t.memBrk by omega) hPred
  have hSuccU := succ_at (t := u) hLo hHi hSucc
  have hPut : (put64val q NULL).run u = .ok ((), u) := by
    have hRun : (put64val q NULL).run u = .ok ((), u.withBytes (storeLE t.bytes q 8 NULL)) :=
      store_run ((u.inHeap_iff q 8).mpr ⟨hLo, show q + 8 ≤ t.memBrk by omega⟩)
    rw [hRun, ← hPred, storeLE_loadLE]
    rfl
  rw [coalesceHelper, if_pos (ne_null_of_start_le hLo)]
  dsimp only
  rw [run_bind_ok (pred_at hLo (by omega) hPred), if_neg (not_not.mpr rfl),
    run_bind_ok (succ_at hLo hHi hSucc), run_bind_ok hSet, run_bind_ok hSuccU,
    if_pos (ne_null_of_start_le hLo'), run_bind_ok hSuccU,
    run_bind_ok (pred_at (t := u) hLo' hHi' hBack), run_bind_ok hPredU, hPut]

/-- The last block of the list leaves a null `SUCC` in the block before. -/
theorem coalesceHelper_back (hLo : t.memStartBrk ≤ q) (hHi : q + 12 ≤ t.memBrk)
    (hLo' : t.memStartBrk ≤ m) (hHi' : m + 12 ≤ t.memBrk) (hApart : m + 8 ≤ q ∨ q + 8 ≤ m)
    (hPred : loadLE t.bytes q 8 = m) (hSucc : loadLE t.bytes (q + 4) 8 = NULL) :
    (coalesceHelper q).run t = .ok ((), t.withBytes (storeLE t.bytes (m + 4) 8 NULL)) := by
  let u := t.withBytes (storeLE t.bytes (m + 4) 8 NULL)
  have hSuccU : (succ q).run u = .ok (NULL, u) := by
    apply succ_at (t := u) hLo hHi
    rw [← hSucc]
    exact loadLE_storeLE_of_disjoint (by omega)
  rw [coalesceHelper, if_pos (ne_null_of_start_le hLo)]
  dsimp only
  rw [run_bind_ok (pred_at hLo (by omega) hPred), if_pos (ne_null_of_start_le hLo'),
    run_bind_ok (pred_at hLo (by omega) hPred), run_bind_ok (succ_at hLo hHi hSucc),
    run_bind_ok (setSucc_run hLo' hHi'), run_bind_ok hSuccU, if_neg (not_not.mpr rfl), run_pure]

end Helper

/-! ## Linking the merged block -/

/-- The memory after `PUT_64VAL(PRED(heap_basefree), bp)`. -/
def putFront (m : Bytes) (base bp : Nat) : Bytes := storeLE m (loadLE m base 8) 8 bp

/-- The memory after `PUT_64VAL(SUCC(bp), heap_basefree)`. -/
def putNext (m : Bytes) (base bp : Nat) : Bytes :=
  storeLE (putFront m base bp) (loadLE (putFront m base bp) (bp + 4) 8) 8 base

/-- The memory after `PUT_64VAL(PRED(bp), NULL)`. -/
def putNull (m : Bytes) (base bp : Nat) : Bytes :=
  storeLE (putNext m base bp) (loadLE (putNext m base bp) bp 8) 8 NULL

/-- None of the addresses that linking `bp` loads through or stores through is NULL. -/
structure Links (m : Bytes) (base bp : Nat) : Prop where
  listed : base ≠ NULL
  front : loadLE m base 8 ≠ NULL
  next : loadLE (putFront m base bp) (bp + 4) 8 ≠ NULL
  null : loadLE (putNext m base bp) bp 8 ≠ NULL

/-- What `exp_coalesce` does on its joined path once the tags are merged. -/
def relink (bp : Nat) : M Nat := do
  mmCheckheap true
  let _first ← load 1 (← getHeapBasefree)
  let _printed ← load 8 (← getHeapBasefree)
  linkAtBase bp

section Link

variable {t s' : State} {bp r : Nat}

theorem ne_null_of_reaches {a n : Nat} (h : t.Reaches a n) : a ≠ NULL := by
  rintro rfl
  exact not_reaches_null t n h

variable {α : Type} {x : α × State}

theorem load_bind_ok {n p : Nat} {f : Nat → M α} (h : (load n p >>= f).run t = .ok x) :
    p ≠ NULL ∧ (f (loadLE t.bytes p n)).run t = .ok x := by
  obtain ⟨v, u, hLoad, hRun⟩ := run_bind_eq_ok.mp h
  obtain ⟨hIn, rfl, rfl⟩ := load_ok hLoad
  exact ⟨ne_null_of_reaches hIn, hRun⟩

theorem store_bind_ok {n p v : Nat} {f : Unit → M α} (h : (store n p v >>= f).run t = .ok x) :
    p ≠ NULL ∧ ∃ u, u.bytes = storeLE t.bytes p n v ∧ u.heapBasefree = t.heapBasefree ∧
      (f ()).run u = .ok x := by
  obtain ⟨_, u, hStore, hRun⟩ := run_bind_eq_ok.mp h
  obtain ⟨hIn, rfl⟩ := store_ok hStore
  exact ⟨ne_null_of_reaches hIn, t.withBytes (storeLE t.bytes p n v), rfl, rfl, hRun⟩

theorem base_bind_ok {f : Nat → M α} (h : (getHeapBasefree >>= f).run t = .ok x) :
    (f t.heapBasefree).run t = .ok x := h

theorem linkAtBase_ok (hbp : bp + 4 < 2 ^ 64) (h : (linkAtBase bp).run t = .ok (r, s')) :
    Links t.bytes t.heapBasefree bp ∧ s'.bytes = putNull t.bytes t.heapBasefree bp ∧
      s'.heapBasefree = bp := by
  have hPlus : plus bp WSIZE = bp + 4 := plus_eq hbp
  rw [linkAtBase] at h
  obtain ⟨hListed, h⟩ := load_bind_ok (base_bind_ok h)
  obtain ⟨hFront, t₁, hBytes₁, hBase₁, h⟩ := store_bind_ok h
  rw [succ, hPlus] at h
  obtain ⟨-, h⟩ := load_bind_ok h
  obtain ⟨hNext, t₂, hBytes₂, hBase₂, h⟩ := store_bind_ok (base_bind_ok h)
  rw [hBase₁, hBytes₁] at hBytes₂
  rw [hBytes₁] at hNext
  obtain ⟨-, h⟩ := load_bind_ok h
  obtain ⟨hNull, t₃, hBytes₃, -, h⟩ := store_bind_ok h
  rw [hBytes₂] at hNull hBytes₃
  cases h
  exact ⟨⟨hListed, hFront, hNext, hNull⟩, hBytes₃, rfl⟩

theorem relink_ok (hbp : bp + 4 < 2 ^ 64) (h : (relink bp).run t = .ok (r, s')) :
    Links t.bytes t.heapBasefree bp ∧ s'.bytes = putNull t.bytes t.heapBasefree bp ∧
      s'.heapBasefree = bp := by
  rw [relink] at h
  obtain ⟨_, u, hCheck, h⟩ := run_bind_eq_ok.mp h
  obtain ⟨msgs, rfl⟩ := Moves.move (R := Prints) hCheck
  obtain ⟨-, h⟩ := load_bind_ok (base_bind_ok h)
  obtain ⟨-, h⟩ := load_bind_ok (base_bind_ok h)
  have hLinks := linkAtBase_ok hbp h
  exact hLinks

end Link

/-! ## What the four statements leave behind -/

section Stores

variable {m : Bytes} {bp q n : Nat}

theorem loadLE_wide (m : Bytes) (a : Nat) :
    loadLE m a 8 = loadLE m a 4 + 2 ^ 32 * loadLE m (a + 4) 4 := loadLE_add m a 4 4

/-- With its own address in the `PRED` field of a block below `2^32`, its `SUCC` field keeps
the high half only. -/
theorem loadLE_own (h : q < 2 ^ 32) :
    loadLE (storeLE m q 8 q) (q + 4) 8 = 2 ^ 32 * loadLE m (q + 8) 4 := by
  have hOwn : loadLE (storeLE m q 8 q) q 8 = q := loadLE_storeLE_of_lt (by omega)
  have hHigh : loadLE (storeLE m q 8 q) (q + 4 + 4) 4 = loadLE m (q + 8) 4 :=
    loadLE_storeLE_of_disjoint (by omega)
  have hPred := loadLE_wide (storeLE m q 8 q) q
  rw [loadLE_wide, hHigh]
  omega

/-- After the block below has been absorbed, the address `2^32` lands in the block at `2^32`. -/
theorem putNull_prev (hq : q + 24 ≤ 2 ^ 32) (hBack : loadLE m (2 ^ 32) 8 = q)
    (hHigh : loadLE m (q + 8) 4 = 1) : loadLE (putNull m (2 ^ 32) q) (2 ^ 32) 8 = 2 ^ 32 := by
  have hFront : putFront m (2 ^ 32) q = storeLE m q 8 q := by rw [putFront, hBack]
  have hNext : putNext m (2 ^ 32) q = storeLE (storeLE m q 8 q) (2 ^ 32) 8 (2 ^ 32) := by
    rw [putNext, hFront, loadLE_own (by omega), hHigh, Nat.mul_one]
  have hOwn : loadLE (storeLE (storeLE m q 8 q) (2 ^ 32) 8 (2 ^ 32)) q 8 = q := by
    rw [loadLE_storeLE_of_disjoint (by omega), loadLE_storeLE_of_lt (by omega)]
  rw [putNull, hNext, hOwn, loadLE_storeLE_of_disjoint (by omega), loadLE_storeLE_of_lt (by norm_num)]

/-- Clearing `PRED(bp)` takes a store near `bp`, naming `bp` in the block at `2^32` takes one near
`2^32`, and the word that the two addresses share leaves no place for the second but `2^32`. -/
theorem putNull_next (hbp : bp + 8 ≤ n) (hn : n + 24 ≤ 2 ^ 32) (hBack : loadLE m (2 ^ 32) 8 = n)
    (hLinks : Links m (2 ^ 32) bp) :
    ¬ (loadLE (putNull m (2 ^ 32) bp) bp 8 = NULL ∧
      loadLE (putNull m (2 ^ 32) bp) (2 ^ 32) 8 = bp) := by
  rintro ⟨hNull, hNamed⟩
  have hFront : putFront m (2 ^ 32) bp = storeLE m n 8 bp := by rw [putFront, hBack]
  have hKept : loadLE (putFront m (2 ^ 32) bp) (2 ^ 32) 8 = n := by
    rw [hFront, loadLE_storeLE_of_disjoint (by omega), hBack]
  have hNext : putNext m (2 ^ 32) bp = storeLE (putFront m (2 ^ 32) bp)
    (loadLE (putFront m (2 ^ 32) bp) (bp + 4) 8) 8 (2 ^ 32) := rfl
  have hPrev := hLinks.null
  have hShared := shared_word (putFront m (2 ^ 32) bp) bp
  rw [putNull] at hNull hNamed
  generalize putNext m (2 ^ 32) bp = g at hNull hNamed hNext hPrev
  generalize putFront m (2 ^ 32) bp = f at hKept hNext hShared
  generalize hNextAddr : loadLE f (bp + 4) 8 = next at hNext hShared
  generalize hPrevAddr : loadLE g bp 8 = prev at hNull hNamed hPrev
  have hNearBp : bp < prev + 8 ∧ prev < bp + 8 := by
    by_contra hFar
    rw [loadLE_storeLE_of_disjoint (by omega), hPrevAddr] at hNull
    exact hPrev hNull
  rw [loadLE_storeLE_of_disjoint (by omega), hNext] at hNamed
  have hNearBase : 2 ^ 32 < next + 8 ∧ next < 2 ^ 32 + 8 := by
    by_contra hFar
    rw [loadLE_storeLE_of_disjoint (by omega), hKept] at hNamed
    omega
  rw [hNext, loadLE_storeLE_of_disjoint (by omega)] at hPrevAddr
  obtain rfl : next = 2 ^ 32 := by omega
  rw [loadLE_storeLE_of_lt (by norm_num)] at hNamed
  omega

/-- After both neighbours have been absorbed, the `SUCC` field of the block below is null. -/
theorem not_links_both (hq : q < 2 ^ 32) (hBack : loadLE m n 8 = q)
    (hHigh : loadLE m (q + 8) 4 = 0) : ¬ Links m n q := by
  intro hLinks
  apply hLinks.next
  rw [putFront, hBack, loadLE_own hq, hHigh]
  rfl

end Stores

/-! ## The four cases -/

/-- Case 2 of `exp_coalesce`. -/
def mergeNext (bp size : Nat) : M Nat := do
  let size := toUint32 (size + (← getSize (hdrp (← nextBlkp bp))))
  coalesceHelper (← nextBlkp bp)
  put (hdrp bp) (pack size 0)
  put (← ftrp bp) (pack size 0)
  return bp

/-- Case 3 of `exp_coalesce`. -/
def mergePrev (bp size : Nat) : M Nat := do
  let size := toUint32 (size + (← getSize (hdrp (← prevBlkp bp))))
  let bp ← prevBlkp bp
  coalesceHelper bp
  put (hdrp bp) (pack size 0)
  put (← ftrp bp) (pack size 0)
  return bp

/-- Case 4 of `exp_coalesce`. -/
def mergeBoth (bp size : Nat) : M Nat := do
  let prevSize ← getSize (hdrp (← prevBlkp bp))
  let nextSize ← getSize (← ftrp (← nextBlkp bp))
  let size := toUint32 (size + toUint32 (prevSize + nextSize))
  coalesceHelper (← prevBlkp bp)
  coalesceHelper (← nextBlkp bp)
  let bp ← prevBlkp bp
  put (hdrp bp) (pack size 0)
  put (← ftrp bp) (pack size 0)
  return bp

section Cases

variable {s s' t u : State} {l right : List Block} {p b n : Block} {bp r q : Nat}

theorem expCoalesce_cases (h : BoundaryHeap s (Cursor.blocks ⟨p :: l, b, right⟩))
    (hbp : bp = s.heapListp + total l + p.size) (hRun : (expCoalesce bp).run s = .ok (r, s')) :
    ∃ msgs, (if p.alloc.toNat ≠ 0 ∧ aboveAlloc right ≠ 0 then linkAtBase bp
      else (if p.alloc.toNat ≠ 0 ∧ aboveAlloc right = 0 then mergeNext bp b.size
        else if p.alloc.toNat = 0 ∧ aboveAlloc right ≠ 0 then mergePrev bp b.size
        else mergeBoth bp b.size) >>= relink : M Nat).run { s with out := s.out ++ msgs } =
      .ok (r, s') := by
  have hStart := h.start_le
  have hNotNull : bp ≠ NULL := by
    rw [NULL]
    omega
  rw [expCoalesce] at hRun
  dsimp only at hRun
  obtain ⟨_, t, hCheck, hRun⟩ := run_bind_eq_ok.mp hRun
  obtain ⟨msgs, rfl⟩ := Moves.move (R := Prints) hCheck
  have h' : BoundaryHeap { s with out := s.out ++ msgs } (Cursor.blocks ⟨p :: l, b, right⟩) :=
    ⟨h.prologue, h.blocks, h.epilogue, h.start_le, h.end_le, h.total_lt⟩
  rw [coalesce_reads h' hbp (fun prevAlloc nextAlloc size => _)] at hRun
  rw [if_neg hNotNull] at hRun
  exact ⟨msgs, hRun⟩

theorem mergeNext_run (hB : BlockAt t bp b) (hN : BlockAt t (bp + b.size) n)
    (hHelper : (coalesceHelper (bp + b.size)).run t = .ok ((), u)) :
    (mergeNext bp b.size).run t = .ok (bp, u.withBytes (putTags u.bytes bp (b.merge n))) := by
  have hStart := hB.start_le
  have hEnd := hN.end_le
  have hBrk := t.heapsize_le
  obtain ⟨hStartEq, hBrkEq, -⟩ := Moves.move (R := Writes) hHelper
  have hSize : b.size + n.size < 2 ^ 32 := by
    rw [memHeapsize, maxHeap] at hBrk
    omega
  rw [mergeNext, run_bind_ok hB.nextBlkp, run_bind_ok hN.getSize_hdrp]
  dsimp only
  rw [pack_next hSize, run_bind_ok hB.nextBlkp, run_bind_ok hHelper,
    putTags_bind (by omega) (by rw [size_merge]; omega) (by rw [size_merge]; omega), run_pure]

theorem mergePrev_run (hP : BlockAt t q p) (hB : BlockAt t (q + p.size) b)
    (hHelper : (coalesceHelper q).run t = .ok ((), u)) :
    (mergePrev (q + p.size) b.size).run t =
      .ok (q, u.withBytes (putTags u.bytes q (p.merge b))) := by
  have hStart := hP.start_le
  have hEnd := hB.end_le
  have hBrk := t.heapsize_le
  obtain ⟨hStartEq, hBrkEq, -⟩ := Moves.move (R := Writes) hHelper
  have hSize : p.size + b.size < 2 ^ 32 := by
    rw [memHeapsize, maxHeap] at hBrk
    omega
  rw [mergePrev, run_bind_ok hP.prevBlkp, run_bind_ok hP.getSize_hdrp]
  dsimp only
  rw [pack_prev hSize, run_bind_ok hP.prevBlkp, run_bind_ok hHelper,
    putTags_bind (by omega) (by rw [size_merge]; omega) (by rw [size_merge]; omega), run_pure]

theorem mergeBoth_run {v : State} (hP : BlockAt t q p) (hB : BlockAt t (q + p.size) b)
    (hN : BlockAt t (q + p.size + b.size) n) (hHelper : (coalesceHelper q).run t = .ok ((), u))
    (hBu : BlockAt u (q + p.size) b)
    (hHelper' : (coalesceHelper (q + p.size + b.size)).run u = .ok ((), v)) (hPv : BlockAt v q p) :
    (mergeBoth (q + p.size) b.size).run t =
      .ok (q, v.withBytes (putTags v.bytes q (p.merge (b.merge n)))) := by
  have hStart := hP.start_le
  have hEnd := hN.end_le
  have hBrk := t.heapsize_le
  obtain ⟨hStartEq, hBrkEq, -⟩ := Moves.move (R := Writes) hHelper
  obtain ⟨hStartEq', hBrkEq', -⟩ := Moves.move (R := Writes) hHelper'
  have hSize : p.size + b.size + n.size < 2 ^ 32 := by
    rw [memHeapsize, maxHeap] at hBrk
    omega
  rw [mergeBoth, run_bind_ok hP.prevBlkp, run_bind_ok hP.getSize_hdrp, run_bind_ok hB.nextBlkp,
    run_bind_ok hN.ftrp, run_bind_ok hN.getSize_ftrp]
  dsimp only
  rw [pack_both hSize, run_bind_ok hP.prevBlkp, run_bind_ok hHelper, run_bind_ok hBu.nextBlkp,
    run_bind_ok hHelper', run_bind_ok hPv.prevBlkp,
    putTags_bind (by omega) (by simp only [size_merge]; omega) (by simp only [size_merge]; omega),
    run_pure]

end Cases

/-! ## The list beside a detached block -/

section Detached

variable {s s' t : State} {bs l right : List Block} {links : List (Nat × Block)} {p b n : Block}
  {x y : Nat × Block} {bp r q base : Nat} {m : Bytes}

theorem Detached.prints (h : Detached s bs links x) (msgs : List Message) :
    Detached { s with out := s.out ++ msgs } bs links x :=
  ⟨⟨h.heap.prologue, h.heap.blocks, h.heap.epilogue, h.heap.start_le, h.heap.end_le,
    h.heap.total_lt⟩, h.linked, h.visits⟩

theorem Detached.nodup (h : Detached s bs links x) : (x :: links).Nodup :=
  h.visits.nodup_iff.mpr ((addressed_nodup _ _).filter _)

theorem Detached.threaded (h : Detached s bs links x) : Threaded s bs links :=
  ⟨h.heap, h.linked, fun _ hy => h.visits.mem_iff.mp (List.mem_cons_of_mem x hy), h.nodup.of_cons⟩

theorem Detached.free (h : Detached s bs links x) : x ∈ freeBlocks s.heapListp bs :=
  h.visits.mem_iff.mp List.mem_cons_self

theorem Detached.mem (h : Detached s bs links x) (hy : y ∈ freeBlocks s.heapListp bs)
    (hNe : y.1 ≠ x.1) : y ∈ links := by
  obtain rfl | hMem := List.mem_cons.mp (h.visits.mem_iff.mpr hy)
  · exact absurd rfl hNe
  · exact hMem

theorem Detached.apart (h : Detached s bs links x) (hy : y ∈ links) :
    x.1 + x.2.size ≤ y.1 ∨ y.1 + y.2.size ≤ x.1 := by
  have hMem := (mem_freeBlocks.mp (h.threaded.free y hy)).1
  apply (addressed_apart (mem_freeBlocks.mp h.free).1 hMem).resolve_left
  rintro rfl
  exact (List.nodup_cons.mp h.nodup).1 hy

theorem Detached.cursor (h : Detached s bs links (bp, b)) : ∃ l p right,
    bs = Cursor.blocks ⟨p :: l, b, right⟩ ∧ bp = s.heapListp + total l + p.size :=
  h.heap.cursor_of_free h.free

theorem Linked.not_links (h : Linked m NULL base links) : ¬ Links m base bp := by
  intro hLinks
  cases links with
  | nil => exact hLinks.listed h
  | cons x links =>
    obtain ⟨rfl, hPred, -⟩ := h
    exact hLinks.front hPred

theorem putTags_below {a k : Nat} (hq : 4 ≤ q) (h : a + k ≤ q - 4) :
    loadLE (putTags m q b) a k = loadLE m a k :=
  loadLE_congr ((putTags_agreeOff m b hq).agreeOn (.inl h))

theorem putTags_above {a k : Nat} (hq : 4 ≤ q) (h : q + b.size - 4 ≤ a) :
    loadLE (putTags m q b) a k = loadLE m a k :=
  loadLE_congr ((putTags_agreeOff m b hq).agreeOn (.inr h))

theorem putTags_inside {a k : Nat} (hq : 4 ≤ q) (hLo : q ≤ a) (hHi : a + k ≤ q + b.size - 8) :
    loadLE (putTags m q b) a k = loadLE m a k := by
  rw [putTags, loadLE_storeLE_of_disjoint (by omega), loadLE_storeLE_of_disjoint (by omega)]

theorem outsideOf_pair {a : Nat} (hx : ¬ (a + b.size ≤ x.1 ∨ x.1 + x.2.size ≤ a))
    (hy : a + b.size ≤ y.1 ∨ y.1 + y.2.size ≤ a) : outsideOf a b [x, y] = [y] := by
  rw [outsideOf, List.filter_cons_of_neg (by simpa using hx),
    List.filter_cons_of_pos (by simpa using hy), List.filter_nil]

theorem loadLE_cleared (h : loadLE m q 8 = NULL) :
    loadLE (storeLE m (q + 4) 8 NULL) q 8 = NULL := by
  have hClear : loadLE (storeLE m (q + 4) 8 NULL) (q + 4) 8 = NULL :=
    loadLE_storeLE_of_lt (by decide)
  have hLow : loadLE (storeLE m (q + 4) 8 NULL) q 4 = loadLE m q 4 :=
    loadLE_storeLE_of_disjoint (by omega)
  rw [loadLE_wide, NULL] at h hClear
  rw [loadLE_wide, hLow, NULL]
  omega

end Detached

section Fails

variable {s' t u : State} {bs : List Block} {links : List (Nat × Block)} {p b n : Block}
  {x : Nat × Block} {bp r q : Nat}

/-- The list loses `x` and its other block becomes the head, but the back link of that block
is kept. -/
theorem Threaded.unlink (h : Threaded t bs links) (hx : x ∈ links) :
    ∃ u, (coalesceHelper x.1).run t = .ok ((), u) ∧
      (links = [x] ∧ u = { t with heapBasefree := NULL } ∨
        (∃ c, links = [x, (2 ^ 32, c)] ∧ u = { t with heapBasefree := 2 ^ 32 }) ∨
        ∃ y c, links = [(y, c), x] ∧ u = t.withBytes (storeLE t.bytes (y + 4) 8 NULL)) := by
  obtain ⟨hStart, hEnd⟩ := h.inside hx
  have hFits := h.fits hx
  obtain rfl | ⟨⟨y, c⟩, rfl | rfl⟩ := h.shape hx
  · obtain ⟨-, hPred, hSucc⟩ := h.linked
    exact ⟨_, coalesceHelper_alone (by omega) (by omega) hPred hSucc, .inl ⟨rfl, rfl⟩⟩
  · have hy : (y, c) ∈ [x, (y, c)] := by simp
    obtain ⟨hLow, hHigh⟩ := h.pair
    obtain ⟨-, hPred, hSucc, hBack, -⟩ := h.linked
    obtain ⟨hStartY, hEndY⟩ := h.inside hy
    have hFitsY := h.fits hy
    dsimp only at hHigh hSucc hBack hStartY hEndY hFitsY
    subst hHigh
    exact ⟨_, coalesceHelper_front (by omega) (by omega) (by omega) (by omega) hPred hSucc hBack,
      .inr (.inl ⟨c, rfl, rfl⟩)⟩
  · have hy : (y, c) ∈ [(y, c), x] := by simp
    obtain ⟨hLow, hHigh⟩ := h.pair
    obtain ⟨-, -, -, hBack, hSucc⟩ := h.linked
    obtain ⟨hStartY, hEndY⟩ := h.inside hy
    have hFitsY := h.fits hy
    dsimp only at hLow hBack hStartY hEndY hFitsY
    exact ⟨_, coalesceHelper_back (by omega) (by omega) (by omega) (by omega) (by omega) hBack hSucc,
      .inr (.inr ⟨y, c, rfl, rfl⟩)⟩

/-- When the list keeps its head, linking stores through the null `PRED` of that. -/
theorem not_links_kept {y : Nat} {c m : Block} (h : Threaded t bs [(y, c), x])
    (hbp : 4 ≤ bp) (hBelow : y + c.size ≤ bp) :
    ¬ Links (putTags (storeLE t.bytes (y + 4) 8 NULL) bp m) t.heapBasefree bp := by
  intro hLinks
  obtain ⟨hBase, hPred, -⟩ := h.linked
  have hFits : 24 ≤ c.size := h.fits List.mem_cons_self
  have hFront := hLinks.front
  rw [hBase, putTags_below hbp (by omega), loadLE_cleared hPred] at hFront
  exact hFront rfl

/-- With the block above free, linking stores through NULL or leaves a wrong link behind. -/
theorem mergeNext_fails (h : Detached t bs links (bp, b)) (hN : (bp + b.size, n) ∈ links)
    (hRun : (mergeNext bp b.size >>= relink).run t = .ok (r, s')) :
    ¬ Linked s'.bytes NULL s'.heapBasefree
      ((bp, b.merge n) :: outsideOf bp (b.merge n) links) := by
  have hT := h.threaded
  have hB : BlockAt t bp b := h.heap.blockAt_of_mem (mem_freeBlocks.mp h.free).1
  have hAt : BlockAt t (bp + b.size) n := hT.blockAt hN
  have hFits : 24 ≤ n.size := hT.fits hN
  have hStart := hB.start_le
  have hEnd := hAt.end_le
  have hBrk := t.brk_lt
  have hEight := b.eight_le
  obtain ⟨u, hHelper, hUnlinked⟩ := hT.unlink hN
  rw [run_bind_ok (mergeNext_run hB hAt hHelper)] at hRun
  obtain ⟨hLinks, hBytes, hBase⟩ := relink_ok (by omega) hRun
  obtain ⟨-, rfl⟩ | ⟨c, rfl, rfl⟩ | ⟨y, c, rfl, rfl⟩ := hUnlinked
  · exact absurd rfl hLinks.listed
  · obtain ⟨hLow, -⟩ := hT.pair
    obtain ⟨-, -, -, hBack, -⟩ := hT.linked
    dsimp only at hLow hBack
    have hKept : loadLE (putTags t.bytes bp (b.merge n)) (2 ^ 32) 8 = bp + b.size :=
      (putTags_above (by omega) (by rw [size_merge]; omega)).trans hBack
    rw [outsideOf_pair (by dsimp only; rw [size_merge]; omega)
      (by dsimp only; rw [size_merge]; omega)]
    rintro ⟨-, hNull, -, hNamed, -⟩
    rw [hBytes] at hNull hNamed
    exact putNull_next (by omega) (by omega) hKept hLinks ⟨hNull, hNamed⟩
  · have hApart := h.apart List.mem_cons_self
    have hPos := c.size_pos
    obtain ⟨hLow, hHigh⟩ := hT.pair
    dsimp only at hApart hLow hHigh
    exact absurd hLinks (not_links_kept hT (by omega) (by omega))

/-- With the block below free, the block at `2^32` ends up naming itself. -/
theorem mergePrev_fails (h : Detached t bs links (q + p.size, b)) (hP : (q, p) ∈ links)
    (hRun : (mergePrev (q + p.size) b.size >>= relink).run t = .ok (r, s')) :
    ¬ Linked s'.bytes NULL s'.heapBasefree ((q, p.merge b) :: outsideOf q (p.merge b) links) := by
  have hT := h.threaded
  have hB : BlockAt t (q + p.size) b := h.heap.blockAt_of_mem (mem_freeBlocks.mp h.free).1
  have hAt : BlockAt t q p := hT.blockAt hP
  have hFits : 24 ≤ p.size := hT.fits hP
  have hStart := hAt.start_le
  have hEnd := hB.end_le
  have hBrk := t.brk_lt
  have hEight := b.eight_le
  obtain ⟨u, hHelper, hUnlinked⟩ := hT.unlink hP
  rw [run_bind_ok (mergePrev_run hAt hB hHelper)] at hRun
  obtain ⟨hLinks, hBytes, hBase⟩ := relink_ok (by omega) hRun
  obtain ⟨-, rfl⟩ | ⟨c, rfl, rfl⟩ | ⟨y, c, rfl, rfl⟩ := hUnlinked
  · exact absurd rfl hLinks.listed
  · have hApart := h.apart (List.mem_cons_of_mem _ List.mem_cons_self)
    have hPos := c.size_pos
    obtain ⟨hLow, -⟩ := hT.pair
    obtain ⟨-, -, hSucc, hBack, -⟩ := hT.linked
    dsimp only at hApart hLow hSucc hBack
    have hKept : loadLE (putTags t.bytes q (p.merge b)) (2 ^ 32) 8 = q :=
      (putTags_above (by omega) (by rw [size_merge]; omega)).trans hBack
    have hOne : loadLE (putTags t.bytes q (p.merge b)) (q + 8) 4 = 1 := by
      have hWord := loadLE_lt t.bytes (q + 4) 4
      rw [loadLE_wide] at hSucc
      rw [putTags_inside (by omega) (by omega) (by rw [size_merge]; omega)]
      change loadLE t.bytes (q + 4 + 4) 4 = 1
      omega
    rw [outsideOf_pair (by dsimp only; rw [size_merge]; omega)
      (by dsimp only; rw [size_merge]; omega)]
    rintro ⟨-, -, -, hNamed, -⟩
    rw [hBytes] at hNamed
    have hSelf := (putNull_prev (by omega) hKept hOne).symm.trans hNamed
    dsimp only at hSelf
    omega
  · obtain ⟨hLow, hHigh⟩ := hT.pair
    dsimp only at hLow hHigh
    exact absurd hLinks (not_links_kept hT (by omega) (by omega))

/-- With both neighbours free, linking stores through the `SUCC` field that unlinking has
cleared. -/
theorem mergeBoth_fails (h : Detached t bs links (q + p.size, b)) (hP : (q, p) ∈ links)
    (hN : (q + p.size + b.size, n) ∈ links) :
    (mergeBoth (q + p.size) b.size >>= relink).run t ≠ .ok (r, s') := by
  intro hRun
  have hT := h.threaded
  have hB : BlockAt t (q + p.size) b := h.heap.blockAt_of_mem (mem_freeBlocks.mp h.free).1
  have hBelow : BlockAt t q p := hT.blockAt hP
  have hAbove : BlockAt t (q + p.size + b.size) n := hT.blockAt hN
  have hFitsP : 24 ≤ p.size := hT.fits hP
  have hFitsN : 24 ≤ n.size := hT.fits hN
  have hStart := hBelow.start_le
  have hEnd := hAbove.end_le
  have hBrk := t.brk_lt
  have hEight := b.eight_le
  obtain rfl : links = [(q, p), (q + p.size + b.size, n)] := by
    have hNe : (q, p) ≠ (q + p.size + b.size, n) := by
      rw [Ne, Prod.mk.injEq]
      omega
    obtain hOrder | rfl := hT.eq_pair hP hN hNe
    · exact hOrder
    · have hPair := hT.pair
      dsimp only at hPair
      omega
  obtain ⟨hLow, hHigh⟩ := hT.pair
  obtain ⟨-, hPred, hSucc, hBack, hNull⟩ := hT.linked
  dsimp only at hLow hHigh hSucc hBack hNull
  have hHelper := coalesceHelper_front (by omega) (by omega) (by omega) (by omega) hPred hSucc hBack
  let u : State := { t with heapBasefree := q + p.size + b.size }
  let v := u.withBytes (storeLE t.bytes (q + 4) 8 NULL)
  have hHelper' : (coalesceHelper (q + p.size + b.size)).run u = .ok ((), v) :=
    coalesceHelper_back (t := u) (by change t.memStartBrk ≤ _; omega)
      (by change _ ≤ t.memBrk; omega) (by change t.memStartBrk ≤ _; omega)
      (by change _ ≤ t.memBrk; omega) (by omega) hBack hNull
  have hBu : BlockAt u (q + p.size) b := ⟨hB.tagged, hB.start_le, hB.end_le, hB.size_lt⟩
  have hPv : BlockAt v q p := by
    refine ⟨⟨?_, ?_⟩, hBelow.start_le, hBelow.end_le, hBelow.size_lt⟩
    · exact (loadLE_storeLE_of_disjoint (by omega)).trans hBelow.tagged.header
    · exact (loadLE_storeLE_of_disjoint (by omega)).trans hBelow.tagged.footer
  rw [run_bind_ok (mergeBoth_run hBelow hB hAbove hHelper hBu hHelper' hPv)] at hRun
  have hLinks := (relink_ok (by omega) hRun).1
  change Links (putTags v.bytes q (p.merge (b.merge n))) (q + p.size + b.size) q at hLinks
  refine not_links_both (by omega) ?_ ?_ hLinks
  · rw [putTags_inside (by omega) (by omega) (by simp only [size_merge]; omega)]
    exact (loadLE_storeLE_of_disjoint (by omega)).trans hBack
  · have hCleared : loadLE v.bytes (q + 4) 8 = NULL := loadLE_storeLE_of_lt (by decide)
    rw [loadLE_wide, NULL] at hCleared
    rw [putTags_inside (by omega) (by omega) (by simp only [size_merge]; omega)]
    change loadLE v.bytes (q + 4 + 4) 4 = 0
    omega

end Fails

section Agreement

variable {s : State} {links : List (Nat × Block)} {bp : Nat}

/-- Both functions leave the blocks of the abstract merge, so the merged block heads the list. -/
theorem AgreesWithCoalesce.linked {c : Cursor} (hHeap : BoundaryHeap s c.blocks)
    (hFree : c.block.alloc = false) (hbp : bp = c.addr s.heapListp)
    (h : AgreesWithCoalesce s c.blocks links bp) :
    ∃ r s', (expCoalesce bp).run s = .ok (r, s') ∧ Linked s'.bytes NULL s'.heapBasefree
      ((c.coalesced.addr s.heapListp, c.coalesced.block) ::
        outsideOf (c.coalesced.addr s.heapListp) c.coalesced.block links) := by
  obtain ⟨r, s', t, cs, m, hRun, hPlain, hAfter, -, hMem, hLinked, -⟩ := h
  obtain ⟨m', hCoalesce, hMerged, -⟩ := coalesce_exact s c hHeap hFree
  rw [hbp, hCoalesce] at hPlain
  cases hPlain
  obtain rfl := hAfter.unique hMerged
  have hMem' := c.coalesced.mem_addressed s.heapListp
  have hPos := m.size_pos
  have hPos' := c.coalesced.block.size_pos
  have hEq := addressed_apart hMem hMem'
  dsimp only at hEq
  obtain hEq := hEq.resolve_right (by omega)
  rw [Prod.mk.injEq] at hEq
  rw [← hEq.2]
  exact ⟨_, s', hRun, hLinked⟩

end Agreement

/-- In no heap does `exp_coalesce` agree with `coalesce` and keep the list. -/
theorem expCoalesce_never_agrees (s : State) (bs : List Block) (links : List (Nat × Block))
    (bp : Nat) (b : Block) (h : Detached s bs links (bp, b)) : ¬ AgreesWithCoalesce s bs links bp := by
  intro hAgrees
  obtain ⟨l, p, right, rfl, hbp⟩ := h.cursor
  have hFree : b.alloc = false := (mem_freeBlocks.mp h.free).2
  have hAddr : bp = Cursor.addr s.heapListp ⟨p :: l, b, right⟩ := by
    rw [hbp, Cursor.addr, total_cons]
    omega
  obtain ⟨r, s', hRun, hLinked⟩ := hAgrees.linked h.heap hFree hAddr
  obtain ⟨msgs, hRun⟩ := expCoalesce_cases h.heap hbp hRun
  have hPrinted := h.prints msgs
  have hBelow : p.alloc = false → (s.heapListp + total l, p) ∈ links := by
    intro hp
    have hPos := p.size_pos
    apply h.mem (mem_freeBlocks.mpr ⟨Cursor.mem_prev _ _ _ _ _, hp⟩)
    dsimp only
    omega
  have hAbove : ∀ n r, right = n :: r → n.alloc = false → (bp + b.size, n) ∈ links := by
    rintro n r rfl hn
    have hPos := b.size_pos
    have hMem := Cursor.mem_next s.heapListp (p :: l) r b n
    rw [← hAddr] at hMem
    apply h.mem (mem_freeBlocks.mpr ⟨hMem, hn⟩)
    dsimp only
    omega
  obtain ⟨hNext, hHead⟩ | ⟨n, above, hRight, hn, hNext⟩ :=
    (Cursor.mk (p :: l) b right).absorbNext_cases
  · rw [aboveAlloc_of_alloc hHead] at hRun
    cases hp : p.alloc with
    | true =>
      rw [hp, if_pos (by decide)] at hRun
      have hAt := h.heap.blockAt_of_mem (mem_freeBlocks.mp h.free).1
      have hEnd := hAt.end_le
      have hEight := b.eight_le
      have hBrk := s.brk_lt
      exact h.linked.not_links (linkAtBase_ok (by omega) hRun).1
    | false =>
      rw [hp, if_neg (by decide), if_neg (by decide), if_pos (by decide)] at hRun
      rw [Cursor.coalesced, hNext, Cursor.absorbPrev_free hp] at hLinked
      subst hbp
      exact mergePrev_fails hPrinted (hBelow hp) hRun hLinked
  · subst hRight
    rw [aboveAlloc, hn] at hRun
    cases hp : p.alloc with
    | true =>
      rw [hp, if_neg (by decide), if_pos (by decide)] at hRun
      rw [Cursor.coalesced, hNext, Cursor.absorbPrev_alloc hp] at hLinked
      subst hAddr
      exact mergeNext_fails hPrinted (hAbove n above rfl hn) hRun hLinked
    | false =>
      rw [hp, if_neg (by decide), if_neg (by decide), if_neg (by decide)] at hRun
      subst hbp
      exact mergeBoth_fails hPrinted (hBelow hp) (hAbove n above rfl hn) hRun

section Pair

def pairBlocks : List Block :=
  [.ofSize 24 true, .ofSize 24 false, .ofSize 24 false, .ofSize 24 true, .ofSize 24 false]

def pairLinks : List (Nat × Block) :=
  [(2 ^ 32 - 72, .ofSize 24 false), (2 ^ 32, .ofSize 24 false)]

/-- Two free blocks, then an allocated one and a free one at `2^32`. The list holds the first
and the last of the free blocks. -/
def pairHeap : State :=
  let s := layout (2 ^ 32 - 104) pairBlocks (by decide) (by decide) (by decide)
  { s with
    bytes := storeLE (storeLE s.bytes (2 ^ 32 - 68) 8 (2 ^ 32)) (2 ^ 32) 8 (2 ^ 32 - 72)
    heapBasefree := 2 ^ 32 - 72 }

theorem detached_pairHeap :
    Detached pairHeap pairBlocks pairLinks (2 ^ 32 - 48, .ofSize 24 false) where
  heap := ⟨⟨_, _, rfl, rfl⟩, by decide +kernel, by decide +kernel, by decide, by decide, by decide⟩
  linked := by decide +kernel
  visits := by decide +kernel

end Pair

/-- A run that returns: the block at `2^32` is linked back to itself. -/
theorem expCoalesce_never_agrees_pair :
    ((expCoalesce (2 ^ 32 - 48)).run pairHeap).toOption.map
      (fun r => (r.1, loadLE r.2.bytes (2 ^ 32) 8)) = some (2 ^ 32 - 72, 2 ^ 32) ∧
    ¬ AgreesWithCoalesce pairHeap pairBlocks pairLinks (2 ^ 32 - 48) :=
  ⟨by decide +kernel, expCoalesce_never_agrees _ _ _ _ _ detached_pairHeap⟩

section Single

def singleBlocks : List Block :=
  [.ofSize 24 true, .ofSize 24 false, .ofSize 24 true, .ofSize 24 false]

/-- Two free blocks, each between allocated ones. The list holds the second. -/
def singleHeap : State :=
  { layout 4096 singleBlocks page_pos (by decide) page_max with heapBasefree := 4176 }

theorem detached_singleHeap : Detached singleHeap singleBlocks
    [(4176, .ofSize 24 false)] (4128, .ofSize 24 false) where
  heap := ⟨⟨_, _, rfl, rfl⟩, by decide +kernel, by decide +kernel, by decide, by decide, by decide⟩
  linked := by decide +kernel
  visits := by decide +kernel

end Single

/-- With one block on the list, linking another one stores through its null `PRED`. -/
theorem second_block_not_linked :
    (expCoalesce 4128).run singleHeap = .error (.outside NULL) ∧
    ¬ ∀ (s : State) (bs : List Block) (links : List (Nat × Block)) (bp : Nat) (b : Block),
      Detached s bs links (bp, b) → AgreesWithCoalesce s bs links bp := by
  have hStop : (expCoalesce 4128).run singleHeap = .error (.outside NULL) := by rfl
  refine ⟨hStop, fun hAll => ?_⟩
  obtain ⟨r, s', -, -, -, hRun, -⟩ := hAll _ _ _ _ _ detached_singleHeap
  cases hStop.symm.trans hRun

end Cs33.Malloc
