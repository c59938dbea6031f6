import Mathlib.Data.List.Infix
import Mathlib.Data.Rat.Lemmas
import Mathlib.Algebra.BigOperators.Ring.Finset
import Mathlib.Algebra.Order.Field.Rat
import Mathlib.Algebra.Order.Field.Basic
import Cs33.Driver.Completeness

/-! # The two sums of `eval_mm_util`

The allocator's contract is stated along the replay, as for a correct
allocator, but without bytes: each call leaves the held payloads disjoint and
inside a heap that only `mem_sbrk` has changed. The replay then counts the
live bytes exactly, and no count exceeds the heap at its end.
-/

namespace Cs33.Driver

open Cs33.Malloc Interval

/-- A payload as C sees it: its size is converted to `size_t`. -/
def Held.extent (x : Held) : Nat × Nat := (x.ptr, toSizeT x.size)

def Held.entry (x : Held) : Int × Int := (x.id, x.size)

def memSbrks (incrs : List Int) (m : Memlib) : Memlib :=
  incrs.foldl (fun m incr => (memSbrk incr m).2) m

/-- The heap has been changed by `mem_sbrk` only, whatever has been stored in it. -/
def Grows (m m' : Memlib) : Prop :=
  ∃ incrs, m'.memStartBrk = (memSbrks incrs m).memStartBrk ∧
    m'.memBrk = (memSbrks incrs m).memBrk

variable {σ : Type}

/-- The live payloads are disjoint and in the heap after a call. -/
structure Fits (h h' : σ × Memlib) (held : List Held) : Prop where
  grows : Grows h.2 h'.2
  disjoint : held.Pairwise fun x y => Disjoint (elems x.extent) (elems y.extent)
  inHeap : ∀ x ∈ held, h'.2.InHeap x.ptr (toSizeT x.size)

/-- The allocator meets its contract along the replay of a trace by `eval_mm_util`. -/
def FitsOn (A : Allocator σ) : σ × Memlib → List Held → List TraceOp → Prop
  | _, _, [] => True
  | h, held, ⟨.alloc, index, size⟩ :: ops =>
    ∃ p h', (A.mmMalloc (toSizeT size)).run h = .ok (p, h') ∧ p ≠ NULL ∧
      Fits h h' (⟨index, p, size⟩ :: held) ∧ FitsOn A h' (⟨index, p, size⟩ :: held) ops
  | h, held, ⟨.realloc, index, size⟩ :: ops =>
    ∀ x, held.find? (fun x => x.id == index) = some x →
      ∃ p h', (A.mmRealloc x.ptr (toSizeT size)).run h = .ok (p, h') ∧ p ≠ NULL ∧
        Fits h h' (⟨index, p, size⟩ :: held.erase x) ∧
        FitsOn A h' (⟨index, p, size⟩ :: held.erase x) ops
  | h, held, ⟨.free, index, _⟩ :: ops =>
    ∀ x, held.find? (fun x => x.id == index) = some x →
      ∃ h', (A.mmFree x.ptr).run h = .ok ((), h') ∧ Fits h h' (held.erase x) ∧
        FitsOn A h' (held.erase x) ops

def FitsFor (A : Allocator σ) (h : σ × Memlib) (ops : List TraceOp) : Prop :=
  ∃ r h', A.mmInit.run (h.1, Malloc.memResetBrk h.2) = .ok (r, h') ∧ 0 ≤ r ∧ FitsOn A h' [] ops

def IsInt (n : Int) : Prop := -2 ^ 31 ≤ n ∧ n < 2 ^ 31

/-- An id is allocated only while it is not live, and reallocated or freed only while it is. -/
def UsesIds : List (Int × Int) → List TraceOp → Prop
  | _, [] => True
  | live, op :: ops =>
    IsInt op.size ∧
      (match op.type with
        | .alloc => op.index ∉ live.map Prod.fst
        | .realloc => op.index ∈ live.map Prod.fst
        | .free => op.index ∈ live.map Prod.fst) ∧
      UsesIds (liveAfter live op) ops

def sizeSum (live : List (Int × Int)) : Int := (live.map Prod.snd).sum

/-- The greatest of `top` and of the sums of the live sizes over all prefixes. -/
def peakFrom (top : Int) (live : List (Int × Int)) (ops : List TraceOp) : Int :=
  (ops.inits.map fun pre => sizeSum (pre.foldl liveAfter live)).foldl max top

def utilReplay (A : Allocator σ) (ops : List TraceOp) : D σ (Int × Int) := do
  memResetBrk
  if (← call A.mmInit) < 0 then
    appError .initFailedUtil
  else
    utilOps A ops 0 FREE_HEAP

def utilStats (maxTotal : Int) : D σ Util := do
  let heapsize := memHeapsize (← getMem)
  return ⟨maxTotal, toInt (if FREE_HEAP < heapsize then heapsize else FREE_HEAP)⟩

/-! ## The heap only grows -/

theorem memSbrks_start (incrs : List Int) (m : Memlib) :
    (memSbrks incrs m).memStartBrk = m.memStartBrk := by
  induction incrs generalizing m with
  | nil => rfl
  | cons incr incrs ih => exact (ih (memSbrk incr m).2).trans (memSbrk_start incr m)

theorem memSbrks_brk_le (incrs : List Int) (m : Memlib) :
    m.memBrk ≤ (memSbrks incrs m).memBrk := by
  induction incrs generalizing m with
  | nil => exact le_rfl
  | cons incr incrs ih => exact (memSbrk_brk_le incr m).trans (ih (memSbrk incr m).2)

theorem Grows.heapsize_le {m m' : Memlib} (h : Grows m m') : memHeapsize m ≤ memHeapsize m' := by
  obtain ⟨incrs, hStart, hBrk⟩ := h
  have hGrown := memSbrks_brk_le incrs m
  rw [memSbrks_start] at hStart
  simp only [memHeapsize]
  omega

/-! ## The sum of the live sizes -/

section Held

variable {held : List Held} {mem : Memlib}

theorem size_of_inHeap {p : Nat} {size : Int} (hInt : IsInt size)
    (hIn : mem.InHeap p (toSizeT size)) : 0 ≤ size ∧ toSizeT size = size.toNat := by
  obtain ⟨hLow, hLt⟩ := hInt
  have hBrk := mem.brk_le_max
  have hMax := mem.max_eq
  have hStart := mem.start_le_brk
  rw [mem.inHeap_iff] at hIn
  rw [maxHeap] at hMax
  have hPos : 0 ≤ size := by
    by_contra hNeg
    have hSize : toSizeT size = (size + 2 ^ 64).toNat := by
      rw [toSizeT]
      omega
    omega
  exact ⟨hPos, toSizeT_of_nonneg hPos hLt⟩

theorem sizeSum_bounds (hInts : ∀ x ∈ held, IsInt x.size)
    (hDisjoint : held.Pairwise fun x y => Disjoint (elems x.extent) (elems y.extent))
    (hIn : ∀ x ∈ held, mem.InHeap x.ptr (toSizeT x.size)) :
    0 ≤ sizeSum (held.map Held.entry) ∧ sizeSum (held.map Held.entry) ≤ memHeapsize mem := by
  have hSizes : sizeSum (held.map Held.entry) =
      (((held.map Held.extent).map Prod.snd).sum : Nat) := by
    rw [sizeSum, List.map_map, List.map_map, Nat.cast_list_sum, List.map_map]
    refine congrArg List.sum (List.map_congr_left fun x hx => ?_)
    obtain ⟨hPos, hSize⟩ := size_of_inHeap (hInts x hx) (hIn x hx)
    change x.size = (toSizeT x.size : Nat)
    omega
  have hSum : ((held.map Held.extent).map Prod.snd).sum ≤ mem.memBrk - mem.memStartBrk := by
    apply sum_le (List.pairwise_map.mpr hDisjoint)
    intro y hy
    obtain ⟨x, hx, rfl⟩ := List.mem_map.mp hy
    exact (mem.inHeap_iff _ _).mp (hIn x hx)
  rw [memHeapsize]
  omega

theorem sizeSum_cons (x : Held) :
    sizeSum ((x :: held).map Held.entry) = x.size + sizeSum (held.map Held.entry) :=
  List.sum_cons

theorem sizeSum_erase {x : Held} (hx : x ∈ held) :
    sizeSum (held.map Held.entry) = x.size + sizeSum ((held.erase x).map Held.entry) := by
  rw [← sizeSum_cons]
  exact (((List.perm_cons_erase hx).map Held.entry).map Prod.snd).sum_eq

theorem find_of_live (hNodup : (held.map Held.id).Nodup) {index : Int}
    (hLive : index ∈ (held.map Held.entry).map Prod.fst) :
    ∃ x ∈ held, x.id = index ∧ held.find? (fun x => x.id == index) = some x ∧
      (held.map Held.entry).eraseP (fun e => e.1 == index) = (held.erase x).map Held.entry := by
  rw [List.map_map] at hLive
  obtain ⟨x, hx, hId⟩ := List.mem_map.mp hLive
  change x.id = index at hId
  have hFind : held.find? (fun x => x.id == index) = some x := by
    refine find?_eq_some_of_unique hx (by simpa using hId) fun y hy hEq => ?_
    have hEq : y.id = x.id := by simpa [hId] using hEq
    exact List.inj_on_of_nodup_map hNodup hy hx hEq
  refine ⟨x, hx, hId, hFind, ?_⟩
  rw [List.eraseP_map, ← eraseP_eq_erase hFind]
  rfl

end Held

/-! ## The peak -/

theorem peakFrom_nil (top : Int) (live : List (Int × Int)) :
    peakFrom top live [] = max top (sizeSum live) := rfl

theorem peakFrom_max (top : Int) (live : List (Int × Int)) (ops : List TraceOp) :
    peakFrom (max top (sizeSum live)) live ops = peakFrom top live ops := by
  cases ops with
  | nil => simp [peakFrom_nil]
  | cons op ops =>
    rw [peakFrom, peakFrom, List.inits_cons, List.map_cons, List.foldl_cons, List.foldl_cons,
      List.foldl_nil, max_assoc, max_self]

theorem peakFrom_cons {top : Int} {live : List (Int × Int)} (op : TraceOp) (ops : List TraceOp)
    (hTop : sizeSum live ≤ top) :
    peakFrom top live (op :: ops) =
      peakFrom (max top (sizeSum (liveAfter live op))) (liveAfter live op) ops := by
  rw [peakFrom_max, peakFrom, List.inits_cons, List.map_cons, List.foldl_cons, List.foldl_nil,
    max_eq_left hTop, List.map_map]
  rfl

/-! ## One request of `eval_mm_util` -/

theorem intOp_of_fits {n : Int} (h : IsInt n) (d : Mdriver σ) :
    (intOp n).run d = .ok (n, d) := by
  obtain ⟨hLow, hLt⟩ := h
  rw [intOp, if_neg (by omega)]
  rfl

section UtilOp

variable {A : Allocator σ} {index size total maxTotal : Int} {d : Mdriver σ} {h : σ × Memlib}
  {p : Nat}

def Mdriver.remember (d : Mdriver σ) (h : σ × Memlib) (index : Int) (p : Nat) (size : Int) :
    Mdriver σ :=
  { d with
    heap := h
    blocks := Function.update d.blocks index p
    blockSizes := Function.update d.blockSizes index (toSizeT size) }

theorem utilOp_alloc (hMalloc : (A.mmMalloc (toSizeT size)).run d.heap = .ok (p, h))
    (hp : p ≠ NULL) (hTotal : IsInt (total + size)) :
    (utilOp A ⟨.alloc, index, size⟩ total maxTotal).run d =
      .ok ((total + size, max maxTotal (total + size)), d.remember h index p size) := by
  have hMax : (if maxTotal < total + size then total + size else maxTotal) =
      max maxTotal (total + size) := by omega
  rw [utilOp, Exec.run_bind_ok (call_run hMalloc), if_neg hp]
  change (intOp (total + size) >>= _ : D σ _).run (d.remember h index p size) = _
  rw [Exec.run_bind_ok (intOp_of_fits hTotal _), hMax, Exec.run_pure]

theorem utilOp_realloc {old : Int}
    (hRealloc : (A.mmRealloc (d.blocks index) (toSizeT size)).run d.heap = .ok (p, h))
    (hp : p ≠ NULL) (hOld : toInt (d.blockSizes index) = old) (hStep : IsInt (size - old))
    (hTotal : IsInt (total + (size - old))) :
    (utilOp A ⟨.realloc, index, size⟩ total maxTotal).run d =
      .ok ((total + (size - old), max maxTotal (total + (size - old))),
        d.remember h index p size) := by
  have hSize : (getBlockSize index).run d = .ok (d.blockSizes index, d) := rfl
  have hBlock : (getBlock index).run d = .ok (d.blocks index, d) := rfl
  have hMax : (if maxTotal < total + (size - old) then total + (size - old) else maxTotal) =
      max maxTotal (total + (size - old)) := by omega
  rw [utilOp, Exec.run_bind_ok hSize, Exec.run_bind_ok hBlock,
    Exec.run_bind_ok (call_run hRealloc), if_neg hp, hOld]
  change (intOp (size - old) >>= _ : D σ _).run (d.remember h index p size) = _
  rw [Exec.run_bind_ok (intOp_of_fits hStep _), Exec.run_bind_ok (intOp_of_fits hTotal _), hMax,
    Exec.run_pure]

theorem utilOp_free {old : Int} (hFree : (A.mmFree (d.blocks index)).run d.heap = .ok ((), h))
    (hOld : toInt (d.blockSizes index) = old) (hTotal : IsInt (total - old)) :
    (utilOp A ⟨.free, index, size⟩ total maxTotal).run d =
      .ok ((total - old, maxTotal), { d with heap := h }) := by
  have hSize : (getBlockSize index).run d = .ok (d.blockSizes index, d) := rfl
  have hBlock : (getBlock index).run d = .ok (d.blocks index, d) := rfl
  rw [utilOp, Exec.run_bind_ok hSize, Exec.run_bind_ok hBlock, Exec.run_bind_ok (call_run hFree),
    hOld, Exec.run_bind_ok (intOp_of_fits hTotal _), Exec.run_pure]

end UtilOp

/-! ## The replay -/

/-- What the replay keeps: the driver remembers the live payloads, and the peak fits the heap. -/
structure Tally (d : Mdriver σ) (held : List Held) (maxTotal : Int) : Prop where
  ids : (held.map Held.id).Nodup
  ints : ∀ x ∈ held, IsInt x.size
  blocks : ∀ x ∈ held, d.blocks x.id = x.ptr ∧ d.blockSizes x.id = toSizeT x.size
  disjoint : held.Pairwise fun x y => Disjoint (elems x.extent) (elems y.extent)
  inHeap : ∀ x ∈ held, d.heap.2.InHeap x.ptr (toSizeT x.size)
  top : FREE_HEAP ≤ maxTotal
  total : sizeSum (held.map Held.entry) ≤ maxTotal
  peak : maxTotal ≤ max (FREE_HEAP : Int) (memHeapsize d.heap.2)

section Replay

variable {A : Allocator σ} {d : Mdriver σ} {held kept : List Held} {maxTotal : Int}
  {h : σ × Memlib}

theorem Tally.bounds (hTally : Tally d held maxTotal) :
    0 ≤ sizeSum (held.map Held.entry) ∧
      sizeSum (held.map Held.entry) ≤ memHeapsize d.heap.2 :=
  sizeSum_bounds hTally.ints hTally.disjoint hTally.inHeap

/-- The `size_t` that the driver remembers converts back to the size that was asked for. -/
theorem Tally.oldSize (hTally : Tally d held maxTotal) {x : Held} (hx : x ∈ held) :
    toInt (d.blockSizes x.id) = x.size := by
  obtain ⟨hPos, -⟩ := size_of_inHeap (hTally.ints x hx) (hTally.inHeap x hx)
  obtain ⟨-, hSize⟩ := hTally.blocks x hx
  rw [hSize, toInt_toSizeT hPos (hTally.ints x hx).2]

theorem Fits.bounds (hFits : Fits d.heap h held) (hInts : ∀ x ∈ held, IsInt x.size) :
    0 ≤ sizeSum (held.map Held.entry) ∧ sizeSum (held.map Held.entry) ≤ memHeapsize h.2 ∧
      IsInt (sizeSum (held.map Held.entry)) := by
  obtain ⟨hPos, hLe⟩ := sizeSum_bounds hInts hFits.disjoint hFits.inHeap
  have hHeap := h.2.heapsize_le
  rw [maxHeap] at hHeap
  refine ⟨hPos, hLe, ?_, ?_⟩ <;> omega

theorem Tally.remember (hTally : Tally d held maxTotal) (hKept : kept.Sublist held)
    {index size : Int} {p : Nat} (hFresh : index ∉ kept.map Held.id) (hInt : IsInt size)
    (hFits : Fits d.heap h (⟨index, p, size⟩ :: kept)) :
    Tally (d.remember h index p size) (⟨index, p, size⟩ :: kept)
      (max maxTotal (sizeSum ((⟨index, p, size⟩ :: kept).map Held.entry))) := by
  have hInts : ∀ x ∈ (⟨index, p, size⟩ :: kept : List Held), IsInt x.size :=
    List.forall_mem_cons.mpr ⟨hInt, fun x hx => hTally.ints x (hKept.subset hx)⟩
  obtain ⟨-, hSum, -⟩ := hFits.bounds hInts
  have hGrown := hFits.grows.heapsize_le
  have hPeak := hTally.peak
  refine ⟨.cons hFresh (hTally.ids.sublist (hKept.map _)), hInts, ?_, hFits.disjoint,
    hFits.inHeap, hTally.top.trans (le_max_left _ _), le_max_right _ _, ?_⟩
  · refine List.forall_mem_cons.mpr ⟨⟨Function.update_self _ _ _, Function.update_self _ _ _⟩, ?_⟩
    intro x hx
    have hne : x.id ≠ index := by
      rintro rfl
      exact hFresh (List.mem_map_of_mem hx)
    obtain ⟨hPtr, hSize⟩ := hTally.blocks x (hKept.subset hx)
    exact ⟨(Function.update_of_ne hne _ _).trans hPtr, (Function.update_of_ne hne _ _).trans hSize⟩
  · change _ ≤ max (FREE_HEAP : Int) (memHeapsize h.2)
    omega

theorem Tally.release (hTally : Tally d held maxTotal) (hKept : kept.Sublist held)
    (hFits : Fits d.heap h kept) (hSum : sizeSum (kept.map Held.entry) ≤ maxTotal) :
    Tally { d with heap := h } kept maxTotal := by
  have hGrown := hFits.grows.heapsize_le
  have hPeak := hTally.peak
  refine ⟨hTally.ids.sublist (hKept.map _), fun x hx => hTally.ints x (hKept.subset hx),
    fun x hx => hTally.blocks x (hKept.subset hx), hFits.disjoint, hFits.inHeap, hTally.top, hSum,
    ?_⟩
  change _ ≤ max (FREE_HEAP : Int) (memHeapsize h.2)
  omega

theorem fresh_of_erase {x : Held} (hNodup : (held.map Held.id).Nodup) (hx : x ∈ held) :
    x.id ∉ (held.erase x).map Held.id := by
  have hPerm := ((List.perm_cons_erase hx).map Held.id).nodup_iff.mp hNodup
  exact (List.nodup_cons.mp hPerm).1

theorem Tally.step (hTally : Tally d held maxTotal) {op : TraceOp} {ops : List TraceOp}
    (hIds : UsesIds (held.map Held.entry) (op :: ops)) (hFits : FitsOn A d.heap held (op :: ops)) :
    ∃ d' held', held'.map Held.entry = liveAfter (held.map Held.entry) op ∧
      (utilOp A op (sizeSum (held.map Held.entry)) maxTotal).run d =
        .ok ((sizeSum (held'.map Held.entry), max maxTotal (sizeSum (held'.map Held.entry))), d') ∧
      d'.overflowed = d.overflowed ∧
      Tally d' held' (max maxTotal (sizeSum (held'.map Held.entry))) ∧
      FitsOn A d'.heap held' ops := by
  obtain ⟨type, index, size⟩ := op
  obtain ⟨hInt, hId, -⟩ := hIds
  change IsInt size at hInt
  obtain ⟨hSumPos, hSumLe⟩ := hTally.bounds
  cases type with
  | alloc =>
    obtain ⟨p, h, hMalloc, hp, hFits, hRest⟩ := hFits
    have hFresh : index ∉ held.map Held.id := by
      intro hMem
      exact hId (by rwa [List.map_map])
    have hInts : ∀ x ∈ (⟨index, p, size⟩ :: held : List Held), IsInt x.size :=
      List.forall_mem_cons.mpr ⟨hInt, hTally.ints⟩
    obtain ⟨-, -, hTotal⟩ := hFits.bounds hInts
    have hSum : sizeSum ((⟨index, p, size⟩ :: held : List Held).map Held.entry) =
        sizeSum (held.map Held.entry) + size := by
      rw [sizeSum_cons, add_comm]
    have hNext := hTally.remember (List.Sublist.refl _) hFresh hInt hFits
    rw [hSum] at hTotal hNext
    refine ⟨d.remember h index p size, ⟨index, p, size⟩ :: held, rfl, ?_, rfl, ?_, hRest⟩
    · rw [hSum]
      exact utilOp_alloc hMalloc hp hTotal
    · rw [hSum]
      exact hNext
  | realloc =>
    obtain ⟨x, hx, rfl, hFind, hErase⟩ := find_of_live hTally.ids hId
    obtain ⟨p, h, hRealloc, hp, hFits, hRest⟩ := hFits x hFind
    obtain ⟨hPtr, -⟩ := hTally.blocks x hx
    rw [← hPtr] at hRealloc
    have hInts : ∀ y ∈ (⟨x.id, p, size⟩ :: held.erase x : List Held), IsInt y.size :=
      List.forall_mem_cons.mpr ⟨hInt, fun y hy => hTally.ints y (List.mem_of_mem_erase hy)⟩
    obtain ⟨-, -, hTotal⟩ := hFits.bounds hInts
    obtain ⟨hOldPos, -⟩ := size_of_inHeap (hTally.ints x hx) (hTally.inHeap x hx)
    obtain ⟨hNewPos, -⟩ := size_of_inHeap hInt (hFits.inHeap _ List.mem_cons_self)
    have hOld := hTally.oldSize hx
    have hStep : IsInt (size - x.size) := by
      obtain ⟨-, hOldLt⟩ := hTally.ints x hx
      obtain ⟨-, hNewLt⟩ := hInt
      constructor <;> omega
    have hSum : sizeSum ((⟨x.id, p, size⟩ :: held.erase x : List Held).map Held.entry) =
        sizeSum (held.map Held.entry) + (size - x.size) := by
      rw [sizeSum_cons, sizeSum_erase hx]
      ring
    have hNext := hTally.remember List.erase_sublist (fresh_of_erase hTally.ids hx) hInt hFits
    rw [hSum] at hTotal hNext
    refine ⟨d.remember h x.id p size, ⟨x.id, p, size⟩ :: held.erase x, ?_, ?_, rfl, ?_, hRest⟩
    · rw [liveAfter]
      exact congrArg ((x.id, size) :: ·) hErase.symm
    · rw [hSum]
      exact utilOp_realloc hRealloc hp hOld hStep hTotal
    · rw [hSum]
      exact hNext
  | free =>
    obtain ⟨x, hx, rfl, hFind, hErase⟩ := find_of_live hTally.ids hId
    obtain ⟨h, hFree, hFits, hRest⟩ := hFits x hFind
    obtain ⟨hPtr, -⟩ := hTally.blocks x hx
    rw [← hPtr] at hFree
    have hInts : ∀ y ∈ held.erase x, IsInt y.size :=
      fun y hy => hTally.ints y (List.mem_of_mem_erase hy)
    obtain ⟨-, -, hTotal⟩ := hFits.bounds hInts
    obtain ⟨hOldPos, -⟩ := size_of_inHeap (hTally.ints x hx) (hTally.inHeap x hx)
    have hOld := hTally.oldSize hx
    have hErased := sizeSum_erase hx
    have hSum : sizeSum ((held.erase x).map Held.entry) =
        sizeSum (held.map Held.entry) - x.size := by omega
    have hLe : sizeSum ((held.erase x).map Held.entry) ≤ maxTotal := by
      have hBefore := hTally.total
      omega
    refine ⟨{ d with heap := h }, held.erase x, hErase.symm, ?_, rfl, ?_, hRest⟩
    · rw [max_eq_left hLe, hSum]
      rw [hSum] at hTotal
      exact utilOp_free hFree hOld hTotal
    · rw [max_eq_left hLe]
      exact hTally.release List.erase_sublist hFits hLe

theorem Tally.run (hTally : Tally d held maxTotal) {ops : List TraceOp}
    (hIds : UsesIds (held.map Held.entry) ops) (hFits : FitsOn A d.heap held ops) :
    ∃ d' held', held'.map Held.entry = ops.foldl liveAfter (held.map Held.entry) ∧
      (utilOps A ops (sizeSum (held.map Held.entry)) maxTotal).run d =
        .ok ((sizeSum (held'.map Held.entry), peakFrom maxTotal (held.map Held.entry) ops), d') ∧
      d'.overflowed = d.overflowed ∧
      Tally d' held' (peakFrom maxTotal (held.map Held.entry) ops) := by
  induction ops generalizing d held maxTotal with
  | nil =>
    have hPeak : peakFrom maxTotal (held.map Held.entry) [] = maxTotal :=
      (peakFrom_nil _ _).trans (max_eq_left hTally.total)
    rw [hPeak]
    exact ⟨d, held, rfl, rfl, rfl, hTally⟩
  | cons op ops ih =>
    obtain ⟨d₁, held₁, hLive₁, hOp, hFlag₁, hTally₁, hFits₁⟩ := hTally.step hIds hFits
    have hIds₁ : UsesIds (held₁.map Held.entry) ops := by
      rw [hLive₁]
      exact hIds.2.2
    obtain ⟨d₂, held₂, hLive₂, hOps, hFlag₂, hTally₂⟩ := ih hTally₁ hIds₁ hFits₁
    rw [hLive₁, ← peakFrom_cons op ops hTally.total] at hTally₂ hOps
    refine ⟨d₂, held₂, ?_, ?_, hFlag₂.trans hFlag₁, hTally₂⟩
    · rw [hLive₂, hLive₁, List.foldl_cons]
    · rw [utilOps, Exec.run_bind_ok hOp, hLive₁]
      exact hOps

end Replay

/-! ## The whole evaluation -/

theorem UsesIds.left {live : List (Int × Int)} {xs ys : List TraceOp}
    (h : UsesIds live (xs ++ ys)) : UsesIds live xs := by
  induction xs generalizing live with
  | nil => trivial
  | cons op xs ih => exact ⟨h.1, h.2.1, ih h.2.2⟩

theorem FitsOn.left {A : Allocator σ} {h : σ × Memlib} {held : List Held} {xs ys : List TraceOp}
    (hFits : FitsOn A h held (xs ++ ys)) : FitsOn A h held xs := by
  induction xs generalizing h held with
  | nil => trivial
  | cons op xs ih =>
    obtain ⟨type, index, size⟩ := op
    cases type with
    | alloc =>
      obtain ⟨p, h', hMalloc, hp, hFits, hRest⟩ := hFits
      exact ⟨p, h', hMalloc, hp, hFits, ih hRest⟩
    | realloc =>
      intro x hFind
      obtain ⟨p, h', hRealloc, hp, hFits, hRest⟩ := hFits x hFind
      exact ⟨p, h', hRealloc, hp, hFits, ih hRest⟩
    | free =>
      intro x hFind
      obtain ⟨h', hFree, hFits, hRest⟩ := hFits x hFind
      exact ⟨h', hFree, hFits, ih hRest⟩

theorem utilOps_append (A : Allocator σ) (xs ys : List TraceOp) (total maxTotal : Int) :
    utilOps A (xs ++ ys) total maxTotal =
      utilOps A xs total maxTotal >>= fun r => utilOps A ys r.1 r.2 := by
  induction xs generalizing total maxTotal with
  | nil => rfl
  | cons op xs ih =>
    rw [List.cons_append, utilOps, utilOps, Exec.bind_assoc]
    congr 1
    funext r
    exact ih r.1 r.2

theorem evalMmUtil_append (A : Allocator σ) (xs ys : List TraceOp) :
    evalMmUtil A (xs ++ ys) = utilReplay A xs >>= fun r =>
      utilOps A ys r.1 r.2 >>= fun r => utilStats r.2 := by
  rw [evalMmUtil, utilReplay, Exec.bind_assoc, Exec.bind_assoc]
  congr 1
  funext _
  congr 1
  funext r
  split
  · rfl
  · rw [utilOps_append, Exec.bind_assoc]
    rfl

theorem utilReplay_run {A : Allocator σ} {d : Mdriver σ} {ops : List TraceOp}
    (hIds : UsesIds [] ops) (hFits : FitsFor A d.heap ops) :
    ∃ d' held, (utilReplay A ops).run d =
        .ok ((sizeSum (liveOf ops), peakFrom FREE_HEAP [] ops), d') ∧
      d'.overflowed = d.overflowed ∧ Tally d' held (peakFrom FREE_HEAP [] ops) := by
  obtain ⟨r, h, hInit, hr, hFits⟩ := hFits
  have hReset : (memResetBrk : D σ Unit).run d =
      .ok ((), { d with heap := (d.heap.1, Malloc.memResetBrk d.heap.2) }) := rfl
  have hCall : (call A.mmInit).run { d with heap := (d.heap.1, Malloc.memResetBrk d.heap.2) } =
      .ok (r, { d with heap := h }) := call_run hInit
  have hStart : Tally { d with heap := h } [] (FREE_HEAP : Int) := by
    refine ⟨.nil, by simp, by simp, .nil, by simp, le_rfl, by decide, le_max_left _ _⟩
  obtain ⟨d', held, hLive, hRun, hFlag, hTally⟩ := hStart.run hIds hFits
  refine ⟨d', held, ?_, hFlag, hTally⟩
  rw [utilReplay, Exec.run_bind_ok hReset, Exec.run_bind_ok hCall, if_neg (by omega)]
  rw [hLive] at hRun
  exact hRun

theorem utilStats_run (d : Mdriver σ) (maxTotal : Int) :
    (utilStats maxTotal).run d =
      .ok (⟨maxTotal, max (FREE_HEAP : Int) (memHeapsize d.heap.2)⟩, d) := by
  have hMem : (getMem : D σ Memlib).run d = .ok (d.heap.2, d) := rfl
  have hHeap := d.heap.2.heapsize_le
  have hMax : toInt (if FREE_HEAP < memHeapsize d.heap.2 then memHeapsize d.heap.2 else FREE_HEAP) =
      max (FREE_HEAP : Int) (memHeapsize d.heap.2) := by
    rw [maxHeap] at hHeap
    rw [FREE_HEAP, toInt_of_lt (by split <;> omega)]
    split <;> omega
  rw [utilStats, Exec.run_bind_ok hMem, ← hMax, Exec.run_pure]

theorem ratio_bounds {u : Util} (hPos : 0 < u.idealMaxHeap) (hLe : u.idealMaxHeap ≤ u.maxHeap) :
    0 < u.ratio ∧ u.ratio ≤ 1 := by
  have hIdeal : (0 : ℚ) < u.idealMaxHeap := by exact_mod_cast hPos
  have hMax : (u.idealMaxHeap : ℚ) ≤ u.maxHeap := by exact_mod_cast hLe
  have hMaxPos : (0 : ℚ) < u.maxHeap := hIdeal.trans_le hMax
  exact ⟨div_pos hIdeal hMaxPos, (div_le_one hMaxPos).mpr hMax⟩

/-- After every prefix the running total is the sum of the live sizes, no operation overflows,
and the utilisation is the peak of that sum over a heap that is at least as large. -/
theorem util_exact (A : Allocator σ) (d : Mdriver σ) (ops : List TraceOp)
    (hIds : UsesIds [] ops) (hFits : FitsFor A d.heap ops) :
    (∀ pre post, pre ++ post = ops → ∃ d₁,
      (utilReplay A pre).run d =
        .ok ((sizeSum (liveOf pre), peakFrom FREE_HEAP [] pre), d₁) ∧
      d₁.overflowed = d.overflowed ∧
      (evalMmUtil A ops).run d =
        (utilOps A post (sizeSum (liveOf pre)) (peakFrom FREE_HEAP [] pre) >>=
          fun r => utilStats r.2).run d₁) ∧
    ∃ u d', (evalMmUtil A ops).run d = .ok (u, d') ∧ d'.overflowed = d.overflowed ∧
      u.idealMaxHeap = peakFrom FREE_HEAP [] ops ∧
      u.maxHeap = max (FREE_HEAP : Int) (memHeapsize d'.heap.2) ∧
      u.idealMaxHeap ≤ u.maxHeap ∧ 0 < u.ratio ∧ u.ratio ≤ 1 := by
  constructor
  · rintro pre post rfl
    obtain ⟨r, h, hInit, hr, hFitsOn⟩ := hFits
    obtain ⟨d₁, held, hRun, hFlag, -⟩ :=
      utilReplay_run hIds.left ⟨r, h, hInit, hr, hFitsOn.left⟩
    refine ⟨d₁, hRun, hFlag, ?_⟩
    rw [evalMmUtil_append, Exec.run_bind_ok hRun]
  · obtain ⟨d₁, held, hRun, hFlag, hTally⟩ := utilReplay_run hIds hFits
    have hTop := hTally.top
    have hPos : 0 < peakFrom FREE_HEAP [] ops := by
      rw [FREE_HEAP] at hTop ⊢
      omega
    have hEval := evalMmUtil_append A ops []
    rw [List.append_nil] at hEval
    refine ⟨⟨peakFrom FREE_HEAP [] ops, max (FREE_HEAP : Int) (memHeapsize d₁.heap.2)⟩, d₁, ?_,
      hFlag, rfl, rfl, hTally.peak, ratio_bounds hPos hTally.peak⟩
    rw [hEval, Exec.run_bind_ok hRun]
    exact utilStats_run d₁ _

def utilTrace : List TraceOp :=
  [⟨.alloc, 0, 8⟩, ⟨.alloc, 1, 24⟩, ⟨.realloc, 0, 16⟩, ⟨.free, 1, 0⟩]

theorem utilTrace_fits :
    FitsFor scripted (startDriver [4096, 4104, 4128]).heap utilTrace := by
  refine ⟨0, _, rfl, le_rfl, 4096, _, rfl, by decide, ⟨⟨[], rfl, rfl⟩, by decide, by decide⟩,
    4104, _, rfl, by decide, ⟨⟨[], rfl, rfl⟩, by decide, by decide⟩, ?_⟩
  intro x hFind
  cases hFind
  refine ⟨4128, _, rfl, by decide, ⟨⟨[], rfl, rfl⟩, by decide, by decide⟩, ?_⟩
  intro x hFind
  cases hFind
  exact ⟨_, rfl, ⟨⟨[], rfl, rfl⟩, by decide, by decide⟩, trivial⟩

theorem util_exact_four : ∃ u d',
    (evalMmUtil scripted utilTrace).run (startDriver [4096, 4104, 4128]) = .ok (u, d') ∧
      d'.overflowed = false ∧ u.idealMaxHeap = 65536 ∧ u.ratio ≤ 1 := by
  have hIds : UsesIds [] utilTrace := by
    simp [utilTrace, UsesIds, IsInt, liveAfter]
  obtain ⟨u, d', hRun, hFlag, hIdeal, -, -, -, hRatio⟩ :=
    (util_exact scripted (startDriver [4096, 4104, 4128]) utilTrace hIds utilTrace_fits).2
  exact ⟨u, d', hRun, hFlag, hIdeal, hRatio⟩

end Cs33.Driver
