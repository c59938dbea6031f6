import Cs33.Driver.Mdriver
import Cs33.Lib.Interval

/-! # What the driver checks and records

`add_range` accepts a payload or reports it, and one request of
`eval_mm_valid` either lets the replay go on or ends it. The lemmas below say
once what acceptance means and how an accepted request changes the driver.
-/

namespace Cs33.Driver

open Cs33.Malloc ByteMemory

variable {σ : Type}

theorem call_eq_ok {α : Type} {x : Exec (σ × Memlib) Stop α} {d d' : Mdriver σ} {a : α} :
    (call x).run d = .ok (a, d') ↔ ∃ h, x.run d.heap = .ok (a, h) ∧ d' = { d with heap := h } := by
  rw [call]
  dsimp only
  cases hRun : x.run d.heap with
  | error e => simp
  | ok r =>
    obtain ⟨b, h⟩ := r
    constructor
    · intro hEq
      cases hEq
      exact ⟨h, rfl, rfl⟩
    · rintro ⟨_, hEq, rfl⟩
      cases hEq
      rfl

theorem call_run {α : Type} {x : Exec (σ × Memlib) Stop α} {d : Mdriver σ} {a : α}
    {h : σ × Memlib} (hRun : x.run d.heap = .ok (a, h)) :
    (call x).run d = .ok (a, { d with heap := h }) :=
  call_eq_ok.mpr ⟨h, hRun, rfl⟩

/-- A replay goes on after a call unless it answers with a failure value. -/
theorem checked_call_eq_ok {α β : Type} {x : Exec (σ × Memlib) Stop α} {failed : α → Prop}
    [DecidablePred failed] {stop go : α → D σ β} {d d' : Mdriver σ} {b : β}
    (hStop : ∀ a d₁, (stop a).run d₁ ≠ .ok (b, d')) :
    (do let a ← call x; if failed a then stop a else go a : D σ β).run d = .ok (b, d') ↔
      ∃ a h, x.run d.heap = .ok (a, h) ∧ ¬ failed a ∧
        (go a).run { d with heap := h } = .ok (b, d') := by
  rw [Exec.run_bind_eq_ok]
  constructor
  · rintro ⟨a, d₁, hCall, hRest⟩
    obtain ⟨h, hRun, rfl⟩ := call_eq_ok.mp hCall
    split at hRest
    · exact absurd hRest (hStop _ _)
    · rename_i hAnswer
      exact ⟨a, h, hRun, hAnswer, hRest⟩
  · rintro ⟨a, h, hRun, hAnswer, hRest⟩
    refine ⟨a, _, call_run hRun, ?_⟩
    rw [if_neg hAnswer]
    exact hRest

/-! ## Conversions -/

theorem toSizeT_of_nonneg {n : Int} (h : 0 ≤ n) (hLt : n < 2 ^ 31) : toSizeT n = n.toNat := by
  rw [toSizeT]
  omega

theorem toInt_of_lt {n : Nat} (h : n < 2 ^ 31) : toInt n = n := by
  have hMod : toUint32 n = n := Nat.mod_eq_of_lt (by omega)
  rw [toInt, hMod, uint32ToInt, if_pos h]

theorem toInt_toSizeT {n : Int} (h : 0 ≤ n) (hLt : n < 2 ^ 31) : toInt (toSizeT n) = n := by
  rw [toSizeT_of_nonneg h hLt, toInt_of_lt (by omega)]
  omega

theorem isAligned_iff {p : Nat} : isAligned p = true ↔ p % 8 = 0 := by
  simp only [isAligned, ALIGNMENT]
  rw [beq_iff_eq]
  omega

/-! ## Accepted payloads -/

def payloadHi (lo : Nat) (size : Int) : Nat := minus (plus lo (toSizeT size)) 1

/-- What `add_range` tests. -/
structure Accepted (mem : Memlib) (ranges : List Range) (lo : Nat) (size : Int) : Prop where
  size_pos : 0 < size
  aligned : isAligned lo = true
  lo_mem : memHeapLo mem ≤ lo ∧ lo ≤ memHeapHi mem
  hi_mem : memHeapLo mem ≤ payloadHi lo size ∧ payloadHi lo size ≤ memHeapHi mem
  noEnd : ∀ p ∈ ranges, endIn lo (payloadHi lo size) p = false

theorem addRange_accepts {d : Mdriver σ} {lo : Nat} {size : Int} (tracenum opnum : Nat)
    (h : Accepted d.heap.2 d.ranges lo size) : (addRange lo size tracenum opnum).run d =
      .ok (1, { d with ranges := ⟨lo, payloadHi lo size⟩ :: d.ranges }) := by
  obtain ⟨hPos, hAligned, hLo, hHi, hNoEnd⟩ := h
  have hNone : d.ranges.find? (endIn lo (payloadHi lo size)) = none :=
    List.find?_eq_none.mpr fun p hp => by simp [hNoEnd p hp]
  have hMem : (getMem : D σ Memlib).run d = .ok (d.heap.2, d) := rfl
  have hRanges : (getRanges : D σ (List Range)).run d = .ok (d.ranges, d) := rfl
  rw [payloadHi] at hHi hNone
  rw [addRange]
  rw [if_neg (by omega), if_neg (by simp [hAligned]), Exec.run_bind_ok hMem, if_neg (by omega),
    Exec.run_bind_ok hRanges, hNone]
  rfl

theorem accepted_of_addRange {d d' : Mdriver σ} {lo tracenum opnum : Nat} {size r : Int}
    (h : (addRange lo size tracenum opnum).run d = .ok (r, d')) (hr : r ≠ 0) :
    Accepted d.heap.2 d.ranges lo size ∧
      d' = { d with ranges := ⟨lo, payloadHi lo size⟩ :: d.ranges } := by
  have hMem : (getMem : D σ Memlib).run d = .ok (d.heap.2, d) := rfl
  have hRanges : (getRanges : D σ (List Range)).run d = .ok (d.ranges, d) := rfl
  rw [addRange] at h
  split at h
  · cases h
  · rename_i hPos
    split at h
    · cases h
      exact absurd rfl hr
    · rename_i hAligned
      rw [Exec.run_bind_ok hMem] at h
      split at h
      · cases h
        exact absurd rfl hr
      · rename_i hIn
        rw [Exec.run_bind_ok hRanges] at h
        split at h
        · cases h
          exact absurd rfl hr
        · rename_i hNone
          cases h
          refine ⟨⟨by omega, by simpa using hAligned, by omega, ?_, ?_⟩, rfl⟩
          · rw [payloadHi]
            omega
          · intro p hp
            rw [payloadHi]
            simpa using List.find?_eq_none.mp hNone p hp

theorem Accepted.inHeap {mem : Memlib} {ranges : List Range} {lo : Nat} {size : Int}
    (h : Accepted mem ranges lo size) (hLt : size < 2 ^ 31) :
    mem.InHeap lo size.toNat ∧ payloadHi lo size = lo + size.toNat - 1 := by
  obtain ⟨hPos, -, ⟨hLo, hLoHi⟩, ⟨hHi, hHiHi⟩, -⟩ := h
  have hBrk := mem.brk_le_max
  have hMax := mem.max_eq
  have hLtMax := mem.max_lt
  have hStart := mem.start_pos
  have hStartBrk := mem.start_le_brk
  have hSize := toSizeT_of_nonneg hPos.le hLt
  rw [maxHeap] at hMax
  rw [memHeapLo] at hLo hHi
  rw [memHeapHi] at hLoHi hHiHi
  rw [payloadHi] at hHi hHiHi ⊢
  rw [hSize] at hHi hHiHi ⊢
  have hFits : lo + size.toNat < 2 ^ 64 := by
    by_contra hWrap
    simp only [plus, minus] at hHi hHiHi
    omega
  have hPlus : plus lo size.toNat = lo + size.toNat := plus_eq hFits
  have hMinus : minus (lo + size.toNat) 1 = lo + size.toNat - 1 := minus_eq (by omega) hFits
  rw [hPlus, hMinus] at hHiHi ⊢
  rw [mem.inHeap_iff]
  exact ⟨⟨hLo, by omega⟩, rfl⟩

/-! ## One request of `eval_mm_valid` -/

def dropRange (ranges : List Range) (lo : Nat) : List Range := ranges.eraseP fun p => p.lo == lo

def filled (h : σ × Memlib) (index : Int) (p : Nat) (size : Int) : σ × Memlib :=
  (h.1, { h.2 with bytes := fill h.2.bytes p (toSizeT size) (UInt8.ofNat (lowByte index)) })

/-- The driver after it has filled and remembered the payload of a request. -/
def Mdriver.record (d : Mdriver σ) (h : σ × Memlib) (ranges : List Range) (index : Int) (p : Nat)
    (size : Int) : Mdriver σ :=
  { d with
    heap := filled h index p size
    ranges := ⟨p, payloadHi p size⟩ :: ranges
    blocks := Function.update d.blocks index p
    blockSizes := Function.update d.blockSizes index (toSizeT size) }

/-- How many bytes of the old block a reallocation to `size` bytes has to keep. -/
def keptSize (old : Nat) (size : Int) : Nat :=
  (if size < toInt old then size else toInt old).toNat

section ValidOp

variable {A : Allocator σ} {tracenum i : Nat} {index size : Int} {d d' : Mdriver σ}

theorem validOp_alloc :
    (validOp A tracenum i ⟨.alloc, index, size⟩).run d = .ok (true, d') ↔
      ∃ p h, (A.mmMalloc (toSizeT size)).run d.heap = .ok (p, h) ∧ p ≠ NULL ∧
        Accepted h.2 d.ranges p size ∧ d' = d.record h d.ranges index p size := by
  rw [validOp]
  dsimp only
  rw [checked_call_eq_ok nofun]
  constructor
  · rintro ⟨p, h, hMalloc, hp, hRun⟩
    obtain ⟨r, d₂, hAdd, hRun⟩ := Exec.run_bind_eq_ok.mp hRun
    split at hRun
    · cases hRun
    · rename_i hr
      obtain ⟨hAccepted, rfl⟩ := accepted_of_addRange hAdd hr
      cases hRun
      exact ⟨p, h, hMalloc, hp, hAccepted, rfl⟩
  · rintro ⟨p, h, hMalloc, hp, hAccepted, rfl⟩
    have hAdd := addRange_accepts (d := { d with heap := h }) tracenum i hAccepted
    refine ⟨p, h, hMalloc, hp, ?_⟩
    rw [Exec.run_bind_ok hAdd, if_neg (by decide)]
    rfl

theorem validOp_realloc :
    (validOp A tracenum i ⟨.realloc, index, size⟩).run d = .ok (true, d') ↔
      ∃ p h, (A.mmRealloc (d.blocks index) (toSizeT size)).run d.heap = .ok (p, h) ∧ p ≠ NULL ∧
        Accepted h.2 (dropRange d.ranges (d.blocks index)) p size ∧
        differs h.2.bytes p (keptSize (d.blockSizes index) size) index = false ∧
        d' = d.record h (dropRange d.ranges (d.blocks index)) index p size := by
  have hBlock : (getBlock index : D σ Nat).run d = .ok (d.blocks index, d) := rfl
  rw [validOp]
  dsimp only
  rw [Exec.run_bind_ok hBlock, checked_call_eq_ok nofun]
  constructor
  · rintro ⟨p, h, hRealloc, hp, hRun⟩
    obtain ⟨u, d₂, hRemove, hRun⟩ := Exec.run_bind_eq_ok.mp hRun
    cases hRemove
    obtain ⟨r, d₃, hAdd, hRun⟩ := Exec.run_bind_eq_ok.mp hRun
    split at hRun
    · cases hRun
    · rename_i hr
      obtain ⟨hAccepted, rfl⟩ := accepted_of_addRange hAdd hr
      obtain ⟨old, d₄, hOld, hRun⟩ := Exec.run_bind_eq_ok.mp hRun
      cases hOld
      obtain ⟨mem, d₅, hMem, hRun⟩ := Exec.run_bind_eq_ok.mp hRun
      cases hMem
      change (if differs h.2.bytes p (keptSize (d.blockSizes index) size) index = true then _
        else _ : D σ Bool).run _ = _ at hRun
      split at hRun
      · cases hRun
      · rename_i hSame
        cases hRun
        exact ⟨p, h, hRealloc, hp, hAccepted, by simpa using hSame, rfl⟩
  · rintro ⟨p, h, hRealloc, hp, hAccepted, hSame, rfl⟩
    let d₂ : Mdriver σ :=
      { d with heap := h, ranges := dropRange d.ranges (d.blocks index) }
    have hRemove : (removeRange (d.blocks index)).run { d with heap := h } = .ok ((), d₂) := rfl
    have hAdd := addRange_accepts (d := d₂) tracenum i hAccepted
    let d₃ : Mdriver σ := { d₂ with ranges := ⟨p, payloadHi p size⟩ :: d₂.ranges }
    have hOld : (getBlockSize index).run d₃ = .ok (d.blockSizes index, d₃) := rfl
    have hMem : (getMem : D σ Memlib).run d₃ = .ok (h.2, d₃) := rfl
    rw [keptSize] at hSame
    refine ⟨p, h, hRealloc, hp, ?_⟩
    rw [Exec.run_bind_ok hRemove, Exec.run_bind_ok hAdd, if_neg (by decide), Exec.run_bind_ok hOld,
      Exec.run_bind_ok hMem, if_neg (by simp [hSame])]
    rfl

theorem validOp_free :
    (validOp A tracenum i ⟨.free, index, size⟩).run d = .ok (true, d') ↔
      ∃ h, (A.mmFree (d.blocks index)).run d.heap = .ok ((), h) ∧
        d' = { d with heap := h, ranges := dropRange d.ranges (d.blocks index) } := by
  have hBlock : (getBlock index : D σ Nat).run d = .ok (d.blocks index, d) := rfl
  let d₁ : Mdriver σ := { d with ranges := dropRange d.ranges (d.blocks index) }
  have hRemove : (removeRange (d.blocks index)).run d = .ok ((), d₁) := rfl
  rw [validOp]
  dsimp only
  rw [Exec.run_bind_ok hBlock, Exec.run_bind_ok hRemove]
  constructor
  · intro hRun
    obtain ⟨u, d₂, hCall, hRun⟩ := Exec.run_bind_eq_ok.mp hRun
    obtain ⟨h, hFree, rfl⟩ := call_eq_ok.mp hCall
    cases hRun
    exact ⟨h, hFree, rfl⟩
  · rintro ⟨h, hFree, rfl⟩
    have hCall : (call (A.mmFree (d.blocks index))).run d₁ = .ok ((), { d₁ with heap := h }) :=
      call_run hFree
    rw [Exec.run_bind_ok hCall]
    rfl

end ValidOp

/-! ## Replays of a prefix -/

theorem validOps_append {A : Allocator σ} {tracenum i : Nat} {xs ys : List TraceOp}
    {d d' : Mdriver σ} :
    (validOps A tracenum i (xs ++ ys)).run d = .ok (1, d') ↔
      ∃ d₁, (validOps A tracenum i xs).run d = .ok (1, d₁) ∧
        (validOps A tracenum (i + xs.length) ys).run d₁ = .ok (1, d') := by
  induction xs generalizing i d with
  | nil =>
    constructor
    · intro h
      exact ⟨d, rfl, h⟩
    · rintro ⟨_, h, h'⟩
      cases h
      exact h'
  | cons op xs ih =>
    rw [List.cons_append, validOps, validOps, Exec.run_bind_eq_ok]
    have hLength : i + (op :: xs).length = i + 1 + xs.length := by
      rw [List.length_cons]
      omega
    rw [hLength]
    constructor
    · rintro ⟨b, d₁, hOp, hRest⟩
      cases b with
      | false => cases hRest
      | true =>
        obtain ⟨d₂, hXs, hYs⟩ := ih.mp hRest
        exact ⟨d₂, (Exec.run_bind_ok hOp).trans hXs, hYs⟩
    · rintro ⟨d₂, hXs, hYs⟩
      obtain ⟨b, d₁, hOp, hRest⟩ := Exec.run_bind_eq_ok.mp hXs
      cases b with
      | false => cases hRest
      | true => exact ⟨true, d₁, hOp, ih.mpr ⟨d₂, hRest, hYs⟩⟩

theorem validOps_single {A : Allocator σ} {tracenum i : Nat} {op : TraceOp} {d d' : Mdriver σ} :
    (validOps A tracenum i [op]).run d = .ok (1, d') ↔
      (validOp A tracenum i op).run d = .ok (true, d') := by
  rw [validOps, Exec.run_bind_eq_ok]
  constructor
  · rintro ⟨b, d₁, hOp, hRest⟩
    cases b with
    | false => cases hRest
    | true =>
      cases hRest
      exact hOp
  · intro hOp
    exact ⟨true, d', hOp, rfl⟩

theorem evalMmValid_eq_one {A : Allocator σ} {tracenum : Nat} {ops : List TraceOp}
    {d d' : Mdriver σ} : (evalMmValid A tracenum ops).run d = .ok (1, d') ↔
      ∃ r h, A.mmInit.run (d.heap.1, Malloc.memResetBrk d.heap.2) = .ok (r, h) ∧ 0 ≤ r ∧
        (validOps A tracenum 0 ops).run { d with heap := h, ranges := [] } = .ok (1, d') := by
  let d₁ : Mdriver σ := { d with heap := (d.heap.1, Malloc.memResetBrk d.heap.2), ranges := [] }
  have hEval : (evalMmValid A tracenum ops).run d = (do
      if (← call A.mmInit) < 0 then
        mallocError tracenum 0 .initFailed
        return 0
      else
        validOps A tracenum 0 ops : D σ Int).run d₁ := rfl
  rw [hEval, checked_call_eq_ok nofun]
  simp only [not_lt]
  rfl

theorem evalMmValid_snoc {A : Allocator σ} {tracenum : Nat} {ops : List TraceOp} {op : TraceOp}
    {d d' : Mdriver σ} : (evalMmValid A tracenum (ops ++ [op])).run d = .ok (1, d') ↔
      ∃ d₁, (evalMmValid A tracenum ops).run d = .ok (1, d₁) ∧
        (validOp A tracenum ops.length op).run d₁ = .ok (true, d') := by
  rw [evalMmValid_eq_one]
  constructor
  · rintro ⟨r, h, hInit, hr, hOps⟩
    obtain ⟨d₁, hBefore, hLast⟩ := validOps_append.mp hOps
    rw [Nat.zero_add] at hLast
    exact ⟨d₁, evalMmValid_eq_one.mpr ⟨r, h, hInit, hr, hBefore⟩, validOps_single.mp hLast⟩
  · rintro ⟨d₁, hEval, hLast⟩
    obtain ⟨r, h, hInit, hr, hBefore⟩ := evalMmValid_eq_one.mp hEval
    refine ⟨r, h, hInit, hr, validOps_append.mpr ⟨d₁, hBefore, ?_⟩⟩
    rw [Nat.zero_add]
    exact validOps_single.mpr hLast

end Cs33.Driver
