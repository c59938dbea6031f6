import Cs33.Driver.Soundness

/-! # Which replays of a correct allocator `eval_mm_valid` accepts

The contract of a correct allocator is stated along the replay: each call
answers with a fresh payload and keeps the payloads that are held. The driver
fills every payload with the low byte of its id and compares the bytes it
reads back as signed characters.
-/

namespace Cs33.Driver

open Cs33.Malloc ByteMemory Interval

/-- A payload that the client holds, with the id it was asked for. -/
structure Held where
  id : Int
  ptr : Nat
  size : Int
deriving DecidableEq

def Held.payload (x : Held) : Nat × Nat := (x.ptr, x.size.toNat)

variable {σ : Type}

def Keeps (h h' : σ × Memlib) (held : List Held) : Prop :=
  ∀ x ∈ held, AgreeOn x.ptr (x.ptr + x.size.toNat) h.2.bytes h'.2.bytes

/-- A correct answer to a request of `size` bytes beside the payloads of `held`. -/
structure Serves (h h' : σ × Memlib) (held : List Held) (p : Nat) (size : Int) : Prop where
  ne_null : p ≠ NULL
  aligned : p % 8 = 0
  inHeap : h'.2.InHeap p size.toNat
  apart : ∀ x ∈ held, Apart (p, size.toNat) x.payload
  keeps : Keeps h h' held

/-- The first `min (old, new)` bytes of a moved payload are the old ones. -/
def Moves (h h' : σ × Memlib) (x : Held) (p : Nat) (size : Int) : Prop :=
  ∀ j, j < x.size.toNat → j < size.toNat → h'.2.bytes (p + j) = h.2.bytes (x.ptr + j)

/-- The allocator is correct along the replay of a trace. -/
def CorrectOn (A : Allocator σ) : σ × Memlib → List Held → List TraceOp → Prop
  | _, _, [] => True
  | h, held, ⟨.alloc, index, size⟩ :: ops =>
    ∃ p h', (A.mmMalloc (toSizeT size)).run h = .ok (p, h') ∧ Serves h h' held p size ∧
      CorrectOn A (filled h' index p size) (⟨index, p, size⟩ :: held) ops
  | h, held, ⟨.realloc, index, size⟩ :: ops =>
    ∀ x, held.find? (fun x => x.id == index) = some x →
      ∃ p h', (A.mmRealloc x.ptr (toSizeT size)).run h = .ok (p, h') ∧
        Serves h h' (held.erase x) p size ∧ Moves h h' x p size ∧
        CorrectOn A (filled h' index p size) (⟨index, p, size⟩ :: held.erase x) ops
  | h, held, ⟨.free, index, _⟩ :: ops =>
    ∀ x, held.find? (fun x => x.id == index) = some x →
      ∃ h', (A.mmFree x.ptr).run h = .ok ((), h') ∧ Keeps h h' (held.erase x) ∧
        CorrectOn A h' (held.erase x) ops

def CorrectFor (A : Allocator σ) (h : σ × Memlib) (ops : List TraceOp) : Prop :=
  ∃ r h', A.mmInit.run (h.1, Malloc.memResetBrk h.2) = .ok (r, h') ∧ 0 ≤ r ∧ CorrectOn A h' [] ops

/-- Sizes are positive, and an id is reallocated or freed only after it was allocated and not
after it was freed. -/
def Usable : List Int → List TraceOp → Prop
  | _, [] => True
  | known, ⟨.alloc, index, size⟩ :: ops => PosInt size ∧ Usable (index :: known) ops
  | known, ⟨.realloc, index, size⟩ :: ops => PosInt size ∧ index ∈ known ∧ Usable known ops
  | known, ⟨.free, index, _⟩ :: ops =>
    index ∈ known ∧ Usable (known.filter fun i => i != index) ops

/-- No reallocation has an id whose low byte is negative as a `char`. -/
def CharIds (ops : List TraceOp) : Prop :=
  ∀ op ∈ ops, op.type = .realloc → lowByte op.index < 128

/-! ## Bytes and characters -/

theorem charToInt_lowByte (index : Int) :
    charToInt (UInt8.ofNat (lowByte index)) = lowByte index ↔ lowByte index < 128 := by
  have hLt : lowByte index < 256 := by
    rw [lowByte]
    omega
  have hByte : (UInt8.ofNat (lowByte index)).toNat = lowByte index := by
    rw [UInt8.toNat_ofNat']
    exact Nat.mod_eq_of_lt hLt
  rw [charToInt]
  rw [hByte]
  split <;> omega

theorem differs_eq_false {m : Bytes} {p n : Nat} {index : Int} (hn : 0 < n)
    (hp : p + n < 2 ^ 64)
    (hFilled : ∀ j < n, m (p + j) = UInt8.ofNat (lowByte index)) :
    differs m p n index = false ↔ lowByte index < 128 := by
  have hChar : ∀ j < n, charToInt (m (plus p j)) = charToInt (UInt8.ofNat (lowByte index)) := by
    intro j hj
    rw [plus_eq (by omega), hFilled j hj]
  rw [differs]
  rw [List.any_eq_false]
  simp only [List.mem_range, bne_iff_ne, ne_eq, not_not]
  constructor
  · intro hAll
    rw [← charToInt_lowByte, ← hChar 0 hn]
    exact hAll 0 hn
  · intro hLt j hj
    rw [hChar j hj]
    exact (charToInt_lowByte index).mpr hLt

/-! ## The invariant of the replay -/

def Remembers (d : Mdriver σ) (held : List Held) (index : Int) : Prop :=
  ∃ x, held.find? (fun x => x.id == index) = some x ∧ d.blocks index = x.ptr ∧
    d.blockSizes index = x.size.toNat

/-- What the replay of a correct allocator keeps. -/
structure Shadow (d : Mdriver σ) (held : List Held) (known : List Int) : Prop where
  ranges : d.ranges = (held.map Held.payload).map rangeOf
  apart : (held.map Held.payload).Pairwise Apart
  sizes : ∀ x ∈ held, PosInt x.size
  bytes : ∀ x ∈ held, ∀ j < x.size.toNat,
    d.heap.2.bytes (x.ptr + j) = UInt8.ofNat (lowByte x.id)
  known : ∀ index ∈ known, Remembers d held index

theorem payloadHi_eq {mem : Memlib} {lo : Nat} {size : Int} (h : mem.InHeap lo size.toNat)
    (hSize : PosInt size) : payloadHi lo size = lo + size.toNat - 1 := by
  obtain ⟨hPos, hLt⟩ := hSize
  have hBrk := mem.brk_lt
  rw [mem.inHeap_iff] at h
  rw [payloadHi, toSizeT_of_nonneg hPos.le hLt, plus_eq (by omega), minus_eq (by omega) (by omega)]

theorem endIn_of_apart {lo n : Nat} {y : Nat × Nat} (hn : 0 < n) (hy : 0 < y.2)
    (h : Apart (lo, n) y) : endIn lo (lo + n - 1) (rangeOf y) = false := by
  rw [Apart] at h
  unfold endIn rangeOf
  simp only [Bool.or_eq_false_iff, Bool.and_eq_false_iff, decide_eq_false_iff_not]
  dsimp only at h ⊢
  omega

theorem Serves.accepted {h h' : σ × Memlib} {kept : List Held} {p : Nat} {size : Int}
    (hServes : Serves h h' kept p size) (hSize : PosInt size)
    (hKept : ∀ x ∈ kept, PosInt x.size) :
    Accepted h'.2 ((kept.map Held.payload).map rangeOf) p size := by
  have hHi := payloadHi_eq hServes.inHeap hSize
  have hIn := (h'.2.inHeap_iff _ _).mp hServes.inHeap
  have hPos := hSize.1
  have hBrk := h'.2.brk_pos
  refine ⟨hPos, isAligned_iff.mpr hServes.aligned, ?_, ?_, ?_⟩
  · simp only [memHeapLo, memHeapHi]
    omega
  · simp only [memHeapLo, memHeapHi]
    omega
  · intro r hr
    obtain ⟨y, hy, rfl⟩ := List.mem_map.mp hr
    obtain ⟨x, hx, rfl⟩ := List.mem_map.mp hy
    have hPosX := (hKept x hx).1
    rw [hHi]
    refine endIn_of_apart (by omega) ?_ (hServes.apart x hx)
    change 0 < x.size.toNat
    omega

theorem find?_erase_of_neg {α : Type} [DecidableEq α] {l : List α} {p : α → Bool} {x : α}
    (hx : p x = false) : (l.erase x).find? p = l.find? p := by
  induction l with
  | nil => rfl
  | cons y l ih =>
    obtain hEq | hEq := eq_or_ne y x
    · subst hEq
      rw [List.erase_cons_head, List.find?_cons_of_neg (by simp [hx])]
    · rw [List.erase_cons_tail (by simpa using hEq), List.find?_cons, List.find?_cons, ih]

theorem filled_bytes_of_apart {h : σ × Memlib} {index : Int} {p : Nat} {size : Int} {x : Held}
    (hSize : PosInt size) (hApart : Apart (p, size.toNat) x.payload) {j : Nat}
    (hj : j < x.size.toNat) :
    (filled h index p size).2.bytes (x.ptr + j) = h.2.bytes (x.ptr + j) := by
  have hToSize := toSizeT_of_nonneg hSize.1.le hSize.2
  simp only [Apart, Held.payload] at hApart
  change fill h.2.bytes p (toSizeT size) _ (x.ptr + j) = _
  rw [fill, if_neg (by omega)]

theorem filled_bytes_self {h : σ × Memlib} {index : Int} {p : Nat} {size : Int}
    (hSize : PosInt size) {j : Nat} (hj : j < size.toNat) :
    (filled h index p size).2.bytes (p + j) = UInt8.ofNat (lowByte index) := by
  have hToSize := toSizeT_of_nonneg hSize.1.le hSize.2
  change fill h.2.bytes p (toSizeT size) _ (p + j) = _
  rw [fill, if_pos (by omega)]

section Shadow

variable {d : Mdriver σ} {held kept : List Held} {known : List Int}

theorem shadow_record {h' : σ × Memlib} {p : Nat} {index size : Int}
    (hServes : Serves d.heap h' kept p size) (hSize : PosInt size)
    (hApart : (kept.map Held.payload).Pairwise Apart) (hSizes : ∀ x ∈ kept, PosInt x.size)
    (hBytes : ∀ x ∈ kept, ∀ j < x.size.toNat,
      d.heap.2.bytes (x.ptr + j) = UInt8.ofNat (lowByte x.id))
    (hKnown : ∀ i ∈ known, i ≠ index → Remembers d kept i) :
    Shadow (d.record h' ((kept.map Held.payload).map rangeOf) index p size)
      (⟨index, p, size⟩ :: kept) known := by
  refine ⟨?_, ?_, ?_, ?_, ?_⟩
  · change (⟨p, payloadHi p size⟩ : Range) :: _ = _
    rw [payloadHi_eq hServes.inHeap hSize]
    rfl
  · refine .cons ?_ hApart
    intro y hy
    obtain ⟨x, hx, rfl⟩ := List.mem_map.mp hy
    exact hServes.apart x hx
  · exact List.forall_mem_cons.mpr ⟨hSize, hSizes⟩
  · refine List.forall_mem_cons.mpr ⟨fun j hj => filled_bytes_self hSize hj, ?_⟩
    intro x hx j hj
    have hKeeps := hServes.keeps x hx (x.ptr + j) (by omega) (by omega)
    exact (filled_bytes_of_apart hSize (hServes.apart x hx) hj).trans
      (hKeeps.trans (hBytes x hx j hj))
  · intro i hi
    obtain hEq | hEq := eq_or_ne i index
    · subst hEq
      refine ⟨⟨i, p, size⟩, List.find?_cons_of_pos (by simp), Function.update_self _ _ _, ?_⟩
      exact (Function.update_self _ _ _).trans (toSizeT_of_nonneg hSize.1.le hSize.2)
    · obtain ⟨x, hFind, hPtr, hBlockSize⟩ := hKnown i hi hEq
      refine ⟨x, ?_, ?_, ?_⟩
      · rw [List.find?_cons_of_neg (by simpa using Ne.symm hEq), hFind]
      · exact (Function.update_of_ne hEq _ _).trans hPtr
      · exact (Function.update_of_ne hEq _ _).trans hBlockSize

theorem Shadow.erase (hShadow : Shadow d held known) {index : Int} {x : Held}
    (hFind : held.find? (fun x => x.id == index) = some x) (hPtr : d.blocks index = x.ptr) :
    dropRange d.ranges (d.blocks index) = ((held.erase x).map Held.payload).map rangeOf ∧
      ((held.erase x).map Held.payload).Pairwise Apart ∧
      (∀ y ∈ held.erase x, PosInt y.size) ∧
      (∀ y ∈ held.erase x, ∀ j < y.size.toNat,
        d.heap.2.bytes (y.ptr + j) = UInt8.ofNat (lowByte y.id)) ∧
      ∀ i ∈ known, i ≠ index → Remembers d (held.erase x) i := by
  have hMem := List.mem_of_find?_eq_some hFind
  have hId : x.id = index := by simpa using List.find?_some hFind
  have hKey : ∀ y ∈ held, y.ptr = x.ptr → y = x := by
    intro y hy hEq
    by_contra hne
    have hSymm : Std.Symm fun x y : Held => Apart x.payload y.payload := ⟨fun _ _ h => h.symm⟩
    have hApart := (List.pairwise_map.mp hShadow.apart).forall hy hMem hne
    have hPosX := (hShadow.sizes x hMem).1
    have hPosY := (hShadow.sizes y hy).1
    simp only [Apart, Held.payload] at hApart
    omega
  have hErase := eraseP_eq_of_key Held.ptr hFind hKey
  rw [eraseP_eq_erase hFind] at hErase
  refine ⟨?_, ?_, ?_, ?_, ?_⟩
  · rw [hShadow.ranges, dropRange, List.eraseP_map, List.eraseP_map, ← hErase, hPtr]
    rfl
  · exact hShadow.apart.sublist (List.erase_sublist.map _)
  · exact fun y hy => hShadow.sizes y (List.mem_of_mem_erase hy)
  · exact fun y hy => hShadow.bytes y (List.mem_of_mem_erase hy)
  · intro i hi hne
    obtain ⟨y, hFindY, hPtrY, hSizeY⟩ := hShadow.known i hi
    refine ⟨y, ?_, hPtrY, hSizeY⟩
    rw [find?_erase_of_neg (by simpa [hId] using Ne.symm hne), hFindY]

end Shadow

/-! ## The replay -/

section Replay

variable {A : Allocator σ} {tracenum i : Nat} {d d₁ : Mdriver σ} {op : TraceOp}
  {ops : List TraceOp} {held : List Held} {known : List Int}

def Accepts (A : Allocator σ) (tracenum i : Nat) (d : Mdriver σ) (ops : List TraceOp) : Prop :=
  ∃ d', (validOps A tracenum i ops).run d = .ok (1, d')

theorem accepts_cons : Accepts A tracenum i d (op :: ops) ↔
    ∃ d₁, (validOp A tracenum i op).run d = .ok (true, d₁) ∧ Accepts A tracenum (i + 1) d₁ ops := by
  constructor
  · rintro ⟨d', hRun⟩
    rw [validOps] at hRun
    obtain ⟨b, d₁, hOp, hRest⟩ := Exec.run_bind_eq_ok.mp hRun
    cases b with
    | false => cases hRest
    | true => exact ⟨d₁, hOp, d', hRest⟩
  · rintro ⟨d₁, hOp, d', hRest⟩
    refine ⟨d', ?_⟩
    rw [validOps, Exec.run_bind_ok hOp]
    exact hRest

theorem accepts_of_true (hOp : (validOp A tracenum i op).run d = .ok (true, d₁)) :
    Accepts A tracenum i d (op :: ops) ↔ Accepts A tracenum (i + 1) d₁ ops := by
  rw [accepts_cons]
  constructor
  · rintro ⟨d₂, hOp', hRest⟩
    cases hOp.symm.trans hOp'
    exact hRest
  · intro hRest
    exact ⟨d₁, hOp, hRest⟩

theorem charIds_cons : CharIds (op :: ops) ↔
    (op.type = .realloc → lowByte op.index < 128) ∧ CharIds ops :=
  List.forall_mem_cons

theorem keptSize_bounds {old size : Int} (hOld : PosInt old) (hSize : PosInt size) :
    0 < keptSize old.toNat size ∧ keptSize old.toNat size ≤ old.toNat ∧
      keptSize old.toNat size ≤ size.toNat := by
  obtain ⟨hPos, hLt⟩ := hOld
  have hSizePos := hSize.1
  rw [keptSize]
  rw [toInt_of_lt (by omega)]
  split <;> omega

theorem Shadow.differs_iff (hShadow : Shadow d held known) {index size : Int} {x : Held} {p : Nat}
    {h' : σ × Memlib} (hFind : held.find? (fun x => x.id == index) = some x)
    (hBlockSize : d.blockSizes index = x.size.toNat) (hSize : PosInt size)
    (hIn : h'.2.InHeap p size.toNat) (hMoves : Moves d.heap h' x p size) :
    differs h'.2.bytes p (keptSize (d.blockSizes index) size) index = false ↔
      lowByte index < 128 := by
  have hMem := List.mem_of_find?_eq_some hFind
  have hId : x.id = index := by simpa using List.find?_some hFind
  obtain ⟨hPos, hOld, hNew⟩ := keptSize_bounds (hShadow.sizes x hMem) hSize
  have hHeap := (h'.2.inHeap_iff _ _).mp hIn
  have hBrk := h'.2.brk_lt
  rw [hBlockSize]
  apply differs_eq_false hPos (by omega)
  intro j hj
  rw [hMoves j (by omega) (by omega), hShadow.bytes x hMem j (by omega), hId]

theorem Shadow.accepts_iff (hShadow : Shadow d held known) (hUsable : Usable known ops)
    (hCorrect : CorrectOn A d.heap held ops) : Accepts A tracenum i d ops ↔ CharIds ops := by
  induction ops generalizing d held known i with
  | nil => exact ⟨fun _ _ hOp => absurd hOp List.not_mem_nil, fun _ => ⟨d, rfl⟩⟩
  | cons op ops ih =>
    obtain ⟨type, index, size⟩ := op
    rw [charIds_cons]
    cases type with
    | alloc =>
      obtain ⟨hSize, hUsable⟩ := hUsable
      obtain ⟨p, h', hMalloc, hServes, hCorrect⟩ := hCorrect
      have hAccepted := hServes.accepted hSize hShadow.sizes
      rw [← hShadow.ranges] at hAccepted
      have hOp : (validOp A tracenum i ⟨.alloc, index, size⟩).run d =
          .ok (true, d.record h' d.ranges index p size) :=
        validOp_alloc.mpr ⟨p, h', hMalloc, hServes.ne_null, hAccepted, rfl⟩
      have hKnown : ∀ j ∈ index :: known, j ≠ index → Remembers d held j := by
        intro j hj hne
        exact hShadow.known j ((List.mem_cons.mp hj).resolve_left hne)
      have hNext := shadow_record hServes hSize hShadow.apart hShadow.sizes hShadow.bytes hKnown
      rw [← hShadow.ranges] at hNext
      rw [accepts_of_true hOp, ih hNext hUsable hCorrect]
      exact (and_iff_right fun hType => by cases hType).symm
    | realloc =>
      obtain ⟨hSize, hKnown, hUsable⟩ := hUsable
      obtain ⟨x, hFind, hPtr, hBlockSize⟩ := hShadow.known index hKnown
      obtain ⟨p, h', hRealloc, hServes, hMoves, hCorrect⟩ := hCorrect x hFind
      obtain ⟨hDrop, hApart, hSizes, hBytes, hOthers⟩ := hShadow.erase hFind hPtr
      have hAccepted := hServes.accepted hSize hSizes
      have hDiffers := hShadow.differs_iff hFind hBlockSize hSize hServes.inHeap hMoves
      have hNext := shadow_record hServes hSize hApart hSizes hBytes hOthers
      rw [← hDrop] at hAccepted hNext
      rw [← hPtr] at hRealloc
      by_cases hChar : lowByte index < 128
      · have hOp : (validOp A tracenum i ⟨.realloc, index, size⟩).run d =
            .ok (true, d.record h' (dropRange d.ranges (d.blocks index)) index p size) :=
          validOp_realloc.mpr
            ⟨p, h', hRealloc, hServes.ne_null, hAccepted, hDiffers.mpr hChar, rfl⟩
        rw [accepts_of_true hOp, ih hNext hUsable hCorrect]
        exact (and_iff_right fun _ => hChar).symm
      · constructor
        · intro hAccepts
          obtain ⟨d₁, hOp, -⟩ := accepts_cons.mp hAccepts
          obtain ⟨p', h'', hRealloc', -, -, hSame, -⟩ := validOp_realloc.mp hOp
          cases hRealloc.symm.trans hRealloc'
          exact absurd (hDiffers.mp hSame) hChar
        · rintro ⟨hLow, -⟩
          exact absurd (hLow rfl) hChar
    | free =>
      obtain ⟨hKnown, hUsable⟩ := hUsable
      obtain ⟨x, hFind, hPtr, -⟩ := hShadow.known index hKnown
      obtain ⟨h', hFree, hKeeps, hCorrect⟩ := hCorrect x hFind
      obtain ⟨hDrop, hApart, hSizes, hBytes, hOthers⟩ := hShadow.erase hFind hPtr
      rw [← hPtr] at hFree
      have hOp : (validOp A tracenum i ⟨.free, index, size⟩).run d =
          .ok (true, { d with heap := h', ranges := dropRange d.ranges (d.blocks index) }) :=
        validOp_free.mpr ⟨h', hFree, rfl⟩
      have hNext : Shadow { d with heap := h', ranges := dropRange d.ranges (d.blocks index) }
          (held.erase x) (known.filter fun i => i != index) := by
        refine ⟨hDrop, hApart, hSizes, ?_, ?_⟩
        · intro y hy j hj
          exact (hKeeps y hy (y.ptr + j) (by omega) (by omega)).trans (hBytes y hy j hj)
        · intro j hj
          obtain ⟨hj, hne⟩ := List.mem_filter.mp hj
          exact hOthers j hj (by simpa using hne)
      rw [accepts_of_true hOp, ih hNext hUsable hCorrect]
      exact (and_iff_right fun hType => by cases hType).symm

end Replay

/-- With a correct allocator `eval_mm_valid` returns 1 exactly when no reallocated id has a low
byte of 128 or more. -/
theorem correct_valid_iff (A : Allocator σ) (tracenum : Nat) (d : Mdriver σ)
    (ops : List TraceOp) (hUsable : Usable [] ops) (hCorrect : CorrectFor A d.heap ops) :
    (∃ d', (evalMmValid A tracenum ops).run d = .ok (1, d')) ↔ CharIds ops := by
  obtain ⟨r, h, hInit, hr, hCorrect⟩ := hCorrect
  have hStart : Shadow { d with heap := h, ranges := [] } [] [] :=
    ⟨rfl, .nil, by simp, by simp, by simp⟩
  rw [← hStart.accepts_iff (A := A) (i := 0) hUsable hCorrect]
  constructor
  · rintro ⟨d', hValid⟩
    obtain ⟨r', h', hInit', -, hRun⟩ := evalMmValid_eq_one.mp hValid
    cases hInit.symm.trans hInit'
    exact ⟨d', hRun⟩
  · rintro ⟨d', hRun⟩
    exact ⟨d', evalMmValid_eq_one.mpr ⟨r, h, hInit, hr, hRun⟩⟩

def reallocTrace (index : Int) : List TraceOp := [⟨.alloc, index, 8⟩, ⟨.realloc, index, 8⟩]

theorem reallocTrace_usable (index : Int) : Usable [] (reallocTrace index) :=
  ⟨by decide, by decide, List.mem_cons_self, trivial⟩

theorem reallocTrace_correct (index : Int) :
    CorrectFor scripted (startDriver [4096, 4096]).heap (reallocTrace index) := by
  have hIn : (memSbrk 64 (Malloc.memResetBrk (startDriver [4096, 4096]).heap.2)).2.InHeap 4096 8 :=
    by decide
  refine ⟨0, _, rfl, le_rfl, 4096, _, rfl, ⟨by decide, by decide, hIn, ?_, ?_⟩, ?_⟩
  · simp
  · simp [Keeps]
  · intro x hFind
    rw [List.find?_cons_of_pos (by simp)] at hFind
    cases hFind
    refine ⟨4096, _, rfl, ⟨by decide, by decide, hIn, ?_, ?_⟩, fun _ _ _ => rfl, trivial⟩
    · simp
    · simp [Keeps]

theorem correct_valid_iff_five :
    ∃ d', (evalMmValid scripted 0 (reallocTrace 5)).run (startDriver [4096, 4096]) = .ok (1, d') :=
  (correct_valid_iff scripted 0 _ _ (reallocTrace_usable 5) (reallocTrace_correct 5)).mpr
    (by simp [CharIds, reallocTrace, lowByte])

/-- The bytes of the block with id 128 read back as -128. -/
theorem correct_realloc_rejected : ¬ ∀ (A : Allocator (List Nat)) (d : Mdriver (List Nat))
    (ops : List TraceOp), Usable [] ops → CorrectFor A d.heap ops →
      ∃ d', (evalMmValid A 0 ops).run d = .ok (1, d') := by
  intro hAll
  obtain ⟨d', hValid⟩ := hAll _ _ _ (reallocTrace_usable 128) (reallocTrace_correct 128)
  have hRejected : (evalMmValid scripted 0 (reallocTrace 128)).run (startDriver [4096, 4096]) =
      .ok (0, endDriver [4096, 4096] (reallocTrace 128)) := rfl
  cases hRejected.symm.trans hValid

end Cs33.Driver
