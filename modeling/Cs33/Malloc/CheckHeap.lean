import Cs33.Malloc.Frame
import Cs33.Malloc.Tags

/-! # The verdict of `mm_checkheap`

A run that prints nothing has compared the tags of every block it passed and
ended at a header of size zero. It never compares that place with the end of
the heap, so its silence means a tiled heap only when no earlier header on the
walk has size zero.
-/

namespace Cs33.Malloc

open ByteMemory Exec

/-- The header sizes lead from the first address to the second one, and `P` holds of each
block that is passed. -/
inductive Walk (m : Bytes) (P : Nat → Prop) : Nat → Nat → Prop
  | here (bp : Nat) : Walk m P bp bp
  | next {bp q : Nat} : P bp → Walk m P (bp + sizeAt m bp) q → Walk m P bp q

/-- What one silent round has seen of the block at `bp`. -/
structure PassedBlock (s : State) (bp : Nat) : Prop where
  start_le : s.memStartBrk + 4 ≤ bp
  aligned : bp % 8 = 0
  size_pos : 0 < sizeAt s.bytes bp
  footer : loadLE s.bytes (bp + sizeAt s.bytes bp - 8) 4 = loadLE s.bytes (bp - 4) 4

structure CheckedBlock (s : State) (bp : Nat) : Prop where
  inside : s.InHeap (bp - 4) (sizeAt s.bytes bp)
  aligned : bp % 8 = 0
  size_pos : 0 < sizeAt s.bytes bp
  footer : loadLE s.bytes (bp + sizeAt s.bytes bp - 8) 4 = loadLE s.bytes (bp - 4) 4

/-- Checked blocks tile the heap from `heap_listp` up to an allocated header of size zero
that is its last word. -/
structure Tiled (s : State) : Prop where
  blocks : Walk s.bytes (CheckedBlock s) s.heapListp (memHeapHi s.toMemlib + 1)
  size : sizeAt s.bytes (memHeapHi s.toMemlib + 1) = 0
  alloc : allocBit (loadLE s.bytes (memHeapHi s.toMemlib + 1 - 4) 4) = 1

/-- The header sizes lead from `heap_listp` to a header of size zero that is not the last word of
the heap. -/
def StrayZero (s : State) : Prop :=
  ∃ q, Walk s.bytes (0 < sizeAt s.bytes ·) s.heapListp q ∧ sizeAt s.bytes q = 0 ∧
    q ≠ memHeapHi s.toMemlib + 1

theorem Walk.mono {m : Bytes} {P Q : Nat → Prop} {bp q : Nat} (h : Walk m P bp q)
    (hImp : ∀ x, P x → Q x) : Walk m Q bp q := by
  induction h with
  | here bp => exact .here bp
  | next hHead _ ih => exact .next (hImp _ hHead) ih

theorem Walk.le {m : Bytes} {P : Nat → Prop} {bp q : Nat} (h : Walk m P bp q) : bp ≤ q := by
  induction h with
  | here bp => exact le_rfl
  | next _ _ ih => exact (Nat.le_add_right _ _).trans ih

/-- Every block of a walk has a positive size, so the first header of size zero ends it. -/
theorem Walk.unique {m : Bytes} {bp q q' : Nat} (h : Walk m (0 < sizeAt m ·) bp q)
    (h' : Walk m (0 < sizeAt m ·) bp q') (hEnd : sizeAt m q = 0) (hEnd' : sizeAt m q' = 0) :
    q = q' := by
  induction h with
  | here bp =>
    cases h' with
    | here => rfl
    | next hPos => exact absurd hPos (by omega)
  | next hPos _ ih =>
    cases h' with
    | here => exact absurd hPos (by omega)
    | next _ hRest => exact ih hRest hEnd

theorem Walk.checked {s : State} {bp q : Nat} (h : Walk s.bytes (PassedBlock s) bp q)
    (hEnd : q ≤ s.memBrk) : Walk s.bytes (CheckedBlock s) bp q := by
  induction h with
  | here bp => exact .here bp
  | next hBlock hRest ih =>
    have hBelow := hRest.le
    have hStart := hBlock.start_le
    refine .next ⟨?_, hBlock.aligned, hBlock.size_pos, hBlock.footer⟩ (ih hEnd)
    rw [s.inHeap_iff]
    omega

/-! ## Runs that print nothing -/

section Quiet

variable {α β : Type} {s t s' : State} {b : β} {c : Prop} [Decidable c] {msg : Message}

theorem read_bind {x : M α} {f : α → M β} [Moves Eq x] (h : (x >>= f).run s = .ok (b, s')) :
    ∃ a, x.run s = .ok (a, s) ∧ (f a).run s = .ok (b, s') := by
  obtain ⟨a, t, hRun, hRest⟩ := run_bind_eq_ok.mp h
  obtain rfl : s = t := Moves.move (R := Eq) hRun
  exact ⟨a, hRun, hRest⟩

theorem read_join {x : M Unit} {k : Unit → M β} [Moves Eq x]
    (h : (if c then x >>= k else k ()).run s = .ok (b, s')) : (k ()).run s = .ok (b, s') := by
  split at h
  · obtain ⟨_, -, hRest⟩ := read_bind h
    exact hRest
  · exact h

theorem pure_ok {a : β} (h : (pure a : M β).run s = .ok (b, s')) : b = a := by
  injection h with h
  injection h with hValue
  exact hValue.symm

theorem printf_loud {a : Unit} : (printf msg).run s ≠ .ok (a, s) := by
  intro h
  injection h with h
  injection h with _ hState
  have hOut : s.out ++ [msg] = s.out := congrArg State.out hState
  rw [List.append_right_eq_self] at hOut
  cases hOut

/-- A run goes on from the state it is in, and from the first one only if nothing was printed. -/
theorem printf_join {k : Unit → M β}
    (h : (if c then printf msg >>= k else k ()).run s = .ok (b, s')) :
    ∃ t, Prints s t ∧ (t = s → ¬ c) ∧ (k ()).run t = .ok (b, s') := by
  split at h
  · obtain ⟨_, t, hPrint, hRest⟩ := run_bind_eq_ok.mp h
    refine ⟨t, Moves.move hPrint, ?_, hRest⟩
    rintro rfl
    exact absurd hPrint printf_loud
  · exact ⟨s, refl_of Prints s, fun _ => ‹_›, h⟩

theorem printf_unless {a : Unit} (h : (if c then printf msg else pure ()).run s = .ok (a, s')) :
    Prints s s' ∧ (s' = s → ¬ c) := by
  rw [← bind_unit (printf msg)] at h
  obtain ⟨t, hPrints, hQuiet, hRun⟩ := printf_join h
  cases hRun
  exact ⟨hPrints, hQuiet⟩

end Quiet

section Words

variable {s s' : State} {bp v : Nat}

theorem limit_le (s : State) : s.limit ≤ s.memStartBrk + maxHeap :=
  s.limit_le_max.trans s.max_eq.le

/-- A header that can be read puts its block pointer above the start of the heap: below four,
the subtraction wraps past the end of the storage. -/
theorem get_hdrp_ok (hPtr : bp < 2 ^ 64) (h : (get (hdrp bp)).run s = .ok (v, s')) :
    s.memStartBrk + 4 ≤ bp ∧ bp ≤ s.limit ∧ v = loadLE s.bytes (bp - 4) 4 := by
  have hStart := s.start_pos
  have hLimit := s.limit_lt
  obtain ⟨⟨hLo, hHi⟩, rfl, -⟩ := load_ok h
  have hMinus : hdrp bp = (bp + (2 ^ 64 - 4)) % 2 ^ 64 := rfl
  have hEq : hdrp bp = bp - 4 := by omega
  rw [hEq] at hLo hHi ⊢
  exact ⟨by omega, by omega, rfl⟩

theorem getSize_hdrp_ok (hPtr : bp < 2 ^ 64) (h : (getSize (hdrp bp)).run s = .ok (v, s')) :
    s.memStartBrk + 4 ≤ bp ∧ bp ≤ s.limit ∧ v = sizeAt s.bytes bp := by
  obtain ⟨w, hGet, hRun⟩ := read_bind h
  obtain ⟨hLo, hHi, rfl⟩ := get_hdrp_ok hPtr hGet
  cases hRun
  exact ⟨hLo, hHi, rfl⟩

theorem getAlloc_hdrp_ok (hPtr : bp < 2 ^ 64) (h : (getAlloc (hdrp bp)).run s = .ok (v, s')) :
    v = allocBit (loadLE s.bytes (bp - 4) 4) := by
  obtain ⟨w, hGet, hRun⟩ := read_bind h
  obtain ⟨-, -, rfl⟩ := get_hdrp_ok hPtr hGet
  cases hRun
  rfl

end Words

/-! ## One block and the loop -/

section Walk

variable {s s' : State} {bp q : Nat} {verbose : Bool}

/-- A block whose footer can be read does not wrap around the end of the address space. -/
theorem checkblock_quiet (hPtr : bp < 2 ^ 64) (hPos : 0 < sizeAt s.bytes bp)
    (h : (checkblock bp).run s = .ok ((), s)) : PassedBlock s bp := by
  rw [checkblock] at h
  obtain ⟨t, hPrints, hAligned, h⟩ := printf_join h
  obtain ⟨w, hHeader, h⟩ := read_bind h
  obtain ⟨f, hFtrp, h⟩ := read_bind h
  obtain ⟨w', hFooter, h⟩ := read_bind h
  obtain ⟨hPrints', hSame⟩ := printf_unless h
  obtain rfl := hPrints.antisymm hPrints' rfl
  have hAligned := hAligned rfl
  have hSame := hSame rfl
  obtain ⟨hLo, hHi, rfl⟩ := get_hdrp_ok hPtr hHeader
  obtain ⟨n, hSize, hFtrp⟩ := read_bind hFtrp
  obtain ⟨-, -, rfl⟩ := getSize_hdrp_ok hPtr hSize
  have hFoot := pure_ok hFtrp
  obtain ⟨⟨hFootLo, hFootHi⟩, rfl, -⟩ := load_ok hFooter
  have hLt := sizeAt_lt t.bytes bp
  have hLimit := limit_le t
  have hLimitLt := t.limit_lt
  change f = ((bp + sizeAt t.bytes bp) % 2 ^ 64 + (2 ^ 64 - 8)) % 2 ^ 64 at hFoot
  rw [maxHeap] at hLimit
  rw [toUint32] at hAligned
  obtain rfl : f = bp + sizeAt t.bytes bp - 8 := by omega
  exact ⟨hLo, by omega, hPos, (not_ne_iff.mp hSame).symm⟩

theorem mmCheckheapRound_quiet {next : Nat ⊕ Nat} (hPtr : bp < 2 ^ 64)
    (h : (mmCheckheapRound verbose bp).run s = .ok (next, s)) :
    s.memStartBrk + 4 ≤ bp ∧ bp ≤ s.limit ∧
      (PassedBlock s bp ∧ next = .inl (plus bp (sizeAt s.bytes bp)) ∨
        sizeAt s.bytes bp = 0 ∧ next = .inr bp) := by
  rw [mmCheckheapRound] at h
  dsimp only at h
  obtain ⟨n, hSize, h⟩ := read_bind h
  obtain ⟨hLo, hHi, rfl⟩ := getSize_hdrp_ok hPtr hSize
  refine ⟨hLo, hHi, ?_⟩
  split at h
  · rename_i hPos
    obtain ⟨_, t, hBlock, h⟩ := run_bind_eq_ok.mp (read_join h)
    obtain ⟨_, hNext, h⟩ := read_bind h
    cases h
    obtain ⟨n', hSize', hNext⟩ := read_bind hNext
    obtain ⟨-, -, rfl⟩ := getSize_hdrp_ok hPtr hSize'
    cases hNext
    exact .inl ⟨checkblock_quiet hPtr hPos hBlock, rfl⟩
  · rename_i hZero
    cases h
    exact .inr ⟨Nat.eq_zero_of_not_pos hZero, rfl⟩

/-- Every round passes one block, and its successor does not wrap because its header is read
next. -/
theorem loop_quiet {n : Nat} (hPtr : bp < 2 ^ 64)
    (h : (loop .endless (mmCheckheapRound verbose) n bp).run s = .ok (q, s)) :
    s.memStartBrk + 4 ≤ bp ∧ q ≤ s.limit ∧ sizeAt s.bytes q = 0 ∧
      Walk s.bytes (PassedBlock s) bp q := by
  induction n generalizing bp with
  | zero => cases h
  | succ n ih =>
    obtain ⟨next, t, hRound, hRest⟩ := run_bind_eq_ok.mp h
    obtain a | r := next
    · obtain rfl : t = s := (Moves.move (R := Prints) hRound).antisymm (Moves.move hRest) rfl
      obtain ⟨hLo, hHi, ⟨hBlock, hNext⟩ | ⟨-, hNext⟩⟩ := mmCheckheapRound_quiet hPtr hRound
      · cases hNext
        have hLt := sizeAt_lt t.bytes bp
        have hLimit := limit_le t
        have hPlus : plus bp (sizeAt t.bytes bp) = (bp + sizeAt t.bytes bp) % 2 ^ 64 := rfl
        obtain ⟨hAbove, hEnd, hZero, hWalk⟩ := ih (by omega) hRest
        rw [maxHeap] at hLimit
        rw [show plus bp (sizeAt t.bytes bp) = bp + sizeAt t.bytes bp by omega] at hWalk
        exact ⟨hLo, hEnd, hZero, .next hBlock hWalk⟩
      · cases hNext
    · cases hRest
      obtain ⟨hLo, hHi, ⟨-, hNext⟩ | ⟨hZero, hNext⟩⟩ := mmCheckheapRound_quiet hPtr hRound
      · cases hNext
      · cases hNext
        exact ⟨hLo, hHi, hZero, .here _⟩

end Walk

theorem mmCheckheap_quiet {s s' : State} {verbose : Bool} (hPtr : s.heapListp < 2 ^ 64)
    (h : (mmCheckheap verbose).run s = .ok ((), s')) (hOut : s'.out = s.out) :
    ∃ q, sizeAt s.bytes q = 0 ∧ allocBit (loadLE s.bytes (q - 4) 4) = 1 ∧
      Walk s.bytes (PassedBlock s) s.heapListp q := by
  rw [mmCheckheap] at h
  dsimp only at h
  obtain ⟨p, hListp, h⟩ := read_bind h
  cases hListp
  obtain ⟨n, hSize, h⟩ := read_bind h
  obtain ⟨a, hAlloc, h⟩ := read_bind h
  obtain ⟨t, hPrologue, -, h⟩ := printf_join h
  obtain ⟨_, u, hBlock, h⟩ := run_bind_eq_ok.mp h
  obtain ⟨k, hRounds, h⟩ := read_bind h
  obtain ⟨q, v, hLoop, h⟩ := run_bind_eq_ok.mp h
  obtain ⟨n', hSize', h⟩ := read_bind (read_join h)
  obtain ⟨a', hAlloc', h⟩ := read_bind h
  obtain ⟨hLast, hEpilogue⟩ := printf_unless h
  -- the run has printed nothing, so every state on its way is the first one
  have hFromU : Prints u s' := trans_of Prints (Moves.move hLoop) hLast
  have hFromT : Prints t s' := trans_of Prints (Moves.move hBlock) hFromU
  obtain rfl : t = s := hPrologue.antisymm hFromT hOut
  obtain rfl : u = t := (Moves.move (R := Prints) hBlock).antisymm hFromU hOut
  obtain rfl : v = u := (Moves.move (R := Prints) hLoop).antisymm hLast hOut
  obtain rfl : s' = v := hLast.antisymm (refl_of Prints s') hOut
  have hEpilogue := hEpilogue rfl
  obtain ⟨hLo, hHi, hZero, hWalk⟩ := loop_quiet hPtr hLoop
  have hLimit := s'.limit_lt
  obtain rfl := getAlloc_hdrp_ok (by omega) hAlloc'
  refine ⟨q, hZero, ?_, hWalk⟩
  rw [Bool.or_eq_true, not_or, decide_eq_true_iff, decide_eq_true_iff] at hEpilogue
  rw [allocBit_eq] at hEpilogue ⊢
  omega

/-- A run of `mm_checkheap` that prints nothing has met a tiled heap, unless a header of size zero
on its way is not the last word of the heap. -/
theorem mmCheckheap_sound_iff (s s' : State) (verbose : Bool) (hPtr : s.heapListp < 2 ^ 64)
    (hRun : (mmCheckheap verbose).run s = .ok ((), s')) (hQuiet : s'.out = s.out) :
    Tiled s ↔ ¬ StrayZero s := by
  obtain ⟨q, hZero, hAlloc, hWalk⟩ := mmCheckheap_quiet hPtr hRun hQuiet
  constructor
  · rintro ⟨hBlocks, hSize, -⟩ ⟨q', hWalk', hZero', hElsewhere⟩
    have hSizes := hBlocks.mono fun _ hBlock => hBlock.size_pos
    exact hElsewhere (hWalk'.unique hSizes hZero' hSize)
  · intro hNoStray
    obtain rfl : q = memHeapHi s.toMemlib + 1 := by
      by_contra hElsewhere
      exact hNoStray ⟨q, hWalk.mono fun _ hBlock => hBlock.size_pos, hZero, hElsewhere⟩
    exact ⟨hWalk.checked (heapHi_succ s.toMemlib).le, hZero, hAlloc⟩

/-- A prologue, a block of 40 bytes, and the word `w` in the header of that block. -/
def headerHeap (w : Nat) : State :=
  let s := layout 64 [.ofSize 24 true, .ofSize 40 true]
    (by decide) (by decide) (by decide)
  s.withBytes (storeLE s.bytes 92 4 w)

/-- The heap that `mm_init` passes to `mm_checkheap`: a prologue of 24 bytes in a heap of 16, its
footer and the epilogue header in the storage above. -/
def initHeap : State :=
  { (layout 4096 [.ofSize 24 true] (by decide) (by decide) (by decide)).bare with
    memBrk := 4112
    heapBasefree := 4104
    start_le_brk := by decide
    brk_le_max := by decide }

theorem mmCheckheap_sound_iff_whole : ∃ s', (mmCheckheap true).run (headerHeap 41) = .ok ((), s') ∧
    s'.out = [] ∧ ¬ StrayZero (headerHeap 41) := by
  have hSilent : ((mmCheckheap true).run (headerHeap 41)).toOption.map (fun r => r.2.out) =
      some [] := by decide +kernel
  obtain ⟨⟨⟨⟩, s'⟩, hRun, hOut⟩ := Exec.exists_ok hSilent
  have hFirst : CheckedBlock (headerHeap 41) 72 :=
    ⟨by decide +kernel, by decide, by decide +kernel, by decide +kernel⟩
  have hSecond : CheckedBlock (headerHeap 41) 96 :=
    ⟨by decide +kernel, by decide, by decide +kernel, by decide +kernel⟩
  have hTiled : Tiled (headerHeap 41) :=
    ⟨.next hFirst (.next hSecond (.here _)), by decide +kernel, by decide +kernel⟩
  exact ⟨s', hRun, hOut, (mmCheckheap_sound_iff _ _ true (by decide) hRun hOut).mp hTiled⟩

/-- A header overwritten with an allocated size zero ends the check in silence, and so does the
epilogue header that `mm_init` puts past its heap. -/
theorem stray_zero_accepted :
    ((mmCheckheap true).run (headerHeap 1)).toOption.map (fun r => r.2.out) = some [] ∧
    (∃ s', (mmCheckheap true).run initHeap = .ok ((), s') ∧ s'.out = [] ∧ ¬ Tiled initHeap) ∧
    ¬ ∀ (s s' : State) (verbose : Bool), s.heapListp < 2 ^ 64 →
      (mmCheckheap verbose).run s = .ok ((), s') → s'.out = s.out → Tiled s := by
  have hSilent : ((mmCheckheap true).run (headerHeap 1)).toOption.map (fun r => r.2.out) =
      some [] := by decide +kernel
  have hInit : ((mmCheckheap true).run initHeap).toOption.map (fun r => r.2.out) = some [] := by
    decide +kernel
  refine ⟨hSilent, ?_, fun hAll => ?_⟩
  · obtain ⟨⟨⟨⟩, s'⟩, hRun, hOut⟩ := Exec.exists_ok hInit
    refine ⟨s', hRun, hOut, fun hTiled => ?_⟩
    have hWalk := hTiled.blocks.mono fun _ hBlock => hBlock.size_pos
    have hLast : Walk initHeap.bytes (0 < sizeAt initHeap.bytes ·) 4104 4128 :=
      .next (by decide +kernel) (.here 4128)
    have hEnd := hLast.unique hWalk (by decide +kernel) hTiled.size
    exact absurd hEnd (by decide)
  obtain ⟨⟨⟨⟩, s'⟩, hRun, hOut⟩ := Exec.exists_ok hSilent
  have hTiled := hAll _ _ true (by decide) hRun hOut
  have hStray : Walk (headerHeap 1).bytes (0 < sizeAt (headerHeap 1).bytes ·) 72 96 :=
    .next (by decide +kernel) (.here 96)
  have hWalk := hTiled.blocks.mono fun _ hBlock => hBlock.size_pos
  have hEnd := hStray.unique hWalk (by decide +kernel) hTiled.size
  exact absurd hEnd (by decide)

end Cs33.Malloc
