import Cs33.Malloc.Frame
import Cs33.Malloc.LiveBlocks

/-! # `mm_realloc`

The length of the copy counts the two tags of the old block, so the copy reads
its footer and the header above it. Both lie inside the heap, and the request
bounds what is written. What `mm_malloc` and `mm_free` have to keep is stated
for the calls that `mm_realloc` makes.
-/

namespace Cs33.Malloc

open ByteMemory Exec

/-- The block at `newp` holds `size` bytes, it and its header lie apart from every live block,
and no byte of a live header or payload has changed. -/
structure Granted (s t : State) (size newp : Nat) : Prop where
  ne_null : newp ≠ NULL
  inside : t.InHeap newp size
  apart : ∀ q k, Live s q k → newp + size ≤ q - 4 ∨ q + k - 4 ≤ newp - 4
  keeps : ∀ q k, Live s q k → AgreeOn (q - 4) (q + k - 8) s.bytes t.bytes

/-- No byte of a payload other than that of `ptr` differs. -/
structure Released (s u s' : State) (ptr size newp : Nat) : Prop where
  others : ∀ q k, Live s q k → q ≠ ptr → AgreeOn q (q + k - 8) u.bytes s'.bytes
  granted : AgreeOn newp (newp + size) u.bytes s'.bytes

/-- The state between the two calls of `mm_realloc`. -/
def copied (t : State) (ptr newp n : Nat) : State := t.withBytes (copy t.bytes newp ptr n)

/-- The copy of `n` bytes reads inside the heap, writes inside the request, and its two ranges
do not overlap. -/
structure CopiesInside (t : State) (ptr newp n size : Nat) : Prop where
  reads : t.InHeap ptr n
  writes : AgreeOff newp (newp + size) t.bytes (copied t ptr newp n).bytes
  apart : ptr + n ≤ newp ∨ newp + n ≤ ptr

theorem memcpy_run {s : State} {dst src n : Nat} (hSrc : s.InHeap src n) (hDst : s.InHeap dst n) :
    (memcpy dst src n).run s = .ok ((), copied s src dst n) := by
  obtain rfl | hPos := eq_or_ne n 0
  · rw [copied, copy_zero]
    rfl
  · simp only [memcpy, if_neg hPos, if_neg (not_not.mpr (reaches_of_inHeap hSrc)),
      if_neg (not_not.mpr (reaches_of_inHeap hDst))]
    rfl

theorem Live.blockAt {s : State} {q k : Nat} (h : Live s q k) :
    ∃ b : Block, b.size = k ∧ BlockAt s q b := by
  obtain ⟨bs, hHeap, -⟩ := id h
  obtain ⟨c, rfl, -, -, hSize, hAddr⟩ := hHeap.cursor_of_live h
  rw [← hAddr]
  exact ⟨c.block, hSize, hHeap.blockAt_cursor⟩

section Realloc

variable {s t s' : State} {ptr b size newp : Nat}

/-- Even the block below the epilogue header ends, with that header, inside the heap. -/
theorem copiesInside (hLive : Live s ptr b) (hExtends : Extends s t)
    (hGrant : Granted s t size newp) : CopiesInside t ptr newp (min size b) size := by
  obtain ⟨b, rfl, hAt⟩ := hLive.blockAt
  have hStart := hAt.start_le
  have hEnd := hAt.end_le
  have hApart := hGrant.apart ptr b.size hLive
  obtain ⟨hStartEq, hBrkLe⟩ := hExtends
  constructor
  · rw [t.inHeap_iff]
    omega
  · exact (copy_agreeOff t.bytes newp ptr _).mono le_rfl (by omega)
  · omega

theorem getSize_granted (hLive : Live s ptr b) (hExtends : Extends s t)
    (hGrant : Granted s t size newp) : (getSize (hdrp ptr)).run t = .ok (b, t) := by
  have hKeeps := hGrant.keeps ptr b hLive
  obtain ⟨b, rfl, hAt⟩ := hLive.blockAt
  have hStart := hAt.start_le
  have hEnd := hAt.end_le
  have hEight := b.eight_le
  obtain ⟨hStartEq, hBrkLe⟩ := hExtends
  have hHeader : loadLE t.bytes (ptr - 4) 4 = b.tag := by
    rw [loadLE_congr (hKeeps.mono le_rfl (by omega)), hAt.tagged.header]
  exact getSize_hdrp_run (by omega) (by omega) hAt.size_lt hHeader

theorem mmRealloc_run (hLive : Live s ptr b) (hMalloc : (mmMalloc size).run s = .ok (newp, t))
    (hGrant : Granted s t size newp) : (mmRealloc ptr size).run s =
      (do mmFree ptr; return newp : M Nat).run (copied t ptr newp (min size b)) := by
  have hExtends : Extends s t := Moves.move hMalloc
  have hCopy := copiesInside hLive hExtends hGrant
  have hWrites : t.InHeap newp (min size b) := by
    have hInside := hGrant.inside
    rw [t.inHeap_iff] at hInside ⊢
    omega
  have hMin : (if size < b then size else b) = min size b := by
    split <;> omega
  rw [mmRealloc, run_bind_ok hMalloc, if_neg hGrant.ne_null,
    run_bind_ok (getSize_granted hLive hExtends hGrant), hMin,
    run_bind_ok (memcpy_run hCopy.reads hWrites)]

theorem copied_payload (hLive : Live s ptr b) (hGrant : Granted s t size newp) {i : Nat}
    (hi : i < min (b - 8) size) :
    (copied t ptr newp (min size b)).bytes (newp + i) = s.bytes (ptr + i) := by
  change copy t.bytes newp ptr (min size b) (newp + i) = _
  rw [copy_at _ _ _ (by omega), hGrant.keeps ptr b hLive _ (by omega) (by omega)]

theorem copied_others (hCopy : CopiesInside t ptr newp (min size b) size)
    (hGrant : Granted s t size newp) {q k : Nat} (hLive : Live s q k) :
    AgreeOn q (q + k - 8) s.bytes (copied t ptr newp (min size b)).bytes := by
  have hApart := hGrant.apart q k hLive
  have hKept := (hGrant.keeps q k hLive).mono (Nat.sub_le q 4) le_rfl
  obtain ⟨b, rfl, hAt⟩ := hLive.blockAt
  have hStart := hAt.start_le
  have hEight := b.eight_le
  exact hKept.trans (hCopy.writes.agreeOn (by omega))

end Realloc

/-- Given a granted block and a release that keeps every other payload, `mm_realloc` copies
inside the bounds, ends as `mm_free` does, and moves the payload to the new block. -/
theorem mmRealloc_preserves (s t : State) (ptr b size newp : Nat) (hLive : Live s ptr b)
    (hMalloc : (mmMalloc size).run s = .ok (newp, t)) (hGrant : Granted s t size newp)
    (hFree : ∀ s', (mmFree ptr).run (copied t ptr newp (min size b)) = .ok ((), s') →
      Released s (copied t ptr newp (min size b)) s' ptr size newp) :
    CopiesInside t ptr newp (min size b) size ∧
    (mmRealloc ptr size).run s =
      (do mmFree ptr; return newp : M Nat).run (copied t ptr newp (min size b)) ∧
    ∀ p s', (mmRealloc ptr size).run s = .ok (p, s') → p = newp ∧
      (∀ i < min (b - 8) size, s'.bytes (newp + i) = s.bytes (ptr + i)) ∧
      ∀ q k, Live s q k → q ≠ ptr → AgreeOn q (q + k - 8) s.bytes s'.bytes := by
  have hCopy := copiesInside hLive (Moves.move hMalloc) hGrant
  have hEq := mmRealloc_run hLive hMalloc hGrant
  refine ⟨hCopy, hEq, fun p s' hRun => ?_⟩
  rw [hEq] at hRun
  obtain ⟨_, u, hFreed, hRun⟩ := run_bind_eq_ok.mp hRun
  cases hRun
  have hReleased := hFree s' hFreed
  refine ⟨rfl, fun i hi => ?_, fun q k hOther hNe => ?_⟩
  · rw [hReleased.granted (newp + i) (by omega) (by omega), copied_payload hLive hGrant hi]
  · exact (copied_others hCopy hGrant hOther).trans (hReleased.others q k hOther hNe)

section Last

def lastBlocks : List Block :=
  [.ofSize 24 true, .ofSize 32 true, .ofSize 56 false, .ofSize 40 true]

def lastOther : Nat := 17 * 2 ^ 32 - 40

def lastNewp : Nat := 17 * 2 ^ 32 - 8

def lastPtr : Nat := 17 * 2 ^ 32 + 48

/-- A free block of 56 bytes below an allocated one that ends the heap. The payload of each user
block starts with two addresses in the part of the free block that a request of 25 bytes leaves
unused, so every store of `mm_malloc` and `mm_free` through such an address lands there. -/
def lastHeap : State :=
  let link := lastNewp + 25 + 17 * 2 ^ 64
  let s := layout (lastNewp - 64) lastBlocks (by decide) (by decide) (by decide)
  let m := storeLE s.bytes lastOther 12 link
  let m := storeLE m lastNewp 12 link
  { s with
    bytes := storeLE m lastPtr 12 link
    heapBasefree := lastNewp }

theorem boundaryHeap_lastHeap : BoundaryHeap lastHeap lastBlocks where
  prologue := ⟨_, _, rfl, rfl⟩
  blocks := by decide +kernel
  epilogue := by decide +kernel
  start_le := by decide
  end_le := by decide
  total_lt := by decide

theorem live_lastHeap (q k : Nat) : Live lastHeap q k ↔
    (q, k) = (lastOther, 32) ∨ (q, k) = (lastPtr, 40) := by
  rw [boundaryHeap_lastHeap.live_iff, show liveBlocks lastHeap.heapListp lastBlocks =
    [(lastOther, 32), (lastPtr, 40)] by decide +kernel]
  simp only [List.mem_cons, List.not_mem_nil, or_false]

theorem granted_lastHeap {t : State} (h : (mmMalloc 25).run lastHeap = .ok (lastNewp, t)) :
    Granted lastHeap t 25 lastNewp := by
  have hCheck : ∀ r ∈ ((mmMalloc 25).run lastHeap).toOption, r.2.InHeap lastNewp 25 ∧
      (∀ i < 28, r.2.bytes (lastOther - 4 + i) = lastHeap.bytes (lastOther - 4 + i)) ∧
      ∀ i < 36, r.2.bytes (lastPtr - 4 + i) = lastHeap.bytes (lastPtr - 4 + i) := by
    decide +kernel
  rw [h] at hCheck
  obtain ⟨hInside, hBelow, hLast⟩ := hCheck _ rfl
  refine ⟨by decide, hInside, fun q k hLive => ?_, fun q k hLive => ?_⟩
  · obtain hEq | hEq := (live_lastHeap q k).mp hLive
    · cases hEq
      exact .inr (by decide)
    · cases hEq
      exact .inl (by decide)
  · obtain hEq | hEq := (live_lastHeap q k).mp hLive
    · cases hEq
      exact agreeOn_iff.mpr hBelow
    · cases hEq
      exact agreeOn_iff.mpr hLast

theorem released_lastHeap {t s' : State} (h : (mmMalloc 25).run lastHeap = .ok (lastNewp, t))
    (h' : (mmFree lastPtr).run (copied t lastPtr lastNewp 25) = .ok ((), s')) :
    Released lastHeap (copied t lastPtr lastNewp 25) s' lastPtr 25 lastNewp := by
  have hCheck : ∀ r ∈ ((mmMalloc 25).run lastHeap).toOption,
      let u := copied r.2 lastPtr lastNewp 25
      ∀ r' ∈ ((mmFree lastPtr).run u).toOption,
        (∀ i < 24, r'.2.bytes (lastOther + i) = u.bytes (lastOther + i)) ∧
        ∀ i < 25, r'.2.bytes (lastNewp + i) = u.bytes (lastNewp + i) := by
    decide +kernel
  rw [h] at hCheck
  have hFreed := hCheck _ rfl
  dsimp only at hFreed
  rw [h'] at hFreed
  obtain ⟨hBelow, hGranted⟩ := hFreed _ rfl
  refine ⟨fun q k hLive hNe => ?_, agreeOn_iff.mpr hGranted⟩
  obtain hEq | hEq := (live_lastHeap q k).mp hLive
  · cases hEq
    exact agreeOn_iff.mpr hBelow
  · cases hEq
    exact absurd rfl hNe

end Last

theorem mmRealloc_preserves_last : ∃ s', (mmRealloc lastPtr 25).run lastHeap = .ok (lastNewp, s') ∧
    ∀ i < 25, s'.bytes (lastNewp + i) = lastHeap.bytes (lastPtr + i) := by
  have hAnswer : ((mmMalloc 25).run lastHeap).toOption.map Prod.fst = some lastNewp := by
    decide +kernel
  have hReturns : ((mmRealloc lastPtr 25).run lastHeap).toOption.map Prod.fst = some lastNewp := by
    decide +kernel
  obtain ⟨t, hMalloc⟩ := exists_run hAnswer
  obtain ⟨s', hRun⟩ := exists_run hReturns
  have hLive : Live lastHeap lastPtr 40 := (live_lastHeap _ _).mpr (.inr rfl)
  obtain ⟨-, -, hKept⟩ := mmRealloc_preserves _ _ _ _ 25 _ hLive hMalloc (granted_lastHeap hMalloc)
    fun s' hFreed => released_lastHeap hMalloc hFreed
  exact ⟨s', hRun, (hKept _ _ hRun).2.1⟩

end Cs33.Malloc
