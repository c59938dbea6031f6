import Cs33.Malloc.Coalesce

/-! # `find_fit` and `place`

`find_fit` walks the sizes from the prologue to the epilogue and answers the
abstract first fit. `place` rewrites the tags of the block it is given: the
space of the block is split when the rest is worth keeping.
-/

namespace Cs33.Malloc

open ByteMemory

theorem toNat_alloc_eq_zero {b : Block} : b.alloc.toNat = 0 ↔ b.alloc = false := by
  cases b.alloc <;> decide

theorem BoundaryHeap.findFit_round {s : State} {left right : List Block} {b : Block}
    (h : BoundaryHeap s (left.reverse ++ b :: right)) (asize : Nat) :
    (findFitRound asize (s.heapListp + total left)).run s =
      .ok (if b.alloc = false ∧ asize ≤ b.size then .inr (s.heapListp + total left)
        else .inl (s.heapListp + total (b :: left)), s) := by
  have hAt : BlockAt s (s.heapListp + total left) b := by simpa using h.blockAt
  have hPos := b.size_pos
  rw [findFitRound, Exec.run_bind_ok hAt.getSize_hdrp, if_pos hPos, Exec.run_bind_ok hAt.getAlloc_hdrp,
    Exec.run_bind_ok hAt.getSize_hdrp]
  by_cases hFit : b.alloc = false ∧ asize ≤ b.size
  · rw [if_pos hFit, if_pos (by simpa [toNat_alloc_eq_zero] using hFit), Exec.run_pure]
  · rw [if_neg hFit, if_neg (by simpa [toNat_alloc_eq_zero] using hFit),
      Exec.run_bind_ok hAt.nextBlkp, Exec.run_pure, total_cons, Nat.add_assoc,
      Nat.add_comm (total left)]

def fitAddr (start : Nat) : Option Cursor → Nat
  | some c => c.addr start
  | none => NULL

theorem BoundaryHeap.findFit_loop {s : State} {left right : List Block}
    (h : BoundaryHeap s (left.reverse ++ right)) (asize : Nat) {n : Nat} (hn : right.length < n) :
    (Exec.loop .endless (findFitRound asize) n (s.heapListp + total left)).run s =
      .ok (fitAddr s.heapListp (firstFit asize left right), s) := by
  induction right generalizing left n with
  | nil =>
    cases n with
    | zero => cases hn
    | succ n =>
      have hEpilogue := h.getSize_epilogue
      rw [List.append_nil, total_reverse] at hEpilogue
      apply Exec.run_loop_leave
      rw [findFitRound, Exec.run_bind_ok hEpilogue, if_neg (lt_irrefl 0), Exec.run_pure]
      rfl
  | cons b right ih =>
    cases n with
    | zero => cases hn
    | succ n =>
      have hRound := h.findFit_round asize
      rw [firstFit]
      by_cases hFit : b.alloc = false ∧ asize ≤ b.size
      · rw [if_pos hFit] at hRound ⊢
        exact Exec.run_loop_leave hRound
      · rw [if_neg hFit] at hRound ⊢
        rw [Exec.run_loop_again hRound]
        have hNext : BoundaryHeap s ((b :: left).reverse ++ right) := by simpa using h
        exact ih hNext (Nat.lt_of_succ_lt_succ hn)

theorem BoundaryHeap.length_lt_rounds {s : State} {bs : List Block} (h : BoundaryHeap s bs) :
    bs.length < s.limit - s.memStartBrk + 1 := by
  have hLength := eight_mul_length_le bs
  have hStart := h.start_le
  have hEnd := h.end_le
  have hLimit := s.brk_le_limit
  omega

theorem BoundaryHeap.findFit_run {s : State} {bs : List Block} (h : BoundaryHeap s bs)
    (asize : Nat) :
    (findFit asize).run s = .ok (fitAddr s.heapListp (firstFit asize [] bs), s) := by
  have hNil : BoundaryHeap s (([] : List Block).reverse ++ bs) := h
  have hLoop := hNil.findFit_loop asize h.length_lt_rounds
  rwa [total_nil, Nat.add_zero] at hLoop

theorem firstFit_addr_ne_null {s : State} {bs : List Block} (h : BoundaryHeap s bs) (c : Cursor) :
    c.addr s.heapListp ≠ NULL := by
  have hStart := h.start_le
  simp only [Cursor.addr, NULL]
  omega

theorem BoundaryHeap.findFit_null_iff {s : State} {bs : List Block} (h : BoundaryHeap s bs)
    (asize : Nat) : ∃ q, (findFit asize).run s = .ok (q, s) ∧
      (q = NULL ↔ ∀ b ∈ bs, b.alloc = false → b.size < asize) := by
  refine ⟨_, h.findFit_run asize, ?_⟩
  cases hFirst : firstFit asize [] bs with
  | none =>
    have hNone := firstFit_none hFirst
    exact ⟨fun _ => hNone, fun _ => rfl⟩
  | some c =>
    obtain ⟨hBlocks, -, hFree, hFit⟩ := firstFit_some hFirst
    have hMem : c.block ∈ bs := by
      rw [← show c.blocks = bs from hBlocks]
      simp [Cursor.blocks]
    constructor
    · intro hNull
      exact absurd hNull (firstFit_addr_ne_null h c)
    · intro hNone
      exact absurd hFit (Nat.not_le.mpr (hNone c.block hMem hFree))

/-! ## Placing -/

def placedBytes (m : Bytes) (bp : Nat) (b want : Block) : Bytes :=
  if h : want.size < b.size ∧ want.size + 16 ≤ b.size then
    putTags (putTags m bp want) (bp + want.size) (b.rest want h.1)
  else putTags m bp (b.setAlloc true)

theorem sizeSub_eq {a b : Nat} (h : b ≤ a) (ha : a < 2 ^ 64) : sizeSub a b = a - b := by
  rw [sizeSub]
  omega

theorem place_run {s : State} {bp : Nat} {b want : Block} (h : BlockAt s bp b)
    (hAlloc : want.alloc = true) (hFit : want.size ≤ b.size) :
    (place bp want.size).run s = .ok ((), s.withBytes (placedBytes s.bytes bp b want)) := by
  have hStart := h.start_le
  have hEnd := h.end_le
  have hSize := h.size_lt
  have hWant := want.size_pos
  have hSub : sizeSub b.size want.size = b.size - want.size := sizeSub_eq hFit (by omega)
  rw [place, Exec.run_bind_ok h.getSize_hdrp, hSub, placedBytes, pack_one_eq_tag hAlloc]
  by_cases hSplit : want.size < b.size ∧ want.size + 16 ≤ b.size
  · let t := s.withBytes (putTags s.bytes bp want)
    let rest := b.rest want hSplit.1
    have hHeader : loadLE t.bytes (bp - 4) 4 = want.tag :=
      (tagged_of_stores (by omega) (by omega)).header
    have hNext : (nextBlkp bp).run t = .ok (bp + want.size, t) :=
      nextBlkp_run (s := t) hStart (by change _ ≤ s.memBrk; omega) (by omega) hHeader
    have hRestSize : rest.size = b.size - want.size := rfl
    have hPack : pack (b.size - want.size) 0 = rest.tag := pack_zero_eq_tag (b := rest) rfl
    rw [if_pos (by unfold DSIZE OVERHEAD; omega), dif_pos hSplit,
      putTags_bind hStart (by omega) (by omega), Exec.run_bind_ok hNext, hPack]
    exact putTags_run (s := t) (by change s.memStartBrk + 4 ≤ _; omega)
      (by change _ ≤ s.memBrk; omega) (by omega)
  · have hPack : pack b.size 1 = (b.setAlloc true).tag := pack_one_eq_tag (b := b.setAlloc true) rfl
    rw [if_neg (by unfold DSIZE OVERHEAD; omega), dif_neg hSplit, hPack]
    exact putTags_run hStart hEnd hSize

theorem placedBytes_spec {m : Bytes} {bp : Nat} {b : Block} (want : Block) (hbp : 4 ≤ bp)
    (hSize : b.size < 2 ^ 32) :
    AgreeOff (bp - 4) (bp + b.size - 4) m (placedBytes m bp b want) ∧
      Blocks (placedBytes m bp b want) bp (b.split 16 want) := by
  simp only [placedBytes, Block.split]
  split
  · rename_i h
    have hWant := want.eight_le
    have hRestSize : (b.rest want h.1).size = b.size - want.size := rfl
    have hOff := putTags_agreeOff m want hbp
    have hOff' := putTags_agreeOff (putTags m bp want) (b.rest want h.1)
      (show 4 ≤ bp + want.size by omega)
    refine ⟨?_, ?_, ?_, trivial⟩
    · exact (hOff.mono le_rfl (by omega)).trans (hOff'.mono (by omega) (by omega))
    · exact (tagged_of_stores hbp (by omega)).congr hbp (hOff'.agreeOn (.inl le_rfl))
    · exact tagged_of_stores (by omega) (by omega)
  · exact ⟨putTags_agreeOff m (b.setAlloc true) hbp, tagged_of_stores hbp hSize, trivial⟩

theorem place_splits {s : State} {c : Cursor} {want : Block} (h : BoundaryHeap s c.blocks)
    (hFree : c.block.alloc = false) (hAlloc : want.alloc = true)
    (hFit : want.size ≤ c.block.size) :
    ∃ m', (place (c.addr s.heapListp) want.size).run s = .ok ((), s.withBytes m') ∧
      Rewrites s (s.withBytes m') c.left.reverse [c.block] (c.block.split 16 want) c.right := by
  have hAt := h.blockAt_cursor
  have hStart := hAt.start_le
  have hFour : 4 ≤ c.addr s.heapListp := by omega
  obtain ⟨hOff, hBlocks⟩ := placedBytes_spec (m := s.bytes) want hFour hAt.size_lt
  refine ⟨_, place_run hAt hAlloc hFit, ?_⟩
  have hLeft : c.left.reverse ≠ [] := by
    intro hNil
    obtain ⟨p, users, hPrologue, hp⟩ := h.prologue
    rw [Cursor.blocks, hNil] at hPrologue
    cases hPrologue
    rw [hp] at hFree
    cases hFree
  rw [c.blocks_eq] at h
  apply h.replace hLeft
  · rw [total_split]
    simp
  · rw [total_reverse]
    exact hBlocks
  · simpa [Cursor.addr] using hOff

/-! ## First fit and placing -/

/-- The lowest free block of at least `asize` bytes stands at `p`. -/
def Lowest (start : Nat) (bs : List Block) (asize p : Nat) (b : Block) : Prop :=
  (p, b) ∈ addressed start bs ∧ b.alloc = false ∧ asize ≤ b.size ∧
    ∀ q x, (q, x) ∈ addressed start bs → x.alloc = false → asize ≤ x.size → p ≤ q

theorem lowest_of_firstFit (start : Nat) {asize : Nat} {bs : List Block} {c : Cursor}
    (h : firstFit asize [] bs = some c) : Lowest start bs asize (c.addr start) c.block := by
  obtain ⟨hBlocks, -, hFree, hFit⟩ := firstFit_some h
  obtain ⟨skipped, hLeft, hSkipped⟩ := firstFit_skips h
  have hBlocks' : c.blocks = bs := hBlocks
  rw [List.append_nil] at hLeft
  refine ⟨hBlocks' ▸ c.mem_addressed start, hFree, hFit, ?_⟩
  intro q x hMem hFreeX hFitX
  rw [← hBlocks', Cursor.blocks, addressed_append, List.mem_append] at hMem
  obtain hMem | hMem := hMem
  · obtain ⟨l, r, hEq, -⟩ := Malloc.mem_addressed hMem
    have hx : x ∈ skipped := by
      rw [← hLeft, ← List.mem_reverse, hEq]
      simp
    exact absurd hFitX (Nat.not_le.mpr (hSkipped x hx hFreeX))
  · have hBounds := addressed_bounds hMem
    rw [total_reverse] at hBounds
    exact hBounds.1

/-- `find_fit` answers the lowest free block that is large enough, or NULL when there is none,
and `place` splits the block it answered, without touching a byte of any other block. -/
theorem findFit_place_exact (s : State) (bs : List Block) (asize : Nat) (h : BoundaryHeap s bs)
    (hMod : asize % 8 = 0) (hMin : 16 ≤ asize) :
    ∃ p, (findFit asize).run s = .ok (p, s) ∧
      (p = NULL ↔ ∀ b ∈ bs, b.alloc = false → b.size < asize) ∧
      (p ≠ NULL → ∃ (c : Cursor) (m' : Bytes), c.blocks = bs ∧ p = c.addr s.heapListp ∧
        Lowest s.heapListp bs asize p c.block ∧
        sizeSub c.block.size asize = c.block.size - asize ∧
        (place p asize).run s = .ok ((), s.withBytes m') ∧
        BoundaryHeap (s.withBytes m') (c.left.reverse ++
          c.block.split 16 ⟨asize, true, hMod, Nat.lt_of_lt_of_le (by decide) hMin⟩ ++ c.right) ∧
        AgreeOff (p - 4) (p + c.block.size - 4) s.bytes m') := by
  obtain ⟨p, hFind, hNull⟩ := h.findFit_null_iff asize
  refine ⟨p, hFind, hNull, fun hNotNull => ?_⟩
  have hRun := h.findFit_run asize
  cases hFirst : firstFit asize [] bs with
  | none => exact absurd (hNull.mpr (firstFit_none hFirst)) hNotNull
  | some c =>
    rw [hFirst] at hRun
    cases hRun.symm.trans hFind
    have hLowest := lowest_of_firstFit s.heapListp hFirst
    obtain ⟨hBlocks, -, hFree, hFit⟩ := firstFit_some hFirst
    have hBlocks' : c.blocks = bs := hBlocks
    subst hBlocks'
    have hSize := h.blockAt.size_lt
    let want : Block := ⟨asize, true, hMod, Nat.lt_of_lt_of_le (by decide) hMin⟩
    have hAlloc : want.alloc = true := rfl
    obtain ⟨m', hPlace, hRewrites⟩ := place_splits h hFree hAlloc hFit
    have hOff := hRewrites.off
    simp only [total_reverse, total_cons, total_nil, Nat.add_zero] at hOff
    exact ⟨c, m', rfl, rfl, hLowest, sizeSub_eq hFit (by omega), hPlace, hRewrites.after, hOff⟩

theorem findFit_place_exact_split : ∃ (s : State) (m' : Bytes),
    (findFit 32).run s = .ok (s.heapListp + 80, s) ∧
      (place (s.heapListp + 80) 32).run s = .ok ((), s.withBytes m') := by
  let bs : List Block := [⟨24, true, by decide, by decide⟩, ⟨24, false, by decide, by decide⟩,
    ⟨32, true, by decide, by decide⟩, ⟨48, false, by decide, by decide⟩]
  let s := layout 4096 bs (by decide) (by decide) (by decide)
  have h : BoundaryHeap s bs := boundaryHeap_layout (by decide) (by decide) (by decide) rfl
  obtain ⟨p, hFind, hNull, hPlaced⟩ := findFit_place_exact s bs 32 h (by decide) (by decide)
  have hNotNull : p ≠ NULL := by
    intro hEq
    exact absurd (hNull.mp hEq ⟨48, false, by decide, by decide⟩ (by simp [bs]) rfl) (by decide)
  obtain ⟨c, m', -, -, ⟨hMem, hFree, hFit, -⟩, -, hPlace, -⟩ := hPlaced hNotNull
  have hp : p = s.heapListp + 80 := by
    simp only [bs, addressed, List.mem_cons, Prod.mk.injEq, List.not_mem_nil, or_false] at hMem
    obtain ⟨-, hEq⟩ | ⟨-, hEq⟩ | ⟨-, hEq⟩ | ⟨rfl, -⟩ := hMem
    · simp [hEq] at hFree
    · simp [hEq] at hFit
    · simp [hEq] at hFree
    · rfl
  subst hp
  exact ⟨s, m', hFind, hPlace⟩

end Cs33.Malloc
