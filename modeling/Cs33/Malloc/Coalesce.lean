import Cs33.Malloc.Tags

/-! # `coalesce` is the abstract merge

The four cases rewrite tags in different orders. In each of them the memory
ends as if the header and the footer of the merged block had been put, and
nothing else: the case lemmas below establish that, and the main theorem reads
it off for the whole block sequence.
-/

namespace Cs33.Malloc

open ByteMemory

theorem BlockAt.withBytes {s : State} {bp : Nat} {b : Block} {m : Bytes} (h : BlockAt s bp b)
    (hAgree : AgreeOn (bp - 4) (bp + b.size - 4) s.bytes m) : BlockAt (s.withBytes m) bp b :=
  ⟨h.tagged.congr (by have := h.start_le; omega) hAgree, h.start_le, h.end_le, h.size_lt⟩

def aboveAlloc : List Block → Nat
  | [] => 1
  | n :: _ => n.alloc.toNat

section Cases

variable {s : State} {l r : List Block} {p b n : Block}

theorem BoundaryHeap.pair {right : List Block}
    (h : BoundaryHeap s (Cursor.blocks ⟨p :: l, b, right⟩)) :
    BlockAt s (s.heapListp + total l) p ∧ BlockAt s (s.heapListp + total l + p.size) b := by
  have hBlocks : Cursor.blocks ⟨p :: l, b, right⟩ = l.reverse ++ p :: b :: right := by
    simp [Cursor.blocks]
  have hBlocks' : Cursor.blocks ⟨p :: l, b, right⟩ = (p :: l).reverse ++ b :: right := rfl
  constructor
  · rw [hBlocks] at h
    simpa using h.blockAt
  · rw [hBlocks'] at h
    have hAt := h.blockAt
    rwa [total_reverse, total_cons, Nat.add_comm p.size, ← Nat.add_assoc] at hAt

theorem BoundaryHeap.above (h : BoundaryHeap s (Cursor.blocks ⟨l, b, n :: r⟩)) :
    BlockAt s (s.heapListp + total l + b.size) n := by
  have hBlocks : Cursor.blocks ⟨l, b, n :: r⟩ = (l.reverse ++ [b]) ++ n :: r := by
    simp [Cursor.blocks]
  rw [hBlocks] at h
  simpa [Nat.add_assoc] using h.blockAt

theorem BoundaryHeap.getAlloc_above {right : List Block}
    (h : BoundaryHeap s (Cursor.blocks ⟨l, b, right⟩)) :
    (getAlloc (hdrp (s.heapListp + total l + b.size))).run s = .ok (aboveAlloc right, s) := by
  cases right with
  | nil =>
    have hRun := h.getAlloc_epilogue
    rwa [Cursor.total_blocks, total_nil, Nat.add_zero, ← Nat.add_assoc] at hRun
  | cons n r => exact h.above.getAlloc_hdrp

theorem aboveAlloc_of_alloc {right : List Block} (h : ∀ y ∈ right.head?, y.alloc = true) :
    aboveAlloc right = 1 := by
  cases right with
  | nil => rfl
  | cons n r => rw [aboveAlloc, h n rfl, Bool.toNat_true]

theorem BoundaryHeap.coalesced_size_lt {c : Cursor} (h : BoundaryHeap s c.blocks) :
    c.coalesced.block.size < 2 ^ 32 := by
  have hTotal := h.total_lt
  rw [← c.total_coalesced, Cursor.total_blocks] at hTotal
  omega

theorem coalesce_reads {right : List Block}
    (h : BoundaryHeap s (Cursor.blocks ⟨p :: l, b, right⟩)) {bp : Nat}
    (hbp : bp = s.heapListp + total l + p.size) (k : Nat → Nat → Nat → M Nat) :
    (do
      let prevAlloc ← getAlloc (← ftrp (← prevBlkp bp))
      let nextAlloc ← getAlloc (hdrp (← nextBlkp bp))
      let size ← getSize (hdrp bp)
      k prevAlloc nextAlloc size : M Nat).run s =
      (k p.alloc.toNat (aboveAlloc right) b.size).run s := by
  obtain ⟨hP, hB⟩ := h.pair
  have hAbove := h.getAlloc_above
  simp only [total_cons] at hAbove
  rw [hbp, Exec.run_bind_ok hP.prevBlkp, Exec.run_bind_ok hP.ftrp,
    Exec.run_bind_ok hP.getAlloc_ftrp, Exec.run_bind_ok hB.nextBlkp]
  rw [show s.heapListp + total l + p.size + b.size = s.heapListp + (p.size + total l) + b.size by
    omega, Exec.run_bind_ok hAbove, Exec.run_bind_ok hB.getSize_hdrp]

theorem toUint32_size {m : Nat} (h : m < 2 ^ 32) : toUint32 m = m := Nat.mod_eq_of_lt h

theorem pack_next (h : b.size + n.size < 2 ^ 32) :
    pack (toUint32 (b.size + n.size)) 0 = (b.merge n).tag := by
  rw [toUint32_size h, ← size_merge, pack_zero_eq_tag rfl]

theorem pack_prev (h : p.size + b.size < 2 ^ 32) :
    pack (toUint32 (b.size + p.size)) 0 = (p.merge b).tag := by
  rw [Nat.add_comm, pack_next h]

theorem pack_both (h : p.size + b.size + n.size < 2 ^ 32) :
    pack (toUint32 (b.size + toUint32 (p.size + n.size))) 0 = (p.merge (b.merge n)).tag := by
  have hSize : b.size + (p.size + n.size) = (p.merge (b.merge n)).size := by
    simp only [size_merge]
    omega
  rw [toUint32_size (m := p.size + n.size) (by omega), toUint32_size (by omega), hSize,
    pack_zero_eq_tag rfl]

/-- Case 2: the size of the next block is added before both tags are put at `bp`. -/
theorem coalesce_next_run {bp : Nat} (hB : BlockAt s bp b) (hN : BlockAt s (bp + b.size) n)
    (hSize : b.size + n.size < 2 ^ 32) :
    (do
      let size := toUint32 (b.size + (← getSize (hdrp (← nextBlkp bp))))
      put (hdrp bp) (pack size 0)
      put (← ftrp bp) (pack size 0)
      return bp : M Nat).run s = .ok (bp, s.withBytes (putTags s.bytes bp (b.merge n))) := by
  have hEnd := hN.end_le
  rw [Exec.run_bind_ok hB.nextBlkp, Exec.run_bind_ok hN.getSize_hdrp]
  dsimp only
  rw [pack_next hSize, putTags_bind hB.start_le (by rw [size_merge]; omega) (by rw [size_merge]; omega),
    Exec.run_pure]

/-- Case 3: the old header of `bp` places the footer before the header below is put. -/
theorem coalesce_prev_run {q : Nat} (hP : BlockAt s q p) (hB : BlockAt s (q + p.size) b)
    (hSize : p.size + b.size < 2 ^ 32) :
    (do
      let size := toUint32 (b.size + (← getSize (hdrp (← prevBlkp (q + p.size)))))
      put (← ftrp (q + p.size)) (pack size 0)
      put (hdrp (← prevBlkp (q + p.size))) (pack size 0)
      prevBlkp (q + p.size) : M Nat).run s =
        .ok (q, s.withBytes (putTags s.bytes q (p.merge b))) := by
  have hStart := hP.start_le
  have hEnd := hB.end_le
  have hEight := p.eight_le
  have hEight' := b.eight_le
  let t := s.withBytes (storeLE s.bytes (q + p.size + b.size - 8) 4 (p.merge b).tag)
  have hT : BlockAt t q p := by
    apply hP.withBytes
    exact (storeLE_agreeOff _ _ _ _).agreeOn (.inl (by omega))
  let u := t.withBytes (storeLE t.bytes (q - 4) 4 (p.merge b).tag)
  have hFooter : loadLE u.bytes (q + p.size - 8) 4 = p.tag :=
    (loadLE_storeLE_of_disjoint (by omega)).trans hT.tagged.footer
  have hMem : u.bytes = putTags s.bytes q (p.merge b) := by
    rw [putTags, storeLE_comm (by rw [size_merge]; omega), size_merge, ← Nat.add_assoc]
    rfl
  have hPutFtrp : (put (q + p.size + b.size - 8) (p.merge b).tag).run s = .ok ((), t) :=
    put_run (by omega) (by omega)
  have hPutHdrp : (put (hdrp q) (p.merge b).tag).run t = .ok ((), u) :=
    put_hdrp_run hT.start_le (by have := hT.end_le; omega)
  have hPrev : (prevBlkp (q + p.size)).run u = .ok (q, u) :=
    prevBlkp_run (s := u) hT.start_le hT.end_le hT.size_lt hFooter
  rw [Exec.run_bind_ok hP.prevBlkp, Exec.run_bind_ok hP.getSize_hdrp]
  dsimp only
  rw [pack_prev hSize, Exec.run_bind_ok hB.ftrp, Exec.run_bind_ok hPutFtrp, Exec.run_bind_ok hT.prevBlkp,
    Exec.run_bind_ok hPutHdrp, hPrev]
  exact congrArg (fun m => Except.ok (q, s.withBytes m)) hMem

/-- Case 4: neither put disturbs the header of `bp`, the header above or the footer below. -/
theorem coalesce_both_run {q : Nat} (hP : BlockAt s q p) (hB : BlockAt s (q + p.size) b)
    (hN : BlockAt s (q + p.size + b.size) n) (hSize : p.size + b.size + n.size < 2 ^ 32) :
    (do
      let prevSize ← getSize (hdrp (← prevBlkp (q + p.size)))
      let nextSize ← getSize (← ftrp (← nextBlkp (q + p.size)))
      let size := toUint32 (b.size + toUint32 (prevSize + nextSize))
      put (hdrp (← prevBlkp (q + p.size))) (pack size 0)
      put (← ftrp (← nextBlkp (q + p.size))) (pack size 0)
      prevBlkp (q + p.size) : M Nat).run s =
        .ok (q, s.withBytes (putTags s.bytes q (p.merge (b.merge n)))) := by
  have hStart := hP.start_le
  have hEnd := hN.end_le
  have hEight := p.eight_le
  have hEight' := b.eight_le
  have hEight'' := n.eight_le
  let w := (p.merge (b.merge n)).tag
  let t := s.withBytes (storeLE s.bytes (q - 4) 4 w)
  have hOff := storeLE_agreeOff s.bytes (q - 4) 4 w
  have hBt : BlockAt t (q + p.size) b := hB.withBytes (hOff.agreeOn (.inr (by omega)))
  have hNt : BlockAt t (q + p.size + b.size) n := hN.withBytes (hOff.agreeOn (.inr (by omega)))
  let u := t.withBytes (storeLE t.bytes (q + p.size + b.size + n.size - 8) 4 w)
  have hFooter : loadLE u.bytes (q + p.size - 8) 4 = p.tag :=
    (loadLE_storeLE_of_disjoint (by omega)).trans
      ((loadLE_storeLE_of_disjoint (by omega)).trans hP.tagged.footer)
  have hMem : u.bytes = putTags s.bytes q (p.merge (b.merge n)) := by
    rw [putTags, size_merge, size_merge, ← Nat.add_assoc, ← Nat.add_assoc]
    rfl
  have hPutHdrp : (put (hdrp q) w).run s = .ok ((), t) :=
    put_hdrp_run hP.start_le (by have := hP.end_le; omega)
  have hPutFtrp : (put (q + p.size + b.size + n.size - 8) w).run t = .ok ((), u) :=
    put_run (by change s.memStartBrk ≤ _; omega) (by change _ ≤ s.memBrk; omega)
  have hPrev : (prevBlkp (q + p.size)).run u = .ok (q, u) :=
    prevBlkp_run (s := u) hP.start_le hP.end_le hP.size_lt hFooter
  rw [Exec.run_bind_ok hP.prevBlkp, Exec.run_bind_ok hP.getSize_hdrp, Exec.run_bind_ok hB.nextBlkp,
    Exec.run_bind_ok hN.ftrp, Exec.run_bind_ok hN.getSize_ftrp]
  dsimp only
  rw [pack_both hSize, Exec.run_bind_ok hP.prevBlkp, Exec.run_bind_ok hPutHdrp,
    Exec.run_bind_ok hBt.nextBlkp, Exec.run_bind_ok hNt.ftrp, Exec.run_bind_ok hPutFtrp, hPrev]
  exact congrArg (fun m => Except.ok (q, s.withBytes m)) hMem

end Cases

theorem putTags_merged {s : State} {q : Nat} {b : Block} (hq : 4 ≤ q) (hSize : b.size < 2 ^ 32) :
    AgreeOff (q - 4) (q + b.size - 4) s.bytes (putTags s.bytes q b) ∧
      Tagged (putTags s.bytes q b) q b :=
  ⟨putTags_agreeOff s.bytes b hq, tagged_of_stores hq hSize⟩

theorem coalesce_run {s : State} {c : Cursor} (h : BoundaryHeap s c.blocks)
    (hFree : c.block.alloc = false) :
    ∃ m', (coalesce (c.addr s.heapListp)).run s =
        .ok (c.coalesced.addr s.heapListp, s.withBytes m') ∧
      AgreeOff (c.coalesced.addr s.heapListp - 4)
        (c.coalesced.addr s.heapListp + c.coalesced.block.size - 4) s.bytes m' ∧
      Tagged m' (c.coalesced.addr s.heapListp) c.coalesced.block := by
  have hSize := h.coalesced_size_lt
  have hStart := h.start_le
  have hFour : ∀ c : Cursor, 4 ≤ c.addr s.heapListp := fun c => by
    unfold Cursor.addr
    omega
  obtain ⟨left, b, right⟩ := c
  cases left with
  | nil =>
    obtain ⟨p, users, hbs, hp⟩ := h.prologue
    cases hbs
    rw [hp] at hFree
    cases hFree
  | cons p l =>
    obtain ⟨hP, hB⟩ := h.pair
    have hAddr : ∀ b right, Cursor.addr s.heapListp ⟨p :: l, b, right⟩ =
        s.heapListp + total l + p.size := by
      intro b right
      simp only [Cursor.addr, total_cons]
      omega
    have hReads := coalesce_reads h rfl
    rw [hAddr]
    unfold coalesce
    rw [hReads]
    obtain ⟨hNext, hHead⟩ | ⟨n, r, hRight, hn, hNext⟩ := (Cursor.mk (p :: l) b right).absorbNext_cases
    · rw [aboveAlloc_of_alloc hHead]
      cases hp : p.alloc with
      | true =>
        rw [Cursor.coalesced, hNext, Cursor.absorbPrev_alloc hp, hAddr]
        exact ⟨s.bytes, rfl, AgreeOff.refl _ _ _, hB.tagged⟩
      | false =>
        rw [Cursor.coalesced, hNext, Cursor.absorbPrev_free hp] at hSize ⊢
        refine ⟨putTags s.bytes _ (p.merge b), ?_, putTags_merged (hFour _) hSize⟩
        exact coalesce_prev_run hP hB hSize
    · cases hRight
      have hN := h.above
      rw [total_cons, Nat.add_comm p.size, ← Nat.add_assoc] at hN
      rw [aboveAlloc, hn]
      cases hp : p.alloc with
      | true =>
        rw [Cursor.coalesced, hNext, Cursor.absorbPrev_alloc hp] at hSize ⊢
        refine ⟨putTags s.bytes _ (b.merge n), ?_, putTags_merged (hFour _) hSize⟩
        rw [hAddr]
        exact coalesce_next_run hB hN hSize
      | false =>
        rw [Cursor.coalesced, hNext, Cursor.absorbPrev_free hp] at hSize ⊢
        refine ⟨putTags s.bytes _ (p.merge (b.merge n)), ?_, putTags_merged (hFour _) hSize⟩
        exact coalesce_both_run hP hB hN (by simpa [Nat.add_assoc] using hSize)

theorem coalesce_merges (s : State) (c : Cursor) (h : BoundaryHeap s c.blocks)
    (hFree : c.block.alloc = false) :
    ∃ m' below above, (coalesce (c.addr s.heapListp)).run s =
        .ok (c.coalesced.addr s.heapListp, s.withBytes m') ∧
      c.left.reverse = c.coalesced.left.reverse ++ below ∧ c.right = above ++ c.coalesced.right ∧
      (∀ x ∈ below ++ above, x.alloc = false) ∧
      Rewrites s (s.withBytes m') c.coalesced.left.reverse (below ++ c.block :: above)
        [c.coalesced.block] c.coalesced.right := by
  obtain ⟨m', hRun, hOff, hTagged⟩ := coalesce_run h hFree
  obtain ⟨below, above, hBelow, hAbove, hNeighbours, hSize⟩ := c.coalesced_parts
  refine ⟨m', below, above, hRun, hBelow, hAbove, hNeighbours, ?_⟩
  obtain ⟨p, users, hPrologue, hp⟩ := h.prologue
  have hLeft : c.coalesced.left.reverse ≠ [] := by
    simpa using Cursor.coalesced_left_ne_nil hPrologue hp hFree
  have hBlocks : c.blocks = c.coalesced.left.reverse ++ (below ++ c.block :: above) ++
      c.coalesced.right := by
    rw [Cursor.blocks, hBelow, hAbove]
    simp
  have hTotal : total (below ++ c.block :: above) = c.coalesced.block.size := by
    rw [hSize, total_append, total_cons, Nat.add_assoc]
  rw [hBlocks] at h
  apply h.replace hLeft
  · simpa using hTotal.symm
  · rw [total_reverse]
    exact ⟨hTagged, trivial⟩
  · rwa [total_reverse, hTotal]

/-- `coalesce` returns the start of the block formed by a free block and its free neighbours,
replaces those blocks by one free block, and touches no byte outside it. -/
theorem coalesce_exact (s : State) (c : Cursor) (h : BoundaryHeap s c.blocks)
    (hFree : c.block.alloc = false) :
    ∃ m', (coalesce (c.addr s.heapListp)).run s =
        .ok (c.coalesced.addr s.heapListp, s.withBytes m') ∧
      BoundaryHeap (s.withBytes m') c.coalesced.blocks ∧
      c.coalesced.block.alloc = false ∧
      (∃ below above, c.left.reverse = c.coalesced.left.reverse ++ below ∧
        c.right = above ++ c.coalesced.right ∧ (∀ x ∈ below ++ above, x.alloc = false) ∧
        c.coalesced.block.size = total below + c.block.size + total above) ∧
      AgreeOff (c.coalesced.addr s.heapListp - 4)
        (c.coalesced.addr s.heapListp + c.coalesced.block.size - 4) s.bytes m' ∧
      (NoFreePair c.left.reverse → NoFreePair c.right → NoFreePair c.coalesced.blocks) := by
  obtain ⟨m', below, above, hRun, -, -, -, hRewrites⟩ := coalesce_merges s c h hFree
  have hHeap := hRewrites.after
  have hOff := hRewrites.off
  rw [List.append_assoc] at hHeap
  rw [total_reverse, ← hRewrites.total_eq, total_cons, total_nil] at hOff
  exact ⟨m', hRun, hHeap, c.alloc_coalesced hFree, c.coalesced_parts, hOff,
    Cursor.noFreePair_coalesced⟩

theorem coalesce_exact_three : ∃ (s : State) (c : Cursor) (m' : Bytes),
    c.block.size = 16 ∧ c.coalesced.block.size = 64 ∧
      (coalesce (c.addr s.heapListp)).run s =
        .ok (c.coalesced.addr s.heapListp, s.withBytes m') ∧
      BoundaryHeap (s.withBytes m') c.coalesced.blocks := by
  let pro : Block := ⟨24, true, by decide, by decide⟩
  let c : Cursor := ⟨[⟨24, false, by decide, by decide⟩, pro], ⟨16, false, by decide, by decide⟩,
    [⟨24, false, by decide, by decide⟩]⟩
  let s := layout 4096 c.blocks (by decide) (by decide) (by decide)
  obtain ⟨m', hRun, hHeap, -⟩ := coalesce_exact s c
    (boundaryHeap_layout (by decide) (by decide) (by decide) rfl) rfl
  exact ⟨s, c, m', rfl, rfl, hRun, hHeap⟩

end Cs33.Malloc
