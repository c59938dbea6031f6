import Cs33.Malloc.FirstFit
import Cs33.Malloc.Remainder

/-! # `exp_place` on a consistent heap

`exp_place` takes the neighbours by address for neighbours on the list: it
stores through `SUCC` of the block below and through `PRED` of the block
above, whatever these words are, and after a split through the words that the
remainder holds where its links will be. `neighbourStrays` and `splitStrays`
list these addresses. Where they miss every tag and every link, the blocks after
a run are known.
-/

namespace Cs33.Malloc

open ByteMemory Exec

/-- The memory after `PUT_NXT(PREV_BLKP(bp), next)`. -/
def putBelow (m : Bytes) (below q : Nat) : Bytes := storeLE m (loadLE m (below + 4) 8) 8 q

/-- The memory after `PUT_PREV(NEXT_BLKP(bp), prev)`. -/
def putAbove (m : Bytes) (below q csize : Nat) : Bytes :=
  storeLE (putBelow m below q) (loadLE (putBelow m below q) (q + csize) 8) 8 (q + 8)

/-- The addresses that `SUCC` of the block below and `PRED` of the block above hold. -/
def neighbourStrays (m : Bytes) (below q csize : Nat) : List Nat :=
  [loadLE m (below + 4) 8, loadLE (putBelow m below q) (q + csize) 8]

/-- No store of `exp_place` through a word that is no link hits a tag or a link, of the two parts
after a split included. -/
structure Harmless (s : State) (bs : List Block) (links : List (Nat × Block))
    (below q csize asize : Nat) : Prop where
  neighbours : ∀ a ∈ neighbourStrays s.bytes below q csize, Clear s bs links a
  least : asize + FREEBLOCKSIZE ≤ csize → 16 ≤ asize
  split : asize + FREEBLOCKSIZE ≤ csize →
    ∀ a ∈ splitStrays (putAbove s.bytes below q csize) q csize asize,
      Clear s bs links a ∧ Misses a (q + asize - 8) 20

/-! ## Up to the tags -/

/-- What `exp_place` does after its stores through the neighbours. -/
def placeTags (bp csize asize : Nat) : M Unit := do
  if FREEBLOCKSIZE ≤ sizeSub csize asize then
    put (hdrp bp) (pack asize 1)
    put (← ftrp bp) (pack asize 1)
    coalesceHelper bp
    let bp ← nextBlkp bp
    put (hdrp bp) (pack (sizeSub csize asize) 0)
    put (← ftrp bp) (pack (sizeSub csize asize) 0)
    let _merged ← expCoalesce bp
    return ()
  else
    put (hdrp bp) (pack csize 1)
    put (← ftrp bp) (pack csize 1)
    coalesceHelper bp

section Front

variable {s : State} {p b : Block} {below asize : Nat} {x : Unit × State}

theorem expPlace_iff (hP : BlockAt s below p) (hB : BlockAt s (below + p.size) b)
    (hSize : 16 ≤ p.size)
    (hHeader : Misses (loadLE s.bytes (below + 4) 8) (below + p.size - 4) 4) :
    (expPlace (below + p.size) asize).run s = .ok x ↔
      s.Reaches (loadLE s.bytes (below + 4) 8) 8 ∧ s.Reaches (below + p.size + b.size) 8 ∧
      s.Reaches (loadLE (putBelow s.bytes below (below + p.size)) (below + p.size + b.size) 8) 8 ∧
      (placeTags (below + p.size) b.size asize).run
        (s.withBytes (putAbove s.bytes below (below + p.size) b.size)) = .ok x := by
  have hStart := hP.start_le
  have hEnd := hB.end_le
  have hEight := b.eight_le
  have hBrk := s.brk_lt
  have hTag : loadLE (putBelow s.bytes below (below + p.size)) (below + p.size - 4) 4 = b.tag := by
    rw [putBelow, loadLE_of_misses hHeader, hB.tagged.header]
  have hPlus : plus (below + p.size) DSIZE = below + p.size + 8 := plus_eq (by unfold DSIZE; omega)
  rw [expPlace, run_bind_ok hB.getSize_hdrp]
  dsimp only
  rw [run_bind_ok hP.prevBlkp, putNxt, bind_assoc, run_bind_ok (succ_run (by omega) (by omega)),
    store_bind_iff, blkNxtp, ← putBelow]
  apply and_congr_right
  intro _
  rw [putAbove]
  generalize putBelow s.bytes below (below + p.size) = m at hTag ⊢
  have hNext : (nextBlkp (below + p.size)).run (s.withBytes m) =
      .ok (below + p.size + b.size, s.withBytes m) :=
    nextBlkp_run (s := s.withBytes m) hB.start_le hB.end_le hB.size_lt hTag
  rw [run_bind_ok hNext, putPrev, bind_assoc, pred, load_bind_iff]
  apply and_congr_right
  intro _
  rw [store_bind_iff, blkPrvp, hPlus]
  exact Iff.rfl

end Front

section Tags

variable {t : State} {b want : Block} {q asize : Nat}

theorem placeTags_whole (hLo : t.memStartBrk + 4 ≤ q) (hHi : q + b.size ≤ t.memBrk)
    (hFit : asize ≤ b.size) (hSize : b.size < 2 ^ 32) (hWhole : b.size < asize + FREEBLOCKSIZE) :
    (placeTags q b.size asize).run t =
      (coalesceHelper q).run (t.withBytes (putTags t.bytes q (b.setAlloc true))) := by
  have hPack : pack b.size 1 = (b.setAlloc true).tag := pack_one_eq_tag (b := b.setAlloc true) rfl
  rw [placeTags, sizeSub_eq hFit (by omega), if_neg (by omega), hPack]
  exact putTags_bind (b := b.setAlloc true) hLo hHi hSize

theorem placeTags_split (hLo : t.memStartBrk + 4 ≤ q) (hHi : q + b.size ≤ t.memBrk)
    (hSize : b.size < 2 ^ 32) (hAlloc : want.alloc = true)
    (hSplit : want.size + FREEBLOCKSIZE ≤ b.size) : (placeTags q b.size want.size).run t =
      (placeRest q (b.size - want.size)).run (t.withBytes (putTags t.bytes q want)) := by
  rw [placeTags, sizeSub_eq (by omega) (by omega), if_pos (by omega), pack_one_eq_tag hAlloc]
  exact putTags_bind hLo (by omega) (by omega)

end Tags

/-! ## Both ways to place -/

section Place

variable {s t s' : State} {l r : List Block} {p b want : Block} {links : List (Nat × Block)}
  {q asize : Nat}

/-- What unlinking a block of the list leaves: the list without its last block, or a head that has
a `PRED`. -/
def Unlinks (m : Bytes) (base : Nat) (links : List (Nat × Block)) (x : Nat × Block) : Prop :=
  (∃ rest, links = rest ++ [x] ∧ Linked m NULL base rest) ∨
    (∀ rest, links ≠ rest ++ [x]) ∧ base ≠ NULL ∧ loadLE m base 8 ≠ NULL

theorem Consistent.place_whole (h : Consistent t (Cursor.blocks ⟨p :: l, b, r⟩) links)
    (hq : q = t.heapListp + total l + p.size) (hListed : (q, b) ∈ links) :
    ∃ s', (coalesceHelper q).run (t.withBytes (putTags t.bytes q (b.setAlloc true))) = .ok ((), s') ∧
      Writes t s' ∧ BoundaryHeap s' (Cursor.blocks ⟨p :: l, b.setAlloc true, r⟩) ∧
      Unlinks s'.bytes s'.heapBasefree links (q, b) := by
  have hInside := h.threaded.inside hListed
  have hFits := h.threaded.fits hListed
  have hHeap := h.heap.setAlloc hq
  dsimp only at hInside hFits
  have hKept : ∀ lo, q ≤ lo → lo + 8 ≤ q + 12 →
      loadLE (putTags t.bytes q (b.setAlloc true)) lo 8 = loadLE t.bytes lo 8 := by
    intro lo hLo hHi
    exact putTags_inside (by omega) hLo (by rw [size_setAlloc]; omega)
  have hKeptPred := hKept q le_rfl (by omega)
  have hKeptSucc := hKept (q + 4) (by omega) (by omega)
  obtain rfl | ⟨⟨y, c⟩, rfl | rfl⟩ := h.threaded.shape hListed
  · obtain ⟨-, hPred, hSucc⟩ := h.linked
    refine ⟨_, coalesceHelper_alone (t := t.withBytes (putTags t.bytes q (b.setAlloc true)))
      (by change t.memStartBrk ≤ q; omega) (by change q + 12 ≤ t.memBrk; omega)
      (hKeptPred.trans hPred) (hKeptSucc.trans hSucc), ⟨rfl, rfl, rfl⟩, ?_, .inl ⟨[], rfl, rfl⟩⟩
    exact hHeap.of_writes ⟨rfl, rfl, rfl⟩ rfl
  · obtain ⟨hLow, hHigh⟩ := h.threaded.pair
    obtain ⟨-, hPred, hSucc, hBack, -⟩ := h.linked
    have hInsideY := h.threaded.inside (x := (y, c)) (by simp)
    have hFitsY := h.threaded.fits (x := (y, c)) (by simp)
    dsimp only at hLow hHigh hSucc hBack hInsideY hFitsY
    have hKeptBack : loadLE (putTags t.bytes q (b.setAlloc true)) y 8 = q := by
      rw [putTags_above (by omega) (by rw [size_setAlloc]; omega), hBack]
    refine ⟨_, coalesceHelper_front (t := t.withBytes (putTags t.bytes q (b.setAlloc true)))
      (by change t.memStartBrk ≤ q; omega) (by change q + 12 ≤ t.memBrk; omega)
      (by change t.memStartBrk ≤ y; omega) (by change y + 8 ≤ t.memBrk; omega)
      (hKeptPred.trans hPred) (hKeptSucc.trans hSucc) hKeptBack, ⟨rfl, rfl, rfl⟩,
      hHeap.of_writes ⟨rfl, rfl, rfl⟩ rfl, .inr ⟨?_, ?_, ?_⟩⟩
    · intro rest hEq
      have hLast := congrArg List.getLast? hEq
      simp only [List.getLast?_cons_cons, List.getLast?_singleton, List.getLast?_append,
        Option.some_or, Option.some.injEq, Prod.mk.injEq] at hLast
      have hPos := b.size_pos
      omega
    · change y ≠ NULL
      exact ne_null_of_start_le (t := t) (by omega)
    · exact hKeptBack.trans_ne (ne_null_of_start_le (t := t) (by omega))
  · obtain ⟨hLow, hHigh⟩ := h.threaded.pair
    obtain ⟨hBase, hPred, -, hBack, hEnd⟩ := h.linked
    have hListedY : (y, c) ∈ [(y, c), (q, b)] := List.mem_cons_self
    have hInsideY := h.threaded.inside hListedY
    have hFitsY := h.threaded.fits hListedY
    dsimp only at hLow hHigh hBase hPred hBack hInsideY hFitsY
    have hKeptPredY : loadLE (putTags t.bytes q (b.setAlloc true)) y 8 = NULL := by
      rw [putTags_below (by omega) (by omega), hPred]
    have hOff : OffTags t.heapListp (Cursor.blocks ⟨p :: l, b.setAlloc true, r⟩) (y + 4) := by
      have hStart := h.heap.start_le
      have hOld : OffTags t.heapListp (Cursor.blocks ⟨p :: l, b, r⟩) (y + 4) :=
        .payload (by omega) (h.mem_iff.mp hListedY).1 (by omega) (by omega)
      exact hOld.setAlloc
    refine ⟨_, coalesceHelper_back (t := t.withBytes (putTags t.bytes q (b.setAlloc true))) (m := y)
      (by change t.memStartBrk ≤ q; omega) (by change q + 12 ≤ t.memBrk; omega)
      (by change t.memStartBrk ≤ y; omega) (by change y + 12 ≤ t.memBrk; omega) (by omega)
      (hKeptPred.trans hBack) (hKeptSucc.trans hEnd), ⟨rfl, rfl, rfl⟩,
      (hHeap.store hOff).of_writes ⟨rfl, rfl, rfl⟩ rfl, .inl ⟨[(y, c)], rfl, hBase, ?_, ?_⟩⟩
    · exact loadLE_cleared hKeptPredY
    · exact loadLE_storeLE_of_lt (by decide)

theorem Consistent.putAbove {below : Nat} (h : Consistent s (Cursor.blocks ⟨p :: l, b, r⟩) links)
    (hClear : ∀ a ∈ neighbourStrays s.bytes below q b.size,
      Clear s (Cursor.blocks ⟨p :: l, b, r⟩) links a) :
    Consistent (s.withBytes (Malloc.putAbove s.bytes below q b.size))
      (Cursor.blocks ⟨p :: l, b, r⟩) links := by
  rw [neighbourStrays, List.forall_mem_cons, List.forall_mem_singleton] at hClear
  obtain ⟨hBelow, hAbove⟩ := hClear
  have hFirst := h.store (v := q) hBelow
  rw [← putBelow] at hFirst
  rw [Malloc.putAbove]
  generalize putBelow s.bytes below q = m at hFirst hAbove ⊢
  have hSecond := hFirst.store (v := q + 8) (a := loadLE m (q + b.size) 8) ⟨hAbove.tags, hAbove.links⟩
  exact hSecond

theorem Consistent.expPlace_iff (h : Consistent s (Cursor.blocks ⟨p :: l, b, r⟩) links)
    (hq : q = s.heapListp + total l + p.size)
    (hHarmless : Harmless s (Cursor.blocks ⟨p :: l, b, r⟩) links (s.heapListp + total l) q b.size
      asize) (x : Unit × State) :
    (expPlace q asize).run s = .ok x ↔
      s.Reaches (loadLE s.bytes (s.heapListp + total l + 4) 8) 8 ∧ s.Reaches (q + b.size) 8 ∧
      s.Reaches (loadLE (putBelow s.bytes (s.heapListp + total l) q) (q + b.size) 8) 8 ∧
      (placeTags q b.size asize).run
        (s.withBytes (Malloc.putAbove s.bytes (s.heapListp + total l) q b.size)) = .ok x := by
  obtain ⟨hP, hB⟩ := h.heap.pair
  have hSize := h.sizes p (by simp [Cursor.blocks])
  have hMem := Cursor.mem_addressed ⟨p :: l, b, r⟩ s.heapListp
  rw [Cursor.addr, total_cons, Nat.add_comm p.size, ← Nat.add_assoc, ← hq] at hMem
  have hClear := hHarmless.neighbours _ List.mem_cons_self
  have hHeader := hClear.tags.header hMem
  rw [hq] at hHeader ⊢
  exact Malloc.expPlace_iff hP hB hSize hHeader

theorem Consistent.expPlace_whole (h : Consistent s (Cursor.blocks ⟨p :: l, b, r⟩) links)
    (hq : q = s.heapListp + total l + p.size) (hListed : (q, b) ∈ links) (hFit : asize ≤ b.size)
    (hWhole : b.size < asize + FREEBLOCKSIZE)
    (hHarmless : Harmless s (Cursor.blocks ⟨p :: l, b, r⟩) links (s.heapListp + total l) q b.size
      asize) :
    ∃ s', Writes s s' ∧ BoundaryHeap s' (Cursor.blocks ⟨p :: l, b.setAlloc true, r⟩) ∧
      Unlinks s'.bytes s'.heapBasefree links (q, b) ∧
      ∀ x, (expPlace q asize).run s = .ok x ↔
        (s.Reaches (loadLE s.bytes (s.heapListp + total l + 4) 8) 8 ∧ s.Reaches (q + b.size) 8 ∧
          s.Reaches (loadLE (putBelow s.bytes (s.heapListp + total l) q) (q + b.size) 8) 8) ∧
        ((), s') = x := by
  have hAfter := h.putAbove hHarmless.neighbours
  have hInside := h.threaded.inside hListed
  have hAt := h.threaded.blockAt hListed
  dsimp only at hInside
  have hIff := h.expPlace_iff hq hHarmless
  generalize Malloc.putAbove s.bytes (s.heapListp + total l) q b.size = m at hAfter hIff
  obtain ⟨s', hHelper, hWrites, hHeap, hUnlinks⟩ := hAfter.place_whole hq hListed
  have hTags := placeTags_whole (t := s.withBytes m) (q := q) hInside.1 hInside.2 hFit hAt.size_lt
    hWhole
  refine ⟨s', hWrites, hHeap, hUnlinks, fun x => ?_⟩
  rw [hIff, and_assoc, and_assoc, hTags]
  have hRun : (coalesceHelper q).run ((s.withBytes m).withBytes
      (putTags (s.withBytes m).bytes q (b.setAlloc true))) = .ok ((), s') := hHelper
  rw [hRun, Except.ok.injEq]

theorem Consistent.expPlace_split (h : Consistent s (Cursor.blocks ⟨p :: l, b, r⟩) links)
    (hq : q = s.heapListp + total l + p.size) (hListed : (q, b) ∈ links)
    (hAlloc : want.alloc = true) (hSplit : want.size + FREEBLOCKSIZE ≤ b.size)
    (hHarmless : Harmless s (Cursor.blocks ⟨p :: l, b, r⟩) links (s.heapListp + total l) q b.size
      want.size) (hRun : (expPlace q want.size).run s = .ok ((), s')) : SplitLeft s' q b want := by
  have hAfter := h.putAbove hHarmless.neighbours
  have hInside := h.threaded.inside hListed
  have hAt := h.threaded.blockAt hListed
  have hLeast := hHarmless.least hSplit
  have hStrays := hHarmless.split hSplit
  dsimp only at hInside
  obtain ⟨-, -, -, hTags⟩ := (h.expPlace_iff hq hHarmless _).mp hRun
  generalize Malloc.putAbove s.bytes (s.heapListp + total l) q b.size = m at hAfter hTags hStrays
  have hFits : want.size < b.size := by
    unfold FREEBLOCKSIZE at hSplit
    omega
  have hRest : (b.rest want hFits).size = b.size - want.size := rfl
  rw [placeTags_split (t := s.withBytes m) (q := q) hInside.1 hInside.2 hAt.size_lt hAlloc hSplit,
    ← hRest] at hTags
  have hSplitRun : SplitRun (s.withBytes m) s' l r p b links q want (b.rest want hFits) :=
    ⟨hAfter, hq, hListed, by omega, hAlloc, rfl, hLeast, by omega, hTags⟩
  exact hSplitRun.left fun a ha => ⟨⟨(hStrays a ha).1.tags, (hStrays a ha).1.links⟩, (hStrays a ha).2⟩

end Place

end Cs33.Malloc
