import Cs33.Malloc.BlockList
import Cs33.Malloc.Mm

/-! # Boundary tags: the words that spell a block sequence

`Blocks m bp bs` says that the memory spells the sequence `bs` from the block
pointer `bp` on, header and footer of every block included, and `BoundaryHeap`
adds the prologue, the epilogue header and the heap bounds. Every change that
mm.c makes to the tags rewrites one run of adjacent blocks, and
`Rewrites` is the one form in which such a change is stated.
-/

namespace Cs33.Malloc

open ByteMemory

structure Tagged (m : Bytes) (bp : Nat) (b : Block) : Prop where
  header : loadLE m (bp - 4) 4 = b.tag
  footer : loadLE m (bp + b.size - 8) 4 = b.tag

/-- The size in the header of `bp`. -/
def sizeAt (m : Bytes) (bp : Nat) : Nat := sizeBits (loadLE m (bp - 4) 4)

def Blocks (m : Bytes) : Nat → List Block → Prop
  | _, [] => True
  | bp, b :: bs => Tagged m bp b ∧ Blocks m (bp + b.size) bs

instance (m : Bytes) (bp : Nat) (b : Block) : Decidable (Tagged m bp b) :=
  decidable_of_iff (loadLE m (bp - 4) 4 = b.tag ∧ loadLE m (bp + b.size - 8) 4 = b.tag)
    ⟨fun h => ⟨h.1, h.2⟩, fun h => ⟨h.header, h.footer⟩⟩

instance decidableBlocks (m : Bytes) : (bp : Nat) → (bs : List Block) → Decidable (Blocks m bp bs)
  | _, [] => inferInstanceAs (Decidable True)
  | bp, b :: bs =>
    have := decidableBlocks m (bp + b.size) bs
    inferInstanceAs (Decidable (Tagged m bp b ∧ Blocks m (bp + b.size) bs))

/-- The blocks from the prologue at `heap_listp` on tile the heap up to the
epilogue header. -/
structure BoundaryHeap (s : State) (bs : List Block) : Prop where
  prologue : ∃ p users, bs = p :: users ∧ p.alloc = true
  blocks : Blocks s.bytes s.heapListp bs
  epilogue : loadLE s.bytes (s.heapListp + total bs - 4) 4 = pack 0 1
  start_le : s.memStartBrk + 4 ≤ s.heapListp
  end_le : s.heapListp + total bs ≤ s.memBrk
  total_lt : total bs < 2 ^ 32

theorem sizeAt_lt (m : Bytes) (bp : Nat) : sizeAt m bp < 2 ^ 32 := by
  have hWord := loadLE_lt m (bp - 4) 4
  rw [sizeAt, sizeBits_eq (by omega)]
  omega

theorem Tagged.size_lt {m : Bytes} {bp : Nat} {b : Block} (h : Tagged m bp b) : b.size < 2 ^ 32 := by
  have hWord := loadLE_lt m (bp - 4) 4
  rw [h.header, b.tag_eq] at hWord
  omega

theorem blocks_cons {m : Bytes} {bp : Nat} {b : Block} {bs : List Block} :
    Blocks m bp (b :: bs) ↔ Tagged m bp b ∧ Blocks m (bp + b.size) bs := Iff.rfl

theorem blocks_append {m : Bytes} {bp : Nat} {xs ys : List Block} :
    Blocks m bp (xs ++ ys) ↔ Blocks m bp xs ∧ Blocks m (bp + total xs) ys := by
  induction xs generalizing bp with
  | nil => exact (and_iff_right trivial).symm
  | cons x xs ih =>
    rw [List.cons_append, blocks_cons, blocks_cons, ih, total_cons, and_assoc, Nat.add_assoc]

theorem Tagged.congr {m m' : Bytes} {bp : Nat} {b : Block} (h : Tagged m bp b) (hbp : 4 ≤ bp)
    (hAgree : AgreeOn (bp - 4) (bp + b.size - 4) m m') : Tagged m' bp b := by
  have hSize := b.eight_le
  constructor
  · rw [loadLE_congr (hAgree.mono le_rfl (by omega)), h.header]
  · rw [loadLE_congr (hAgree.mono (by omega) (by omega)), h.footer]

theorem Blocks.congr {m m' : Bytes} {bp : Nat} {bs : List Block} (h : Blocks m bp bs)
    (hbp : 4 ≤ bp) (hAgree : AgreeOn (bp - 4) (bp + total bs - 4) m m') : Blocks m' bp bs := by
  induction bs generalizing bp with
  | nil => trivial
  | cons b bs ih =>
    rw [total_cons] at hAgree
    obtain ⟨hHead, hTail⟩ := h
    have hSize := b.eight_le
    constructor
    · exact hHead.congr hbp (hAgree.mono le_rfl (by omega))
    · exact ih hTail (by omega) (hAgree.mono (by omega) (by omega))

/-- The heap of `s'` is that of `s` with the blocks `xs` after `l` replaced by `ys`, and no
byte outside those blocks differs. -/
structure Rewrites (s s' : State) (l xs ys r : List Block) : Prop where
  before : BoundaryHeap s (l ++ xs ++ r)
  after : BoundaryHeap s' (l ++ ys ++ r)
  listp : s'.heapListp = s.heapListp
  nonempty : l ≠ []
  total_eq : total ys = total xs
  off : AgreeOff (s.heapListp + total l - 4) (s.heapListp + total l + total xs - 4)
    s.bytes s'.bytes

/-- Replaces a run of adjacent blocks above the prologue by another one of the same total
size, when nothing outside the run changes. -/
theorem BoundaryHeap.replace {s : State} {l xs ys r : List Block} {m' : Bytes}
    (h : BoundaryHeap s (l ++ xs ++ r)) (hl : l ≠ []) (hTotal : total ys = total xs)
    (hBlocks : Blocks m' (s.heapListp + total l) ys)
    (hOff : AgreeOff (s.heapListp + total l - 4) (s.heapListp + total l + total xs - 4)
      s.bytes m') :
    Rewrites s (s.withBytes m') l xs ys r := by
  obtain ⟨p, users, hbs, hp⟩ := h.prologue
  have hStart := h.start_le
  have hBlocks' := h.blocks
  rw [blocks_append, blocks_append, total_append] at hBlocks'
  obtain ⟨⟨hL, _⟩, hR⟩ := hBlocks'
  have hEq : total (l ++ ys ++ r) = total (l ++ xs ++ r) := by simp [hTotal]
  refine ⟨h, ⟨?_, ?_, ?_, hStart, ?_, ?_⟩, rfl, hl, hTotal, hOff⟩
  · obtain ⟨x, l', rfl⟩ := List.exists_cons_of_ne_nil hl
    cases hbs
    exact ⟨p, l' ++ ys ++ r, by simp, hp⟩
  · rw [blocks_append, blocks_append, total_append, hTotal]
    refine ⟨⟨?_, hBlocks⟩, ?_⟩
    · exact hL.congr (by omega) (hOff.agreeOn (.inl le_rfl))
    · exact hR.congr (by omega) (hOff.agreeOn (.inr (by omega)))
  · change loadLE m' (s.heapListp + total (l ++ ys ++ r) - 4) 4 = _
    rw [hEq, loadLE_congr (hOff.agreeOn (.inr (by simp only [total_append]; omega))), h.epilogue]
  · change s.heapListp + total (l ++ ys ++ r) ≤ s.memBrk
    rw [hEq]
    exact h.end_le
  · rw [hEq]
    exact h.total_lt

/-! ## One block inside the heap -/

structure BlockAt (s : State) (bp : Nat) (b : Block) : Prop where
  tagged : Tagged s.bytes bp b
  start_le : s.memStartBrk + 4 ≤ bp
  end_le : bp + b.size ≤ s.memBrk
  size_lt : b.size < 2 ^ 32

theorem BoundaryHeap.blockAt {s : State} {l r : List Block} {b : Block}
    (h : BoundaryHeap s (l ++ b :: r)) : BlockAt s (s.heapListp + total l) b := by
  have hStart := h.start_le
  have hEnd := h.end_le
  have hLt := h.total_lt
  have hBlocks := h.blocks
  rw [blocks_append, blocks_cons] at hBlocks
  simp only [total_append, total_cons] at hEnd hLt
  exact ⟨hBlocks.2.1, by omega, by omega, by omega⟩

theorem BoundaryHeap.blockAt_of_mem {s : State} {bs : List Block} (h : BoundaryHeap s bs) {q : Nat}
    {b : Block} (hMem : (q, b) ∈ addressed s.heapListp bs) : BlockAt s q b := by
  obtain ⟨l, r, rfl, rfl⟩ := mem_addressed hMem
  exact h.blockAt

theorem BoundaryHeap.blockAt_cursor {s : State} {c : Cursor} (h : BoundaryHeap s c.blocks) :
    BlockAt s (c.addr s.heapListp) c.block :=
  h.blockAt_of_mem (c.mem_addressed s.heapListp)

section Macros

variable {s : State} {bp w : Nat} {b : Block}

theorem hdrp_eq (hLo : s.memStartBrk + 4 ≤ bp) (hHi : bp ≤ s.memBrk) : hdrp bp = bp - 4 := by
  have hBrk := s.brk_lt
  exact minus_eq (by unfold WSIZE; omega) (by omega)

theorem get_run (hLo : s.memStartBrk ≤ bp) (hHi : bp + 4 ≤ s.memBrk) :
    (get bp).run s = .ok (loadLE s.bytes bp 4, s) :=
  load_run ((s.inHeap_iff bp 4).mpr ⟨hLo, hHi⟩)

theorem getSize_run (hLo : s.memStartBrk ≤ bp) (hHi : bp + 4 ≤ s.memBrk) :
    (getSize bp).run s = .ok (sizeBits (loadLE s.bytes bp 4), s) := by
  rw [getSize, Exec.run_bind_ok (get_run hLo hHi), Exec.run_pure]

theorem getAlloc_run (hLo : s.memStartBrk ≤ bp) (hHi : bp + 4 ≤ s.memBrk) :
    (getAlloc bp).run s = .ok (allocBit (loadLE s.bytes bp 4), s) := by
  rw [getAlloc, Exec.run_bind_ok (get_run hLo hHi), Exec.run_pure]

theorem put_run (hLo : s.memStartBrk ≤ bp) (hHi : bp + 4 ≤ s.memBrk) :
    (put bp w).run s = .ok ((), s.withBytes (storeLE s.bytes bp 4 w)) :=
  store_run ((s.inHeap_iff bp 4).mpr ⟨hLo, hHi⟩)

theorem put_hdrp_run (hLo : s.memStartBrk + 4 ≤ bp) (hHi : bp ≤ s.memBrk) :
    (put (hdrp bp) w).run s = .ok ((), s.withBytes (storeLE s.bytes (bp - 4) 4 w)) := by
  rw [hdrp_eq hLo hHi, put_run (by omega) (by omega)]

theorem getSize_hdrp_run (hLo : s.memStartBrk + 4 ≤ bp) (hHi : bp ≤ s.memBrk)
    (hSize : b.size < 2 ^ 32) (hHeader : loadLE s.bytes (bp - 4) 4 = b.tag) :
    (getSize (hdrp bp)).run s = .ok (b.size, s) := by
  rw [hdrp_eq hLo hHi, getSize_run (by omega) (by omega), hHeader, sizeBits_tag hSize]

theorem ftrp_run (hLo : s.memStartBrk + 4 ≤ bp) (hHi : bp + b.size ≤ s.memBrk)
    (hSize : b.size < 2 ^ 32) (hHeader : loadLE s.bytes (bp - 4) 4 = b.tag) :
    (ftrp bp).run s = .ok (bp + b.size - 8, s) := by
  have hBrk := s.brk_lt
  have hEight := b.eight_le
  rw [ftrp, Exec.run_bind_ok (getSize_hdrp_run hLo (by omega) hSize hHeader), Exec.run_pure,
    plus_eq (by omega), minus_eq (by unfold DSIZE; omega) (by omega)]
  rfl

theorem nextBlkp_run (hLo : s.memStartBrk + 4 ≤ bp) (hHi : bp + b.size ≤ s.memBrk)
    (hSize : b.size < 2 ^ 32) (hHeader : loadLE s.bytes (bp - 4) 4 = b.tag) :
    (nextBlkp bp).run s = .ok (bp + b.size, s) := by
  have hBrk := s.brk_lt
  have hRun := getSize_hdrp_run hLo (by omega) hSize hHeader
  rw [nextBlkp, ← hdrp, Exec.run_bind_ok hRun, Exec.run_pure, plus_eq (by omega)]

theorem pred_run (hLo : s.memStartBrk ≤ bp) (hHi : bp + 8 ≤ s.memBrk) :
    (pred bp).run s = .ok (loadLE s.bytes bp 8, s) :=
  load_run ((s.inHeap_iff bp 8).mpr ⟨hLo, hHi⟩)

theorem succ_run (hLo : s.memStartBrk ≤ bp) (hHi : bp + 12 ≤ s.memBrk) :
    (succ bp).run s = .ok (loadLE s.bytes (bp + 4) 8, s) := by
  have hBrk := s.brk_lt
  have hPlus : plus bp WSIZE = bp + 4 := plus_eq (by unfold WSIZE; omega)
  rw [succ, hPlus, load_run]
  rw [s.inHeap_iff]
  omega

/-- `PREV_BLKP` reads the footer that ends right below the header of `bp`. -/
theorem prevBlkp_run {q : Nat} (hLo : s.memStartBrk + 4 ≤ q) (hHi : q + b.size ≤ s.memBrk)
    (hSize : b.size < 2 ^ 32) (hFooter : loadLE s.bytes (q + b.size - 8) 4 = b.tag) :
    (prevBlkp (q + b.size)).run s = .ok (q, s) := by
  have hBrk := s.brk_lt
  have hEight := b.eight_le
  have hMinus : minus (q + b.size) DSIZE = q + b.size - 8 :=
    minus_eq (by unfold DSIZE; omega) (by omega)
  have hRun : (getSize (minus (q + b.size) DSIZE)).run s = .ok (b.size, s) := by
    rw [hMinus, getSize_run (by omega) (by omega), hFooter, sizeBits_tag hSize]
  rw [prevBlkp, Exec.run_bind_ok hRun, Exec.run_pure, minus_eq (by omega) (by omega),
    Nat.add_sub_cancel]

end Macros

section BlockAt

variable {s : State} {bp : Nat} {b : Block}

theorem BlockAt.getSize_hdrp (h : BlockAt s bp b) :
    (getSize (hdrp bp)).run s = .ok (b.size, s) := by
  have hEnd := h.end_le
  exact getSize_hdrp_run h.start_le (by omega) h.size_lt h.tagged.header

theorem BlockAt.getAlloc_hdrp (h : BlockAt s bp b) :
    (getAlloc (hdrp bp)).run s = .ok (b.alloc.toNat, s) := by
  have hStart := h.start_le
  have hEnd := h.end_le
  rw [hdrp_eq h.start_le (by omega), getAlloc_run (by omega) (by omega), h.tagged.header,
    allocBit_tag]

theorem BlockAt.ftrp (h : BlockAt s bp b) : (ftrp bp).run s = .ok (bp + b.size - 8, s) :=
  ftrp_run h.start_le h.end_le h.size_lt h.tagged.header

theorem BlockAt.nextBlkp (h : BlockAt s bp b) : (nextBlkp bp).run s = .ok (bp + b.size, s) :=
  nextBlkp_run h.start_le h.end_le h.size_lt h.tagged.header

theorem BlockAt.prevBlkp (h : BlockAt s bp b) : (prevBlkp (bp + b.size)).run s = .ok (bp, s) :=
  prevBlkp_run h.start_le h.end_le h.size_lt h.tagged.footer

theorem BlockAt.getSize_ftrp (h : BlockAt s bp b) :
    (getSize (bp + b.size - 8)).run s = .ok (b.size, s) := by
  have hStart := h.start_le
  have hEnd := h.end_le
  have hEight := b.eight_le
  rw [getSize_run (by omega) (by omega), h.tagged.footer, sizeBits_tag h.size_lt]

theorem BlockAt.getAlloc_ftrp (h : BlockAt s bp b) :
    (getAlloc (bp + b.size - 8)).run s = .ok (b.alloc.toNat, s) := by
  have hStart := h.start_le
  have hEnd := h.end_le
  have hEight := b.eight_le
  rw [getAlloc_run (by omega) (by omega), h.tagged.footer, allocBit_tag]

end BlockAt

/-! ## The epilogue header -/

theorem BoundaryHeap.getSize_epilogue {s : State} {bs : List Block} (h : BoundaryHeap s bs) :
    (getSize (hdrp (s.heapListp + total bs))).run s = .ok (0, s) := by
  have hStart := h.start_le
  rw [hdrp_eq (by omega) h.end_le, getSize_run (by omega) (by have := h.end_le; omega), h.epilogue]
  rfl

theorem BoundaryHeap.getAlloc_epilogue {s : State} {bs : List Block} (h : BoundaryHeap s bs) :
    (getAlloc (hdrp (s.heapListp + total bs))).run s = .ok (1, s) := by
  have hStart := h.start_le
  rw [hdrp_eq (by omega) h.end_le, getAlloc_run (by omega) (by have := h.end_le; omega), h.epilogue]
  rfl

/-! ## Writing the two tags of a block -/

def putTags (m : Bytes) (bp : Nat) (b : Block) : Bytes :=
  storeLE (storeLE m (bp - 4) 4 b.tag) (bp + b.size - 8) 4 b.tag

theorem tagged_of_stores {m : Bytes} {bp : Nat} {b : Block} (hbp : 4 ≤ bp)
    (hSize : b.size < 2 ^ 32) : Tagged (putTags m bp b) bp b := by
  have hEight := b.eight_le
  have hLt := Block.tag_lt hSize
  constructor
  · rw [putTags, loadLE_storeLE_of_disjoint (by omega), loadLE_storeLE_of_lt (by omega)]
  · rw [putTags, loadLE_storeLE_of_lt (by omega)]

theorem putTags_agreeOff (m : Bytes) {bp : Nat} (b : Block) (hbp : 4 ≤ bp) :
    AgreeOff (bp - 4) (bp + b.size - 4) m (putTags m bp b) := by
  have hEight := b.eight_le
  apply ((storeLE_agreeOff m (bp - 4) 4 b.tag).mono le_rfl (by omega)).trans
  exact (storeLE_agreeOff _ (bp + b.size - 8) 4 b.tag).mono (by omega) (by omega)

/-- `PUT(HDRP(bp), w); PUT(FTRP(bp), w)`: the footer lands where the new header says. -/
theorem putTags_run {s : State} {bp : Nat} {b : Block} (hLo : s.memStartBrk + 4 ≤ bp)
    (hHi : bp + b.size ≤ s.memBrk) (hSize : b.size < 2 ^ 32) :
    (do put (hdrp bp) b.tag; put (← ftrp bp) b.tag : M Unit).run s =
      .ok ((), s.withBytes (putTags s.bytes bp b)) := by
  have hEight := b.eight_le
  have hLt := Block.tag_lt hSize
  rw [Exec.run_bind_ok (put_hdrp_run hLo (by omega))]
  let t := s.withBytes (storeLE s.bytes (bp - 4) 4 b.tag)
  have hHeader : loadLE t.bytes (bp - 4) 4 = b.tag := loadLE_storeLE_of_lt (by omega)
  have hFtrp : (ftrp bp).run t = .ok (bp + b.size - 8, t) := ftrp_run (s := t) hLo hHi hSize hHeader
  have hPut : (put (bp + b.size - 8) b.tag).run t =
      .ok ((), t.withBytes (storeLE t.bytes (bp + b.size - 8) 4 b.tag)) :=
    put_run (by change s.memStartBrk ≤ _; omega) (by change _ ≤ s.memBrk; omega)
  rw [Exec.run_bind_ok hFtrp, hPut]
  rfl

theorem putTags_bind {α : Type} {s : State} {bp : Nat} {b : Block} {k : M α}
    (hLo : s.memStartBrk + 4 ≤ bp) (hHi : bp + b.size ≤ s.memBrk) (hSize : b.size < 2 ^ 32) :
    (do put (hdrp bp) b.tag; put (← ftrp bp) b.tag; k : M α).run s =
      k.run (s.withBytes (putTags s.bytes bp b)) := by
  have hRun := Exec.run_bind_ok (f := fun _ => k) (putTags_run hLo hHi hSize)
  simpa only [Exec.bind_assoc] using hRun

/-! ## Every block sequence is the heap of some state -/

def spell (m : Bytes) : Nat → List Block → Bytes
  | bp, [] => storeLE m (bp - 4) 4 (pack 0 1)
  | bp, b :: bs => spell (putTags m bp b) (bp + b.size) bs

theorem spell_agreeOff (m : Bytes) {bp : Nat} (bs : List Block) (hbp : 4 ≤ bp) :
    AgreeOff (bp - 4) (bp + total bs) m (spell m bp bs) := by
  induction bs generalizing m bp with
  | nil => exact (storeLE_agreeOff m (bp - 4) 4 _).mono le_rfl (by omega)
  | cons b bs ih =>
    have hTail := ih (putTags m bp b) (show 4 ≤ bp + b.size by omega)
    apply ((putTags_agreeOff m b hbp).mono le_rfl (by rw [total_cons]; omega)).trans
    exact hTail.mono (by omega) (by rw [total_cons]; omega)

theorem spell_spells (m : Bytes) {bp : Nat} (bs : List Block) (hbp : 4 ≤ bp)
    (hTotal : total bs < 2 ^ 32) : Blocks (spell m bp bs) bp bs ∧
      loadLE (spell m bp bs) (bp + total bs - 4) 4 = pack 0 1 := by
  induction bs generalizing m bp with
  | nil => exact ⟨trivial, loadLE_storeLE_of_lt (by decide)⟩
  | cons b bs ih =>
    rw [total_cons] at hTotal ⊢
    obtain ⟨hBlocks, hEpilogue⟩ := ih (putTags m bp b) (show 4 ≤ bp + b.size by omega) (by omega)
    have hOff := spell_agreeOff (putTags m bp b) bs (show 4 ≤ bp + b.size by omega)
    have hTagged : Tagged (putTags m bp b) bp b := tagged_of_stores hbp (by omega)
    refine ⟨⟨hTagged.congr hbp (hOff.agreeOn (.inl le_rfl)), hBlocks⟩, ?_⟩
    rwa [← Nat.add_assoc]

def layout (start : Nat) (bs : List Block) (hPos : 0 < start) (hFits : 8 + total bs ≤ maxHeap)
    (hMax : start + maxHeap < 2 ^ 64) : State where
  memStartBrk := start
  memBrk := start + 8 + total bs
  memMaxAddr := start + maxHeap
  bytes := spell (fun _ => 0) (start + 8) bs
  start_pos := hPos
  start_le_brk := by omega
  brk_le_max := by omega
  max_eq := (memInit start (fun _ => 0) hPos hMax).max_eq
  max_lt := hMax
  heapListp := start + 8
  heapBasefree := NULL
  out := []
  guarded := true

theorem boundaryHeap_layout {start : Nat} {p : Block} {users : List Block} (hPos : 0 < start)
    (hFits : 8 + total (p :: users) ≤ maxHeap) (hMax : start + maxHeap < 2 ^ 64)
    (hp : p.alloc = true) :
    BoundaryHeap (layout start (p :: users) hPos hFits hMax) (p :: users) := by
  have hTotal : total (p :: users) < 2 ^ 32 := by
    rw [maxHeap] at hFits
    omega
  obtain ⟨hBlocks, hEpilogue⟩ :=
    spell_spells (fun _ => 0) (p :: users) (show 4 ≤ start + 8 by omega) hTotal
  refine ⟨⟨p, users, rfl, hp⟩, hBlocks, hEpilogue, ?_, le_rfl, hTotal⟩
  change start + 4 ≤ start + 8
  omega

end Cs33.Malloc
