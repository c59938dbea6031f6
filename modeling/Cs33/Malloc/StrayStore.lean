import Cs33.Malloc.Coalesce
import Cs33.Malloc.Frame
import Cs33.Malloc.FreeList

/-! # Stores that hit no tag

The code takes words of payloads for links and stores through them. A store
whose eight bytes miss every tag leaves the blocks of the heap as they are. The
blocks change where tags are put: one is allocated, cut in two, or merged with
the one above it.
-/

namespace Cs33.Malloc

open ByteMemory Exec

/-- The eight bytes at `a` lie outside the `n` bytes at `lo`. -/
def Misses (a lo n : Nat) : Prop := a + 8 ≤ lo ∨ lo + n ≤ a

instance (a lo n : Nat) : Decidable (Misses a lo n) := inferInstanceAs (Decidable (_ ∨ _))

/-- The eight bytes at `a` are no part of a tag: of the first header, or of a footer and the
header after it. -/
structure OffTags (start : Nat) (bs : List Block) (a : Nat) : Prop where
  first : Misses a (start - 4) 4
  ends : ∀ x ∈ addressed start bs, Misses a (x.1 + x.2.size - 8) 8

/-- The eight bytes at `a` are no part of a tag or of a link. -/
structure Clear (s : State) (bs : List Block) (links : List (Nat × Block)) (a : Nat) : Prop where
  tags : OffTags s.heapListp bs a
  links : ∀ x ∈ links, Misses a x.1 12

instance (start : Nat) (bs : List Block) (a : Nat) : Decidable (OffTags start bs a) :=
  decidable_of_iff (Misses a (start - 4) 4 ∧ ∀ x ∈ addressed start bs, Misses a (x.1 + x.2.size - 8) 8)
    ⟨fun h => ⟨h.1, h.2⟩, fun h => ⟨h.first, h.ends⟩⟩

instance (s : State) (bs : List Block) (links : List (Nat × Block)) (a : Nat) :
    Decidable (Clear s bs links a) :=
  decidable_of_iff (OffTags s.heapListp bs a ∧ ∀ x ∈ links, Misses a x.1 12)
    ⟨fun h => ⟨h.1, h.2⟩, fun h => ⟨h.tags, h.links⟩⟩

/-! ## Stores that miss -/

section Store

variable {m : Bytes} {start a v : Nat} {bs : List Block}

theorem loadLE_of_misses {lo n : Nat} (h : Misses a lo n) :
    loadLE (storeLE m a 8 v) lo n = loadLE m lo n := by
  apply loadLE_storeLE_of_disjoint
  rw [Misses] at h
  omega

theorem Misses.mono {lo n lo' n' : Nat} (h : Misses a lo n) (hLo : lo ≤ lo')
    (hHi : lo' + n' ≤ lo + n) : Misses a lo' n' := by
  unfold Misses at *
  omega

theorem OffTags.tail {b : Block} (h : OffTags start (b :: bs) a) : OffTags (start + b.size) bs a := by
  have hEnd := h.ends (start, b) List.mem_cons_self
  have hEight := b.eight_le
  dsimp only at hEnd
  refine ⟨?_, fun x hx => h.ends x (List.mem_cons_of_mem _ hx)⟩
  unfold Misses at *
  omega

theorem OffTags.footer {q : Nat} {b : Block} (h : OffTags start bs a)
    (hMem : (q, b) ∈ addressed start bs) : Misses a (q + b.size - 8) 4 :=
  (h.ends (q, b) hMem).mono le_rfl (Nat.add_le_add_left (by decide) _)

theorem OffTags.header {q : Nat} {b : Block} (h : OffTags start bs a)
    (hMem : (q, b) ∈ addressed start bs) : Misses a (q - 4) 4 := by
  induction bs generalizing start with
  | nil => cases hMem
  | cons c bs ih =>
    obtain hEq | hMem := List.mem_cons.mp hMem
    · cases hEq
      exact h.first
    · exact ih h.tail hMem

theorem Blocks.store (h : Blocks m start bs) (hStart : 4 ≤ start) (hOff : OffTags start bs a) :
    Blocks (storeLE m a 8 v) start bs ∧
      loadLE (storeLE m a 8 v) (start + total bs - 4) 4 = loadLE m (start + total bs - 4) 4 := by
  induction bs generalizing start with
  | nil => exact ⟨trivial, loadLE_of_misses hOff.first⟩
  | cons b bs ih =>
    have hEight := b.eight_le
    obtain ⟨hBlocks, hLast⟩ := ih h.2 (by omega) hOff.tail
    have hFooter : Misses a (start + b.size - 8) 4 := hOff.footer List.mem_cons_self
    refine ⟨⟨⟨?_, ?_⟩, hBlocks⟩, ?_⟩
    · rw [loadLE_of_misses hOff.first, h.1.header]
    · rw [loadLE_of_misses hFooter, h.1.footer]
    · rw [total_cons, ← Nat.add_assoc, hLast]

theorem BoundaryHeap.store {s : State} (h : BoundaryHeap s bs) (hOff : OffTags s.heapListp bs a) :
    BoundaryHeap (s.withBytes (storeLE s.bytes a 8 v)) bs := by
  have hStart := h.start_le
  obtain ⟨hBlocks, hLast⟩ := h.blocks.store (by omega) hOff
  exact ⟨h.prologue, hBlocks, hLast.trans h.epilogue, h.start_le, h.end_le, h.total_lt⟩

theorem OffTags.payload {q : Nat} {b : Block} (hStart : 4 ≤ start) (hMem : (q, b) ∈ addressed start bs)
    (hLo : q ≤ a) (hHi : a + 8 ≤ q + b.size - 8) : OffTags start bs a := by
  obtain ⟨hAbove, -⟩ := addressed_bounds hMem
  have hEight := b.eight_le
  refine ⟨.inr (by omega), fun x hx => ?_⟩
  have hEightX := x.2.eight_le
  rw [Misses]
  obtain rfl | hApart := addressed_apart hx hMem
  · exact .inl hHi
  · dsimp only at hApart
    omega

theorem Consistent.store {s : State} {links : List (Nat × Block)} (h : Consistent s bs links)
    (hClear : Clear s bs links a) : Consistent (s.withBytes (storeLE s.bytes a 8 v)) bs links := by
  refine ⟨h.heap.store hClear.tags, h.tiles, h.sizes, ?_, h.visits⟩
  apply h.linked.congr
  intro x hx
  apply (storeLE_agreeOff s.bytes a 8 v).agreeOn
  have hLink := hClear.links x hx
  rw [Misses] at hLink
  omega

theorem putTags_store {q : Nat} {b : Block} (hHeader : Misses a (q - 4) 4)
    (hFooter : Misses a (q + b.size - 8) 4) :
    putTags (storeLE m a 8 v) q b = storeLE (putTags m q b) a 8 v := by
  have hSwap : storeLE (storeLE m a 8 v) (q - 4) 4 b.tag = storeLE (storeLE m (q - 4) 4 b.tag) a 8 v :=
    storeLE_comm (by rw [Misses] at hHeader; omega)
  rw [putTags, hSwap, storeLE_comm (by rw [Misses] at hFooter; omega), putTags]

end Store

/-! ## Blocks that change -/

section Cut

variable {t : State} {l r : List Block} {p b want rest : Block} {q a : Nat}

theorem BoundaryHeap.replaceBlock {ys : List Block} {m' : Bytes}
    (h : BoundaryHeap t (Cursor.blocks ⟨p :: l, b, r⟩)) (hq : q = t.heapListp + total l + p.size)
    (hTotal : total ys = b.size) (hBlocks : Blocks m' q ys)
    (hOff : AgreeOff (q - 4) (q + b.size - 4) t.bytes m') :
    BoundaryHeap (t.withBytes m') ((p :: l).reverse ++ ys ++ r) := by
  have hAddr : q = t.heapListp + total (p :: l).reverse := by
    rw [hq, total_reverse, total_cons]
    omega
  rw [Cursor.blocks_eq] at h
  subst hAddr
  refine (h.replace (by simp) ?_ hBlocks ?_).after
  · rw [hTotal, total_cons, total_nil, Nat.add_zero]
  · rwa [total_cons, total_nil, Nat.add_zero]

theorem BoundaryHeap.setAlloc (h : BoundaryHeap t (Cursor.blocks ⟨p :: l, b, r⟩))
    (hq : q = t.heapListp + total l + p.size) :
    BoundaryHeap (t.withBytes (putTags t.bytes q (b.setAlloc true)))
      (Cursor.blocks ⟨p :: l, b.setAlloc true, r⟩) := by
  have hAt := h.pair.2
  have hStart := hAt.start_le
  rw [← hq] at hStart
  rw [Cursor.blocks_eq]
  apply h.replaceBlock hq (by simp)
  · exact ⟨tagged_of_stores (by omega) hAt.size_lt, trivial⟩
  · exact putTags_agreeOff t.bytes (b.setAlloc true) (by omega)

theorem BoundaryHeap.cut (h : BoundaryHeap t (Cursor.blocks ⟨p :: l, b, r⟩))
    (hq : q = t.heapListp + total l + p.size) (hTotal : want.size + rest.size = b.size) :
    BoundaryHeap (t.withBytes (putTags (putTags t.bytes q want) (q + want.size) rest))
      (Cursor.blocks ⟨want :: p :: l, rest, r⟩) := by
  have hAt := h.pair.2
  have hStart := hAt.start_le
  have hSize := hAt.size_lt
  have hEight := rest.eight_le
  rw [← hq] at hStart
  have hOff : AgreeOff (q - 4) (q + want.size - 4) t.bytes (putTags t.bytes q want) :=
    putTags_agreeOff t.bytes want (by omega)
  have hOff' : AgreeOff (q + want.size - 4) (q + want.size + rest.size - 4) (putTags t.bytes q want)
      (putTags (putTags t.bytes q want) (q + want.size) rest) :=
    putTags_agreeOff (putTags t.bytes q want) rest (by omega)
  have hBlocks : Cursor.blocks ⟨want :: p :: l, rest, r⟩ = (p :: l).reverse ++ [want, rest] ++ r := by
    simp [Cursor.blocks]
  rw [hBlocks]
  apply h.replaceBlock hq (by simpa using hTotal)
  · refine ⟨?_, tagged_of_stores (by omega) (by omega), trivial⟩
    exact (tagged_of_stores (by omega) (by omega)).congr (by omega) (hOff'.agreeOn (.inl le_rfl))
  · exact (hOff.mono le_rfl (by omega)).trans (hOff'.mono (by omega) (by omega))

theorem OffTags.cut {start : Nat} (h : OffTags start (Cursor.blocks ⟨p :: l, b, r⟩) a)
    (hq : q = start + total l + p.size) (hTotal : want.size + rest.size = b.size)
    (hMiss : Misses a (q + want.size - 8) 8) :
    OffTags start (Cursor.blocks ⟨want :: p :: l, rest, r⟩) a := by
  refine ⟨h.first, fun x hx => ?_⟩
  have hOld := h.ends
  have hCut : Cursor.blocks ⟨want :: p :: l, rest, r⟩ = l.reverse ++ p :: want :: rest :: r := by
    simp [Cursor.blocks]
  have hWhole : Cursor.blocks ⟨p :: l, b, r⟩ = l.reverse ++ p :: b :: r := by
    simp [Cursor.blocks]
  rw [hCut] at hx
  rw [hWhole] at hOld
  simp only [addressed_append, addressed, total_reverse, List.mem_append, List.mem_cons, ← hq]
    at hx hOld
  obtain hx | rfl | rfl | rfl | hx := hx
  · exact hOld x (.inl hx)
  · exact hOld _ (.inr (.inl rfl))
  · exact hMiss
  · have hEnd := hOld (q, b) (.inr (.inr (.inl rfl)))
    rwa [← hTotal, ← Nat.add_assoc] at hEnd
  · rw [Nat.add_assoc q, hTotal] at hx
    exact hOld x (.inr (.inr (.inr hx)))

theorem OffTags.setAlloc {start : Nat} {left : List Block} {alloc : Bool}
    (h : OffTags start (Cursor.blocks ⟨left, b, r⟩) a) :
    OffTags start (Cursor.blocks ⟨left, b.setAlloc alloc, r⟩) a := by
  refine ⟨h.first, fun x hx => ?_⟩
  have hOld := h.ends
  simp only [Cursor.blocks, addressed_append, addressed, List.mem_append, List.mem_cons,
    size_setAlloc] at hx hOld
  obtain hx | rfl | hx := hx
  · exact hOld x (.inl hx)
  · exact hOld (_, b) (.inr (.inl rfl))
  · exact hOld x (.inr (.inr hx))

theorem BoundaryHeap.mergeAbove {left : List Block} {n : Block} {x : Nat}
    (h : BoundaryHeap t (Cursor.blocks ⟨want :: left, rest, n :: r⟩))
    (hx : x = t.heapListp + total left + want.size) :
    BoundaryHeap (t.withBytes (putTags t.bytes x (rest.merge n)))
      (Cursor.blocks ⟨want :: left, rest.merge n, r⟩) := by
  have hRest := h.pair.2
  have hAbove := h.above
  have hStart := hRest.start_le
  have hLt := h.total_lt
  simp only [Cursor.total_blocks, total_cons] at hLt
  rw [← hx] at hStart
  have hOld : Cursor.blocks ⟨want :: left, rest, n :: r⟩ =
      (want :: left).reverse ++ [rest, n] ++ r := by
    simp [Cursor.blocks]
  have hAddr : x = t.heapListp + total (want :: left).reverse := by
    rw [hx, total_reverse, total_cons]
    omega
  have hSize : total [rest, n] = (rest.merge n).size := by simp
  rw [hOld] at h
  rw [Cursor.blocks_eq]
  subst hAddr
  refine (h.replace (by simp) (by simp) ?_ ?_).after
  · exact ⟨tagged_of_stores (by omega) (by rw [size_merge]; omega), trivial⟩
  · rw [hSize]
    exact putTags_agreeOff t.bytes (rest.merge n) (by omega)

theorem OffTags.merge {start : Nat} {left : List Block} {n : Block}
    (h : OffTags start (Cursor.blocks ⟨left, rest, n :: r⟩) a) :
    OffTags start (Cursor.blocks ⟨left, rest.merge n, r⟩) a := by
  refine ⟨h.first, fun x hx => ?_⟩
  have hOld := h.ends
  simp only [Cursor.blocks, addressed_append, addressed, total_reverse, List.mem_append,
    List.mem_cons] at hx hOld
  obtain hx | rfl | hx := hx
  · exact hOld x (.inl hx)
  · have hEnd := hOld _ (.inr (.inr (.inl rfl)))
    rwa [Nat.add_assoc] at hEnd
  · rw [size_merge, ← Nat.add_assoc] at hx
    exact hOld x (.inr (.inr (.inr hx)))

theorem BoundaryHeap.of_writes {s' : State} {bs : List Block} {m : Bytes}
    (h : BoundaryHeap (t.withBytes m) bs) (hWrites : Writes t s') (hBytes : s'.bytes = m) :
    BoundaryHeap s' bs := by
  obtain ⟨hStart, hBrk, hListp⟩ := hWrites
  refine ⟨h.prologue, ?_, ?_, ?_, ?_, h.total_lt⟩
  · rw [hListp, hBytes]
    exact h.blocks
  · rw [hListp, hBytes]
    exact h.epilogue
  · rw [hStart, hListp]
    exact h.start_le
  · rw [hBrk, hListp]
    exact h.end_le

end Cut

end Cs33.Malloc
