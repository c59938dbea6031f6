import Cs33.Malloc.Macros
import Mathlib.Data.List.Chain

/-! # Block sequences, the abstract heap

A `Block` is a size and an allocation bit, with the size a positive multiple
of eight. A heap is a sequence of blocks in address order. `Cursor` points at
one block of such a sequence, and `Cursor.coalesced` is the sequence after the
block and its free neighbours have become one free block.
-/

namespace Cs33.Malloc

structure Block where
  size : Nat
  alloc : Bool
  size_mod : size % 8 = 0
  size_pos : 0 < size
deriving DecidableEq

/-- The block whose size is the largest legal one up to `size`, and at least 8. -/
def Block.ofSize (size : Nat) (alloc : Bool) : Block where
  size := 8 * max 1 (size / 8)
  alloc := alloc
  size_mod := Nat.mul_mod_right 8 _
  size_pos := by omega

def Block.tag (b : Block) : Nat := pack b.size b.alloc.toNat

def Block.setAlloc (b : Block) (alloc : Bool) : Block := { b with alloc := alloc }

/-- One free block on the space of two adjacent ones. -/
def Block.merge (a b : Block) : Block where
  size := a.size + b.size
  alloc := false
  size_mod := by
    have ha := a.size_mod
    have hb := b.size_mod
    omega
  size_pos := Nat.add_pos_left a.size_pos _

def total (bs : List Block) : Nat := (bs.map Block.size).sum

/-- No two neighbours are both free. -/
def NoFreePair (bs : List Block) : Prop := bs.IsChain fun x y => x.alloc = true ∨ y.alloc = true

/-- A block of a sequence, with the blocks below it, nearest first, and above it. -/
structure Cursor where
  left : List Block
  block : Block
  right : List Block

def Cursor.blocks (c : Cursor) : List Block := c.left.reverse ++ c.block :: c.right

def Cursor.addr (start : Nat) (c : Cursor) : Nat := start + total c.left

def Cursor.absorbNext : Cursor → Cursor
  | ⟨left, b, []⟩ => ⟨left, b, []⟩
  | ⟨left, b, n :: right⟩ =>
    if n.alloc then ⟨left, b, n :: right⟩ else ⟨left, b.merge n, right⟩

def Cursor.absorbPrev : Cursor → Cursor
  | ⟨[], b, right⟩ => ⟨[], b, right⟩
  | ⟨p :: left, b, right⟩ =>
    if p.alloc then ⟨p :: left, b, right⟩ else ⟨left, p.merge b, right⟩

/-- The block and those of its two neighbours that are free, as one free block. -/
def Cursor.coalesced (c : Cursor) : Cursor := c.absorbNext.absorbPrev

/-- The free block of lowest address that holds `asize` bytes, below it the blocks `left`. -/
def firstFit (asize : Nat) : (left right : List Block) → Option Cursor
  | _, [] => none
  | left, b :: right =>
    if b.alloc = false ∧ asize ≤ b.size then some ⟨left, b, right⟩
    else firstFit asize (b :: left) right

/-- What is left of a block above its first `want.size` bytes. -/
def Block.rest (b want : Block) (h : want.size < b.size) : Block where
  size := b.size - want.size
  alloc := false
  size_mod := by
    have hb := b.size_mod
    have hw := want.size_mod
    omega
  size_pos := Nat.sub_pos_of_lt h

/-- The blocks that an allocation of `want` makes of `b` when a remainder of `least` bytes
is worth keeping. -/
def Block.split (least : Nat) (b want : Block) : List Block :=
  if h : want.size < b.size ∧ want.size + least ≤ b.size then [want, b.rest want h.1]
  else [b.setAlloc true]

def addressed : Nat → List Block → List (Nat × Block)
  | _, [] => []
  | bp, b :: bs => (bp, b) :: addressed (bp + b.size) bs

/-! ## Sizes and tags -/

@[simp] theorem total_nil : total [] = 0 := rfl

@[simp] theorem total_cons (b : Block) (bs : List Block) : total (b :: bs) = b.size + total bs := by
  simp [total]

@[simp] theorem total_append (xs ys : List Block) : total (xs ++ ys) = total xs + total ys := by
  simp [total]

@[simp] theorem total_reverse (xs : List Block) : total xs.reverse = total xs := by
  simp [total, List.sum_reverse]

@[simp] theorem size_setAlloc (b : Block) (alloc : Bool) : (b.setAlloc alloc).size = b.size := rfl

@[simp] theorem size_merge (a b : Block) : (a.merge b).size = a.size + b.size := rfl

theorem Block.eight_le (b : Block) : 8 ≤ b.size := by
  have hMod := b.size_mod
  have hPos := b.size_pos
  omega

theorem Block.toNat_alloc_le (b : Block) : b.alloc.toNat ≤ 1 := by cases b.alloc <;> decide

theorem Block.tag_eq (b : Block) : b.tag = b.size + b.alloc.toNat :=
  pack_eq b.size_mod b.toNat_alloc_le

theorem Block.tag_lt {b : Block} (h : b.size < 2 ^ 32) : b.tag < 2 ^ 32 := by
  have hMod := b.size_mod
  have hTag := b.tag_eq
  have hAlloc := b.toNat_alloc_le
  omega

theorem sizeBits_tag {b : Block} (h : b.size < 2 ^ 32) : sizeBits b.tag = b.size := by
  have hMod := b.size_mod
  have hAlloc := b.toNat_alloc_le
  rw [sizeBits_eq (Block.tag_lt h), b.tag_eq]
  omega

theorem allocBit_tag (b : Block) : allocBit b.tag = b.alloc.toNat := by
  have hMod := b.size_mod
  have hAlloc := b.toNat_alloc_le
  rw [allocBit_eq, b.tag_eq]
  omega

theorem pack_zero_eq_tag {b : Block} (h : b.alloc = false) : pack b.size 0 = b.tag := by
  rw [Block.tag, h]
  rfl

theorem pack_one_eq_tag {b : Block} (h : b.alloc = true) : pack b.size 1 = b.tag := by
  rw [Block.tag, h]
  rfl

theorem Block.ofSize_self (b : Block) : Block.ofSize b.size b.alloc = b := by
  have hMod := b.size_mod
  have hPos := b.size_pos
  have hSize : 8 * max 1 (b.size / 8) = b.size := by omega
  obtain ⟨size, alloc, _, _⟩ := b
  simp only [Block.ofSize, Block.mk.injEq, and_true]
  exact hSize

theorem eight_mul_length_le (bs : List Block) : 8 * bs.length ≤ total bs := by
  induction bs with
  | nil => simp
  | cons b bs ih =>
    have hEight := b.eight_le
    simp only [List.length_cons, total_cons]
    omega

/-! ## First fit and splitting -/

theorem firstFit_some {asize : Nat} {left right : List Block} {c : Cursor}
    (h : firstFit asize left right = some c) :
    c.blocks = left.reverse ++ right ∧ left <:+ c.left ∧ c.block.alloc = false ∧
      asize ≤ c.block.size := by
  induction right generalizing left with
  | nil => cases h
  | cons b right ih =>
    rw [firstFit] at h
    split at h
    · rename_i hFit
      cases h
      exact ⟨rfl, List.suffix_rfl, hFit⟩
    · obtain ⟨hBlocks, hSuffix, hFit⟩ := ih h
      exact ⟨by simpa using hBlocks, (List.suffix_cons b left).trans hSuffix, hFit⟩

theorem firstFit_skips {asize : Nat} {left right : List Block} {c : Cursor}
    (h : firstFit asize left right = some c) : ∃ skipped, c.left = skipped ++ left ∧
      ∀ b ∈ skipped, b.alloc = false → b.size < asize := by
  induction right generalizing left with
  | nil => cases h
  | cons b right ih =>
    rw [firstFit] at h
    split at h
    · cases h
      exact ⟨[], rfl, by simp⟩
    · rename_i hFit
      obtain ⟨skipped, hLeft, hSkipped⟩ := ih h
      refine ⟨skipped ++ [b], by rw [hLeft, List.append_assoc]; rfl, ?_⟩
      intro x hx hFree
      obtain hx | hx := List.mem_append.mp hx
      · exact hSkipped x hx hFree
      · obtain rfl := List.mem_singleton.mp hx
        exact Nat.lt_of_not_le fun hSize => hFit ⟨hFree, hSize⟩

theorem firstFit_none {asize : Nat} {left right : List Block}
    (h : firstFit asize left right = none) : ∀ b ∈ right, b.alloc = false → b.size < asize := by
  induction right generalizing left with
  | nil => simp
  | cons b right ih =>
    rw [firstFit] at h
    split at h
    · cases h
    · rename_i hFit
      intro x hx hFree
      obtain rfl | hx := List.mem_cons.mp hx
      · exact Nat.lt_of_not_le fun hSize => hFit ⟨hFree, hSize⟩
      · exact ih h x hx hFree

theorem total_split (least : Nat) (b want : Block) : total (b.split least want) = b.size := by
  rw [Block.split]
  split
  · rename_i h
    simp only [total_cons, total_nil, Block.rest]
    omega
  · simp

/-! ## Addresses -/

theorem addressed_append (bp : Nat) (xs ys : List Block) :
    addressed bp (xs ++ ys) = addressed bp xs ++ addressed (bp + total xs) ys := by
  induction xs generalizing bp with
  | nil => rfl
  | cons x xs ih =>
    rw [List.cons_append, addressed, addressed, ih, total_cons, Nat.add_assoc, List.cons_append]

theorem length_addressed (bp : Nat) (bs : List Block) : (addressed bp bs).length = bs.length := by
  induction bs generalizing bp with
  | nil => rfl
  | cons b bs ih => rw [addressed, List.length_cons, List.length_cons, ih]

theorem addressed_bounds {bp q : Nat} {b : Block} {bs : List Block}
    (h : (q, b) ∈ addressed bp bs) : bp ≤ q ∧ q + b.size ≤ bp + total bs := by
  induction bs generalizing bp with
  | nil => cases h
  | cons x bs ih =>
    rw [addressed, List.mem_cons] at h
    rw [total_cons]
    obtain h | h := h
    · cases h
      omega
    · have hBounds := ih h
      omega

theorem mem_addressed {bp q : Nat} {b : Block} {bs : List Block} (h : (q, b) ∈ addressed bp bs) :
    ∃ l r, bs = l ++ b :: r ∧ q = bp + total l := by
  induction bs generalizing bp with
  | nil => cases h
  | cons x bs ih =>
    rw [addressed, List.mem_cons] at h
    obtain h | h := h
    · cases h
      exact ⟨[], bs, rfl, rfl⟩
    · obtain ⟨l, r, rfl, rfl⟩ := ih h
      exact ⟨x :: l, r, rfl, by rw [total_cons, Nat.add_assoc]⟩

theorem Cursor.blocks_eq (c : Cursor) : c.blocks = c.left.reverse ++ [c.block] ++ c.right := by
  simp [Cursor.blocks]

theorem Cursor.mem_addressed (c : Cursor) (start : Nat) :
    (c.addr start, c.block) ∈ addressed start c.blocks := by
  rw [Cursor.blocks, addressed_append, total_reverse]
  exact List.mem_append_right _ List.mem_cons_self

theorem Cursor.mem_prev (start : Nat) (l right : List Block) (p b : Block) :
    (start + total l, p) ∈ addressed start (Cursor.blocks ⟨p :: l, b, right⟩) := by
  have hMem := Cursor.mem_addressed ⟨l, p, b :: right⟩ start
  rwa [show Cursor.blocks ⟨l, p, b :: right⟩ = Cursor.blocks ⟨p :: l, b, right⟩ by
    simp [Cursor.blocks]] at hMem

theorem Cursor.mem_next (start : Nat) (left r : List Block) (b n : Block) :
    (Cursor.addr start ⟨left, b, n :: r⟩ + b.size, n) ∈
      addressed start (Cursor.blocks ⟨left, b, n :: r⟩) := by
  have hMem := Cursor.mem_addressed ⟨b :: left, n, r⟩ start
  rw [show Cursor.blocks ⟨b :: left, n, r⟩ = Cursor.blocks ⟨left, b, n :: r⟩ by
    simp [Cursor.blocks]] at hMem
  rwa [Cursor.addr, total_cons, Nat.add_comm b.size, ← Nat.add_assoc] at hMem

theorem exists_addressed (bp : Nat) {b : Block} {bs : List Block} (h : b ∈ bs) :
    ∃ q, (q, b) ∈ addressed bp bs := by
  obtain ⟨l, r, rfl⟩ := List.append_of_mem h
  refine ⟨bp + total l, ?_⟩
  rw [addressed_append]
  exact List.mem_append_right _ List.mem_cons_self

theorem addressed_mod {bp q : Nat} {b : Block} {bs : List Block} (h : (q, b) ∈ addressed bp bs) :
    q % 8 = bp % 8 := by
  induction bs generalizing bp with
  | nil => cases h
  | cons x bs ih =>
    rw [addressed, List.mem_cons] at h
    obtain h | h := h
    · cases h
      rfl
    · have hMod := x.size_mod
      rw [ih h]
      omega

theorem addressed_apart {bp : Nat} {x y : Nat × Block} {bs : List Block}
    (hx : x ∈ addressed bp bs) (hy : y ∈ addressed bp bs) :
    x = y ∨ x.1 + x.2.size ≤ y.1 ∨ y.1 + y.2.size ≤ x.1 := by
  induction bs generalizing bp with
  | nil => cases hx
  | cons b bs ih =>
    rw [addressed, List.mem_cons] at hx hy
    obtain rfl | hx := hx <;> obtain rfl | hy := hy
    · exact .inl rfl
    · exact .inr (.inl (addressed_bounds hy).1)
    · exact .inr (.inr (addressed_bounds hx).1)
    · exact ih hx hy

theorem addressed_nodup (bp : Nat) (bs : List Block) : (addressed bp bs).Nodup := by
  induction bs generalizing bp with
  | nil => exact .nil
  | cons b bs ih =>
    refine List.nodup_cons.mpr ⟨fun hMem => ?_, ih _⟩
    have hPos := b.size_pos
    have hBounds := addressed_bounds hMem
    omega

theorem noFreePair_split {l r : List Block} {b want : Block} {least : Nat}
    (h : NoFreePair (l ++ b :: r)) (hFree : b.alloc = false) (hAlloc : want.alloc = true) :
    NoFreePair (l ++ b.split least want ++ r) := by
  have hLeft := h.left_of_append
  have hTail := h.right_of_append
  have hRight : NoFreePair r := hTail.tail
  have hHead : ∀ y ∈ r.head?, y.alloc = true := fun y hy =>
    (hTail.rel_head? hy).resolve_left (by simp [hFree])
  rw [Block.split]
  split
  · rw [List.append_assoc]
    apply hLeft.append
    · refine (hRight.cons ?_).cons ?_
      · exact fun y hy => .inr (hHead y hy)
      · exact fun _ _ => .inl hAlloc
    · intro x _ y hy
      cases hy
      exact .inr hAlloc
  · rw [List.append_assoc]
    apply hLeft.append
    · exact hRight.cons fun _ _ => .inl rfl
    · intro x _ y hy
      cases hy
      exact .inr rfl

theorem le_of_mem_split {least : Nat} {b want x : Block} (h : x ∈ b.split least want) :
    least ≤ x.size ∨ x = want ∨ x = b.setAlloc true := by
  rw [Block.split] at h
  split at h
  · rename_i hSplit
    simp only [List.mem_cons, List.not_mem_nil, or_false] at h
    obtain rfl | rfl := h
    · exact .inr (.inl rfl)
    · refine .inl ?_
      change least ≤ b.size - want.size
      omega
  · simp only [List.mem_cons, List.not_mem_nil, or_false] at h
    exact .inr (.inr h)

/-! ## Coalescing a cursor -/

namespace Cursor

@[simp] theorem total_blocks (c : Cursor) :
    total c.blocks = total c.left + (c.block.size + total c.right) := by
  simp [blocks]

theorem absorbNext_alloc {left right : List Block} {b n : Block} (h : n.alloc = true) :
    absorbNext ⟨left, b, n :: right⟩ = ⟨left, b, n :: right⟩ := by
  rw [absorbNext, if_pos h]

theorem absorbNext_free {left right : List Block} {b n : Block} (h : n.alloc = false) :
    absorbNext ⟨left, b, n :: right⟩ = ⟨left, b.merge n, right⟩ := by
  rw [absorbNext, if_neg (by simp [h])]

theorem absorbPrev_alloc {left right : List Block} {b p : Block} (h : p.alloc = true) :
    absorbPrev ⟨p :: left, b, right⟩ = ⟨p :: left, b, right⟩ := by
  rw [absorbPrev, if_pos h]

theorem absorbPrev_free {left right : List Block} {b p : Block} (h : p.alloc = false) :
    absorbPrev ⟨p :: left, b, right⟩ = ⟨left, p.merge b, right⟩ := by
  rw [absorbPrev, if_neg (by simp [h])]

theorem absorbNext_cases (c : Cursor) :
    (c.absorbNext = c ∧ ∀ y ∈ c.right.head?, y.alloc = true) ∨
      ∃ n right, c.right = n :: right ∧ n.alloc = false ∧
        c.absorbNext = ⟨c.left, c.block.merge n, right⟩ := by
  obtain ⟨left, b, right⟩ := c
  cases right with
  | nil => exact .inl ⟨rfl, by simp⟩
  | cons n right =>
    cases h : n.alloc with
    | true => exact .inl ⟨absorbNext_alloc h, by simpa using h⟩
    | false => exact .inr ⟨n, right, rfl, h, absorbNext_free h⟩

theorem absorbPrev_cases (c : Cursor) :
    (c.absorbPrev = c ∧ ∀ x ∈ c.left.head?, x.alloc = true) ∨
      ∃ p left, c.left = p :: left ∧ p.alloc = false ∧
        c.absorbPrev = ⟨left, p.merge c.block, c.right⟩ := by
  obtain ⟨left, b, right⟩ := c
  cases left with
  | nil => exact .inl ⟨rfl, by simp⟩
  | cons p left =>
    cases h : p.alloc with
    | true => exact .inl ⟨absorbPrev_alloc h, by simpa using h⟩
    | false => exact .inr ⟨p, left, rfl, h, absorbPrev_free h⟩

theorem absorbNext_left (c : Cursor) : c.absorbNext.left = c.left := by
  obtain ⟨h, -⟩ | ⟨n, right, -, -, h⟩ := c.absorbNext_cases <;> rw [h]

theorem absorbPrev_right (c : Cursor) : c.absorbPrev.right = c.right := by
  obtain ⟨h, -⟩ | ⟨p, left, -, -, h⟩ := c.absorbPrev_cases <;> rw [h]

theorem total_coalesced (c : Cursor) : total c.coalesced.blocks = total c.blocks := by
  have hNext : total c.absorbNext.blocks = total c.blocks := by
    obtain ⟨h, -⟩ | ⟨n, right, hRight, -, h⟩ := c.absorbNext_cases
    · rw [h]
    · simp only [h, total_blocks, hRight, size_merge, total_cons]
      omega
  rw [← hNext, coalesced]
  obtain ⟨h, -⟩ | ⟨p, left, hLeft, -, h⟩ := c.absorbNext.absorbPrev_cases
  · rw [h]
  · simp only [h, total_blocks, hLeft, size_merge, total_cons]
    omega

theorem coalesced_parts (c : Cursor) : ∃ below above,
    c.left.reverse = c.coalesced.left.reverse ++ below ∧ c.right = above ++ c.coalesced.right ∧
      (∀ x ∈ below ++ above, x.alloc = false) ∧
      c.coalesced.block.size = total below + c.block.size + total above := by
  obtain ⟨above, hRight, hFree, hSize⟩ : ∃ above, c.right = above ++ c.absorbNext.right ∧
      (∀ x ∈ above, x.alloc = false) ∧ c.absorbNext.block.size = c.block.size + total above := by
    obtain ⟨h, -⟩ | ⟨n, right, hRight, hn, h⟩ := c.absorbNext_cases
    · exact ⟨[], by rw [h, List.nil_append], by simp, by rw [h]; rfl⟩
    · exact ⟨[n], by rw [h, hRight]; rfl, by simpa using hn, by rw [h]; simp⟩
  obtain ⟨h, -⟩ | ⟨p, left, hLeft, hp, h⟩ := c.absorbNext.absorbPrev_cases
  · refine ⟨[], above, ?_, ?_, by simpa using hFree, ?_⟩
    · rw [coalesced, h, absorbNext_left, List.append_nil]
    · rw [coalesced, h, hRight]
    · rw [coalesced, h, hSize, total_nil, Nat.zero_add]
  · rw [absorbNext_left] at hLeft
    refine ⟨[p], above, ?_, ?_, ?_, ?_⟩
    · rw [coalesced, h, hLeft, List.reverse_cons]
    · rw [coalesced, h, hRight]
    · simpa [hp] using hFree
    · rw [coalesced, h, size_merge, hSize, total_cons, total_nil]
      omega

theorem coalesced_left_ne_nil {c : Cursor} {p : Block} {users : List Block}
    (hBlocks : c.blocks = p :: users) (hp : p.alloc = true) (hFree : c.block.alloc = false) :
    c.coalesced.left ≠ [] := by
  have hLeft : c.left ≠ [] := by
    intro hNil
    rw [blocks, hNil] at hBlocks
    cases hBlocks
    rw [hp] at hFree
    cases hFree
  obtain ⟨h, -⟩ | ⟨q, left, hEq, hq, h⟩ := c.absorbNext.absorbPrev_cases
  · rwa [coalesced, h, absorbNext_left]
  · rw [absorbNext_left] at hEq
    rw [coalesced, h]
    rintro rfl
    rw [blocks, hEq] at hBlocks
    cases hBlocks
    rw [hp] at hq
    cases hq

theorem alloc_coalesced {c : Cursor} (h : c.block.alloc = false) :
    c.coalesced.block.alloc = false := by
  have hNext : c.absorbNext.block.alloc = false := by
    obtain ⟨h', -⟩ | ⟨n, right, -, -, h'⟩ := c.absorbNext_cases <;> rw [h']
    · exact h
    · rfl
  obtain ⟨h', -⟩ | ⟨p, left, -, -, h'⟩ := c.absorbNext.absorbPrev_cases <;> rw [coalesced, h']
  · exact hNext
  · rfl

theorem absorbNext_right {c : Cursor} (h : NoFreePair c.right) :
    NoFreePair c.absorbNext.right ∧ ∀ y ∈ c.absorbNext.right.head?, y.alloc = true := by
  obtain ⟨h', hHead⟩ | ⟨n, right, hRight, hn, h'⟩ := c.absorbNext_cases
  · rw [h']
    exact ⟨h, hHead⟩
  · rw [h']
    rw [hRight] at h
    exact ⟨h.tail, fun y hy => (h.rel_head? hy).resolve_left (by simp [hn])⟩

theorem absorbPrev_left {c : Cursor} (h : NoFreePair c.left.reverse) :
    NoFreePair c.absorbPrev.left.reverse ∧ ∀ x ∈ c.absorbPrev.left.head?, x.alloc = true := by
  obtain ⟨h', hHead⟩ | ⟨p, left, hLeft, hp, h'⟩ := c.absorbPrev_cases
  · rw [h']
    exact ⟨h, hHead⟩
  · rw [h']
    rw [hLeft] at h
    have hDown := List.isChain_reverse.mp h
    exact ⟨List.isChain_reverse.mpr hDown.tail,
      fun x hx => (hDown.rel_head? hx).resolve_right (by simp [hp])⟩

theorem noFreePair_coalesced {c : Cursor} (hLeft : NoFreePair c.left.reverse)
    (hRight : NoFreePair c.right) : NoFreePair c.coalesced.blocks := by
  have hLeft' : NoFreePair c.absorbNext.left.reverse := by rwa [absorbNext_left]
  obtain ⟨hBelow, hBelowHead⟩ := absorbPrev_left hLeft'
  obtain ⟨hAbove, hAboveHead⟩ := absorbNext_right hRight
  have hTail : c.coalesced.right = c.absorbNext.right := absorbPrev_right _
  apply List.IsChain.append hBelow
  · apply List.IsChain.cons
    · rwa [hTail]
    · intro y hy
      rw [hTail] at hy
      exact .inr (hAboveHead y hy)
  · intro x hx y hy
    rw [List.getLast?_reverse] at hx
    exact .inl (hBelowHead x hx)

end Cursor

end Cs33.Malloc
