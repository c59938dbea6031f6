import Cs33.Malloc.LiveBlocks

/-! # The free list threaded through the heap

`PRED` and `SUCC` load eight bytes each, four bytes apart, so the two fields
of a block share its second word. In a consistent list that word is the high
half of the block before and the low half of the block after, and a list of
three blocks would need addresses that no heap of `MAX_HEAP` bytes has.
-/

namespace Cs33.Malloc

open ByteMemory

/-- From `p` on, the `SUCC` fields lead through the given blocks to NULL, and each `PRED`
field names the block before, `prev` for the first. -/
def Linked (m : Bytes) : Nat → Nat → List (Nat × Block) → Prop
  | _, p, [] => p = NULL
  | prev, p, x :: links => p = x.1 ∧ loadLE m x.1 8 = prev ∧
      Linked m x.1 (loadLE m (x.1 + 4) 8) links

instance decidableLinked (m : Bytes) :
    (prev p : Nat) → (links : List (Nat × Block)) → Decidable (Linked m prev p links)
  | _, p, [] => inferInstanceAs (Decidable (p = NULL))
  | prev, p, x :: links =>
    have := decidableLinked m x.1 (loadLE m (x.1 + 4) 8) links
    inferInstanceAs (Decidable (p = x.1 ∧ loadLE m x.1 8 = prev ∧
      Linked m x.1 (loadLE m (x.1 + 4) 8) links))

def freeBlocks (start : Nat) (bs : List Block) : List (Nat × Block) :=
  (addressed start bs).filter fun x => !x.2.alloc

/-- The blocks tile the heap up to the brk, and the list from `heap_basefree` visits every
free block once. -/
structure Consistent (s : State) (bs : List Block) (links : List (Nat × Block)) : Prop where
  heap : BoundaryHeap s bs
  tiles : s.heapListp + total bs = s.memBrk
  sizes : ∀ b ∈ bs, 16 ≤ b.size
  linked : Linked s.bytes NULL s.heapBasefree links
  visits : links.Perm (freeBlocks s.heapListp bs)

theorem mem_freeBlocks {start : Nat} {bs : List Block} {x : Nat × Block} :
    x ∈ freeBlocks start bs ↔ x ∈ addressed start bs ∧ x.2.alloc = false := by
  simp [freeBlocks]

theorem mem_of_addressed {bp : Nat} {x : Nat × Block} {bs : List Block}
    (h : x ∈ addressed bp bs) : x.2 ∈ bs := by
  obtain ⟨l, r, rfl, -⟩ := mem_addressed h
  simp

/-- The prologue is allocated, so below a free block there is another one. -/
theorem BoundaryHeap.cursor_of_free {s : State} {bs : List Block} {q : Nat} {b : Block}
    (h : BoundaryHeap s bs) (hVisit : (q, b) ∈ freeBlocks s.heapListp bs) : ∃ l p right,
    bs = Cursor.blocks ⟨p :: l, b, right⟩ ∧ q = s.heapListp + total l + p.size := by
  obtain ⟨hMem, hFree⟩ := mem_freeBlocks.mp hVisit
  obtain ⟨l, right, rfl, rfl⟩ := mem_addressed hMem
  obtain ⟨first, users, hFirst, hAlloc⟩ := h.prologue
  obtain rfl | ⟨l, p, rfl⟩ := l.eq_nil_or_concat
  · cases hFirst
    dsimp only at hFree
    rw [hAlloc] at hFree
    cases hFree
  · refine ⟨l.reverse, p, right, by simp [Cursor.blocks], ?_⟩
    rw [total_reverse, List.concat_eq_append, total_append, total_cons, total_nil]
    omega

theorem shared_word (m : Bytes) (q : Nat) :
    loadLE m q 8 / 2 ^ 32 = loadLE m (q + 4) 8 % 2 ^ 32 := by
  have hPred := loadLE_add m q 4 4
  have hSucc := loadLE_add m (q + 4) 4 4
  have hLow := loadLE_lt m q 4
  have hMid := loadLE_lt m (q + 4) 4
  norm_num at hPred hSucc hLow hMid ⊢
  omega

theorem Linked.exists_low {m : Bytes} {prev p : Nat} {links : List (Nat × Block)}
    (h : Linked m prev p links) (hne : links ≠ []) :
    prev < 2 ^ 32 ∨ ∃ x ∈ links, x.1 < 2 ^ 32 := by
  induction links generalizing prev p with
  | nil => exact absurd rfl hne
  | cons x links ih =>
    obtain ⟨-, hPred, hTail⟩ := h
    cases links with
    | nil =>
      have hNull : loadLE m (x.1 + 4) 8 = 0 := hTail
      have hShared := shared_word m x.1
      rw [hPred, hNull] at hShared
      exact .inl (by omega)
    | cons y links =>
      obtain hLow | ⟨z, hMem, hLow⟩ := ih hTail (by simp)
      · exact .inr ⟨x, by simp, hLow⟩
      · exact .inr ⟨z, List.mem_cons_of_mem _ hMem, hLow⟩

theorem Linked.congr {m m' : Bytes} {prev p : Nat} {links : List (Nat × Block)}
    (h : Linked m prev p links) (hAgree : ∀ x ∈ links, AgreeOn x.1 (x.1 + 12) m m') :
    Linked m' prev p links := by
  induction links generalizing prev p with
  | nil => exact h
  | cons x links ih =>
    obtain ⟨hp, hPred, hTail⟩ := h
    have hHere := hAgree x List.mem_cons_self
    refine ⟨hp, ?_, ?_⟩
    · rw [loadLE_congr (hHere.mono le_rfl (by omega)), hPred]
    · rw [loadLE_congr (hHere.mono (by omega) (by omega))]
      exact ih hTail fun y hy => hAgree y (List.mem_cons_of_mem _ hy)

theorem BlockAt.fits {s : State} {q : Nat} {b : Block} (h : BlockAt s q b) (hFree : b.alloc = false)
    (hPred : loadLE s.bytes q 8 % 2 ^ 32 ≠ 8) (hSucc : loadLE s.bytes (q + 4) 8 / 2 ^ 32 ≠ 16) :
    24 ≤ b.size := by
  have hFooter := h.tagged.footer
  have hMod := b.size_mod
  have hPos := b.size_pos
  rw [b.tag_eq, hFree, Bool.toNat_false, Nat.add_zero] at hFooter
  have hLow := loadLE_add s.bytes q 4 4
  have hHigh := loadLE_add s.bytes (q + 4) 4 4
  have hWord := loadLE_lt s.bytes q 4
  have hWord' := loadLE_lt s.bytes (q + 4) 4
  norm_num at hLow hHigh hWord hWord'
  by_contra hSmall
  obtain hSize | hSize : b.size = 8 ∨ b.size = 16 := by omega
  · rw [hSize, Nat.add_sub_cancel] at hFooter
    omega
  · rw [hSize, show q + 16 - 8 = q + 4 + 4 by omega] at hFooter
    omega

/-- A doubly linked list from `heap_basefree` that visits free blocks of the heap, none of them
twice. -/
structure Threaded (s : State) (bs : List Block) (links : List (Nat × Block)) : Prop where
  heap : BoundaryHeap s bs
  linked : Linked s.bytes NULL s.heapBasefree links
  free : ∀ x ∈ links, x ∈ freeBlocks s.heapListp bs
  nodup : links.Nodup

namespace Threaded

variable {s : State} {bs : List Block} {links : List (Nat × Block)} {x y : Nat × Block}

theorem blockAt (h : Threaded s bs links) (hx : x ∈ links) : BlockAt s x.1 x.2 :=
  h.heap.blockAt_of_mem (mem_freeBlocks.mp (h.free x hx)).1

theorem bounds (h : Threaded s bs links) (hx : x ∈ links) :
    s.memStartBrk + 4 ≤ x.1 ∧ x.1 + x.2.size ≤ s.memStartBrk + maxHeap ∧
      x.1 % 8 = s.heapListp % 8 := by
  have hAt := h.blockAt hx
  have hEnd := hAt.end_le
  have hBrk := s.brk_le_max
  have hMax := s.max_eq
  exact ⟨hAt.start_le, by omega, addressed_mod (mem_freeBlocks.mp (h.free x hx)).1⟩

theorem inside (h : Threaded s bs links) (hx : x ∈ links) :
    s.memStartBrk + 4 ≤ x.1 ∧ x.1 + x.2.size ≤ s.memBrk :=
  ⟨(h.blockAt hx).start_le, (h.blockAt hx).end_le⟩

theorem apart (h : Threaded s bs links) (hx : x ∈ links) (hy : y ∈ links) (hNe : x ≠ y) :
    x.1 + x.2.size ≤ y.1 ∨ y.1 + y.2.size ≤ x.1 :=
  (addressed_apart (mem_freeBlocks.mp (h.free x hx)).1
    (mem_freeBlocks.mp (h.free y hy)).1).resolve_left hNe

theorem not_three {z : Nat × Block} {rest : List (Nat × Block)} :
    ¬ Threaded s bs (x :: y :: z :: rest) := by
  intro h
  obtain ⟨-, hPredX, hLinkY, hPredY, hLinkZ, -⟩ := h.linked
  obtain ⟨w, hW, hLow⟩ : ∃ w ∈ x :: y :: z :: rest, w.1 < 2 ^ 32 := by
    obtain hLow | ⟨w, hMem, hLow⟩ := h.linked.2.2.exists_low (by simp)
    · exact ⟨x, List.mem_cons_self, hLow⟩
    · exact ⟨w, List.mem_cons_of_mem _ hMem, hLow⟩
  have hSharedX := shared_word s.bytes x.1
  have hSharedY := shared_word s.bytes y.1
  rw [hPredX, hLinkY, NULL] at hSharedX
  rw [hPredY, hLinkZ] at hSharedY
  have hY : y ∈ x :: y :: z :: rest := by simp
  have hZ : z ∈ x :: y :: z :: rest := by simp
  have hNe : y ≠ z := by
    rintro rfl
    have hNodup := h.nodup
    simp at hNodup
  have hApart := h.apart hY hZ hNe
  have hSizeY := y.2.size_pos
  have hSizeZ := z.2.size_pos
  obtain ⟨hXLo, hXHi, -⟩ := h.bounds List.mem_cons_self
  obtain ⟨hYLo, hYHi, hYMod⟩ := h.bounds hY
  obtain ⟨hZLo, hZHi, hZMod⟩ := h.bounds hZ
  obtain ⟨hWLo, hWHi, -⟩ := h.bounds hW
  unfold maxHeap at *
  omega

theorem eq_pair (h : Threaded s bs links) (hx : x ∈ links) (hy : y ∈ links) (hNe : x ≠ y) :
    links = [x, y] ∨ links = [y, x] := by
  obtain _ | ⟨u, _ | ⟨v, _ | ⟨w, rest⟩⟩⟩ := links
  · cases hx
  · rw [List.mem_singleton] at hx hy
    exact absurd (hx.trans hy.symm) hNe
  · simp only [List.mem_cons, List.not_mem_nil, or_false] at hx hy
    obtain rfl | rfl := hx <;> obtain rfl | rfl := hy
    · exact absurd rfl hNe
    · exact .inl rfl
    · exact .inr rfl
    · exact absurd rfl hNe
  · exact absurd h not_three

/-- A list has one block, or it is followed or preceded by one other. -/
theorem shape (h : Threaded s bs links) (hx : x ∈ links) :
    links = [x] ∨ ∃ y, links = [x, y] ∨ links = [y, x] := by
  obtain _ | ⟨y, _ | ⟨z, _ | ⟨w, rest⟩⟩⟩ := links
  · cases hx
  · obtain rfl := List.mem_singleton.mp hx
    exact .inl rfl
  · obtain rfl | hx := List.mem_cons.mp hx
    · exact .inr ⟨z, .inl rfl⟩
    · obtain rfl := List.mem_singleton.mp hx
      exact .inr ⟨y, .inr rfl⟩
  · exact absurd h not_three

/-- The words of a list of two blocks leave room for one pair of places only. -/
theorem pair (h : Threaded s bs [x, y]) : x.1 + x.2.size ≤ 2 ^ 32 ∧ y.1 = 2 ^ 32 := by
  have hNe : x ≠ y := by
    rintro rfl
    have hNodup := h.nodup
    simp at hNodup
  have hApart := h.apart (x := x) (y := y) (by simp) (by simp) hNe
  have hSize := x.2.size_pos
  obtain ⟨-, hPredX, hLinkY, hPredY, hEnd⟩ := h.linked
  have hSharedX := shared_word s.bytes x.1
  have hSharedY := shared_word s.bytes y.1
  rw [hPredX, hLinkY, NULL] at hSharedX
  rw [hPredY, show loadLE s.bytes (y.1 + 4) 8 = 0 from hEnd] at hSharedY
  obtain ⟨hXLo, hXHi, -⟩ := h.bounds (x := x) (by simp)
  obtain ⟨hYLo, hYHi, -⟩ := h.bounds (x := y) (by simp)
  unfold maxHeap at *
  omega

/-- The links of a block on the list are no tags, so the block holds both of them. -/
theorem fits (h : Threaded s bs links) (hx : x ∈ links) : 24 ≤ x.2.size := by
  have hFree := (mem_freeBlocks.mp (h.free x hx)).2
  obtain _ | ⟨y, _ | ⟨z, _ | ⟨w, rest⟩⟩⟩ := links
  · cases hx
  · obtain rfl := List.mem_singleton.mp hx
    obtain ⟨-, hPred, hEnd⟩ := h.linked
    apply (h.blockAt hx).fits hFree
    · rw [hPred]
      decide
    · rw [show loadLE s.bytes (x.1 + 4) 8 = 0 from hEnd]
      decide
  · obtain ⟨hLow, hHigh⟩ := h.pair
    obtain ⟨-, hPred, hLink, hPred', hEnd⟩ := h.linked
    obtain rfl | hx := List.mem_cons.mp hx
    · apply (h.blockAt List.mem_cons_self).fits hFree
      · rw [hPred]
        decide
      · rw [hLink, hHigh]
        decide
    · obtain rfl := List.mem_singleton.mp hx
      obtain ⟨hLo, -, -⟩ := h.bounds List.mem_cons_self
      obtain ⟨-, hHi, -⟩ := h.bounds (List.mem_cons_of_mem y List.mem_cons_self)
      have hPos := y.2.size_pos
      unfold maxHeap at *
      apply (h.blockAt (by simp)).fits hFree
      · rw [hPred']
        omega
      · rw [show loadLE s.bytes (x.1 + 4) 8 = 0 from hEnd]
        decide
  · exact absurd h not_three

end Threaded

namespace Consistent

variable {s : State} {bs : List Block} {links : List (Nat × Block)}

theorem mem_iff (h : Consistent s bs links) {x : Nat × Block} :
    x ∈ links ↔ x ∈ addressed s.heapListp bs ∧ x.2.alloc = false := by
  rw [h.visits.mem_iff, mem_freeBlocks]

theorem threaded (h : Consistent s bs links) : Threaded s bs links :=
  ⟨h.heap, h.linked, fun _ hx => h.visits.mem_iff.mp hx,
    h.visits.nodup_iff.mpr ((addressed_nodup _ _).filter _)⟩

end Consistent

end Cs33.Malloc
