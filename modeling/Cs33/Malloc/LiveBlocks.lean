import Cs33.Malloc.Tags

/-! # Live blocks

A heap that is well tagged spells one block sequence only, so the allocated
user blocks are a property of the state. A rewrite of one run of adjacent
blocks changes the live blocks of that run and of no other.
-/

namespace Cs33.Malloc

open ByteMemory

def liveIn (bp : Nat) (bs : List Block) : List (Nat × Nat) :=
  ((addressed bp bs).filter fun x => x.2.alloc).map fun x => (x.1, x.2.size)

def liveBlocks (start : Nat) : List Block → List (Nat × Nat)
  | [] => []
  | p :: users => liveIn (start + p.size) users

/-- An allocated user block of `n` bytes stands at `bp`. -/
def Live (s : State) (bp n : Nat) : Prop :=
  ∃ bs, BoundaryHeap s bs ∧ (bp, n) ∈ liveBlocks s.heapListp bs

/-! ## The block sequence is determined by the memory -/

theorem Block.tag_injective {a b : Block} (h : a.tag = b.tag) : a = b := by
  have ha := a.tag_eq
  have hb := b.tag_eq
  have haMod := a.size_mod
  have hbMod := b.size_mod
  obtain ⟨size, alloc, _, _⟩ := a
  obtain ⟨size', alloc', _, _⟩ := b
  cases alloc <;> cases alloc' <;> simp only [Bool.toNat_true, Bool.toNat_false] at * <;>
    simp only [Block.mk.injEq, and_true, Bool.false_eq_true, Bool.true_eq_false, and_false] <;>
    omega

theorem Block.tag_ne_epilogue (b : Block) : b.tag ≠ pack 0 1 := by
  have hTag := b.tag_eq
  have hEight := b.eight_le
  rw [pack_eq (by decide) le_rfl]
  omega

theorem blocks_unique {m : Bytes} {bp : Nat} {bs cs : List Block} (hbs : Blocks m bp bs)
    (hcs : Blocks m bp cs) (hbsEnd : loadLE m (bp + total bs - 4) 4 = pack 0 1)
    (hcsEnd : loadLE m (bp + total cs - 4) 4 = pack 0 1) : bs = cs := by
  induction bs generalizing bp cs with
  | nil =>
    cases cs with
    | nil => rfl
    | cons c cs => exact absurd (hcs.1.header.symm.trans hbsEnd) c.tag_ne_epilogue
  | cons b bs ih =>
    cases cs with
    | nil => exact absurd (hbs.1.header.symm.trans hcsEnd) b.tag_ne_epilogue
    | cons c cs =>
      have hHead : b = c := Block.tag_injective (hbs.1.header.symm.trans hcs.1.header)
      subst hHead
      rw [total_cons, ← Nat.add_assoc] at hbsEnd hcsEnd
      rw [ih hbs.2 hcs.2 hbsEnd hcsEnd]

theorem BoundaryHeap.unique {s : State} {bs cs : List Block} (hbs : BoundaryHeap s bs)
    (hcs : BoundaryHeap s cs) : bs = cs :=
  blocks_unique hbs.blocks hcs.blocks hbs.epilogue hcs.epilogue

theorem BoundaryHeap.live_iff {s : State} {bs : List Block} (h : BoundaryHeap s bs) (q k : Nat) :
    Live s q k ↔ (q, k) ∈ liveBlocks s.heapListp bs := by
  constructor
  · rintro ⟨cs, hcs, hMem⟩
    rwa [h.unique hcs]
  · intro hMem
    exact ⟨bs, h, hMem⟩

/-! ## Live blocks of a sequence -/

theorem liveIn_append (bp : Nat) (xs ys : List Block) :
    liveIn bp (xs ++ ys) = liveIn bp xs ++ liveIn (bp + total xs) ys := by
  simp only [liveIn, addressed_append, List.filter_append, List.map_append]

theorem liveBlocks_append (start : Nat) {l : List Block} (hl : l ≠ []) (ys : List Block) :
    liveBlocks start (l ++ ys) = liveBlocks start l ++ liveIn (start + total l) ys := by
  cases l with
  | nil => exact absurd rfl hl
  | cons p users =>
    simp only [List.cons_append, liveBlocks, liveIn_append, total_cons, Nat.add_assoc]

theorem mem_liveIn {bp q k : Nat} {bs : List Block} : (q, k) ∈ liveIn bp bs ↔
    ∃ b, (q, b) ∈ addressed bp bs ∧ b.alloc = true ∧ b.size = k := by
  simp only [liveIn, List.mem_map, List.mem_filter, Prod.mk.injEq, Prod.exists]
  constructor
  · rintro ⟨q, b, ⟨hMem, hAlloc⟩, rfl, rfl⟩
    exact ⟨b, hMem, hAlloc, rfl⟩
  · rintro ⟨b, hMem, hAlloc, rfl⟩
    exact ⟨q, b, ⟨hMem, hAlloc⟩, rfl, rfl⟩

theorem liveIn_bounds {bp q k : Nat} {bs : List Block} (h : (q, k) ∈ liveIn bp bs) :
    bp ≤ q ∧ q + k ≤ bp + total bs ∧ 8 ≤ k := by
  obtain ⟨b, hMem, -, rfl⟩ := mem_liveIn.mp h
  obtain ⟨hLo, hHi⟩ := addressed_bounds hMem
  exact ⟨hLo, hHi, b.eight_le⟩

theorem liveBlocks_bounds {start q k : Nat} {bs : List Block} (h : (q, k) ∈ liveBlocks start bs) :
    start ≤ q ∧ q + k ≤ start + total bs ∧ 8 ≤ k := by
  cases bs with
  | nil => cases h
  | cons p users =>
    have hBounds := liveIn_bounds h
    rw [total_cons]
    omega

theorem liveIn_free {bp : Nat} {bs : List Block} (h : ∀ b ∈ bs, b.alloc = false) :
    liveIn bp bs = [] := by
  induction bs generalizing bp with
  | nil => rfl
  | cons b bs ih =>
    have hb := h b List.mem_cons_self
    have hTail : liveIn (bp + b.size) bs = [] := ih fun x hx => h x (List.mem_cons_of_mem _ hx)
    rw [liveIn] at hTail
    rw [liveIn, addressed, List.filter_cons_of_neg (by simp [hb]), hTail]

theorem liveIn_cons (bp : Nat) (b : Block) (bs : List Block) : liveIn bp (b :: bs) =
    (if b.alloc then [(bp, b.size)] else []) ++ liveIn (bp + b.size) bs := by
  cases h : b.alloc <;> simp [liveIn, addressed, h]

theorem BoundaryHeap.cursor_of_live {s : State} {bs : List Block} (h : BoundaryHeap s bs)
    {bp n : Nat} (hLive : Live s bp n) : ∃ c : Cursor, c.blocks = bs ∧ c.left ≠ [] ∧
      c.block.alloc = true ∧ c.block.size = n ∧ c.addr s.heapListp = bp := by
  rw [h.live_iff] at hLive
  obtain ⟨p, users, rfl, hp⟩ := h.prologue
  obtain ⟨b, hMem, hAlloc, rfl⟩ := mem_liveIn.mp hLive
  obtain ⟨l, r, rfl, rfl⟩ := mem_addressed hMem
  refine ⟨⟨(p :: l).reverse, b, r⟩, by simp [Cursor.blocks], by simp, hAlloc, rfl, ?_⟩
  simp only [Cursor.addr, total_reverse, total_cons, Nat.add_assoc]

theorem outside_apart {start q k bp n : Nat} {l xs r : List Block}
    (hOut : (q, k) ∈ liveBlocks start l ∨ (q, k) ∈ liveIn (start + total l + total xs) r)
    (hLo : start + total l ≤ bp) (hHi : bp + n ≤ start + total l + total xs) :
    q + k ≤ bp ∨ bp + n ≤ q := by
  obtain hOut | hOut := hOut
  · have hBounds := liveBlocks_bounds hOut
    exact .inl (by omega)
  · have hBounds := liveIn_bounds hOut
    exact .inr (by omega)

/-! ## Rewriting one run of blocks -/

section Rewrites

variable {s s' : State} {l xs ys r : List Block}

theorem Rewrites.live_before (h : Rewrites s s' l xs ys r) (q k : Nat) : Live s q k ↔
    (q, k) ∈ liveBlocks s.heapListp l ∨ (q, k) ∈ liveIn (s.heapListp + total l) xs ∨
      (q, k) ∈ liveIn (s.heapListp + total l + total xs) r := by
  rw [h.before.live_iff, List.append_assoc, liveBlocks_append _ h.nonempty, liveIn_append,
    List.mem_append, List.mem_append]

theorem Rewrites.live_after (h : Rewrites s s' l xs ys r) (q k : Nat) : Live s' q k ↔
    (q, k) ∈ liveBlocks s.heapListp l ∨ (q, k) ∈ liveIn (s.heapListp + total l) ys ∨
      (q, k) ∈ liveIn (s.heapListp + total l + total xs) r := by
  rw [h.after.live_iff, List.append_assoc, liveBlocks_append _ h.nonempty, liveIn_append,
    List.mem_append, List.mem_append, h.listp, h.total_eq]

theorem Rewrites.keeps_frame (h : Rewrites s s' l xs ys r) {bs : List Block}
    (hbs : BoundaryHeap s bs) :
    total (l ++ ys ++ r) = total bs ∧ (l ++ ys ++ r).head? = bs.head? := by
  obtain ⟨p, l', rfl⟩ := List.exists_cons_of_ne_nil h.nonempty
  rw [hbs.unique h.before]
  exact ⟨by simp only [total_append, h.total_eq], rfl⟩

theorem Rewrites.keeps (h : Rewrites s s' l xs ys r) {q k : Nat}
    (hOut : (q, k) ∈ liveBlocks s.heapListp l ∨
      (q, k) ∈ liveIn (s.heapListp + total l + total xs) r) :
    AgreeOn q (q + k - 8) s.bytes s'.bytes := by
  apply h.off.agreeOn
  have hApart := outside_apart hOut le_rfl le_rfl
  omega

end Rewrites

end Cs33.Malloc
