import Cs33.Lib.Transition
import Cs33.Malloc.FirstFit
import Cs33.Malloc.LiveBlocks

/-! # Whole runs of the implicit-list layer

A run interleaves first-fit allocations and frees. The commented-out
`mm_malloc` and `mm_free` of mm.c spell the two steps. Each step replaces one
run of adjacent blocks, so a live block keeps its place, its size and its
payload unless the step is the one that frees it.
-/

namespace Cs33.Malloc

open ByteMemory Transition

def allocStep (asize : Nat) : M Nat := do
  let bp ← findFit asize
  if bp ≠ NULL then
    place bp asize
    return bp
  else
    return NULL

def freeStep (bp : Nat) : M Unit := do
  let size ← getSize (hdrp bp)
  put (hdrp bp) (pack size 0)
  put (← ftrp bp) (pack size 0)
  let _merged ← coalesce bp
  return ()

structure WellFormed (s : State) (bs : List Block) : Prop where
  heap : BoundaryHeap s bs
  noFreePair : NoFreePair bs
  sizes : ∀ b ∈ bs.tail, 16 ≤ b.size

inductive Op where
  | alloc (asize bp : Nat)
  | free (bp : Nat)

inductive Step (s : State) : Op → State → Prop
  | alloc {asize bp : Nat} {s' : State} : asize % 8 = 0 → 16 ≤ asize →
      (allocStep asize).run s = .ok (bp, s') → Step s (.alloc asize bp) s'
  | free {bp n : Nat} {s' : State} : Live s bp n →
      (freeStep bp).run s = .ok ((), s') → Step s (.free bp) s'

/-- What a step does to the live blocks, their payloads included. -/
def Effect (s : State) : Op → State → Prop
  | .alloc asize bp, s' => (bp = NULL ∧ s' = s) ∨ ∃ n, asize ≤ n ∧
      (∀ q k, Live s q k → q + k ≤ bp ∨ bp + n ≤ q) ∧
      (∀ q k, Live s' q k ↔ Live s q k ∨ (q = bp ∧ k = n)) ∧
      ∀ q k, Live s q k → AgreeOn q (q + k - 8) s.bytes s'.bytes
  | .free bp, s' => (∀ q k, Live s' q k ↔ Live s q k ∧ q ≠ bp) ∧
      ∀ q k, Live s q k → q ≠ bp → AgreeOn q (q + k - 8) s.bytes s'.bytes

theorem sizes_replace {l xs ys r : List Block} {n : Nat} (hl : l ≠ [])
    (h : ∀ b ∈ (l ++ xs ++ r).tail, n ≤ b.size) (hys : ∀ y ∈ ys, n ≤ y.size) :
    ∀ b ∈ (l ++ ys ++ r).tail, n ≤ b.size := by
  obtain ⟨p, l', rfl⟩ := List.exists_cons_of_ne_nil hl
  simp only [List.cons_append, List.tail_cons, List.mem_append] at h ⊢
  rintro b ((hb | hb) | hb)
  · exact h b (.inl (.inl hb))
  · exact hys b hb
  · exact h b (.inr hb)

/-! ## Allocation -/

theorem liveIn_split (bp : Nat) (b want : Block) (hAlloc : want.alloc = true)
    (hFit : want.size ≤ b.size) :
    ∃ n, want.size ≤ n ∧ n ≤ b.size ∧ liveIn bp (b.split 16 want) = [(bp, n)] := by
  unfold Block.split
  split
  · refine ⟨want.size, le_rfl, hFit, ?_⟩
    rw [liveIn_cons, if_pos hAlloc, liveIn_free (by simp [Block.rest]), List.append_nil]
  · exact ⟨b.size, hFit, le_rfl, rfl⟩

theorem WellFormed.findFit_place {s : State} {bs : List Block} (h : WellFormed s bs) (want : Block)
    (hAlloc : want.alloc = true) (hMin : 16 ≤ want.size) :
    (allocStep want.size).run s = .ok (NULL, s) ∨
      ∃ (c : Cursor) (m' : Bytes), c.block.alloc = false ∧ want.size ≤ c.block.size ∧
        (allocStep want.size).run s = .ok (c.addr s.heapListp, s.withBytes m') ∧
        WellFormed (s.withBytes m') (c.left.reverse ++ c.block.split 16 want ++ c.right) ∧
        Rewrites s (s.withBytes m') c.left.reverse [c.block] (c.block.split 16 want) c.right := by
  have hFind := h.heap.findFit_run want.size
  cases hFirst : firstFit want.size [] bs with
  | none =>
    rw [hFirst] at hFind
    left
    rw [allocStep, Exec.run_bind_ok hFind, if_neg (by simp [fitAddr]), Exec.run_pure]
  | some c =>
    rw [hFirst] at hFind
    obtain ⟨hBlocks, -, hFree, hFit⟩ := firstFit_some hFirst
    have hWell : WellFormed s c.blocks := by
      rw [hBlocks]
      exact h
    obtain ⟨m', hPlace, hRewrites⟩ := place_splits hWell.heap hFree hAlloc hFit
    right
    refine ⟨c, m', hFree, hFit, ?_, ⟨hRewrites.after, ?_, ?_⟩, hRewrites⟩
    · rw [allocStep, Exec.run_bind_ok hFind, fitAddr,
        if_pos (firstFit_addr_ne_null h.heap c), Exec.run_bind_ok hPlace, Exec.run_pure]
    · exact noFreePair_split hWell.noFreePair hFree hAlloc
    · have hSizes := hWell.sizes
      rw [Cursor.blocks, ← List.singleton_append, ← List.append_assoc] at hSizes
      apply sizes_replace hRewrites.nonempty hSizes
      intro y hy
      obtain hy | rfl | rfl := le_of_mem_split hy
      · exact hy
      · exact hMin
      · exact hMin.trans hFit

theorem WellFormed.alloc_effect {s s' : State} {bs : List Block} (h : WellFormed s bs)
    {asize bp : Nat} (hStep : Step s (.alloc asize bp) s') :
    Effect s (.alloc asize bp) s' ∧ ∃ bs', WellFormed s' bs' ∧ total bs' = total bs ∧
      bs'.head? = bs.head? := by
  cases hStep with
  | alloc hMod hMin hRun =>
    let want : Block := ⟨asize, true, hMod, by omega⟩
    obtain hNone | ⟨c, m', hFree, hFit, hSome, hWell, hRewrites⟩ :=
      h.findFit_place want rfl hMin
    · cases hNone.symm.trans hRun
      exact ⟨.inl ⟨rfl, rfl⟩, bs, h, rfl, rfl⟩
    · cases hSome.symm.trans hRun
      obtain ⟨n, hn, hnSize, hSplit⟩ := liveIn_split (s.heapListp + total c.left.reverse)
        c.block want rfl hFit
      have hBefore := hRewrites.live_before
      have hAfter := hRewrites.live_after
      rw [hSplit] at hAfter
      simp only [liveIn_free (show ∀ b ∈ [c.block], b.alloc = false by simpa using hFree),
        List.not_mem_nil, false_or] at hBefore
      have hAddr : s.heapListp + total c.left.reverse = c.addr s.heapListp := by
        rw [total_reverse]
        rfl
      refine ⟨.inr ⟨n, hn, ?_, ?_, ?_⟩, _, hWell, hRewrites.keeps_frame h.heap⟩
      · intro q k hLive
        rw [← hAddr]
        apply outside_apart ((hBefore q k).mp hLive) le_rfl
        rw [total_cons, total_nil]
        omega
      · intro q k
        rw [hAfter, hBefore, ← hAddr, List.mem_singleton, Prod.mk.injEq]
        tauto
      · intro q k hLive
        exact hRewrites.keeps ((hBefore q k).mp hLive)

/-! ## Freeing -/

def Cursor.freed (c : Cursor) : Cursor := { c with block := c.block.setAlloc false }

theorem BoundaryHeap.clear_alloc {s : State} {c : Cursor} (h : BoundaryHeap s c.blocks)
    (hLeft : c.left ≠ []) :
    Rewrites s (s.withBytes (putTags s.bytes (c.addr s.heapListp) c.freed.block))
      c.left.reverse [c.block] [c.freed.block] c.right := by
  have hAt := h.blockAt_cursor
  have hStart := hAt.start_le
  have hFour : 4 ≤ c.addr s.heapListp := by omega
  rw [c.blocks_eq] at h
  apply h.replace (by simpa using hLeft) (by simp [Cursor.freed])
  · rw [total_reverse]
    exact ⟨tagged_of_stores hFour hAt.size_lt, trivial⟩
  · have hOff := putTags_agreeOff s.bytes c.freed.block hFour
    simpa [Cursor.addr, Cursor.freed] using hOff

theorem freeStep_run {s : State} {c : Cursor} (h : BoundaryHeap s c.blocks) (hLeft : c.left ≠ []) :
    ∃ m' below above, (freeStep (c.addr s.heapListp)).run s = .ok ((), s.withBytes m') ∧
      c.left.reverse = c.freed.coalesced.left.reverse ++ below ∧
      c.right = above ++ c.freed.coalesced.right ∧
      (∀ x ∈ below ++ above, x.alloc = false) ∧
      Rewrites s (s.withBytes m') c.freed.coalesced.left.reverse (below ++ c.block :: above)
        [c.freed.coalesced.block] c.freed.coalesced.right := by
  have hClear := h.clear_alloc hLeft
  let t := s.withBytes (putTags s.bytes (c.addr s.heapListp) c.freed.block)
  have hAt := h.blockAt_cursor
  have hFreed : BoundaryHeap t c.freed.blocks := by
    have hAfter := hClear.after
    rwa [List.append_assoc] at hAfter
  obtain ⟨m', below, above, hCoalesce, hBelow, hAbove, hFree, hMerge⟩ :=
    coalesce_merges t c.freed hFreed rfl
  have hBelow' : c.left.reverse = c.freed.coalesced.left.reverse ++ below := hBelow
  have hAbove' : c.right = above ++ c.freed.coalesced.right := hAbove
  have hPack : pack c.block.size 0 = c.freed.block.tag := pack_zero_eq_tag (b := c.freed.block) rfl
  refine ⟨m', below, above, ?_, hBelow', hAbove', hFree, ?_, hMerge.after, rfl, hMerge.nonempty,
    ?_, ?_⟩
  · rw [freeStep, Exec.run_bind_ok hAt.getSize_hdrp, hPack,
      putTags_bind (b := c.freed.block) hAt.start_le hAt.end_le hAt.size_lt]
    exact (Exec.run_bind_ok hCoalesce).trans (Exec.run_pure _ _)
  · have hBefore := hClear.before
    rw [hBelow', hAbove'] at hBefore
    simpa using hBefore
  · have hTotal := hMerge.total_eq
    simpa [Cursor.freed] using hTotal
  · have hOff := hClear.off
    have hOff' := hMerge.off
    have hSize : c.freed.block.size = c.block.size := rfl
    rw [hBelow'] at hOff
    simp only [total_append, total_cons, total_nil, hSize] at hOff hOff' ⊢
    exact (hOff.mono (by omega) (by omega)).trans hOff'

theorem WellFormed.clear_coalesce {s : State} {c : Cursor} (h : WellFormed s c.blocks)
    (hLeft : c.left ≠ []) :
    ∃ m' below above, (freeStep (c.addr s.heapListp)).run s = .ok ((), s.withBytes m') ∧
      (∀ x ∈ below ++ above, x.alloc = false) ∧
      c.left.reverse = c.freed.coalesced.left.reverse ++ below ∧
      WellFormed (s.withBytes m') (c.freed.coalesced.left.reverse ++ [c.freed.coalesced.block] ++
        c.freed.coalesced.right) ∧
      Rewrites s (s.withBytes m') c.freed.coalesced.left.reverse (below ++ c.block :: above)
        [c.freed.coalesced.block] c.freed.coalesced.right := by
  obtain ⟨m', below, above, hRun, hBelow, hAbove, hFree, hRewrites⟩ := freeStep_run h.heap hLeft
  have hBlocks : c.blocks = c.freed.coalesced.left.reverse ++ (below ++ c.block :: above) ++
      c.freed.coalesced.right := by
    rw [Cursor.blocks, hBelow, hAbove]
    simp
  have hCoalesced : c.freed.coalesced.blocks = c.freed.coalesced.left.reverse ++
      [c.freed.coalesced.block] ++ c.freed.coalesced.right := c.freed.coalesced.blocks_eq
  refine ⟨m', below, above, hRun, hFree, hBelow, ⟨hRewrites.after, ?_, ?_⟩, hRewrites⟩
  · have hPairs := h.noFreePair
    rw [← hCoalesced]
    exact Cursor.noFreePair_coalesced (c := c.freed) hPairs.left_of_append
      hPairs.right_of_append.tail
  · have hSizes := h.sizes
    rw [hBlocks] at hSizes
    apply sizes_replace hRewrites.nonempty hSizes
    intro y hy
    obtain rfl := List.mem_singleton.mp hy
    have hTotal := hRewrites.total_eq
    simp only [total_cons, total_nil, total_append] at hTotal
    have hBlock : 16 ≤ c.block.size := by
      apply h.sizes
      rw [Cursor.blocks]
      obtain ⟨p, l, hEq⟩ := List.exists_cons_of_ne_nil (List.reverse_ne_nil_iff.mpr hLeft)
      rw [hEq]
      simp
    omega

theorem Cursor.liveIn_absorbed {start : Nat} {c : Cursor} {below above : List Block}
    (hAlloc : c.block.alloc = true) (hFree : ∀ x ∈ below ++ above, x.alloc = false) :
    liveIn start (below ++ c.block :: above) = [(start + total below, c.block.size)] := by
  have hBelow : ∀ x ∈ below, x.alloc = false := fun x hx => hFree x (List.mem_append_left _ hx)
  have hAbove : ∀ x ∈ above, x.alloc = false := fun x hx => hFree x (List.mem_append_right _ hx)
  rw [liveIn_append, liveIn_free hBelow, liveIn_cons, if_pos hAlloc, liveIn_free hAbove]
  rfl

theorem WellFormed.free_effect {s s' : State} {bs : List Block} (h : WellFormed s bs) {bp : Nat}
    (hStep : Step s (.free bp) s') :
    Effect s (.free bp) s' ∧ ∃ bs', WellFormed s' bs' ∧ total bs' = total bs ∧
      bs'.head? = bs.head? := by
  cases hStep with
  | free hLive hRun =>
    obtain ⟨c, rfl, hLeft, hAlloc, rfl, rfl⟩ := h.heap.cursor_of_live hLive
    obtain ⟨m', below, above, hFreed, hFree, hBelow, hWell, hRewrites⟩ := h.clear_coalesce hLeft
    cases hFreed.symm.trans hRun
    have hBefore := hRewrites.live_before
    have hAfter := hRewrites.live_after
    have hAddr : s.heapListp + total c.freed.coalesced.left.reverse + total below =
        c.addr s.heapListp := by
      rw [Nat.add_assoc, ← total_append, ← hBelow, total_reverse]
      rfl
    rw [Cursor.liveIn_absorbed hAlloc hFree, hAddr] at hBefore
    have hNone : liveIn (s.heapListp + total c.freed.coalesced.left.reverse)
        [c.freed.coalesced.block] = [] :=
      liveIn_free (by simpa using Cursor.alloc_coalesced (c := c.freed) rfl)
    simp only [hNone, List.not_mem_nil, false_or] at hAfter
    have hApart : ∀ q k, (q, k) ∈ liveBlocks s.heapListp c.freed.coalesced.left.reverse ∨
        (q, k) ∈ liveIn (s.heapListp + total c.freed.coalesced.left.reverse +
          total (below ++ c.block :: above)) c.freed.coalesced.right → q ≠ c.addr s.heapListp := by
      rintro q k hOut rfl
      have hEight := c.block.eight_le
      have hk : 8 ≤ k := by
        obtain hOut | hOut := hOut
        · exact (liveBlocks_bounds hOut).2.2
        · exact (liveIn_bounds hOut).2.2
      have hHi : c.addr s.heapListp + c.block.size ≤ s.heapListp +
          total c.freed.coalesced.left.reverse + total (below ++ c.block :: above) := by
        rw [total_append, total_cons]
        omega
      have hOutside := outside_apart hOut (by omega) hHi
      omega
    have hKept : ∀ q k, Live s q k → q ≠ c.addr s.heapListp →
        (q, k) ∈ liveBlocks s.heapListp c.freed.coalesced.left.reverse ∨
        (q, k) ∈ liveIn (s.heapListp + total c.freed.coalesced.left.reverse +
          total (below ++ c.block :: above)) c.freed.coalesced.right := by
      intro q k hLive hne
      obtain hOut | hMem | hOut := (hBefore q k).mp hLive
      · exact .inl hOut
      · cases List.mem_singleton.mp hMem
        exact absurd rfl hne
      · exact .inr hOut
    refine ⟨⟨?_, ?_⟩, _, hWell, hRewrites.keeps_frame h.heap⟩
    · intro q k
      constructor
      · intro hLive'
        have hOut := (hAfter q k).mp hLive'
        refine ⟨(hBefore q k).mpr ?_, hApart q k hOut⟩
        exact hOut.imp_right .inr
      · rintro ⟨hLive', hne⟩
        exact (hAfter q k).mpr (hKept q k hLive' hne)
    · intro q k hLive' hne
      exact hRewrites.keeps (hKept q k hLive' hne)

/-! ## Runs -/

theorem WellFormed.step {s s' : State} {bs : List Block} (h : WellFormed s bs) {op : Op}
    (hStep : Step s op s') :
    Effect s op s' ∧ ∃ bs', WellFormed s' bs' ∧ total bs' = total bs ∧ bs'.head? = bs.head? := by
  cases op with
  | alloc asize bp => exact h.alloc_effect hStep
  | free bp => exact h.free_effect hStep

theorem WellFormed.alloc_progress {s : State} {bs : List Block} (h : WellFormed s bs) {asize : Nat}
    (hMod : asize % 8 = 0) (hMin : 16 ≤ asize) : ∃ bp s', Step s (.alloc asize bp) s' := by
  let want : Block := ⟨asize, true, hMod, by omega⟩
  obtain hNone | ⟨c, m', -, -, hSome, -⟩ := h.findFit_place want rfl hMin
  · exact ⟨NULL, s, .alloc hMod hMin hNone⟩
  · exact ⟨_, _, .alloc hMod hMin hSome⟩

theorem WellFormed.free_progress {s : State} {bs : List Block} (h : WellFormed s bs) {bp n : Nat}
    (hLive : Live s bp n) : ∃ s', Step s (.free bp) s' := by
  obtain ⟨c, rfl, hLeft, -, -, rfl⟩ := h.heap.cursor_of_live hLive
  obtain ⟨m', -, -, hFreed, -⟩ := freeStep_run h.heap hLeft
  exact ⟨_, .free hLive hFreed⟩

/-- Every state that allocations and frees lead to is well formed over the same space, admits
every further step, and every step it admits leaves the other live blocks alone. -/
theorem implicit_list_runs (s₀ s : State) (bs₀ : List Block) (ops : List Op)
    (h₀ : WellFormed s₀ bs₀) (hRun : Run Step s₀ ops s) :
    (∃ bs, WellFormed s bs ∧ total bs = total bs₀ ∧ bs.head? = bs₀.head?) ∧
      (∀ asize, asize % 8 = 0 → 16 ≤ asize → ∃ bp s', Step s (.alloc asize bp) s') ∧
      (∀ bp n, Live s bp n → ∃ s', Step s (.free bp) s') ∧
      ∀ op s', Step s op s' → Effect s op s' := by
  have hInv : ∃ bs, WellFormed s bs ∧ total bs = total bs₀ ∧ bs.head? = bs₀.head? := by
    refine hRun.invariant (P := fun s => ∃ bs, WellFormed s bs ∧ total bs = total bs₀ ∧
      bs.head? = bs₀.head?) ⟨bs₀, h₀, rfl, rfl⟩ ?_
    rintro t op t' ⟨bs, hWell, hTotal, hHead⟩ hStep
    obtain ⟨-, bs', hWell', hTotal', hHead'⟩ := hWell.step hStep
    exact ⟨bs', hWell', hTotal'.trans hTotal, hHead'.trans hHead⟩
  refine ⟨hInv, ?_⟩
  obtain ⟨bs, hWell, -⟩ := hInv
  exact ⟨fun _ => hWell.alloc_progress, fun _ _ => hWell.free_progress,
    fun _ _ hStep => (hWell.step hStep).1⟩

section Merge

def mergeBlocks : List Block := [.ofSize 24 true, .ofSize 48 false]

def mergeHeap : State := layout 4096 mergeBlocks page_pos (by decide) page_max

theorem wellFormed_mergeHeap : WellFormed mergeHeap mergeBlocks := by
  refine ⟨boundaryHeap_layout page_pos (by decide) page_max rfl, ?_, by decide⟩
  exact .cons_cons (.inl rfl) (.singleton _)

end Merge

theorem implicit_list_runs_merge : ∃ s, Run Step mergeHeap
    [.alloc 16 4128, .alloc 16 4144, .free 4128, .free 4144] s ∧ sizeAt s.bytes 4128 = 48 ∧
      ∃ bs, WellFormed s bs ∧ total bs = 72 := by
  have hAnswer : ((do
      let p ← allocStep 16
      let q ← allocStep 16
      freeStep p
      freeStep q
      return (p, q) : M (Nat × Nat)).run mergeHeap).toOption.map
        (fun r => (r.1, sizeAt r.2.bytes 4128)) = some ((4128, 4144), 48) := by decide +kernel
  obtain ⟨⟨r, s⟩, hRun, hEq⟩ := Exec.exists_ok hAnswer
  obtain ⟨p, s₁, hAlloc, hRun⟩ := Exec.run_bind_eq_ok.mp hRun
  obtain ⟨q, s₂, hAlloc', hRun⟩ := Exec.run_bind_eq_ok.mp hRun
  obtain ⟨_, s₃, hFree, hRun⟩ := Exec.run_bind_eq_ok.mp hRun
  obtain ⟨_, s₄, hFree', hReturn⟩ := Exec.run_bind_eq_ok.mp hRun
  cases hReturn
  obtain ⟨⟨rfl, rfl⟩, hSize⟩ : (p = 4128 ∧ q = 4144) ∧ sizeAt s.bytes 4128 = 48 := by
    simpa only [Prod.mk.injEq] using hEq
  have hStart : Run Step mergeHeap [] mergeHeap := .nil
  have hFirst : Step mergeHeap (.alloc 16 4128) s₁ := .alloc (by decide) (by decide) hAlloc
  have hSecond : Step s₁ (.alloc 16 4144) s₂ := .alloc (by decide) (by decide) hAlloc'
  have hOne := hStart.snoc hFirst
  have hTwo := hOne.snoc hSecond
  obtain ⟨-, -, -, hEffect⟩ := implicit_list_runs _ _ _ _ wellFormed_mergeHeap hStart
  obtain ⟨hNull, -⟩ | ⟨n, -, -, hLive, -⟩ := hEffect _ _ hFirst
  · cases hNull
  obtain ⟨-, -, -, hEffect'⟩ := implicit_list_runs _ _ _ _ wellFormed_mergeHeap hOne
  obtain ⟨hNull, -⟩ | ⟨n', -, -, hLive', -⟩ := hEffect' _ _ hSecond
  · cases hNull
  have hThird : Step s₂ (.free 4128) s₃ :=
    .free ((hLive' 4128 n).mpr (.inl ((hLive 4128 n).mpr (.inr ⟨rfl, rfl⟩)))) hFree
  have hThree := hTwo.snoc hThird
  obtain ⟨-, -, -, hEffect''⟩ := implicit_list_runs _ _ _ _ wellFormed_mergeHeap hTwo
  obtain ⟨hLive'', -⟩ := hEffect'' _ _ hThird
  have hLast : Live s₃ 4144 n' :=
    (hLive'' 4144 n').mpr ⟨(hLive' 4144 n').mpr (.inr ⟨rfl, rfl⟩), by decide⟩
  have hFour := hThree.snoc (.free hLast hFree')
  obtain ⟨⟨bs, hWell, hTotal, -⟩, -⟩ := implicit_list_runs _ _ _ _ wellFormed_mergeHeap hFour
  exact ⟨s, hFour, hSize, bs, hWell, hTotal⟩

end Cs33.Malloc
