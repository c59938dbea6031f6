import Cs33.Malloc.ExpCoalesce
import Cs33.Malloc.StrayStore

/-! # The remainder of a split

After a split `exp_place` unlinks the allocated part, puts the tags of the
remainder and hands it to `exp_coalesce`, which takes what lies in its payload
for links. Where the stores through these words miss every tag and every link,
no run leaves the remainder at the head of a list.
-/

namespace Cs33.Malloc

open ByteMemory Exec

/-- The addresses that the words at the remainder hold. The footer of a placed block of 16 bytes
is half of its `SUCC` field, and the word there is dereferenced when the block is unlinked and
when the remainder is linked. -/
def splitStrays (m : Bytes) (q csize asize : Nat) : List Nat :=
  let rest := q + asize
  let cut := putTags m q (.ofSize asize true)
  let next := loadLE cut (q + 4) 8
  let unlinked := storeLE cut (loadLE cut next 8) 8 NULL
  let tagged := putTags unlinked rest (.ofSize (csize - asize) false)
  [loadLE m rest 8, loadLE m (rest + 4) 8] ++
    if asize < 24 then [loadLE cut next 8, loadLE tagged next 8] else []

/-- What `exp_place` does once the tags of the placed part are put. -/
def placeRest (bp n : Nat) : M Unit := do
  coalesceHelper bp
  let bp ← nextBlkp bp
  put (hdrp bp) (pack n 0)
  put (← ftrp bp) (pack n 0)
  let _merged ← expCoalesce bp
  return ()

section Run

variable {t u : State} {want rest : Block} {q : Nat}

theorem placeRest_run (hHelper : (coalesceHelper q).run t = .ok ((), u))
    (hHeader : loadLE u.bytes (q - 4) 4 = want.tag) (hLo : t.memStartBrk + 4 ≤ q)
    (hHi : q + want.size + rest.size ≤ t.memBrk) (hSize : want.size + rest.size < 2 ^ 32)
    (hFree : rest.alloc = false) : (placeRest q rest.size).run t =
      (do let _merged ← expCoalesce (q + want.size); return () : M Unit).run
        (u.withBytes (putTags u.bytes (q + want.size) rest)) := by
  obtain ⟨hStart, hBrk, -⟩ := Moves.move (R := Writes) hHelper
  have hNext := nextBlkp_run (s := u) (by omega) (by omega) (by omega) hHeader
  rw [placeRest, run_bind_ok hHelper, run_bind_ok hNext, pack_zero_eq_tag hFree]
  exact putTags_bind (by omega) (by omega) (by omega)

end Run

/-! ## Linking the remainder -/

section Link

variable {m : Bytes} {base x start a : Nat} {bs : List Block}

theorem succ_putFront (h : Misses (loadLE m base 8) x 12) :
    loadLE (putFront m base x) (x + 4) 8 = loadLE m (x + 4) 8 :=
  loadLE_of_misses (h.mono (by omega) (by omega))

theorem pred_putNext (hFront : Misses (loadLE m base 8) x 12)
    (hNext : Misses (loadLE m (x + 4) 8) x 12) :
    loadLE (putNext m base x) x 8 = loadLE m x 8 := by
  rw [putNext, succ_putFront hFront, loadLE_of_misses (hNext.mono le_rfl (by omega)), putFront,
    loadLE_of_misses (hFront.mono le_rfl (by omega))]

/-- Where neither store lands in the links of `x`, the words that are there beforehand are the
addresses stored through. -/
theorem putNull_eq (hFront : Misses (loadLE m base 8) x 12)
    (hNext : Misses (loadLE m (x + 4) 8) x 12) :
    putNull m base x = storeLE (storeLE (storeLE m (loadLE m base 8) 8 x)
      (loadLE m (x + 4) 8) 8 base) (loadLE m x 8) 8 NULL := by
  rw [putNull, pred_putNext hFront hNext, putNext, succ_putFront hFront, putFront]

/-- The address is no part of a tag or of the links of `x`. -/
structure OffLinks (start : Nat) (bs : List Block) (x a : Nat) : Prop where
  tags : OffTags start bs a
  links : Misses a x 12

theorem BoundaryHeap.putNull {t : State} (h : BoundaryHeap t bs)
    (hFront : OffLinks t.heapListp bs x (loadLE t.bytes base 8))
    (hNext : OffLinks t.heapListp bs x (loadLE t.bytes (x + 4) 8))
    (hNull : OffLinks t.heapListp bs x (loadLE t.bytes x 8)) :
    BoundaryHeap (t.withBytes (putNull t.bytes base x)) bs := by
  rw [putNull_eq hFront.links hNext.links]
  generalize loadLE t.bytes base 8 = front at *
  generalize loadLE t.bytes (x + 4) 8 = next at *
  generalize loadLE t.bytes x 8 = null at *
  exact ((h.store hFront.tags).store hNext.tags).store hNull.tags

theorem pred_putNull (hFront : Misses (loadLE m base 8) x 12)
    (hNext : Misses (loadLE m (x + 4) 8) x 12) (hNull : Misses (loadLE m x 8) x 12) :
    loadLE (putNull m base x) x 8 = loadLE m x 8 := by
  have hPred := pred_putNext hFront hNext
  rw [Malloc.putNull, hPred, loadLE_of_misses (hNull.mono le_rfl (by omega)), hPred]

/-- Two blocks stand where `b` was: `want` and a free one that heads the list with a `PRED` field
that is not null. -/
structure SplitLeft (s' : State) (q : Nat) (b want : Block) : Prop where
  blocks : ∃ rest : Block, b.size ≤ want.size + rest.size ∧ FREEBLOCKSIZE ≤ rest.size ∧
    Blocks s'.bytes q [want, rest]
  base : s'.heapBasefree = q + want.size
  pred : loadLE s'.bytes (q + want.size) 8 ≠ NULL

theorem splitLeft_of_link {v s' : State} {left r : List Block} {b want rest : Block} {q : Nat}
    (h : BoundaryHeap v (Cursor.blocks ⟨want :: left, rest, r⟩))
    (hq : q = v.heapListp + total left) (hSize : b.size ≤ want.size + rest.size)
    (hRest : FREEBLOCKSIZE ≤ rest.size) (hLinks : Links v.bytes v.heapBasefree (q + want.size))
    (hBytes : s'.bytes = Malloc.putNull v.bytes v.heapBasefree (q + want.size))
    (hBase : s'.heapBasefree = q + want.size)
    (hOff : ∀ a ∈ [loadLE v.bytes v.heapBasefree 8, loadLE v.bytes (q + want.size + 4) 8,
      loadLE v.bytes (q + want.size) 8],
      OffLinks v.heapListp (Cursor.blocks ⟨want :: left, rest, r⟩) (q + want.size) a) :
    SplitLeft s' q b want := by
  simp only [List.mem_cons, List.not_mem_nil, or_false, forall_eq_or_imp, forall_eq] at hOff
  obtain ⟨hFront, hNext, hNull⟩ := hOff
  have hHeap := h.putNull hFront hNext hNull
  have hPred := pred_putNull hFront.links hNext.links hNull.links
  have hNullAddr := hLinks.null
  rw [pred_putNext hFront.links hNext.links] at hNullAddr
  have hParts : Cursor.blocks ⟨want :: left, rest, r⟩ = left.reverse ++ ([want, rest] ++ r) := by
    simp [Cursor.blocks]
  rw [← hBytes] at hHeap hPred
  have hBlocks : Blocks s'.bytes v.heapListp (Cursor.blocks ⟨want :: left, rest, r⟩) := hHeap.blocks
  rw [hParts, blocks_append, blocks_append, total_reverse, ← hq] at hBlocks
  exact ⟨⟨rest, hSize, hRest, hBlocks.2.1⟩, hBase, hPred.trans_ne hNullAddr⟩

end Link

section Split

variable {t u v s' : State} {l left r : List Block} {p b n want rest : Block}
  {links : List (Nat × Block)} {q x a w k : Nat}

theorem expCoalesce_case1 (h : BoundaryHeap v (Cursor.blocks ⟨want :: left, rest, r⟩))
    (hx : x = v.heapListp + total left + want.size) (hAlloc : want.alloc = true)
    (hAbove : ∀ y ∈ r.head?, y.alloc = true) (hRun : (expCoalesce x).run v = .ok (k, s')) :
    Links v.bytes v.heapBasefree x ∧ s'.bytes = Malloc.putNull v.bytes v.heapBasefree x ∧
      s'.heapBasefree = x := by
  have hEnd := h.pair.2.end_le
  have hEight := rest.eight_le
  have hBrk := v.brk_lt
  obtain ⟨msgs, hRun⟩ := expCoalesce_cases h hx hRun
  rw [hAlloc, aboveAlloc_of_alloc hAbove, if_pos (by decide)] at hRun
  exact linkAtBase_ok (t := { v with out := v.out ++ msgs }) (by omega) hRun

/-- ... and through its case 2 when the block above is free. -/
theorem expCoalesce_case2 (h : BoundaryHeap v (Cursor.blocks ⟨want :: left, rest, n :: r⟩))
    (hx : x = v.heapListp + total left + want.size) (hAlloc : want.alloc = true)
    (hFree : n.alloc = false)
    (hHelper : ∀ out, (coalesceHelper (x + rest.size)).run { v with out := out } =
      .ok ((), { u with out := out }))
    (hRun : (expCoalesce x).run v = .ok (k, s')) :
    let m := putTags u.bytes x (rest.merge n)
    Links m u.heapBasefree x ∧ s'.bytes = Malloc.putNull m u.heapBasefree x ∧
      s'.heapBasefree = x := by
  obtain ⟨hWant, hRest⟩ := h.pair
  have hAbove := h.above
  rw [total_cons, Nat.add_comm want.size, ← Nat.add_assoc, ← hx] at hAbove
  rw [← hx] at hRest
  have hEnd := hAbove.end_le
  have hEight := rest.eight_le
  have hBrk := v.brk_lt
  obtain ⟨msgs, hRun⟩ := expCoalesce_cases h hx hRun
  rw [hAlloc, aboveAlloc, hFree, if_neg (by decide), if_pos (by decide)] at hRun
  have hMerge := mergeNext_run (t := { v with out := v.out ++ msgs })
    ⟨hRest.tagged, hRest.start_le, hRest.end_le, hRest.size_lt⟩
    ⟨hAbove.tagged, hAbove.start_le, hAbove.end_le, hAbove.size_lt⟩ (hHelper _)
  rw [run_bind_ok hMerge] at hRun
  exact relink_ok (by omega) hRun

/-- After the first part is unlinked with at most one store, the tags of the second are put and
`exp_coalesce` is called on a well-tagged heap. -/
theorem placeRest_cut (h : BoundaryHeap t (Cursor.blocks ⟨p :: l, b, r⟩))
    (hq : q = t.heapListp + total l + p.size) (hTotal : want.size + rest.size = b.size)
    (hFree : rest.alloc = false)
    (hHelper : (coalesceHelper q).run (t.withBytes (putTags t.bytes q want)) = .ok ((), u))
    (hBytes : u.bytes = putTags t.bytes q want ∨ ∃ a w,
      u.bytes = storeLE (putTags t.bytes q want) a 8 w ∧
        OffTags t.heapListp (Cursor.blocks ⟨want :: p :: l, rest, r⟩) a)
    (hRun : (placeRest q rest.size).run (t.withBytes (putTags t.bytes q want)) = .ok ((), s')) :
    ∃ v k, v.bytes = putTags u.bytes (q + want.size) rest ∧ v.heapBasefree = u.heapBasefree ∧
      v.heapListp = t.heapListp ∧ BoundaryHeap v (Cursor.blocks ⟨want :: p :: l, rest, r⟩) ∧
      (expCoalesce (q + want.size)).run v = .ok (k, s') := by
  have hAt := h.pair.2
  rw [← hq] at hAt
  have hStart := hAt.start_le
  have hEnd := hAt.end_le
  have hSize := hAt.size_lt
  have hEightRest := rest.eight_le
  have hCut := h.cut hq hTotal
  have hMoved := Moves.move (R := Writes) hHelper
  have hWrites : Writes t u := hMoved
  have hMem : (q + want.size, rest) ∈
      addressed t.heapListp (Cursor.blocks ⟨want :: p :: l, rest, r⟩) := by
    have hMem := Cursor.mem_addressed ⟨want :: p :: l, rest, r⟩ t.heapListp
    rwa [Cursor.addr, total_cons, total_cons, show t.heapListp + (want.size + (p.size + total l)) =
      q + want.size by omega] at hMem
  have hMemWant : (q, want) ∈
      addressed t.heapListp (Cursor.blocks ⟨want :: p :: l, rest, r⟩) := by
    have hMem := Cursor.mem_prev t.heapListp (p :: l) r want rest
    rwa [total_cons, Nat.add_comm p.size, ← Nat.add_assoc, ← hq] at hMem
  have hTagged : loadLE (putTags t.bytes q want) (q - 4) 4 = want.tag :=
    (tagged_of_stores (by omega) (by omega)).header
  have hHeader : loadLE u.bytes (q - 4) 4 = want.tag := by
    obtain hEq | ⟨a, w, hEq, hOff⟩ := hBytes
    · rw [hEq, hTagged]
    · rw [hEq, loadLE_of_misses (hOff.header hMemWant), hTagged]
  have hHeap : BoundaryHeap (t.withBytes (putTags u.bytes (q + want.size) rest))
      (Cursor.blocks ⟨want :: p :: l, rest, r⟩) := by
    obtain hEq | ⟨a, w, hEq, hOff⟩ := hBytes
    · rwa [hEq]
    · rw [hEq, putTags_store (hOff.header hMem) (hOff.footer hMem)]
      exact hCut.store hOff
  have hRest := placeRest_run hHelper hHeader hStart (by change _ ≤ t.memBrk; omega) (by omega) hFree
  rw [hRest] at hRun
  obtain ⟨k, w, hCoalesce, hReturn⟩ := run_bind_eq_ok.mp hRun
  cases hReturn
  exact ⟨u.withBytes (putTags u.bytes (q + want.size) rest), k, rfl, rfl, hWrites.2.2,
    hHeap.of_writes hWrites rfl, hCoalesce⟩

end Split

/-! ## The cases of a split -/

/-- A listed block is split on a consistent heap, and the run returns. -/
structure SplitRun (t s' : State) (l r : List Block) (p b : Block) (links : List (Nat × Block))
    (q : Nat) (want rest : Block) : Prop where
  heap : Consistent t (Cursor.blocks ⟨p :: l, b, r⟩) links
  addr : q = t.heapListp + total l + p.size
  listed : (q, b) ∈ links
  total_eq : want.size + rest.size = b.size
  alloc : want.alloc = true
  free : rest.alloc = false
  least : 16 ≤ want.size
  room : FREEBLOCKSIZE ≤ rest.size
  run : (placeRest q rest.size).run (t.withBytes (putTags t.bytes q want)) = .ok ((), s')

namespace SplitRun

variable {t u s' : State} {l r : List Block} {p b want rest : Block} {links : List (Nat × Block)}
  {q a w : Nat}

theorem bounds (h : SplitRun t s' l r p b links q want rest) :
    t.memStartBrk + 4 ≤ q ∧ q + want.size + rest.size ≤ t.memBrk := by
  have hAt := h.heap.threaded.inside h.listed
  have hTotal := h.total_eq
  dsimp only at hAt
  omega

theorem above (h : SplitRun t s' l r p b links q want rest)
    (hNone : ∀ c, (q + b.size, c) ∉ links) : ∀ y ∈ r.head?, y.alloc = true := by
  intro n hn
  obtain _ | ⟨m, r⟩ := r
  · cases hn
  · cases hn
    by_contra hFree
    have hMem := Cursor.mem_next t.heapListp (p :: l) r b n
    rw [Cursor.addr, total_cons, Nat.add_comm p.size, ← Nat.add_assoc, ← h.addr] at hMem
    exact hNone n (h.heap.mem_iff.mpr ⟨hMem, by simpa using hFree⟩)

theorem cut (h : SplitRun t s' l r p b links q want rest)
    (hHelper : (coalesceHelper q).run (t.withBytes (putTags t.bytes q want)) = .ok ((), u))
    (hBytes : u.bytes = putTags t.bytes q want ∨ ∃ a w,
      u.bytes = storeLE (putTags t.bytes q want) a 8 w ∧
        OffTags t.heapListp (Cursor.blocks ⟨want :: p :: l, rest, r⟩) a) :
    ∃ v k, v.bytes = putTags u.bytes (q + want.size) rest ∧ v.heapBasefree = u.heapBasefree ∧
      v.heapListp = t.heapListp ∧ BoundaryHeap v (Cursor.blocks ⟨want :: p :: l, rest, r⟩) ∧
      (expCoalesce (q + want.size)).run v = .ok (k, s') :=
  placeRest_cut h.heap.heap h.addr h.total_eq h.free hHelper hBytes h.run

theorem case1 (h : SplitRun t s' l r p b links q want rest)
    (hHelper : (coalesceHelper q).run (t.withBytes (putTags t.bytes q want)) = .ok ((), u))
    (hBytes : u.bytes = putTags t.bytes q want ∨ ∃ a w,
      u.bytes = storeLE (putTags t.bytes q want) a 8 w ∧
        OffTags t.heapListp (Cursor.blocks ⟨want :: p :: l, rest, r⟩) a)
    (hNone : ∀ c, (q + b.size, c) ∉ links) :
    ∃ v : State, v.bytes = putTags u.bytes (q + want.size) rest ∧
      v.heapBasefree = u.heapBasefree ∧ v.heapListp = t.heapListp ∧
      BoundaryHeap v (Cursor.blocks ⟨want :: p :: l, rest, r⟩) ∧
      Links v.bytes v.heapBasefree (q + want.size) ∧
      s'.bytes = Malloc.putNull v.bytes v.heapBasefree (q + want.size) ∧
      s'.heapBasefree = q + want.size := by
  obtain ⟨v, k, hMem, hBase, hListp, hHeap, hRun⟩ := h.cut hHelper hBytes
  have hAddr : q + want.size = v.heapListp + total (p :: l) + want.size := by
    rw [hListp, h.addr, total_cons]
    omega
  exact ⟨v, hMem, hBase, hListp, hHeap,
    expCoalesce_case1 hHeap hAddr h.alloc (h.above hNone) hRun⟩

/-- The links of the placed part are the block's own when it holds both. -/
theorem links_kept (h : SplitRun t s' l r p b links q want rest) (hBig : 24 ≤ want.size) :
    loadLE (putTags t.bytes q want) q 8 = loadLE t.bytes q 8 ∧
      loadLE (putTags t.bytes q want) (q + 4) 8 = loadLE t.bytes (q + 4) 8 := by
  have hBounds := h.bounds
  exact ⟨putTags_inside (by omega) le_rfl (by omega), putTags_inside (by omega) (by omega) (by omega)⟩

/-- With no other block on the list, there is none to link the remainder to. -/
theorem single_stops (h : SplitRun t s' l r p b [(q, b)] q want rest) (hBig : 24 ≤ want.size) :
    False := by
  have hBounds := h.bounds
  obtain ⟨-, hPred, hSucc⟩ := h.heap.linked
  obtain ⟨hKeptPred, hKeptSucc⟩ := h.links_kept hBig
  have hHelper := coalesceHelper_alone (t := t.withBytes (putTags t.bytes q want))
    (by change t.memStartBrk ≤ q; omega) (by change q + 12 ≤ t.memBrk; omega)
    (hKeptPred.trans hPred) (hKeptSucc.trans hSucc)
  have hNone : ∀ c, (q + b.size, c) ∉ [(q, b)] := by
    intro c hMem
    have hPos := b.size_pos
    have hAddr := congrArg Prod.fst (List.mem_singleton.mp hMem)
    dsimp only at hAddr
    omega
  obtain ⟨v, -, hBase, -, -, hLinks, -⟩ := h.case1 hHelper (.inl rfl) hNone
  exact hLinks.listed hBase

/-- The other block keeps its place at the head of the list, and linking stores through its null
`PRED`. -/
theorem last_stops {y : Nat} {c : Block} (h : SplitRun t s' l r p b [(y, c), (q, b)] q want rest)
    (hBig : 24 ≤ want.size) : False := by
  have hBounds := h.bounds
  have hTotal := h.total_eq
  obtain ⟨hLow, hHigh⟩ := h.heap.threaded.pair
  obtain ⟨hBase, hPred, hSucc, hBack, hEnd⟩ := h.heap.linked
  have hInside := h.heap.threaded.inside (x := (y, c)) (by simp)
  have hFits := h.heap.threaded.fits (x := (y, c)) (by simp)
  dsimp only at hLow hHigh hBase hPred hSucc hBack hEnd hInside hFits
  obtain ⟨hKeptPred, hKeptSucc⟩ := h.links_kept hBig
  have hHelper := coalesceHelper_back (t := t.withBytes (putTags t.bytes q want)) (m := y)
    (by change t.memStartBrk ≤ q; omega) (by change q + 12 ≤ t.memBrk; omega)
    (by change t.memStartBrk ≤ y; omega) (by change y + 12 ≤ t.memBrk; omega) (by omega)
    (hKeptPred.trans hBack) (hKeptSucc.trans hEnd)
  have hNone : ∀ d, (q + b.size, d) ∉ [(y, c), (q, b)] := by
    intro d hMem
    have hPos := b.size_pos
    have hPos' := c.size_pos
    simp only [List.mem_cons, Prod.mk.injEq, List.not_mem_nil, or_false] at hMem
    omega
  have hOff : OffTags t.heapListp (Cursor.blocks ⟨want :: p :: l, rest, r⟩) (y + 4) := by
    have hListed : (y, c) ∈ [(y, c), (q, b)] := List.mem_cons_self
    have hMem := (h.heap.mem_iff.mp hListed).1
    have hStart := h.heap.heap.start_le
    have hOld : OffTags t.heapListp (Cursor.blocks ⟨p :: l, b, r⟩) (y + 4) :=
      .payload (by omega) hMem (by omega) (by omega)
    exact hOld.cut h.addr h.total_eq (.inl (by omega))
  obtain ⟨v, hBytes, hBaseV, -, -, hLinks, -⟩ := h.case1 hHelper (.inr ⟨_, _, rfl, hOff⟩) hNone
  apply hLinks.front
  have hHead : v.heapBasefree = y := hBaseV.trans hBase
  have hKept : loadLE (putTags t.bytes q want) y 8 = NULL := by
    rw [putTags_below (by omega) (by omega), hPred]
  rw [hHead, hBytes, putTags_below (by omega) (by omega)]
  exact loadLE_cleared hKept

/-- The addresses in the words where the remainder will have its links. -/
structure RestClear (t : State) (bs : List Block) (x : Nat) : Prop where
  pred : OffTags t.heapListp bs (loadLE t.bytes x 8) ∧ Misses (loadLE t.bytes x 8) (x - 8) 20
  succ : OffTags t.heapListp bs (loadLE t.bytes (x + 4) 8) ∧
    Misses (loadLE t.bytes (x + 4) 8) (x - 8) 20

/-- An address that misses the tags of the whole block and those that a cut puts inside it. -/
theorem offLinks (h : SplitRun t s' l r p b links q want rest)
    (hOff : OffTags t.heapListp (Cursor.blocks ⟨p :: l, b, r⟩) a)
    (hMiss : Misses a (q + want.size - 8) 20) :
    OffLinks t.heapListp (Cursor.blocks ⟨want :: p :: l, rest, r⟩) (q + want.size) a := by
  have hLeast := h.least
  refine ⟨hOff.cut h.addr h.total_eq (hMiss.mono le_rfl (by omega)), ?_⟩
  exact hMiss.mono (by omega) (by omega)

theorem payload_offTags (h : SplitRun t s' l r p b links q want rest) (hLo : q ≤ a)
    (hHi : a + 8 ≤ q + want.size - 8) :
    OffTags t.heapListp (Cursor.blocks ⟨want :: p :: l, rest, r⟩) a := by
  have hStart := h.heap.heap.start_le
  have hMem := Cursor.mem_prev t.heapListp (p :: l) r want rest
  rw [total_cons, Nat.add_comm p.size, ← Nat.add_assoc, ← h.addr] at hMem
  exact .payload (by omega) hMem hLo hHi

theorem rest_kept (h : SplitRun t s' l r p b links q want rest) {lo k : Nat}
    (hLo : q + want.size ≤ lo) (hHi : lo + k ≤ q + want.size + rest.size - 8) :
    loadLE (putTags (putTags t.bytes q want) (q + want.size) rest) lo k = loadLE t.bytes lo k := by
  have hBounds := h.bounds
  rw [putTags_inside (by omega) hLo hHi, putTags_above (by omega) (by omega)]

/-- The block at `2^32` becomes the head of the list and still names the placed block. -/
theorem first_unlinked {c : Block} (h : SplitRun t s' l r p b [(q, b), (2 ^ 32, c)] q want rest)
    (hBig : 24 ≤ want.size) : ∃ v k,
    v.bytes = putTags (putTags t.bytes q want) (q + want.size) rest ∧ v.heapBasefree = 2 ^ 32 ∧
      v.heapListp = t.heapListp ∧ loadLE v.bytes (2 ^ 32) 8 = q ∧
      loadLE v.bytes (2 ^ 32 + 4) 8 = NULL ∧
      BoundaryHeap v (Cursor.blocks ⟨want :: p :: l, rest, r⟩) ∧
      (expCoalesce (q + want.size)).run v = .ok (k, s') := by
  have hBounds := h.bounds
  have hTotal := h.total_eq
  obtain ⟨hLow, -⟩ := h.heap.threaded.pair
  obtain ⟨-, hPred, hSucc, hBack, hEnd⟩ := h.heap.linked
  have hInside := h.heap.threaded.inside (x := (2 ^ 32, c)) (by simp)
  have hFits := h.heap.threaded.fits (x := (2 ^ 32, c)) (by simp)
  dsimp only at hLow hPred hSucc hBack hEnd hInside hFits
  have hEnd : loadLE t.bytes (2 ^ 32 + 4) 8 = NULL := hEnd
  obtain ⟨hKeptPred, hKeptSucc⟩ := h.links_kept hBig
  have hKeptBack : loadLE (putTags t.bytes q want) (2 ^ 32) 8 = q := by
    rw [putTags_above (by omega) (by omega), hBack]
  have hHelper := coalesceHelper_front (t := t.withBytes (putTags t.bytes q want)) (m := 2 ^ 32)
    (by change t.memStartBrk ≤ q; omega) (by change q + 12 ≤ t.memBrk; omega)
    (by change t.memStartBrk ≤ 2 ^ 32; omega) (by change 2 ^ 32 + 8 ≤ t.memBrk; omega)
    (hKeptPred.trans hPred) (hKeptSucc.trans hSucc) hKeptBack
  obtain ⟨v, k, hBytes, hBase, hListp, hHeap, hRun⟩ := h.cut hHelper (.inl rfl)
  have hBytes : v.bytes = putTags (putTags t.bytes q want) (q + want.size) rest := hBytes
  refine ⟨v, k, hBytes, hBase, hListp, ?_, ?_, hHeap, hRun⟩
  · rw [hBytes, putTags_above (by omega) (by omega), hKeptBack]
  · rw [hBytes, putTags_above (by omega) (by omega), putTags_above (by omega) (by omega), hEnd]

theorem first_merges {v : State} {c : Block} {k : Nat} {right : List Block}
    (hHeap : BoundaryHeap v (Cursor.blocks ⟨want :: p :: l, rest, c :: right⟩))
    (hq : q = v.heapListp + total (p :: l)) (hAlloc : want.alloc = true) (hFree : c.alloc = false)
    (hBig : 24 ≤ want.size) (hAdjacent : q + want.size + rest.size = 2 ^ 32) (hFits : 24 ≤ c.size)
    (hRoom : FREEBLOCKSIZE ≤ rest.size) (hTotal : b.size = want.size + rest.size)
    (hBase : v.heapBasefree = 2 ^ 32) (hBack : loadLE v.bytes (2 ^ 32) 8 = q)
    (hLast : loadLE v.bytes (2 ^ 32 + 4) 8 = NULL)
    (hOff : ∀ a ∈ [loadLE v.bytes (2 ^ 32) 8, loadLE v.bytes (q + want.size + 4) 8,
      loadLE v.bytes (q + want.size) 8],
      OffLinks v.heapListp (Cursor.blocks ⟨want :: p :: l, rest, c :: right⟩) (q + want.size) a)
    (hPayload : OffTags v.heapListp (Cursor.blocks ⟨want :: p :: l, rest, c :: right⟩) (q + 4))
    (hRun : (expCoalesce (q + want.size)).run v = .ok (k, s')) : SplitLeft s' q b want := by
  obtain ⟨hWant, hRest⟩ := hHeap.pair
  have hAbove := hHeap.above
  rw [← hq] at hWant hRest
  rw [show v.heapListp + total (want :: p :: l) + rest.size = 2 ^ 32 by
    rw [total_cons]; omega] at hAbove
  have hStart := hWant.start_le
  have hEnd := hAbove.end_le
  have hEndWant := hWant.end_le
  have hBrk := v.brk_lt
  rw [FREEBLOCKSIZE] at hRoom
  let u := v.withBytes (storeLE v.bytes (q + 4) 8 NULL)
  have hHelper : ∀ out, (coalesceHelper (q + want.size + rest.size)).run { v with out := out } =
      .ok ((), { u with out := out }) := by
    intro out
    rw [hAdjacent]
    exact coalesceHelper_back (t := { v with out := out }) (m := q)
      (by change v.memStartBrk ≤ 2 ^ 32; omega) (by change 2 ^ 32 + 12 ≤ v.memBrk; omega)
      (by change v.memStartBrk ≤ q; omega) (by change q + 12 ≤ v.memBrk; omega) (by omega) hBack hLast
  obtain ⟨hLinks, hBytes, hBase'⟩ := expCoalesce_case2 hHeap (by omega) hAlloc hFree hHelper hRun
  have hMerged := (hHeap.store (v := NULL) hPayload).mergeAbove (x := q + want.size)
    (by change _ = v.heapListp + _ + _; omega)
  let w := u.withBytes (putTags u.bytes (q + want.size) (rest.merge c))
  have hWord : ∀ lo n, q + want.size ≤ lo → lo + n ≤ q + want.size + (rest.size + c.size) - 8 →
      loadLE w.bytes lo n = loadLE v.bytes lo n := by
    intro lo n hLo hHi
    have hKept : loadLE (storeLE v.bytes (q + 4) 8 NULL) lo n = loadLE v.bytes lo n :=
      loadLE_storeLE_of_disjoint (by omega)
    rw [← hKept]
    exact putTags_inside (by omega) hLo (by rwa [size_merge])
  have hHead := hWord (2 ^ 32) 8 (by omega) (by omega)
  have hSucc := hWord (q + want.size + 4) 8 (by omega) (by omega)
  have hPred := hWord (q + want.size) 8 le_rfl (by omega)
  rw [← hHead, ← hSucc, ← hPred] at hOff
  have hBaseU : w.heapBasefree = 2 ^ 32 := hBase
  apply splitLeft_of_link (v := w) hMerged hq (by rw [size_merge]; omega)
    (by rw [size_merge, FREEBLOCKSIZE]; omega) hLinks hBytes hBase'
  rw [hBaseU]
  intro a ha
  exact ⟨(hOff a ha).tags.merge, (hOff a ha).links⟩

theorem first_left {c : Block} (h : SplitRun t s' l r p b [(q, b), (2 ^ 32, c)] q want rest)
    (hBig : 24 ≤ want.size) (hClear : RestClear t (Cursor.blocks ⟨p :: l, b, r⟩) (q + want.size)) :
    SplitLeft s' q b want := by
  have hTotal := h.total_eq
  have hRoom := h.room
  have hSize : 24 ≤ rest.size := hRoom
  have hPred : loadLE (putTags (putTags t.bytes q want) (q + want.size) rest) (q + want.size) 8 =
      loadLE t.bytes (q + want.size) 8 := h.rest_kept le_rfl (by omega)
  have hSucc : loadLE (putTags (putTags t.bytes q want) (q + want.size) rest) (q + want.size + 4) 8 =
      loadLE t.bytes (q + want.size + 4) 8 := h.rest_kept (by omega) (by omega)
  have hOffPred := h.offLinks hClear.pred.1 hClear.pred.2
  have hOffSucc := h.offLinks hClear.succ.1 hClear.succ.2
  have hOffHead : OffLinks t.heapListp (Cursor.blocks ⟨want :: p :: l, rest, r⟩) (q + want.size) q :=
    ⟨h.payload_offTags le_rfl (by omega), .inl (by omega)⟩
  have hPayload := h.payload_offTags (a := q + 4) (by omega) (by omega)
  obtain ⟨v, k, hBytes, hBase, hListp, hBack, hLast, hHeap, hRun⟩ := h.first_unlinked hBig
  rw [← hBytes] at hPred hSucc
  rw [← hListp] at hOffPred hOffSucc hOffHead hPayload
  have hq : q = v.heapListp + total (p :: l) := by
    rw [hListp, h.addr, total_cons]
    omega
  have hOff : ∀ a ∈ [loadLE v.bytes (2 ^ 32) 8, loadLE v.bytes (q + want.size + 4) 8,
      loadLE v.bytes (q + want.size) 8],
      OffLinks v.heapListp (Cursor.blocks ⟨want :: p :: l, rest, r⟩) (q + want.size) a := by
    rw [hBack, hSucc, hPred]
    simp only [List.mem_cons, List.not_mem_nil, or_false, forall_eq_or_imp, forall_eq]
    exact ⟨hOffHead, hOffSucc, hOffPred⟩
  by_cases hAbove : ∀ y ∈ r.head?, y.alloc = true
  · obtain ⟨hLinks, hBytes', hBase'⟩ := expCoalesce_case1 hHeap (by omega) h.alloc hAbove hRun
    rw [← hBase] at hOff
    exact splitLeft_of_link hHeap hq hTotal.ge hRoom hLinks hBytes' hBase' hOff
  · obtain _ | ⟨n, right⟩ := r
    · simp at hAbove
    · have hFree : n.alloc = false := by simpa using hAbove
      have hListed : (q + b.size, n) ∈ [(q, b), (2 ^ 32, c)] := by
        have hMem := Cursor.mem_next t.heapListp (p :: l) right b n
        rw [Cursor.addr, total_cons, Nat.add_comm p.size, ← Nat.add_assoc, ← h.addr] at hMem
        exact h.heap.mem_iff.mpr ⟨hMem, hFree⟩
      have hFits := h.heap.threaded.fits hListed
      have hPos := b.size_pos
      simp only [List.mem_cons, Prod.mk.injEq, List.not_mem_nil, or_false] at hListed
      exact first_merges hHeap hq h.alloc hFree hBig (by omega) hFits hRoom hTotal.symm hBase hBack
        hLast hOff hPayload hRun

/-! ### A placed block of 16 bytes -/

/-- The footer 17 of a block of 16 bytes is the high half of its `SUCC` field. -/
theorem small_links (h : SplitRun t s' l r p b links q want rest) (hSmall : want.size = 16)
    (hBack : loadLE t.bytes q 8 < 2 ^ 32) :
    loadLE (putTags t.bytes q want) q 8 = loadLE t.bytes q 8 ∧
      loadLE (putTags t.bytes q want) (q + 4) 8 = 17 * 2 ^ 32 := by
  have hBounds := h.bounds
  have hTag : want.tag = 17 := by rw [want.tag_eq, hSmall, h.alloc, Bool.toNat_true]
  have hFooter : loadLE (putTags t.bytes q want) (q + 4 + 4) 4 = 17 := by
    have hStores : Tagged (putTags t.bytes q want) q want := tagged_of_stores (by omega) (by omega)
    have hTagged := hStores.footer
    rwa [hSmall, show q + 16 - 8 = q + 4 + 4 by omega, hTag] at hTagged
  have hLow : loadLE (putTags t.bytes q want) (q + 4) 4 = loadLE t.bytes (q + 4) 4 :=
    putTags_inside (by omega) (by omega) (by omega)
  have hHigh := loadLE_wide t.bytes q
  refine ⟨putTags_inside (by omega) le_rfl (by omega), ?_⟩
  rw [loadLE_wide, hFooter, hLow]
  omega

theorem helper_head {y : Nat} (hLo : t.memStartBrk ≤ q) (hHi : q + 12 ≤ t.memBrk)
    (hPred : loadLE t.bytes q 8 = NULL) (hSucc : loadLE t.bytes (q + 4) 8 = y) (hy : y ≠ NULL)
    (hRun : (coalesceHelper q).run t = .ok ((), u)) : t.Reaches y 8 ∧
      u.bytes = storeLE t.bytes (loadLE t.bytes y 8) 8 NULL ∧ u.heapBasefree = y := by
  let v : State := { t with heapBasefree := y }
  have hSet : (setHeapBasefree y).run t = .ok ((), v) := rfl
  have hSuccV : (succ q).run v = .ok (y, v) := succ_at (t := v) hLo hHi hSucc
  have hPredV : (pred q).run v = .ok (NULL, v) := pred_at (t := v) hLo (by change q + 8 ≤ t.memBrk; omega) hPred
  rw [coalesceHelper, if_pos (ne_null_of_start_le hLo)] at hRun
  dsimp only at hRun
  rw [run_bind_ok (pred_at hLo (by omega) hPred), if_neg (not_not.mpr rfl),
    run_bind_ok (succ_at hLo hHi hSucc), run_bind_ok hSet, run_bind_ok hSuccV, if_pos hy,
    run_bind_ok hSuccV, pred, load_bind_iff, run_bind_ok hPredV, put64val] at hRun
  obtain ⟨hReach, hStore⟩ := hRun
  obtain ⟨-, hStored⟩ := store_ok hStore
  have hSame : v.bytes = t.bytes := rfl
  rw [hSame] at hStored
  generalize storeLE t.bytes (loadLE t.bytes y 8) 8 NULL = m at hStored ⊢
  rw [hStored]
  exact ⟨hReach, rfl, rfl⟩

theorem helper_back {y z : Nat} (hLo : t.memStartBrk ≤ q) (hHi : q + 12 ≤ t.memBrk)
    (hLoY : t.memStartBrk ≤ y) (hHiY : y + 12 ≤ t.memBrk) (hApart : y + 12 ≤ q)
    (hPred : loadLE t.bytes q 8 = y) (hSucc : loadLE t.bytes (q + 4) 8 = z) (hz : z ≠ NULL)
    (hRun : (coalesceHelper q).run t = .ok ((), u)) : t.Reaches z 8 := by
  let v := t.withBytes (storeLE t.bytes (y + 4) 8 z)
  have hSet : (setSucc y z).run t = .ok ((), v) := setSucc_run hLoY hHiY
  have hSuccV : (succ q).run v = .ok (z, v) := by
    apply succ_at (t := v) hLo hHi
    rw [← hSucc]
    exact loadLE_storeLE_of_disjoint (by omega)
  rw [coalesceHelper, if_pos (ne_null_of_start_le hLo)] at hRun
  dsimp only at hRun
  rw [run_bind_ok (pred_at hLo (by omega) hPred), if_pos (ne_null_of_start_le hLoY),
    run_bind_ok (pred_at hLo (by omega) hPred), run_bind_ok (succ_at hLo hHi hSucc),
    run_bind_ok hSet, run_bind_ok hSuccV, if_pos hz, run_bind_ok hSuccV, pred, load_bind_iff] at hRun
  exact hRun.1

theorem helper_ran (h : SplitRun t s' l r p b links q want rest) :
    ∃ u, (coalesceHelper q).run (t.withBytes (putTags t.bytes q want)) = .ok ((), u) := by
  obtain ⟨_, u, hHelper, -⟩ := run_bind_eq_ok.mp h.run
  exact ⟨u, hHelper⟩

/-- With a second block at `2^32`, that address is out of reach. -/
theorem small_stops {x : Nat × Block} (h : SplitRun t s' l r p b links q want rest)
    (hSmall : want.size = 16) (hx : links = [(q, b), x] ∨ links = [x, (q, b)]) : False := by
  have hBounds := h.bounds
  have hTotal := h.total_eq
  have hLimit := t.limit_le_max
  have hMax := t.max_eq
  have hFar : ¬ t.memStartBrk ≤ 2 ^ 32 ∨ ¬ t.Reaches (17 * 2 ^ 32) 8 := by
    rw [State.Reaches]
    unfold maxHeap at hMax
    omega
  obtain ⟨u, hHelper⟩ := h.helper_ran
  have hFar' : t.memStartBrk ≤ 2 ^ 32 := by
    obtain rfl | rfl := hx
    · have hInside := h.heap.threaded.inside (x := x) (by simp)
      have hPair := h.heap.threaded.pair
      omega
    · have hPair := h.heap.threaded.pair
      dsimp only at hPair
      omega
  apply hFar.resolve_left (not_not.mpr hFar')
  obtain rfl | rfl := hx
  · obtain ⟨-, hPred, -⟩ := h.heap.linked
    obtain ⟨hKept, hNext⟩ := h.small_links hSmall (by rw [hPred]; decide)
    exact (helper_head (t := t.withBytes (putTags t.bytes q want)) (by change t.memStartBrk ≤ q; omega)
      (by change q + 12 ≤ t.memBrk; omega) (hKept.trans hPred) hNext (by decide) hHelper).1
  · obtain ⟨-, -, -, hBack, -⟩ := h.heap.linked
    have hInside := h.heap.threaded.inside (x := x) (by simp)
    have hFits := h.heap.threaded.fits (x := x) (by simp)
    obtain ⟨hLow, hHigh⟩ := h.heap.threaded.pair
    dsimp only at hBack hHigh
    obtain ⟨hKept, hNext⟩ := h.small_links hSmall (by rw [hBack]; omega)
    exact helper_back (t := t.withBytes (putTags t.bytes q want)) (by change t.memStartBrk ≤ q; omega)
      (by change q + 12 ≤ t.memBrk; omega) (by change t.memStartBrk ≤ x.1; omega)
      (by change x.1 + 12 ≤ t.memBrk; omega) (by omega) (hKept.trans hBack) hNext (by decide) hHelper

theorem small_left (h : SplitRun t s' l r p b [(q, b)] q want rest) (hSmall : want.size = 16)
    (hClear : RestClear t (Cursor.blocks ⟨p :: l, b, r⟩) (q + want.size))
    (hStray : let cut := putTags t.bytes q want
      let next := loadLE cut (q + 4) 8
      let tagged := putTags (storeLE cut (loadLE cut next 8) 8 NULL) (q + want.size) rest
      ∀ a ∈ [loadLE cut next 8, loadLE tagged next 8],
        OffTags t.heapListp (Cursor.blocks ⟨p :: l, b, r⟩) a ∧ Misses a (q + want.size - 8) 20) :
    SplitLeft s' q b want := by
  have hBounds := h.bounds
  have hTotal := h.total_eq
  have hSize : 24 ≤ rest.size := h.room
  obtain ⟨u, hHelper⟩ := h.helper_ran
  obtain ⟨-, hPred, -⟩ := h.heap.linked
  obtain ⟨hKept, hNext⟩ := h.small_links hSmall (by rw [hPred]; decide)
  dsimp only at hStray
  rw [hNext] at hStray
  have hNextNe : 17 * 2 ^ 32 ≠ NULL := by decide
  generalize 17 * 2 ^ 32 = next at hNext hStray hNextNe
  simp only [List.mem_cons, List.not_mem_nil, or_false, forall_eq_or_imp, forall_eq] at hStray
  obtain ⟨hUnlink, hHead⟩ := hStray
  have hOffUnlink := h.offLinks hUnlink.1 hUnlink.2
  obtain ⟨-, hMem, hBaseU⟩ := helper_head (t := t.withBytes (putTags t.bytes q want))
    (by change t.memStartBrk ≤ q; omega) (by change q + 12 ≤ t.memBrk; omega) (hKept.trans hPred)
    hNext hNextNe hHelper
  have hMem : u.bytes = storeLE (putTags t.bytes q want) (loadLE (putTags t.bytes q want) next 8) 8
    NULL := hMem
  have hNone : ∀ c, (q + b.size, c) ∉ [(q, b)] := by
    intro c hMem
    have hPos := b.size_pos
    have hAddr := congrArg Prod.fst (List.mem_singleton.mp hMem)
    dsimp only at hAddr
    omega
  obtain ⟨v, hBytes, hBase, hListp, hHeap, hLinks, hBytes', hBase'⟩ :=
    h.case1 hHelper (.inr ⟨_, _, hMem, hOffUnlink.tags⟩) hNone
  have hq : q = v.heapListp + total (p :: l) := by
    rw [hListp, h.addr, total_cons]
    omega
  have hMemRest : (q + want.size, rest) ∈
      addressed t.heapListp (Cursor.blocks ⟨want :: p :: l, rest, r⟩) := by
    have hMem := Cursor.mem_addressed ⟨want :: p :: l, rest, r⟩ t.heapListp
    rwa [Cursor.addr, total_cons, ← hListp, ← Nat.add_assoc, Nat.add_right_comm, ← hq, hListp]
      at hMem
  rw [hMem] at hBytes
  have hCommuted := hBytes.trans (putTags_store (hOffUnlink.tags.header hMemRest)
    (hOffUnlink.tags.footer hMemRest))
  have hWord : ∀ lo, q + want.size ≤ lo → lo + 8 ≤ q + want.size + 12 →
      loadLE v.bytes lo 8 = loadLE t.bytes lo 8 := by
    intro lo hLo hHi
    rw [hCommuted, loadLE_of_misses (hUnlink.2.mono (by omega) (by omega)),
      h.rest_kept hLo (by omega)]
  apply splitLeft_of_link hHeap hq hTotal.ge h.room hLinks hBytes' hBase'
  have hRestSucc := hWord (q + want.size + 4) (by omega) (by omega)
  have hRestPred := hWord (q + want.size) le_rfl (by omega)
  rw [hBase, hBaseU, hRestSucc, hRestPred, hBytes, hListp]
  simp only [List.mem_cons, List.not_mem_nil, or_false, forall_eq_or_imp, forall_eq]
  exact ⟨h.offLinks hHead.1 hHead.2, h.offLinks hClear.succ.1 hClear.succ.2,
    h.offLinks hClear.pred.1 hClear.pred.2⟩

theorem left (h : SplitRun t s' l r p b links q want rest)
    (hStrays : ∀ a ∈ splitStrays t.bytes q b.size want.size,
      Clear t (Cursor.blocks ⟨p :: l, b, r⟩) links a ∧ Misses a (q + want.size - 8) 20) :
    SplitLeft s' q b want := by
  have hWant : Block.ofSize want.size true = want := by rw [← h.alloc, Block.ofSize_self]
  have hRest : Block.ofSize (b.size - want.size) false = rest := by
    rw [← h.total_eq, Nat.add_sub_cancel_left, ← h.free, Block.ofSize_self]
  have hLeast := h.least
  simp only [splitStrays, hWant, hRest, List.forall_mem_append] at hStrays
  obtain ⟨hWords, hSmallStrays⟩ := hStrays
  simp only [List.mem_cons, List.not_mem_nil, or_false, forall_eq_or_imp, forall_eq] at hWords
  have hClear : RestClear t (Cursor.blocks ⟨p :: l, b, r⟩) (q + want.size) :=
    ⟨⟨hWords.1.1.tags, hWords.1.2⟩, ⟨hWords.2.1.tags, hWords.2.2⟩⟩
  obtain hSmall | hBig : want.size = 16 ∨ 24 ≤ want.size := by
    have hMod := want.size_mod
    omega
  · obtain rfl | ⟨x, hx⟩ := h.heap.threaded.shape h.listed
    · apply h.small_left hSmall hClear
      rw [if_pos (by omega)] at hSmallStrays
      exact fun a ha => ⟨(hSmallStrays a ha).1.tags, (hSmallStrays a ha).2⟩
    · exact (h.small_stops hSmall hx).elim
  · obtain rfl | ⟨⟨y, c⟩, rfl | rfl⟩ := h.heap.threaded.shape h.listed
    · exact (h.single_stops hBig).elim
    · obtain ⟨-, hHigh⟩ := h.heap.threaded.pair
      dsimp only at hHigh
      subst hHigh
      exact h.first_left hBig hClear
    · exact (h.last_stops hBig).elim

end SplitRun

end Cs33.Malloc
