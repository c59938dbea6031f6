import Cs33.Malloc.ExpPlace
import Cs33.Malloc.RequestSize

/-! # The allocator that the build links: `mm_init`, `mm_malloc` and `mm_free`

`mm_init` asks for four words and reads the footer of a prologue of six, so no
run gets past it. From a consistent state `mm_free` stores through NULL, and
`mm_malloc` leaves a consistent state when it takes the last block of the list
whole and the words it takes for links of the neighbours are harmless addresses.
-/

namespace Cs33.Malloc

open ByteMemory

/-- A call of a client, with the argument it passes. -/
inductive Request where
  | malloc (size : Nat)
  | free (bp : Nat)

/-! ## Runs from `mm_init` -/

def State.reset (s : State) : State := { s with toMemlib := memResetBrk s.toMemlib }

def State.start (start : Nat) (bytes : Bytes) (hPos : 0 < start)
    (hFits : start + maxHeap < 2 ^ 64) : State where
  toMemlib := memInit start bytes hPos hFits
  heapListp := NULL
  heapBasefree := NULL
  out := []
  guarded := false

/-- The requests a client may make when it holds the blocks `live`. -/
def Request.Allowed (live : List (Nat × Nat)) : Request → Prop
  | .malloc size => 0 < size ∧ size < 2 ^ 31
  | .free p => ∃ size, (p, size) ∈ live

/-- A request keeps inside the heap and answers with a fresh aligned payload. -/
def Request.Safe (s : State) (live : List (Nat × Nat)) : Request → Prop
  | .malloc size => (∀ a, (mmMalloc size).run s ≠ .error (.outside a)) ∧
      ∀ p s', (mmMalloc size).run s = .ok (p, s') → p ≠ NULL → p % 8 = 0 ∧ s'.InHeap p size ∧
        ∀ q k, (q, k) ∈ live → p + size ≤ q ∨ q + k ≤ p
  | .free p => ∀ a, (mmFree p).run s ≠ .error (.outside a)

inductive Request.Serves (s : State) (live : List (Nat × Nat)) :
    Request → State → List (Nat × Nat) → Prop
  | fresh {size p : Nat} {s' : State} : (mmMalloc size).run s = .ok (p, s') → p ≠ NULL →
      Serves s live (.malloc size) s' ((p, size) :: live)
  | refused {size : Nat} {s' : State} : (mmMalloc size).run s = .ok (NULL, s') →
      Serves s live (.malloc size) s' live
  | freed {p size : Nat} {s' : State} : (p, size) ∈ live → (mmFree p).run s = .ok ((), s') →
      Serves s live (.free p) s' (live.erase (p, size))

def Served (s : State) (live : List (Nat × Nat)) : List Request → Prop
  | [] => True
  | r :: rs => r.Allowed live → r.Safe s live ∧
      ∀ s' live', r.Serves s live s' live' → Served s' live' rs

/-- `mm_init` and the requests after it keep inside the heap and hand out what they should. -/
def SafeRun (s : State) (rs : List Request) : Prop :=
  (∀ a, mmInit.run s.guard ≠ .error (.outside a)) ∧
    ∀ s', mmInit.run s.guard = .ok (0, s') → Served s' [] rs

theorem reset_start (start : Nat) (bytes : Bytes) (hPos : 0 < start)
    (hFits : start + maxHeap < 2 ^ 64) :
    (State.start start bytes hPos hFits).reset = State.start start bytes hPos hFits := rfl

theorem printblock_stops {s : State} {bp : Nat} {b : Block} (hGuard : s.guarded = true)
    (hLo : s.memStartBrk + 4 ≤ bp) (hHi : bp ≤ s.memBrk)
    (hHeader : loadLE s.bytes (bp - 4) 4 = b.tag) (hSize : b.size < 2 ^ 32)
    (hOut : s.memBrk < bp + b.size - 4) (hEnd : bp + b.size < 2 ^ 64) :
    (printblock bp).run s = .error (.outside (bp + b.size - 8)) := by
  have hEight := b.eight_le
  have hGet := getSize_hdrp_run hLo hHi hSize hHeader
  have hAlloc : (getAlloc (hdrp bp)).run s = .ok (allocBit (loadLE s.bytes (bp - 4) 4), s) := by
    rw [hdrp_eq hLo hHi, getAlloc_run (by omega) (by omega)]
  have hFtrp : (ftrp bp).run s = .ok (bp + b.size - 8, s) := by
    rw [ftrp, Exec.run_bind_ok hGet, Exec.run_pure, plus_eq hEnd,
      minus_eq (by unfold DSIZE; omega) hEnd]
    rfl
  have hStop : (getSize (bp + b.size - 8)).run s = .error (.outside (bp + b.size - 8)) := by
    rw [getSize, get, Exec.run_bind_error (load_stop _)]
    rw [State.Reaches, State.limit_guarded hGuard]
    omega
  rw [printblock, Exec.run_bind_ok hGet, Exec.run_bind_ok hAlloc, Exec.run_bind_ok hFtrp,
    Exec.run_bind_error hStop]

/-- The four words of `mm_init` end before the footer of the prologue it announces. -/
theorem mmInit_stops (s : State) :
    mmInit.run s.reset.guard = .error (.outside (s.memStartBrk + 24)) := by
  let pro : Block := ⟨FREEBLOCKSIZE, true, by decide, by decide⟩
  have hPos := s.start_pos
  have hMax := s.max_eq
  have hLt := s.max_lt
  rw [maxHeap] at hMax
  let t : State := { s.reset.guard with toMemlib := (memSbrk 16 (memResetBrk s.toMemlib)).2 }
  have hFits : ((memResetBrk s.toMemlib).memBrk : Int) + 16 ≤ (memResetBrk s.toMemlib).memMaxAddr := by
    change (s.memStartBrk : Int) + 16 ≤ s.memMaxAddr
    omega
  have hSbrk : (sbrk (4 * WSIZE)).run s.reset.guard = .ok (s.memStartBrk, t) :=
    congrArg (fun p => Except.ok (p, t)) (memSbrk_fst (by decide) hFits)
  have hBrk : t.memBrk = s.memStartBrk + 16 := memSbrk_brk (by decide) hFits
  have hStart : t.memStartBrk = s.memStartBrk := memSbrk_start _ _
  let t₁ : State := { t with heapListp := s.memStartBrk }
  let t₂ := t₁.withBytes (storeLE t.bytes s.memStartBrk 4 0)
  have hPad : (put s.memStartBrk 0).run t₁ = .ok ((), t₂) :=
    put_run (s := t₁) hStart.le (by change _ ≤ t.memBrk; omega)
  have hPlus : plus s.memStartBrk WSIZE = s.memStartBrk + 4 := plus_eq (by unfold WSIZE; omega)
  have hPlus' : plus (s.memStartBrk + 4) WSIZE = s.memStartBrk + 8 :=
    plus_eq (by unfold WSIZE; omega)
  let t₃ : State := { t₂ with heapListp := s.memStartBrk + 4 }
  let t₄ := t₃.withBytes (storeLE t₂.bytes (s.memStartBrk + 4) 4 pro.tag)
  have hHeader : (put (s.memStartBrk + 4) (pack FREEBLOCKSIZE 1)).run t₃ = .ok ((), t₄) :=
    put_run (s := t₃) (by change t.memStartBrk ≤ _; omega) (by change _ ≤ t.memBrk; omega)
  let t₅ : State := { t₄ with heapListp := s.memStartBrk + 8 }
  have hStop : (printblock (s.memStartBrk + 8)).run t₅ =
      .error (.outside (s.memStartBrk + 8 + 24 - 8)) := by
    apply printblock_stops (s := t₅) (b := pro)
    · rfl
    · change t.memStartBrk + 4 ≤ _
      omega
    · change _ ≤ t.memBrk
      omega
    · exact loadLE_storeLE_of_lt (by decide)
    · decide
    · change t.memBrk < s.memStartBrk + 8 + 24 - 4
      omega
    · change s.memStartBrk + 8 + 24 < _
      omega
  have hNotNull : ¬ s.memStartBrk = NULL := by
    rw [NULL]
    omega
  have hGet₁ : getHeapListp.run t₁ = .ok (s.memStartBrk, t₁) := rfl
  have hGet₂ : getHeapListp.run t₂ = .ok (s.memStartBrk, t₂) := rfl
  have hGet₃ : getHeapListp.run t₃ = .ok (s.memStartBrk + 4, t₃) := rfl
  have hGet₄ : getHeapListp.run t₄ = .ok (s.memStartBrk + 4, t₄) := rfl
  have hGet₅ : getHeapListp.run t₅ = .ok (s.memStartBrk + 8, t₅) := rfl
  have hSet₁ : (setHeapListp s.memStartBrk).run t = .ok ((), t₁) := rfl
  have hSet₃ : (setHeapListp (s.memStartBrk + 4)).run t₂ = .ok ((), t₃) := rfl
  have hSet₅ : (setHeapListp (s.memStartBrk + 8)).run t₄ = .ok ((), t₅) := rfl
  rw [mmInit, Exec.run_bind_ok hSbrk, Exec.run_bind_ok hSet₁, Exec.run_bind_ok hGet₁,
    if_neg hNotNull, Exec.run_bind_ok hGet₁, Exec.run_bind_ok hPad, Exec.run_bind_ok hGet₂, hPlus,
    Exec.run_bind_ok hSet₃, Exec.run_bind_ok hGet₃, Exec.run_bind_ok hHeader,
    Exec.run_bind_ok hGet₄, hPlus', Exec.run_bind_ok hSet₅, Exec.run_bind_ok hGet₅,
    Exec.run_bind_error hStop]
  rfl

/-- Whatever the heap held before and whatever the client asks for, `mm_init` reads past the
words it got. -/
theorem live_run_never_safe (s : State) (rs : List Request) : ¬ SafeRun s.reset rs := by
  rintro ⟨hInside, -⟩
  exact hInside _ (mmInit_stops s)

theorem live_run_unsafe_first :
    ¬ SafeRun (State.start 4096 (fun _ => 0) (by decide) (by decide)) [] := by
  rintro ⟨hInside, -⟩
  rw [← reset_start] at hInside
  exact hInside _ (mmInit_stops _)

/-! ## One call from a consistent state -/

/-- `mm_free` of an allocated user block, or `mm_malloc` of a size on which it returns. -/
def Request.InScope (s : State) : Request → Prop
  | .malloc size => 0 < size ∧ ∃ p s', (mmMalloc size).run s.bare = .ok (p, s')
  | .free bp => ∃ n, Live s bp n

/-- The call stays in the heap and leaves a consistent state. -/
def Request.Keeps (s : State) : Request → Prop
  | .malloc size => ∃ p s', (mmMalloc size).run s.guard = .ok (p, s') ∧
      ∃ bs links, Consistent s' bs links
  | .free bp => ∃ s', (mmFree bp).run s.guard = .ok ((), s') ∧ ∃ bs links, Consistent s' bs links

/-- The address of the block below the cursor's. -/
def Cursor.below (start : Nat) (c : Cursor) : Nat := start + total c.left.tail

/-- The block at the cursor is the last on the list and the first that fits, it is taken whole,
a block stands above it, and what its neighbours hold at `SUCC` and `PRED` are addresses in the
heap off every tag and link. -/
structure LastWhole (s : State) (c : Cursor) (links rest : List (Nat × Block)) (asize : Nat) :
    Prop where
  last : links = rest ++ [(c.addr s.heapListp, c.block)]
  first : ∀ x ∈ rest, x.2.size < asize
  fit : asize ≤ c.block.size
  whole : c.block.size < asize + FREEBLOCKSIZE
  above : c.right ≠ []
  inside : ∀ a ∈ neighbourStrays s.bytes (c.below s.heapListp) (c.addr s.heapListp) c.block.size,
    s.InHeap a 8
  clear : ∀ a ∈ neighbourStrays s.bytes (c.below s.heapListp) (c.addr s.heapListp) c.block.size,
    Clear s c.blocks links a

def Request.TakesLast (s : State) (bs : List Block) (links : List (Nat × Block)) : Request → Prop
  | .malloc size => ∃ c rest, Cursor.blocks c = bs ∧ LastWhole s c links rest (adjust size)
  | .free _ => False

/-- The call stores through no word of a payload that names a tag or a link. -/
def Request.Harmless (s : State) (bs : List Block) (links : List (Nat × Block)) : Request → Prop
  | .malloc size => ∀ c : Cursor, c.blocks = bs →
      c.addr s.heapListp = firstOnList (adjust size) links →
      Malloc.Harmless s bs links (c.below s.heapListp) (c.addr s.heapListp) c.block.size
        (adjust size)
  | .free bp => ∀ b, (bp, b) ∈ addressed s.heapListp bs →
      Clear s bs links (loadLE (putTags s.bytes bp (b.setAlloc false)) (bp + 4) 8)

theorem Linked.chain {m : Bytes} {prev p : Nat} {links : List (Nat × Block)}
    (h : Linked m prev p links) : Chain m NULL p links := by
  induction links generalizing prev p with
  | nil => exact h
  | cons x links ih =>
    obtain ⟨hp, -, hTail⟩ := h
    exact ⟨hp, ih hTail⟩

theorem Harmless.guard {s : State} {bs : List Block} {links : List (Nat × Block)}
    {below q csize asize : Nat} (h : Harmless s bs links below q csize asize) :
    Harmless s.guard bs links below q csize asize :=
  ⟨fun a ha => ⟨(h.neighbours a ha).tags, (h.neighbours a ha).links⟩, h.least, fun hSplit a ha =>
    ⟨⟨(h.split hSplit a ha).1.tags, (h.split hSplit a ha).1.links⟩, (h.split hSplit a ha).2⟩⟩

section Free

theorem freeBlocks_append (start : Nat) (xs ys : List Block) :
    freeBlocks start (xs ++ ys) = freeBlocks start xs ++ freeBlocks (start + total xs) ys := by
  rw [freeBlocks, addressed_append, List.filter_append, freeBlocks, freeBlocks]

theorem freeBlocks_cons (start : Nat) (b : Block) (bs : List Block) : freeBlocks start (b :: bs) =
    (if b.alloc then [] else [(start, b)]) ++ freeBlocks (start + b.size) bs := by
  cases h : b.alloc <;> simp [freeBlocks, addressed, h]

theorem freeBlocks_alloc {start : Nat} {l r : List Block} {b : Block}
    {rest : List (Nat × Block)} (hFree : b.alloc = false)
    (h : (rest ++ [(start + total l, b)]).Perm (freeBlocks start (Cursor.blocks ⟨l, b, r⟩))) :
    rest.Perm (freeBlocks start (Cursor.blocks ⟨l, b.setAlloc true, r⟩)) := by
  rw [Cursor.blocks, freeBlocks_append, freeBlocks_cons, hFree, total_reverse] at h
  rw [Cursor.blocks, freeBlocks_append, freeBlocks_cons, total_reverse, size_setAlloc]
  have hFront : ((start + total l, b) :: rest).Perm ((start + total l, b) ::
      (freeBlocks start l.reverse ++ freeBlocks (start + total l + b.size) r)) :=
    (List.perm_append_singleton _ _).symm.trans (h.trans List.perm_middle)
  exact hFront.cons_inv

end Free

namespace Consistent

variable {s s' : State} {bs : List Block} {links rest : List (Nat × Block)} {l r : List Block}
  {p b : Block} {q size asize : Nat} {x : Nat × State}

theorem listed (h : Consistent s bs links) : Listed s bs links NULL := by
  refine ⟨h.heap, fun x hx => ?_, h.linked.chain, h.visits, .inl rfl⟩
  have hFits := h.threaded.fits hx
  have hInside := h.threaded.inside hx
  omega

theorem guard (h : Consistent s bs links) : Consistent s.guard bs links :=
  ⟨BoundaryHeap.of_writes (t := s) (m := s.bytes) h.heap ⟨rfl, rfl, rfl⟩ rfl, h.tiles, h.sizes,
    h.linked, h.visits⟩

theorem cursor (h : Consistent s bs links) (hListed : (q, b) ∈ links) : ∃ l p r,
    bs = Cursor.blocks ⟨p :: l, b, r⟩ ∧ q = s.heapListp + total l + p.size :=
  h.heap.cursor_of_free (h.visits.mem_iff.mp hListed)

/-- A call that finds a block places it, and one that finds none reads the header of NULL. -/
theorem mmMalloc_iff (h : Consistent s bs links) (hPos : 0 < size) :
    (mmMalloc size).run s = .ok x ↔ (∃ y ∈ links, adjust size ≤ y.2.size) ∧
      x.1 = firstOnList (adjust size) links ∧
      (expPlace (firstOnList (adjust size) links) (adjust size)).run s = .ok ((), x.2) := by
  rw [mmMalloc, if_neg (by omega)]
  dsimp only
  by_cases hFit : ∃ y ∈ links, adjust size ≤ y.2.size
  · obtain ⟨front, b, back, hLinks, -, -⟩ := firstOnList_split hFit
    have hMem : (firstOnList (adjust size) links, b) ∈ front ++ (firstOnList (adjust size) links, b) :: back :=
      List.mem_append_right front List.mem_cons_self
    rw [← hLinks] at hMem
    have hInside := h.threaded.inside hMem
    have hNe : firstOnList (adjust size) links ≠ NULL :=
      ne_null_of_start_le (t := s) (by dsimp only at hInside; omega)
    rw [Exec.run_bind_ok (h.listed.findFitExp_fit hFit), if_pos hNe]
    generalize firstOnList (adjust size) links = q
    constructor
    · intro hRun
      obtain ⟨_, t, hPlace, hReturn⟩ := Exec.run_bind_eq_ok.mp hRun
      cases hReturn
      exact ⟨hFit, rfl, hPlace⟩
    · rintro ⟨-, hAnswer, hPlace⟩
      obtain ⟨p, t⟩ := x
      obtain rfl : p = q := hAnswer
      rw [Exec.run_bind_ok hPlace, Exec.run_pure]
  · have hNone := hFit
    push Not at hNone
    rw [Exec.run_bind_error (h.listed.findFitExp_null hNone)]
    simp only [hFit, false_and, reduceCtorEq]

/-- The state after a block is taken whole is consistent when the list lost its last block. -/
theorem allocated (h : Consistent s (Cursor.blocks ⟨p :: l, b, r⟩) (rest ++ [(q, b)]))
    (hq : q = s.heapListp + total l + p.size) (hFree : b.alloc = false) (hWrites : Writes s s')
    (hHeap : BoundaryHeap s' (Cursor.blocks ⟨p :: l, b.setAlloc true, r⟩))
    (hLinked : Linked s'.bytes NULL s'.heapBasefree rest) :
    Consistent s' (Cursor.blocks ⟨p :: l, b.setAlloc true, r⟩) rest := by
  obtain ⟨-, hBrk, hListp⟩ := hWrites
  have hTiles := h.tiles
  have hVisits := h.visits
  have hAddr : q = s.heapListp + total (p :: l) := by
    rw [hq, total_cons]
    omega
  rw [hAddr] at hVisits
  refine ⟨hHeap, ?_, ?_, hLinked, ?_⟩
  · rw [hListp, hBrk, ← hTiles]
    simp only [Cursor.total_blocks, size_setAlloc]
  · intro c hc
    have hOld := h.sizes
    simp only [Cursor.blocks, List.mem_append, List.mem_cons] at hc hOld
    obtain hc | rfl | hc := hc
    · exact hOld c (.inl hc)
    · exact hOld b (.inr (.inl rfl))
    · exact hOld c (.inr (.inr hc))
  · rw [hListp]
    exact freeBlocks_alloc hFree hVisits

theorem mem_cursor {c : Cursor} (h : Consistent s c.blocks (rest ++ [(c.addr s.heapListp, c.block)])) :
    c.block.alloc = false ∧ ∃ p l, c.left = p :: l := by
  have hFree := (h.mem_iff.mp (List.mem_append_right rest (List.mem_singleton_self _))).2
  refine ⟨hFree, List.exists_cons_of_ne_nil fun hNil => ?_⟩
  obtain ⟨p, users, hBlocks, hAlloc⟩ := h.heap.prologue
  rw [Cursor.blocks, hNil, List.reverse_nil, List.nil_append] at hBlocks
  cases hBlocks
  rw [hAlloc] at hFree
  cases hFree

theorem keeps_of_lastWhole {c : Cursor} (h : Consistent s c.blocks links) (hPos : 0 < size)
    (hTakes : LastWhole s c links rest (adjust size)) : (Request.malloc size).Keeps s := by
  obtain ⟨left, b, right⟩ := c
  obtain ⟨rfl, hFirst, hFit, hWhole, hAbove, hInside, hClear⟩ := hTakes
  obtain ⟨hFree, p, l, rfl⟩ := h.mem_cursor
  obtain ⟨n, r, rfl⟩ := List.exists_cons_of_ne_nil hAbove
  have hq : Cursor.addr s.heapListp ⟨p :: l, b, n :: r⟩ = s.heapListp + total l + p.size := by
    rw [Cursor.addr, total_cons]
    omega
  dsimp only [Cursor.below, List.tail] at hFit hWhole hInside hClear
  rw [hq] at h hInside hClear
  generalize hAddr : s.heapListp + total l + p.size = q at *
  have hListed : (q, b) ∈ rest ++ [(q, b)] := List.mem_append_right rest (List.mem_singleton_self _)
  have hHarmless : Harmless s (Cursor.blocks ⟨p :: l, b, n :: r⟩) (rest ++ [(q, b)])
      (s.heapListp + total l) q b.size (adjust size) :=
    ⟨hClear, fun hSplit => absurd hWhole (Nat.not_lt.mpr hSplit),
      fun hSplit => absurd hWhole (Nat.not_lt.mpr hSplit)⟩
  obtain ⟨s', hWrites, hHeap, hUnlinks, hIff⟩ := h.guard.expPlace_whole hAddr.symm hListed hFit hWhole
    hHarmless.guard
  have hNext : s.InHeap (q + b.size) 8 := by
    have hMem := Cursor.mem_next s.heapListp (p :: l) r b n
    rw [Cursor.addr, total_cons, Nat.add_comm p.size, ← Nat.add_assoc, hAddr] at hMem
    have hAt := h.heap.blockAt_of_mem hMem
    have hStart := hAt.start_le
    have hEnd := hAt.end_le
    have hEight := n.eight_le
    rw [s.inHeap_iff]
    omega
  have hReach : ∀ a n, s.InHeap a n → s.guard.Reaches a n := fun _ _ hIn => reaches_of_inHeap hIn
  rw [neighbourStrays, List.forall_mem_cons, List.forall_mem_singleton] at hInside
  have hRun := (hIff ((), s')).mpr ⟨⟨hReach _ _ hInside.1, hReach _ _ hNext, hReach _ _ hInside.2⟩, rfl⟩
  have hLast : firstOnList (adjust size) (rest ++ [(q, b)]) = q := by
    rw [firstOnList_append hFirst, firstOnList, if_pos hFit]
  refine ⟨q, s', (h.guard.mmMalloc_iff hPos).mpr ⟨⟨_, hListed, hFit⟩, hLast.symm, ?_⟩, ?_⟩
  · rwa [hLast]
  · obtain ⟨front, hEq, hLinked⟩ | ⟨hNot, -⟩ := hUnlinks
    · obtain rfl : rest = front := List.append_cancel_right hEq
      exact ⟨_, _, h.guard.allocated hAddr.symm hFree hWrites hHeap hLinked⟩
    · exact absurd rfl (hNot rest)

/-- A head of the list has no block before it. -/
theorem pred_head (h : Consistent s bs links) (hBase : s.heapBasefree ≠ NULL) :
    loadLE s.bytes s.heapBasefree 8 = NULL := by
  have hLinked := h.linked
  cases links with
  | nil => exact absurd hLinked hBase
  | cons x links =>
    obtain ⟨hHead, hPred, -⟩ := hLinked
    rw [hHead, hPred]

/-- A call that splits its block leaves a head of the list that names a block before it. -/
theorem whole_of_kept (h : Consistent s (Cursor.blocks ⟨p :: l, b, r⟩) links)
    (hq : q = s.heapListp + total l + p.size) (hListed : (q, b) ∈ links) (hMod : asize % 8 = 0)
    (hHarmless : Harmless s (Cursor.blocks ⟨p :: l, b, r⟩) links (s.heapListp + total l) q b.size
      asize) (hRun : (expPlace q asize).run s = .ok ((), s')) {bs' : List Block}
    {links' : List (Nat × Block)} (hAfter : Consistent s' bs' links') :
    b.size < asize + FREEBLOCKSIZE := by
  by_contra hNot
  have hSplit := Nat.not_lt.mp hNot
  have hLeast := hHarmless.least hSplit
  let want : Block := ⟨asize, true, hMod, by omega⟩
  have hLeft : SplitLeft s' q b want := h.expPlace_split hq hListed rfl hSplit hHarmless hRun
  obtain ⟨-, hBase, hPred⟩ := hLeft
  rw [← hBase] at hPred
  apply hPred
  apply hAfter.pred_head
  rw [hBase, NULL]
  have hPos := want.size_pos
  omega

/-- ... and one that takes it whole has met the block above it and two addresses in the heap. -/
theorem last_of_kept (h : Consistent s (Cursor.blocks ⟨p :: l, b, r⟩) links)
    (hGuard : s.guarded = true) (hq : q = s.heapListp + total l + p.size) (hListed : (q, b) ∈ links)
    (hFit : asize ≤ b.size) (hWhole : b.size < asize + FREEBLOCKSIZE)
    (hHarmless : Harmless s (Cursor.blocks ⟨p :: l, b, r⟩) links (s.heapListp + total l) q b.size
      asize) (hRun : (expPlace q asize).run s = .ok ((), s')) {bs' : List Block}
    {links' : List (Nat × Block)} (hAfter : Consistent s' bs' links') :
    (∃ rest, links = rest ++ [(q, b)]) ∧ r ≠ [] ∧
      ∀ a ∈ neighbourStrays s.bytes (s.heapListp + total l) q b.size, s.InHeap a 8 := by
  obtain ⟨t, -, -, hUnlinks, hIff⟩ := h.expPlace_whole hq hListed hFit hWhole hHarmless
  obtain ⟨⟨hBelow, hNext, hAbove⟩, hSame⟩ := (hIff _).mp hRun
  obtain rfl : t = s' := congrArg Prod.snd hSame
  refine ⟨?_, ?_, ?_⟩
  · obtain ⟨rest, hLast, -⟩ | ⟨-, hBase, hPred⟩ := hUnlinks
    · exact ⟨rest, hLast⟩
    · exact absurd (hAfter.pred_head hBase) hPred
  · rintro rfl
    have hTiles := h.tiles
    rw [State.Reaches, State.limit_guarded hGuard] at hNext
    simp only [Cursor.total_blocks, total_cons, total_nil] at hTiles
    omega
  · rw [neighbourStrays, List.forall_mem_cons, List.forall_mem_singleton]
    exact ⟨inHeap_of_reaches hGuard hBelow, inHeap_of_reaches hGuard hAbove⟩

theorem front_of_last (h : Consistent s bs links) {front back : List (Nat × Block)}
    {y : Nat × Block} (hLast : links = rest ++ [y]) (hLinks : links = front ++ y :: back) :
    rest = front := by
  obtain rfl | ⟨back, z, rfl⟩ := back.eq_nil_or_concat
  · exact List.append_cancel_right (hLast.symm.trans hLinks)
  · have hNodup := h.threaded.nodup
    rw [hLast, List.concat_eq_append, ← List.cons_append, ← List.append_assoc] at hLinks
    obtain ⟨rfl, -⟩ := List.append_inj' hLinks rfl
    rw [hLast] at hNodup
    simp [List.nodup_append] at hNodup

theorem takesLast_of_keeps (h : Consistent s bs links) (hPos : 0 < size)
    (hHarmless : (Request.malloc size).Harmless s bs links) (hKeeps : (Request.malloc size).Keeps s) :
    (Request.malloc size).TakesLast s bs links := by
  obtain ⟨q, s', hRun, bs', links', hAfter⟩ := hKeeps
  obtain ⟨hFit, rfl, hPlace⟩ := (h.guard.mmMalloc_iff hPos).mp hRun
  obtain ⟨front, b, back, hLinks, hSize, hFirst⟩ := firstOnList_split hFit
  dsimp only at hPlace
  generalize hAnswer : firstOnList (adjust size) links = q at hPlace hLinks
  have hListed : (q, b) ∈ links := by
    rw [hLinks]
    exact List.mem_append_right front List.mem_cons_self
  obtain ⟨l, p, r, rfl, hq⟩ := h.cursor hListed
  have hAddr : Cursor.addr s.heapListp ⟨p :: l, b, r⟩ = q := by
    rw [Cursor.addr, total_cons, hq]
    omega
  have hHere := hHarmless ⟨p :: l, b, r⟩ rfl (hAddr.trans hAnswer.symm)
  rw [hAddr] at hHere
  have hGuard := hHere.guard
  have hWhole := h.guard.whole_of_kept hq hListed (adjust_mod size) hGuard hPlace hAfter
  obtain ⟨⟨rest, hLast⟩, hAbove, hInside⟩ := h.guard.last_of_kept rfl hq hListed hSize hWhole hGuard
    hPlace hAfter
  obtain rfl := h.front_of_last hLast hLinks
  refine ⟨⟨p :: l, b, r⟩, rest, rfl, ?_, hFirst, hSize, hWhole, hAbove, ?_, ?_⟩
  · rwa [hAddr]
  · rwa [hAddr]
  · rw [hAddr]
    exact hHere.neighbours

/-- The tags of a freed block lie beside the links of the list. -/
theorem pred_tagged (h : Consistent s bs links) (hMem : (q, b) ∈ addressed s.heapListp bs)
    (hAlloc : b.alloc = true) {y : Nat × Block} (hy : y ∈ links) :
    loadLE (putTags s.bytes q (b.setAlloc false)) y.1 8 = loadLE s.bytes y.1 8 := by
  have hFits := h.threaded.fits hy
  have hInside := h.threaded.inside hy
  have hStart := (h.heap.blockAt_of_mem hMem).start_le
  obtain ⟨hMemY, hFree⟩ := h.mem_iff.mp hy
  obtain rfl | hApart := addressed_apart hMemY hMem
  · rw [hAlloc] at hFree
    cases hFree
  · dsimp only at hApart
    obtain hBelow | hAbove := hApart
    · exact putTags_below (by omega) (by omega)
    · exact putTags_above (by omega) (by rw [size_setAlloc]; omega)

/-- `mm_free` stores through `PRED` of the list's head, which is NULL or holds NULL. -/
theorem mmFree_not_kept (h : Consistent s bs links) {n : Nat} (hLive : Live s q n)
    (hHarmless : (Request.free q).Harmless s bs links) : ¬ (Request.free q).Keeps s := by
  rintro ⟨s', hRun, -⟩
  obtain ⟨c, rfl, -, hAlloc, -, rfl⟩ := h.heap.cursor_of_live hLive
  have hMem := c.mem_addressed s.heapListp
  have hClear := hHarmless _ hMem
  have hSize := h.sizes c.block (mem_of_addressed hMem)
  have hAt : BlockAt s.guard (c.addr s.heapListp) c.block := h.guard.heap.blockAt_cursor
  generalize c.addr s.heapListp = q at *
  have hStart := hAt.start_le
  have hEnd := hAt.end_le
  have hPack : pack c.block.size 0 = (c.block.setAlloc false).tag :=
    pack_zero_eq_tag (b := c.block.setAlloc false) rfl
  have hHead : ∀ y ∈ links, loadLE (putTags s.bytes q (c.block.setAlloc false)) y.1 8 =
      loadLE s.bytes y.1 8 := fun y hy => h.pred_tagged hMem hAlloc hy
  rw [mmFree, Exec.run_bind_ok hAt.getSize_hdrp, hPack,
    putTags_bind (b := c.block.setAlloc false) hStart hEnd hAt.size_lt] at hRun
  have hBytes : s.guard.bytes = s.bytes := rfl
  rw [hBytes] at hRun
  generalize putTags s.bytes q (c.block.setAlloc false) = m at hRun hClear hHead
  have hBase : ∀ m', getHeapBasefree.run (s.guard.withBytes m') =
      .ok (s.heapBasefree, s.guard.withBytes m') := fun _ => rfl
  have hSucc : (succ q).run (s.guard.withBytes m) = .ok (loadLE m (q + 4) 8, s.guard.withBytes m) :=
    succ_run (s := s.guard.withBytes m) (by change s.guard.memStartBrk ≤ q; omega)
      (by change q + 12 ≤ s.guard.memBrk; omega)
  rw [Exec.run_bind_ok (hBase m), putNxt, Exec.bind_assoc, Exec.run_bind_ok hSucc,
    store_bind_iff] at hRun
  obtain ⟨-, hRun⟩ := hRun
  have hKept : ∀ y ∈ links, loadLE (storeLE m (loadLE m (q + 4) 8) 8 s.heapBasefree) y.1 8 =
      loadLE s.bytes y.1 8 := by
    intro y hy
    have hMiss : Misses (loadLE m (q + 4) 8) y.1 8 := (hClear.links y hy).mono le_rfl (by omega)
    rw [loadLE_of_misses hMiss, hHead y hy]
  change (_ : M Unit).run (s.guard.withBytes (storeLE m (loadLE m (q + 4) 8) 8 s.heapBasefree)) = _
    at hRun
  generalize storeLE m (loadLE m (q + 4) 8) 8 s.heapBasefree = m' at hRun hKept
  rw [Exec.run_bind_ok (hBase m'), putPrev, Exec.bind_assoc, pred, load_bind_iff,
    store_bind_iff] at hRun
  obtain ⟨hReach, hStore, -⟩ := hRun
  have hWord : (s.guard.withBytes m').Reaches (loadLE m' s.heapBasefree 8) 8 := hStore
  obtain _ | ⟨y, links⟩ := links
  · have hNull : s.heapBasefree = NULL := h.linked
    rw [hNull] at hReach
    exact not_reaches_null _ _ hReach
  · obtain ⟨hFirst, hPred, -⟩ := h.linked
    rw [hFirst, hKept y List.mem_cons_self, hPred] at hWord
    exact not_reaches_null _ _ hWord

end Consistent

/-- From a consistent state a call in scope stays in the heap and leads to a consistent state when
`mm_malloc` takes the last block of the list whole and its stores through the neighbours are
harmless. Where no store of the call hits a tag or a link, that is the only way. -/
theorem calls_kept_iff (s : State) (bs : List Block) (links : List (Nat × Block)) (r : Request)
    (h : Consistent s bs links) (hScope : r.InScope s) :
    (r.TakesLast s bs links → r.Keeps s) ∧
      (r.Harmless s bs links → r.Keeps s → r.TakesLast s bs links) := by
  cases r with
  | malloc size =>
    obtain ⟨hPos, -⟩ := hScope
    refine ⟨?_, h.takesLast_of_keeps hPos⟩
    rintro ⟨c, rest, rfl, hTakes⟩
    exact h.keeps_of_lastWhole hPos hTakes
  | free bp =>
    obtain ⟨n, hLive⟩ := hScope
    exact ⟨False.elim, fun hHarmless hKeeps => h.mmFree_not_kept hLive hHarmless hKeeps⟩

section Hole

theorem consistent_holeHeap : Consistent holeHeap holeBlocks holeLinks :=
  ⟨boundaryHeap_holeHeap, rfl, by decide, by decide +kernel, .refl _⟩

theorem lastWhole_holeHeap : LastWhole holeHeap ⟨[.ofSize 24 true], .ofSize 24 false, [.ofSize 24 true]⟩
    holeLinks [] (adjust 16) :=
  ⟨rfl, nofun, by decide, by decide, nofun, by decide +kernel, by decide +kernel⟩

end Hole

theorem calls_kept_iff_hole : Request.Keeps holeHeap (.malloc 16) := by
  have hAnswer : ((mmMalloc 16).run holeHeap.bare).toOption.map Prod.fst = some 4128 := by rfl
  obtain ⟨s', hRun⟩ := Exec.exists_run hAnswer
  have hKept := calls_kept_iff holeHeap holeBlocks _ (.malloc 16) consistent_holeHeap
    ⟨by decide, 4128, s', hRun⟩
  exact hKept.1 ⟨_, [], rfl, lastWhole_holeHeap⟩

section Full

def fullBlocks : List Block :=
  [.ofSize 24 true, .ofSize 32 true]

def fullHeap : State := layout 4096 fullBlocks page_pos (by decide) page_max

theorem consistent_fullHeap : Consistent fullHeap fullBlocks [] := by
  have hHeap : BoundaryHeap fullHeap fullBlocks :=
    boundaryHeap_layout page_pos (by decide) page_max rfl
  refine ⟨hHeap, rfl, by decide, rfl, ?_⟩
  exact .nil

theorem live_fullHeap : Live fullHeap 4128 32 :=
  ⟨fullBlocks, consistent_fullHeap.heap, by decide⟩

end Full

/-- Freeing the one block of a full heap stores at address 0. -/
theorem free_full_heap_leaves : ¬ ∀ (s : State) (bs : List Block) (links : List (Nat × Block))
    (r : Request), Consistent s bs links → r.InScope s → r.Keeps s := by
  intro hAll
  have hKept := hAll _ _ _ (.free 4128) consistent_fullHeap ⟨32, live_fullHeap⟩
  refine consistent_fullHeap.mmFree_not_kept live_fullHeap ?_ hKept
  intro b hMem
  have hMem : (4128, b) ∈ [(4104, Block.ofSize 24 true), (4128, .ofSize 32 true)] := hMem
  obtain rfl : b = .ofSize 32 true := by simpa using hMem
  decide +kernel

end Cs33.Malloc
