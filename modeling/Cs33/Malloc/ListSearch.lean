import Cs33.Malloc.FirstFit
import Cs33.Malloc.FreeList

/-! # `find_fit_exp`

The loop of `find_fit_exp` follows `SUCC` but tests the block at
`heap_basefree`, which no round changes. A search that some block answers ends
there. Past the last block nothing stops the walk, so without a fit the answer
is right only when the list is empty.
-/

namespace Cs33.Malloc

open ByteMemory

/-- From `p` on, the `SUCC` fields lead through the given blocks to `stop`. -/
def Chain (m : Bytes) (stop : Nat) : Nat → List (Nat × Block) → Prop
  | p, [] => p = stop
  | p, x :: links => p = x.1 ∧ Chain m stop (loadLE m (x.1 + 4) 8) links

/-- The list from `heap_basefree` visits every free block once, every `SUCC` field on it lies
inside the heap, and the last one is `stop`, which is NULL or the prologue. -/
structure Listed (s : State) (bs : List Block) (links : List (Nat × Block)) (stop : Nat) :
    Prop where
  heap : BoundaryHeap s bs
  fields : ∀ x ∈ links, x.1 + 12 ≤ s.memBrk
  chain : Chain s.bytes stop s.heapBasefree links
  visits : links.Perm (freeBlocks s.heapListp bs)
  ends : stop = NULL ∨ stop = s.heapListp

/-- The first block of the list with at least `asize` bytes, or NULL. -/
def firstOnList (asize : Nat) : List (Nat × Block) → Nat
  | [] => NULL
  | x :: links => if asize ≤ x.2.size then x.1 else firstOnList asize links

/-- `find_fit_exp` answers the first fit of the list inside the heap, and NULL when `find_fit`
does. -/
def SearchExact (s : State) (links : List (Nat × Block)) (asize : Nat) : Prop :=
  (findFitExp asize).run s = .ok (firstOnList asize links, s) ∧
    ∃ q, (findFit asize).run s = .ok (q, s) ∧ (firstOnList asize links = NULL ↔ q = NULL)

theorem firstOnList_of_none {asize : Nat} {links : List (Nat × Block)}
    (h : ∀ x ∈ links, x.2.size < asize) : firstOnList asize links = NULL := by
  induction links with
  | nil => rfl
  | cons x links ih =>
    rw [List.forall_mem_cons] at h
    rw [firstOnList, if_neg (Nat.not_le.mpr h.1), ih h.2]

theorem firstOnList_append {asize : Nat} {front back : List (Nat × Block)}
    (h : ∀ x ∈ front, x.2.size < asize) :
    firstOnList asize (front ++ back) = firstOnList asize back := by
  induction front with
  | nil => rfl
  | cons x front ih =>
    rw [List.forall_mem_cons] at h
    rw [List.cons_append, firstOnList, if_neg (Nat.not_le.mpr h.1), ih h.2]

theorem firstOnList_split {asize : Nat} {links : List (Nat × Block)}
    (h : ∃ x ∈ links, asize ≤ x.2.size) : ∃ front b back,
      links = front ++ (firstOnList asize links, b) :: back ∧ asize ≤ b.size ∧
        ∀ x ∈ front, x.2.size < asize := by
  induction links with
  | nil =>
    obtain ⟨x, hx, -⟩ := h
    cases hx
  | cons x links ih =>
    rw [firstOnList]
    split
    · rename_i hFit
      exact ⟨[], x.2, links, rfl, hFit, nofun⟩
    · rename_i hFit
      simp only [List.mem_cons, exists_eq_or_imp, hFit, false_or] at h
      obtain ⟨front, b, back, hLinks, hSize, hFront⟩ := ih h
      refine ⟨x :: front, b, back, ?_, hSize, List.forall_mem_cons.mpr ⟨Nat.not_le.mp hFit, hFront⟩⟩
      rw [List.cons_append, ← hLinks]

theorem firstOnList_null {asize : Nat} {links : List (Nat × Block)} (hPos : ∀ x ∈ links, x.1 ≠ NULL) :
    firstOnList asize links = NULL ↔ ∀ x ∈ links, x.2.size < asize := by
  induction links with
  | nil => simp [firstOnList]
  | cons x links ih =>
    rw [firstOnList, List.forall_mem_cons]
    split
    · rename_i hFit
      simp [hPos x List.mem_cons_self, Nat.not_lt.mpr hFit]
    · rename_i hFit
      rw [ih fun y hy => hPos y (List.mem_cons_of_mem _ hy)]
      simp [Nat.not_le.mp hFit]

theorem header_null (s : State) : ¬ s.Reaches (minus NULL WSIZE) 4 := by
  have hLimit := s.limit_lt
  have hMinus : minus NULL WSIZE = 2 ^ 64 - 4 := rfl
  rw [State.Reaches, hMinus]
  omega

theorem getSize_null (s : State) :
    (getSize (hdrp NULL)).run s = .error (.outside (minus NULL WSIZE)) :=
  Exec.run_bind_error (load_stop (header_null s))

theorem getAlloc_null (s : State) :
    (getAlloc (hdrp NULL)).run s = .error (.outside (minus NULL WSIZE)) :=
  Exec.run_bind_error (load_stop (header_null s))

section Walk

variable {s s' : State} {asize bp r : Nat} {b : Block}

/-- The test at `heap_basefree` lets the loop go on. -/
def BaseFree (s : State) : Prop := (getAlloc (hdrp s.heapBasefree)).run s = .ok (0, s)

theorem findFitExp_eq (s : State) (asize : Nat) : (findFitExp asize).run s =
    (Exec.loop .endless (findFitExpRound asize) (s.limit - s.memStartBrk + 1) s.heapBasefree).run s :=
  rfl

theorem findFitExpRound_free (hBase : BaseFree s) : (findFitExpRound asize bp).run s =
    (do if asize ≤ (← getSize (hdrp bp)) then return .inr bp else return .inl (← succ bp) :
      M (Nat ⊕ Nat)).run s := by
  have hGet : getHeapBasefree.run s = .ok (s.heapBasefree, s) := rfl
  rw [findFitExpRound, Exec.run_bind_ok hGet, Exec.run_bind_ok hBase, if_pos rfl]

theorem findFitExpRound_run (hBase : BaseFree s) (hAt : BlockAt s bp b)
    (hField : bp + 12 ≤ s.memBrk) (asize : Nat) :
    (findFitExpRound asize bp).run s =
      .ok (if asize ≤ b.size then .inr bp else .inl (loadLE s.bytes (bp + 4) 8), s) := by
  have hStart := hAt.start_le
  rw [findFitExpRound_free hBase, Exec.run_bind_ok hAt.getSize_hdrp]
  split
  · rw [Exec.run_pure]
  · rw [Exec.run_bind_ok (succ_run (by omega) hField), Exec.run_pure]

theorem getSize_ok {p v : Nat} (h : (getSize p).run s = .ok (v, s')) : s' = s := by
  obtain ⟨w, t, hLoad, hRun⟩ := Exec.run_bind_eq_ok.mp h
  obtain ⟨-, -, rfl⟩ := load_ok hLoad
  cases hRun
  rfl

/-- With a free block at `heap_basefree` no walk answers NULL, wherever it has got to. -/
theorem findFitExp_ne_null (hBase : BaseFree s) {n : Nat}
    (h : (Exec.loop .endless (findFitExpRound asize) n bp).run s = .ok (r, s')) : r ≠ NULL := by
  induction n generalizing bp with
  | zero => cases h
  | succ n ih =>
    obtain ⟨next, t, hRound, hRest⟩ := Exec.run_bind_eq_ok.mp h
    rw [findFitExpRound_free hBase] at hRound
    obtain ⟨size, u, hSize, hAnswer⟩ := Exec.run_bind_eq_ok.mp hRound
    obtain rfl := getSize_ok hSize
    split at hAnswer
    · cases hAnswer
      cases hRest
      rintro rfl
      cases (getSize_null _).symm.trans hSize
    · obtain ⟨q, v, hSucc, hNext⟩ := Exec.run_bind_eq_ok.mp hAnswer
      obtain ⟨-, -, rfl⟩ := load_ok hSucc
      cases hNext
      exact ih hRest

theorem findFitExp_walk (hBase : BaseFree s) {links : List (Nat × Block)} {stop : Nat}
    (hChain : Chain s.bytes stop bp links)
    (hAt : ∀ x ∈ links, BlockAt s x.1 x.2 ∧ x.1 + 12 ≤ s.memBrk) (n : Nat) :
    (Exec.loop .endless (findFitExpRound asize) (n + links.length) bp).run s =
      if ∃ x ∈ links, asize ≤ x.2.size then .ok (firstOnList asize links, s)
      else (Exec.loop .endless (findFitExpRound asize) n stop).run s := by
  induction links generalizing bp with
  | nil =>
    obtain rfl : bp = stop := hChain
    rw [if_neg (by simp)]
    rfl
  | cons x links ih =>
    obtain ⟨rfl, hTail⟩ := hChain
    obtain ⟨hBlock, hField⟩ := hAt x List.mem_cons_self
    have hRound := findFitExpRound_run hBase hBlock hField asize
    rw [List.length_cons, ← Nat.add_assoc, firstOnList]
    by_cases hFit : asize ≤ x.2.size
    · rw [if_pos hFit] at hRound
      rw [if_pos ⟨x, List.mem_cons_self, hFit⟩, if_pos hFit]
      exact Exec.run_loop_leave hRound
    · rw [if_neg hFit] at hRound
      rw [if_neg hFit, Exec.run_loop_again hRound,
        ih hTail fun y hy => hAt y (List.mem_cons_of_mem _ hy)]
      simp only [List.mem_cons, exists_eq_or_imp, hFit, false_or]

end Walk

namespace Listed

variable {s : State} {bs : List Block} {links : List (Nat × Block)} {stop : Nat}

theorem blockAt (h : Listed s bs links stop) {x : Nat × Block} (hx : x ∈ links) :
    BlockAt s x.1 x.2 ∧ x.2.alloc = false := by
  obtain ⟨hMem, hFree⟩ := mem_freeBlocks.mp (h.visits.mem_iff.mp hx)
  exact ⟨h.heap.blockAt_of_mem hMem, hFree⟩

theorem baseFree {x : Nat × Block} (h : Listed s bs (x :: links) stop) : BaseFree s := by
  obtain ⟨hAt, hFree⟩ := h.blockAt List.mem_cons_self
  rw [BaseFree, h.chain.1, hAt.getAlloc_hdrp, hFree]
  rfl

theorem length_lt (h : Listed s bs links stop) :
    links.length < s.limit - s.memStartBrk + 1 := by
  have hLength := h.heap.length_lt_rounds
  have hFilter : (freeBlocks s.heapListp bs).length ≤ (addressed s.heapListp bs).length :=
    List.length_filter_le _ _
  rw [length_addressed] at hFilter
  have hPerm := h.visits.length_eq
  omega

theorem findFitExp_start (h : Listed s bs links stop) (asize : Nat) :
    ∃ n, (findFitExp asize).run s = (Exec.loop .endless (findFitExpRound asize)
      (n + 1 + links.length) s.heapBasefree).run s := by
  have hLength := h.length_lt
  refine ⟨s.limit - s.memStartBrk - links.length, ?_⟩
  have hSum : s.limit - s.memStartBrk - links.length + 1 + links.length =
      s.limit - s.memStartBrk + 1 := by omega
  rw [findFitExp_eq, hSum]

theorem findFitExp_fit (h : Listed s bs links stop) {asize : Nat}
    (hFit : ∃ x ∈ links, asize ≤ x.2.size) :
    (findFitExp asize).run s = .ok (firstOnList asize links, s) := by
  obtain ⟨n, hStart⟩ := h.findFitExp_start asize
  obtain ⟨x, hx, -⟩ := id hFit
  obtain ⟨y, rest, rfl⟩ := List.exists_cons_of_ne_nil (List.ne_nil_of_mem hx)
  rw [hStart, findFitExp_walk h.baseFree h.chain fun x hx => ⟨(h.blockAt hx).1, h.fields x hx⟩,
    if_pos hFit]

theorem findFitExp_empty (h : Listed s bs [] stop) (asize : Nat) :
    (findFitExp asize).run s =
      if stop = NULL then .error (.outside (minus NULL WSIZE)) else .ok (NULL, s) := by
  obtain ⟨n, hStart⟩ := h.findFitExp_start asize
  have hGet : getHeapBasefree.run s = .ok (s.heapBasefree, s) := rfl
  have hBase : s.heapBasefree = stop := h.chain
  rw [hStart]
  split
  · rename_i hNull
    apply Exec.run_loop_stop
    rw [findFitExpRound, Exec.run_bind_ok hGet, hBase, hNull, Exec.run_bind_error (getAlloc_null s)]
  · rename_i hNull
    obtain ⟨p, users, hbs, hp⟩ := h.heap.prologue
    have hPrologue : BlockAt s s.heapListp p := by
      apply h.heap.blockAt_of_mem
      rw [hbs]
      exact List.mem_cons_self
    apply Exec.run_loop_leave
    rw [findFitExpRound, Exec.run_bind_ok hGet, hBase, h.ends.resolve_left hNull,
      Exec.run_bind_ok hPrologue.getAlloc_hdrp, hp, if_neg (by decide), Exec.run_pure]

theorem findFitExp_null (h : Listed s bs links NULL) {asize : Nat}
    (hNone : ∀ x ∈ links, x.2.size < asize) :
    (findFitExp asize).run s = .error (.outside (minus NULL WSIZE)) := by
  obtain _ | ⟨x, links⟩ := links
  · rw [h.findFitExp_empty, if_pos rfl]
  · obtain ⟨n, hStart⟩ := h.findFitExp_start asize
    have hFit : ¬ ∃ y ∈ x :: links, asize ≤ y.2.size := by
      push Not
      exact hNone
    rw [hStart, findFitExp_walk h.baseFree h.chain fun y hy => ⟨(h.blockAt hy).1, h.fields y hy⟩,
      if_neg hFit]
    apply Exec.run_loop_stop
    rw [findFitExpRound_free h.baseFree, Exec.run_bind_error (getSize_null s)]

/-- The search answers NULL only over an empty list that starts at the prologue. -/
theorem findFitExp_null_iff (h : Listed s bs links stop) {asize : Nat} :
    (findFitExp asize).run s = .ok (NULL, s) ↔ links = [] ∧ s.heapBasefree = s.heapListp := by
  constructor
  · intro hRun
    cases links with
    | nil =>
      have hBase : s.heapBasefree = stop := h.chain
      refine ⟨rfl, ?_⟩
      obtain hNull | hPrologue := h.ends
      · rw [h.findFitExp_empty, if_pos hNull] at hRun
        cases hRun
      · exact hBase.trans hPrologue
    | cons x links =>
      obtain ⟨n, hStart⟩ := h.findFitExp_start asize
      rw [hStart] at hRun
      exact absurd rfl (findFitExp_ne_null h.baseFree hRun)
  · rintro ⟨rfl, hBase⟩
    have hStop : s.heapBasefree = stop := h.chain
    have hStart := h.heap.start_le
    rw [h.findFitExp_empty, if_neg]
    rw [← hStop, hBase, NULL]
    omega

theorem findFit_agrees (h : Listed s bs links stop) (asize : Nat) :
    ∃ q, (findFit asize).run s = .ok (q, s) ∧ (firstOnList asize links = NULL ↔ q = NULL) := by
  obtain ⟨q, hFind, hNull⟩ := h.heap.findFit_null_iff asize
  refine ⟨q, hFind, ?_⟩
  rw [hNull, firstOnList_null fun x hx => ?_]
  · constructor
    · intro hNone b hMem hFree
      obtain ⟨p, hAddr⟩ := exists_addressed s.heapListp hMem
      exact hNone _ (h.visits.mem_iff.mpr (mem_freeBlocks.mpr ⟨hAddr, hFree⟩))
    · intro hNone x hx
      obtain ⟨hMem, hFree⟩ := mem_freeBlocks.mp (h.visits.mem_iff.mp hx)
      exact hNone x.2 (mem_of_addressed hMem) hFree
  · have hStart := (h.blockAt hx).1.start_le
    rw [NULL]
    omega

end Listed

/-- `find_fit_exp` searches its list exactly when some block of the list fits, or the list is
empty and `heap_basefree` is the prologue. -/
theorem searchExact_iff (s : State) (bs : List Block) (links : List (Nat × Block)) (stop asize : Nat)
    (h : Listed s bs links stop) : SearchExact s links asize ↔
      (∃ x ∈ links, asize ≤ x.2.size) ∨ (links = [] ∧ s.heapBasefree = s.heapListp) := by
  constructor
  · rintro ⟨hRun, -⟩
    by_cases hFit : ∃ x ∈ links, asize ≤ x.2.size
    · exact .inl hFit
    · push Not at hFit
      rw [firstOnList_of_none hFit] at hRun
      exact .inr (h.findFitExp_null_iff.mp hRun)
  · rintro (hFit | ⟨rfl, hBase⟩)
    · exact ⟨h.findFitExp_fit hFit, h.findFit_agrees asize⟩
    · exact ⟨h.findFitExp_null_iff.mpr ⟨rfl, hBase⟩, h.findFit_agrees asize⟩

section Counterexample

def shortList : List Block :=
  [.ofSize 24 true, .ofSize 32 false]

/-- One free block on the list, its `SUCC` field NULL. -/
def shortHeap : State :=
  { layout 4096 shortList page_pos (by decide) page_max with heapBasefree := 4128 }

theorem listed_shortHeap :
    Listed shortHeap shortList [(4128, .ofSize 32 false)] NULL := by
  have hHeap : BoundaryHeap (layout 4096 shortList page_pos (by decide) page_max) shortList :=
    boundaryHeap_layout page_pos (by decide) page_max rfl
  refine ⟨⟨hHeap.prologue, hHeap.blocks, hHeap.epilogue, hHeap.start_le, hHeap.end_le,
    hHeap.total_lt⟩, by decide, ⟨rfl, ?_⟩, ?_, .inl rfl⟩
  · change loadLE shortHeap.bytes 4132 8 = 0
    decide
  · exact .refl _

end Counterexample

theorem searchExact_iff_short :
    SearchExact shortHeap [(4128, .ofSize 32 false)] 32 := by
  refine (searchExact_iff _ _ _ _ 32 listed_shortHeap).mpr (.inl ?_)
  exact ⟨_, List.mem_singleton_self _, le_rfl⟩

/-- With no block large enough the walk reads the header of NULL. -/
theorem search_past_end : ¬ ∀ (s : State) (bs : List Block) (links : List (Nat × Block))
    (stop asize : Nat), Listed s bs links stop → SearchExact s links asize := by
  intro hAll
  obtain ⟨hRun, -⟩ := hAll _ _ _ _ 40 listed_shortHeap
  obtain ⟨n, hStart⟩ := listed_shortHeap.findFitExp_start 40
  rw [hStart] at hRun
  exact findFitExp_ne_null listed_shortHeap.baseFree hRun rfl

end Cs33.Malloc
