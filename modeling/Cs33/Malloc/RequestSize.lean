import Cs33.Malloc.Frame
import Cs33.Malloc.ListSearch

/-! # Request sizes and the end of the heap

`mm_malloc` keeps the adjusted size in a `uint32_t`, so it is right up to
`2^32 - 16` bytes and too small from there on. `extend_heap` and `mm_malloc`
see that `mem_sbrk` refused; `mm_init` compares its answer with NULL and
stores through `(void *)-1`.
-/

namespace Cs33.Malloc

open ByteMemory Exec

/-- The size that `extend_heap` gives the new block. -/
def extendSize (words : Nat) : Nat :=
  let size := toUint32 (if words % 2 ≠ 0 then (words + 1) * WSIZE else words * WSIZE)
  if size < FREEBLOCKSIZE then FREEBLOCKSIZE else size

/-- The test in `mem_sbrk`. -/
def Refuses (s : State) (incr : Int) : Prop :=
  incr < 0 ∨ (s.memMaxAddr : Int) < s.memBrk + incr

/-- `mem_sbrk` refuses what `mm_malloc` asks it for through `extend_heap`. -/
def RefusesRequest (s : State) (size : Nat) : Prop :=
  Refuses s (uint32ToInt (extendSize (max (adjust size) CHUNKSIZE / WSIZE)))

/-! ## Sizes -/

theorem adjust_mod (size : Nat) : adjust size % 8 = 0 := by
  rw [adjust]
  split
  · decide
  · simp only [toUint32, DSIZE]
    omega

theorem adjust_lt (size : Nat) : adjust size < 2 ^ 32 := by
  rw [adjust]
  split
  · decide
  · exact Nat.mod_lt _ (by decide)

/-- From `2^32 - 15` on the multiple of eight above `size + 8` does not fit in 32 bits. -/
theorem le_adjust_iff {size : Nat} (hPos : 0 < size) (hSize : size < 2 ^ 64) :
    size + OVERHEAD ≤ adjust size ↔ size ≤ 2 ^ 32 - 16 := by
  obtain hSmall | hBig := le_or_gt size DSIZE
  · rw [adjust, if_pos hSmall]
    unfold DSIZE OVERHEAD at *
    omega
  · have hAdjust : adjust size = 8 * ((size + 15) % 2 ^ 64 / 8) % 2 ^ 32 :=
      if_neg (Nat.not_le.mpr hBig)
    have hMod := adjust_mod size
    have hLt := adjust_lt size
    rw [OVERHEAD]
    constructor
    · intro hLe
      omega
    · intro hLe
      omega

theorem extendSize_eq {asize : Nat} (hMod : asize % 8 = 0) (hLt : asize < 2 ^ 32) :
    extendSize (max asize CHUNKSIZE / WSIZE) = max asize CHUNKSIZE := by
  have hMax : max asize CHUNKSIZE % 8 = 0 ∧ max asize CHUNKSIZE < 2 ^ 32 ∧
      CHUNKSIZE ≤ max asize CHUNKSIZE := by
    refine ⟨?_, max_lt hLt (by decide), le_max_right _ _⟩
    obtain h | h := le_total asize CHUNKSIZE
    · rw [max_eq_right h]
      decide
    · rw [max_eq_left h, hMod]
  generalize max asize CHUNKSIZE = n at hMax
  obtain ⟨hMod', hLt', hChunk⟩ := hMax
  have hWords : n / WSIZE % 2 = 0 := by
    unfold WSIZE
    omega
  have hBytes : n / WSIZE * WSIZE = n := by
    unfold WSIZE
    omega
  have hBig : ¬ n < FREEBLOCKSIZE := by
    unfold CHUNKSIZE at hChunk
    unfold FREEBLOCKSIZE
    omega
  simp only [extendSize, hWords, hBytes, toUint32, Nat.mod_eq_of_lt hLt', if_neg hBig, ne_eq,
    not_true_eq_false, if_false]

/-! ## `mem_sbrk` under `extend_heap` -/

theorem sbrk_refused {s : State} {incr : Int} (h : Refuses s incr) :
    (sbrk incr).run s = .ok (minusOne, s) := by
  change Except.ok ((memSbrk incr s.toMemlib).1, _) = _
  rw [memSbrk_refuse h]

theorem sbrk_granted {s : State} {incr : Int} (h : ¬ Refuses s incr) :
    ∃ t, (sbrk incr).run s = .ok (s.memBrk, t) ∧ t.memBrk = s.memBrk + incr.toNat := by
  rw [Refuses, not_or, not_lt, not_lt] at h
  refine ⟨{ s with toMemlib := (memSbrk incr s.toMemlib).2 }, ?_, memSbrk_brk h.1 h.2⟩
  exact congrArg (fun p => Except.ok (p, _)) (memSbrk_fst h.1 h.2)

theorem extendHeap_refused {s : State} {words : Nat}
    (h : Refuses s (uint32ToInt (extendSize words))) : (extendHeap words).run s = .ok (NULL, s) := by
  have hSbrk := sbrk_refused h
  rw [extendHeap, ← extendSize, Exec.run_bind_ok hSbrk, if_pos rfl, Exec.run_pure]

theorem uint32ToInt_of_nonneg {n : Nat} (hLt : n < 2 ^ 32) (h : 0 ≤ uint32ToInt n) :
    (uint32ToInt n).toNat = n := by
  rw [uint32ToInt] at h ⊢
  split <;> omega

theorem extendHeap_grows {s t : State} {words p : Nat} (hLt : extendSize words < 2 ^ 32)
    (hRun : (extendHeap words).run s = .ok (p, t)) (hp : p ≠ NULL) :
    t.memBrk = s.memBrk + extendSize words := by
  rw [extendHeap, ← extendSize] at hRun
  by_cases hRefuses : Refuses s (uint32ToInt (extendSize words))
  · rw [Exec.run_bind_ok (sbrk_refused hRefuses), if_pos rfl] at hRun
    cases hRun
    exact absurd rfl hp
  · obtain ⟨u, hSbrk, hBrk⟩ := sbrk_granted hRefuses
    rw [Refuses, not_or, not_lt] at hRefuses
    have hIncr := uint32ToInt_of_nonneg hLt hRefuses.1
    rw [Exec.run_bind_ok hSbrk] at hRun
    split at hRun
    · cases hRun
      exact absurd rfl hp
    · have hSame : t.memBrk = u.memBrk := (Moves.move (R := Writes) hRun).2.1
      rw [hSame, hBrk, hIncr]

theorem ne_null_of_put {α : Type} {s : State} {bp w : Nat} {f : Unit → M α} {x : α × State}
    (h : (put (hdrp bp) w >>= f).run s = .ok x) : bp ≠ NULL := by
  rintro rfl
  exact header_null s (store_bind_iff.mp h).1

theorem linkAtBase_answer {s s' : State} {bp r : Nat} (h : (linkAtBase bp).run s = .ok (r, s')) :
    r = bp := by
  rw [linkAtBase] at h
  iterate 9 obtain ⟨_, _, -, h⟩ := Exec.run_bind_eq_ok.mp h
  cases h
  rfl

/-- `exp_coalesce` answers with its own argument or with a block whose header it put. -/
theorem expCoalesce_ne_null {s s' : State} {bp r : Nat} (hbp : bp ≠ NULL)
    (hRun : (expCoalesce bp).run s = .ok (r, s')) : r ≠ NULL := by
  rw [expCoalesce] at hRun
  iterate 7 obtain ⟨_, _, -, hRun⟩ := Exec.run_bind_eq_ok.mp hRun
  rw [if_neg hbp] at hRun
  split at hRun
  · rwa [linkAtBase_answer hRun]
  obtain ⟨q, t, hMerge, hRun⟩ := Exec.run_bind_eq_ok.mp hRun
  iterate 5 obtain ⟨_, _, -, hRun⟩ := Exec.run_bind_eq_ok.mp hRun
  rw [linkAtBase_answer hRun]
  split at hMerge
  · iterate 7 obtain ⟨_, _, -, hMerge⟩ := Exec.run_bind_eq_ok.mp hMerge
    cases hMerge
    exact hbp
  split at hMerge
  · iterate 4 obtain ⟨_, _, -, hMerge⟩ := Exec.run_bind_eq_ok.mp hMerge
    have hPut := ne_null_of_put hMerge
    iterate 3 obtain ⟨_, _, -, hMerge⟩ := Exec.run_bind_eq_ok.mp hMerge
    cases hMerge
    exact hPut
  · iterate 10 obtain ⟨_, _, -, hMerge⟩ := Exec.run_bind_eq_ok.mp hMerge
    have hPut := ne_null_of_put hMerge
    iterate 3 obtain ⟨_, _, -, hMerge⟩ := Exec.run_bind_eq_ok.mp hMerge
    cases hMerge
    exact hPut

theorem extendSize_bounds (words : Nat) :
    FREEBLOCKSIZE ≤ extendSize words ∧ extendSize words < 2 ^ 32 := by
  rw [extendSize]
  generalize hSize : toUint32 _ = size
  have hLt : size < 2 ^ 32 := by
    rw [← hSize]
    exact Nat.mod_lt _ (by decide)
  split
  · exact ⟨le_rfl, by decide⟩
  · exact ⟨Nat.not_lt.mp ‹_›, hLt⟩

theorem extendHeap_null_iff {s : State} {words : Nat} :
    (∃ s', (extendHeap words).run s = .ok (NULL, s')) ↔ Refuses s (uint32ToInt (extendSize words)) := by
  constructor
  · rintro ⟨s', hRun⟩
    by_contra hGrants
    obtain ⟨u, hSbrk, -⟩ := sbrk_granted hGrants
    have hBelow : s.memBrk ≠ minusOne := by
      obtain ⟨hLeast, hLt⟩ := extendSize_bounds words
      have hMax := s.max_lt
      rw [Refuses, not_or, not_lt, not_lt, uint32ToInt] at hGrants
      rw [FREEBLOCKSIZE] at hLeast
      rw [minusOne]
      split at hGrants <;> omega
    rw [extendHeap, ← extendSize, Exec.run_bind_ok hSbrk, if_neg hBelow] at hRun
    iterate 5 obtain ⟨_, _, -, hRun⟩ := Exec.run_bind_eq_ok.mp hRun
    exact expCoalesce_ne_null s.brk_pos.ne' hRun rfl
  · intro hRefuses
    exact ⟨s, extendHeap_refused hRefuses⟩

/-! ## `mm_malloc` -/

/-- The block of `n` bytes that `mm_malloc` cuts its answer `p` from: one that `find_fit_exp`
found, or one that `extend_heap` made of new bytes. -/
def Source (s : State) (size p : Nat) (s' : State) (n : Nat) : Prop :=
  ((findFitExp (adjust size)).run s = .ok (p, s) ∧ (getSize (hdrp p)).run s = .ok (n, s)) ∨
    ((findFitExp (adjust size)).run s = .ok (NULL, s) ∧
      (∃ t, (extendHeap (max (adjust size) CHUNKSIZE / WSIZE)).run s = .ok (p, t)) ∧
      s'.memBrk = s.memBrk + n)

/-- The adjusted size is a multiple of eight with room for the request and its overhead, and
the block the answer comes from has that many bytes. -/
def Adequate (s : State) (size p : Nat) (s' : State) : Prop :=
  adjust size % 8 = 0 ∧ size + OVERHEAD ≤ adjust size ∧
    ∃ n, Source s size p s' n ∧ adjust size ≤ n

theorem findFitExpRound_cases {s t : State} {asize bp : Nat} {next : Nat ⊕ Nat}
    (h : (findFitExpRound asize bp).run s = .ok (next, t)) : next = .inr NULL ∨ (∃ q, next = .inl q) ∨
      next = .inr bp ∧ ∃ n, (getSize (hdrp bp)).run s = .ok (n, s) ∧ asize ≤ n := by
  obtain ⟨base, u, hGet, h⟩ := Exec.run_bind_eq_ok.mp h
  cases hGet
  obtain ⟨alloc, v, hAlloc, hTest⟩ := Exec.run_bind_eq_ok.mp h
  obtain rfl : s = v := Moves.move (R := Eq) hAlloc
  split at hTest
  · obtain ⟨size, w, hSize, hNext⟩ := Exec.run_bind_eq_ok.mp hTest
    obtain rfl : s = w := Moves.move (R := Eq) hSize
    split at hNext
    · rename_i hFit
      cases hNext
      exact .inr (.inr ⟨rfl, size, hSize, hFit⟩)
    · obtain ⟨q, w, -, hSucc⟩ := Exec.run_bind_eq_ok.mp hNext
      cases hSucc
      exact .inr (.inl ⟨q, rfl⟩)
  · cases hTest
    exact .inl rfl

theorem findFitExp_fits {s t : State} {asize p : Nat} (h : (findFitExp asize).run s = .ok (p, t))
    (hp : p ≠ NULL) : ∃ n, (getSize (hdrp p)).run s = .ok (n, s) ∧ asize ≤ n := by
  rw [findFitExp_eq] at h
  generalize s.limit - s.memStartBrk + 1 = rounds, s.heapBasefree = bp at h
  induction rounds generalizing bp with
  | zero => cases h
  | succ rounds ih =>
    obtain ⟨next, u, hRound, hRest⟩ := Exec.run_bind_eq_ok.mp h
    obtain rfl : s = u := Moves.move (R := Eq) hRound
    obtain rfl | ⟨q, rfl⟩ | ⟨rfl, hFit⟩ := findFitExpRound_cases hRound
    · cases hRest
      exact absurd rfl hp
    · exact ih q hRest
    · cases hRest
      exact hFit

theorem mmMalloc_refused {s : State} {size : Nat}
    (hFind : (findFitExp (adjust size)).run s = .ok (NULL, s)) (hRefuses : RefusesRequest s size) :
    (mmMalloc size).run s = .ok (NULL, s) := by
  rw [mmMalloc]
  split
  · rfl
  · rw [Exec.run_bind_ok hFind, if_neg (by simp), Exec.run_bind_ok (extendHeap_refused hRefuses),
      if_pos rfl, Exec.run_pure]

theorem mmMalloc_source {s s' : State} {size p : Nat} (hRun : (mmMalloc size).run s = .ok (p, s'))
    (hp : p ≠ NULL) : ∃ n, Source s size p s' n ∧ adjust size ≤ n := by
  rw [mmMalloc] at hRun
  split at hRun
  · cases hRun
    exact absurd rfl hp
  obtain ⟨bp, t, hFind, hRun⟩ := Exec.run_bind_eq_ok.mp hRun
  obtain rfl : s = t := Moves.move (R := Eq) hFind
  dsimp only at hFind hRun
  split at hRun
  · rename_i hFound
    obtain ⟨u, v, -, hReturn⟩ := Exec.run_bind_eq_ok.mp hRun
    cases hReturn
    obtain ⟨n, hSize, hFit⟩ := findFitExp_fits hFind hp
    exact ⟨n, .inl ⟨hFind, hSize⟩, hFit⟩
  · rename_i hNone
    obtain rfl : bp = NULL := not_not.mp hNone
    obtain ⟨q, t, hExtend, hRest⟩ := Exec.run_bind_eq_ok.mp hRun
    split at hRest
    · cases hRest
      exact absurd rfl hp
    · obtain ⟨u, v, hPlace, hReturn⟩ := Exec.run_bind_eq_ok.mp hRest
      cases hReturn
      have hSize := extendSize_eq (adjust_mod size) (adjust_lt size)
      have hLt : max (adjust size) CHUNKSIZE < 2 ^ 32 := max_lt (adjust_lt size) (by decide)
      have hGrows := extendHeap_grows (by rwa [hSize]) hExtend hp
      have hSame : s'.memBrk = t.memBrk := (Moves.move (R := Writes) hPlace).2.1
      rw [hSize] at hGrows
      refine ⟨_, .inr ⟨hFind, ⟨t, hExtend⟩, hSame.trans hGrows⟩, le_max_left _ _⟩

/-- `mm_malloc` answers NULL only where the search does and `mem_sbrk` refuses. -/
theorem mmMalloc_null {s s' : State} {size : Nat} (hPos : 0 < size)
    (hRun : (mmMalloc size).run s = .ok (NULL, s')) :
    (findFitExp (adjust size)).run s = .ok (NULL, s) ∧ RefusesRequest s size := by
  rw [mmMalloc, if_neg (by omega)] at hRun
  obtain ⟨bp, t, hFind, hRun⟩ := Exec.run_bind_eq_ok.mp hRun
  obtain rfl : s = t := Moves.move (R := Eq) hFind
  dsimp only at hFind hRun
  split at hRun
  · rename_i hFound
    obtain ⟨_, _, -, hReturn⟩ := Exec.run_bind_eq_ok.mp hRun
    cases hReturn
    exact absurd rfl hFound
  · rename_i hNone
    obtain rfl : bp = NULL := not_not.mp hNone
    obtain ⟨q, t, hExtend, hRest⟩ := Exec.run_bind_eq_ok.mp hRun
    split at hRest
    · rename_i hRefused
      rw [hRefused] at hExtend
      exact ⟨hFind, extendHeap_null_iff.mp ⟨t, hExtend⟩⟩
    · rename_i hGranted
      obtain ⟨_, _, -, hReturn⟩ := Exec.run_bind_eq_ok.mp hRest
      cases hReturn
      exact absurd rfl hGranted

/-- A request too large to represent, or to satisfy: no listed block fits and `mem_sbrk`
refuses. -/
def TooLarge (s : State) (links : List (Nat × Block)) (size : Nat) : Prop :=
  2 ^ 32 - 16 < size ∨ (∀ x ∈ links, x.2.size < adjust size) ∧ RefusesRequest s size

/-- `mm_malloc` answers with adequate blocks only, and with NULL when the request is too large. -/
structure SizeRight (s : State) (links : List (Nat × Block)) (size : Nat) : Prop where
  adequate : ∀ p s', (mmMalloc size).run s = .ok (p, s') → p ≠ NULL → Adequate s size p s'
  null : TooLarge s links size → ∃ s', (mmMalloc size).run s = .ok (NULL, s')

theorem adequate_iff {s s' : State} {size p : Nat} (hPos : 0 < size) (hSize : size < 2 ^ 64)
    (hRun : (mmMalloc size).run s = .ok (p, s')) (hp : p ≠ NULL) :
    Adequate s size p s' ↔ size ≤ 2 ^ 32 - 16 := by
  rw [← le_adjust_iff hPos hSize]
  constructor
  · rintro ⟨-, hLe, -⟩
    exact hLe
  · intro hLe
    exact ⟨adjust_mod size, hLe, mmMalloc_source hRun hp⟩

/-- The rounded size fits in 32 bits, and a listed block or `mem_sbrk` has room for it. -/
def Servable (s : State) (links : List (Nat × Block)) (size : Nat) : Prop :=
  size ≤ 2 ^ 32 - 16 ∧ ((∃ x ∈ links, adjust size ≤ x.2.size) ∨ ¬ RefusesRequest s size)

theorem sizeRight_iff {s : State} {bs : List Block} {links : List (Nat × Block)} {stop size : Nat}
    (h : Listed s bs links stop) (hPos : 0 < size) (hSize : size < 2 ^ 64) :
    SizeRight s links size ↔ Servable s links size ∨
      links = [] ∧ s.heapBasefree = s.heapListp ∧ RefusesRequest s size := by
  constructor
  · rintro ⟨-, hNull⟩
    by_cases hServed : Servable s links size
    · exact .inl hServed
    · have hLarge : TooLarge s links size := by
        rw [Servable] at hServed
        push Not at hServed
        obtain hFits | hBig := le_or_gt size (2 ^ 32 - 16)
        · exact .inr (hServed hFits)
        · exact .inl hBig
      obtain ⟨s', hRun⟩ := hNull hLarge
      obtain ⟨hFind, hRefuses⟩ := mmMalloc_null hPos hRun
      obtain ⟨hEmpty, hBase⟩ := h.findFitExp_null_iff.mp hFind
      exact .inr ⟨hEmpty, hBase, hRefuses⟩
  · rintro (⟨hFits, hServed⟩ | ⟨hEmpty, hBase, hRefuses⟩)
    · refine ⟨fun p s' hRun hp => (adequate_iff hPos hSize hRun hp).mpr hFits, ?_⟩
      rintro (hBig | ⟨hNone, hRefuses⟩)
      · exact absurd hBig (Nat.not_lt.mpr hFits)
      · obtain ⟨x, hx, hFit⟩ | hGrants := hServed
        · exact absurd hFit (Nat.not_le.mpr (hNone x hx))
        · exact absurd hRefuses hGrants
    · have hRun := mmMalloc_refused (h.findFitExp_null_iff.mpr ⟨hEmpty, hBase⟩) hRefuses
      refine ⟨fun p s' hAnswer hp => ?_, fun _ => ⟨s, hRun⟩⟩
      cases hRun.symm.trans hAnswer
      exact absurd rfl hp

/-- Whenever `mm_malloc` answers with a block, its size is right if and only if the request is
at most `2^32 - 16` bytes. NULL for a request that is too large comes only over an empty list that
starts at the prologue, when `mem_sbrk` refuses. -/
theorem mmMalloc_size_iff (s : State) (size : Nat) (hPos : 0 < size) (hSize : size < 2 ^ 64) :
    (∀ p s', (mmMalloc size).run s = .ok (p, s') → p ≠ NULL →
      (Adequate s size p s' ↔ size ≤ 2 ^ 32 - 16)) ∧
    ∀ bs links stop, Listed s bs links stop →
      (SizeRight s links size ↔ Servable s links size ∨
        links = [] ∧ s.heapBasefree = s.heapListp ∧ RefusesRequest s size) :=
  ⟨fun _ _ hRun hp => adequate_iff hPos hSize hRun hp, fun _ _ _ h => sizeRight_iff h hPos hSize⟩

section Wrap

def holeBlocks : List Block := [.ofSize 24 true, .ofSize 24 false, .ofSize 24 true]

/-- A free block of 24 bytes between two allocated ones, whose first words are addresses of
their own payloads. -/
def holeHeap : State :=
  let s := layout 4096 holeBlocks page_pos (by decide) page_max
  { s with
    bytes := storeLE (storeLE s.bytes 4108 8 4108) 4152 8 4152
    heapBasefree := 4128 }

def holeLinks : List (Nat × Block) := [(4128, .ofSize 24 false)]

theorem boundaryHeap_holeHeap : BoundaryHeap holeHeap holeBlocks :=
  ⟨⟨_, _, rfl, rfl⟩, by decide +kernel, by decide +kernel, by decide, by decide, by decide⟩

theorem listed_holeHeap : Listed holeHeap holeBlocks holeLinks NULL := by
  refine ⟨boundaryHeap_holeHeap, by decide, ⟨rfl, ?_⟩, .refl _, .inl rfl⟩
  change loadLE holeHeap.bytes 4132 8 = 0
  decide +kernel

end Wrap

theorem mmMalloc_size_iff_word : SizeRight holeHeap holeLinks 16 ∧
    ∃ s', (mmMalloc 16).run holeHeap = .ok (4128, s') ∧ Adequate holeHeap 16 4128 s' := by
  have hIff := mmMalloc_size_iff holeHeap 16 (by decide) (by decide)
  have hAnswer : ((mmMalloc 16).run holeHeap).toOption.map Prod.fst = some 4128 := by rfl
  obtain ⟨s', hRun⟩ := exists_run hAnswer
  have hFit : ∃ x ∈ holeLinks, adjust 16 ≤ x.2.size := ⟨_, List.mem_cons_self, by decide⟩
  refine ⟨(hIff.2 _ _ _ listed_holeHeap).mpr (.inl ⟨by decide, .inl hFit⟩), s', hRun, ?_⟩
  exact (hIff.1 _ _ hRun (by decide)).mpr (by decide)

/-- A request of `2^32` bytes is adjusted to 8 and served from a block of 24. -/
theorem huge_request_served : ¬ ∀ (s : State) (size : Nat), 0 < size → size < 2 ^ 64 →
    ∀ p s', (mmMalloc size).run s = .ok (p, s') → p ≠ NULL → Adequate s size p s' := by
  intro hAll
  have hAnswer : ((mmMalloc (2 ^ 32)).run holeHeap).toOption.map Prod.fst = some 4128 := by rfl
  obtain ⟨s', hRun⟩ := exists_run hAnswer
  obtain ⟨-, hLe, -⟩ := hAll holeHeap (2 ^ 32) (by decide) (by decide) _ _ hRun (by decide)
  exact absurd hLe (by decide)

/-! ## Exhaustion -/

/-- A call that asks `mem_sbrk` for memory. -/
inductive Caller where
  | mmInit
  | extendHeap (words : Nat)
  | mmMalloc (size : Nat)

/-- The first call of `mem_sbrk` is refused. -/
def Caller.Refused (s : State) : Caller → Prop
  | .mmInit => Refuses s (4 * WSIZE)
  | .extendHeap words => Refuses s (uint32ToInt (extendSize words))
  | .mmMalloc size => (findFitExp (adjust size)).run s = .ok (NULL, s) ∧ RefusesRequest s size

def Untouched (s s' : State) : Prop :=
  s'.memBrk = s.memBrk ∧ s'.heapBasefree = s.heapBasefree ∧ s'.bytes = s.bytes

def Caller.Reports (s : State) : Caller → Prop
  | .mmInit => ∃ s', Malloc.mmInit.run s = .ok (-1, s') ∧ Untouched s s'
  | .extendHeap words => ∃ s', (Malloc.extendHeap words).run s = .ok (NULL, s') ∧ Untouched s s'
  | .mmMalloc size => ∃ s', (Malloc.mmMalloc size).run s = .ok (NULL, s') ∧ Untouched s s'

/-- `mm_init` takes the refusal for an address and stores its padding word there. -/
theorem mmInit_refused {s : State} (h : Refuses s (4 * WSIZE)) :
    mmInit.run s = .error (.outside minusOne) := by
  let t : State := { s with heapListp := minusOne }
  have hSbrk : (sbrk (4 * WSIZE)).run s = .ok (minusOne, s) := sbrk_refused h
  have hSet : (setHeapListp minusOne).run s = .ok ((), t) := rfl
  have hGet : getHeapListp.run t = .ok (minusOne, t) := rfl
  have hOut : ¬ t.Reaches minusOne 4 := by
    have hLimit := t.limit_lt
    rw [State.Reaches, minusOne]
    omega
  have hStop : (put minusOne 0).run t = .error (.outside minusOne) := store_stop hOut
  rw [mmInit, Exec.run_bind_ok hSbrk, Exec.run_bind_ok hSet, Exec.run_bind_ok hGet,
    if_neg (by decide), Exec.run_bind_ok hGet, Exec.run_bind_error hStop]

/-- Whatever the state, a refusal of `mem_sbrk` is reported and leaves the heap as it was if
and only if the caller is not `mm_init`. -/
theorem exhaustion_reported_iff (s : State) (c : Caller) (h : c.Refused s) :
    c.Reports s ↔ c ≠ .mmInit := by
  cases c with
  | mmInit =>
    constructor
    · rintro ⟨s', hRun, -⟩
      cases (mmInit_refused h).symm.trans hRun
    · exact fun hNe => absurd rfl hNe
  | extendHeap words =>
    exact ⟨nofun, fun _ => ⟨s, extendHeap_refused h, rfl, rfl, rfl⟩⟩
  | mmMalloc size =>
    exact ⟨nofun, fun _ => ⟨s, mmMalloc_refused h.1 h.2, rfl, rfl, rfl⟩⟩

def exhausted : State where
  memStartBrk := 4096
  memBrk := 4096 + maxHeap
  memMaxAddr := 4096 + maxHeap
  bytes _ := 0
  start_pos := page_pos
  start_le_brk := by decide
  brk_le_max := le_rfl
  max_eq := rfl
  max_lt := page_max
  heapListp := NULL
  heapBasefree := NULL
  out := []
  guarded := false

theorem exhaustion_reported_iff_extend : (Caller.extendHeap 4).Reports exhausted :=
  (exhaustion_reported_iff exhausted (.extendHeap 4) (.inr (by decide))).mpr nofun

/-- With every byte of the heap in use `mm_init` stores through `(void *)-1`. -/
theorem init_misses_exhaustion : ¬ ∀ (s : State) (c : Caller), c.Refused s → c.Reports s := by
  intro hAll
  have hRefused : Refuses exhausted (4 * WSIZE) := .inr (by decide)
  obtain ⟨s', hRun, -⟩ := hAll exhausted .mmInit hRefused
  cases (mmInit_refused hRefused).symm.trans hRun

end Cs33.Malloc
