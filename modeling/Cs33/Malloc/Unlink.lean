import Cs33.Lib.DoublyLinked
import Cs33.Malloc.ExpCoalesce
import Mathlib.Data.List.Permutation

/-! # The in-block links as a doubly linked list

A sequence of blocks is written into its `PRED` and `SUCC` fields and read
back by walking them. For one block both fields are null and all is well. From
two blocks on, either the word that the fields of a block share loses a link,
or unlinking the first block leaves its address in the `PRED` field of the
second: `PUT_64VAL(PRED(SUCC(bp)), PRED(bp))` stores at that address.
-/

namespace Cs33.Malloc

open ByteMemory DoublyLinked Exec

/-- The assignment `PRED(bp) = newp`. -/
def setPred (bp newp : Nat) : M Unit := store 8 bp newp

inductive LinkStore
  | pred (bp newp : Nat)
  | succ (bp newp : Nat)
deriving DecidableEq

def LinkStore.assign : LinkStore → M Unit
  | .pred bp newp => setPred bp newp
  | .succ bp newp => setSucc bp newp

def assignAll : List LinkStore → M Unit
  | [] => return ()
  | w :: ws => do
    w.assign
    assignAll ws

/-- Every address names those beside it, the first one `prev` and the last one NULL. -/
def neighbours : Nat → List Nat → List LinkStore
  | _, [] => []
  | prev, a :: as => .pred a prev :: .succ a (as.headD NULL) :: neighbours a as

def linkBlocks (stores : List LinkStore) (first : Nat) : M Unit := do
  assignAll stores
  setHeapBasefree first

/-- The addresses that a link leads through from `p` to NULL, in fewer than `n` steps. -/
def follow (link : Nat → M Nat) : Nat → Nat → M (List Nat)
  | 0, _ => Exec.stop .endless
  | n + 1, p =>
    if p = NULL then return []
    else do
      let rest ← follow link n (← link p)
      return p :: rest

def readBack (link : Nat → M Nat) (p : Nat) : M (List Nat) := do follow link (← rounds) p

structure ReadsBack (s : State) (as : List Nat) : Prop where
  forwards : (readBack succ s.heapBasefree).run s = .ok (as, s)
  backwards : (readBack pred (as.getLastD NULL)).run s = .ok (as.reverse, s)

def Apart (x y : Nat × Block) : Prop := x.1 + x.2.size ≤ y.1 ∨ y.1 + y.2.size ≤ x.1

/-- Blocks inside the heap that do not overlap, each with room for two links. -/
structure Spread (s : State) (links : List (Nat × Block)) : Prop where
  inside : ∀ x ∈ links, s.memStartBrk + 4 ≤ x.1 ∧ x.1 + x.2.size ≤ s.memBrk + 4
  room : ∀ x ∈ links, FREEBLOCKSIZE ≤ x.2.size
  apart : links.Pairwise Apart

structure SameTags (s s' : State) (x : Nat × Block) : Prop where
  header : loadLE s'.bytes (x.1 - 4) 4 = loadLE s.bytes (x.1 - 4) 4
  footer : loadLE s'.bytes (x.1 + x.2.size - 8) 4 = loadLE s.bytes (x.1 + x.2.size - 8) 4

structure SameLinks (s s' : State) (x : Nat × Block) : Prop where
  pred : loadLE s'.bytes x.1 8 = loadLE s.bytes x.1 8
  succ : loadLE s'.bytes (x.1 + 4) 8 = loadLE s.bytes (x.1 + 4) 8

/-- From `s` to `s'` the block `x` has left the sequence, the links of blocks that were not beside
it are those they had, and so are all tags and the links of every block outside the sequence. -/
structure Unlinked (s s' : State) (l : List (Nat × Block)) (x : Nat × Block)
    (r : List (Nat × Block)) : Prop where
  readsBack : ReadsBack s' ((l ++ r).map Prod.fst)
  tags : ∀ y ∈ l ++ r, SameTags s s' y
  distant : ∀ y ∈ l.dropLast ++ r.tail, SameLinks s s' y
  others : ∀ y, (∀ z ∈ l ++ x :: r, Apart y z) →
    SameTags s s' y ∧ (FREEBLOCKSIZE ≤ y.2.size → SameLinks s s' y)

/-- The links read back as the sequence, and `coalesce_helper` takes any one block out of it. -/
structure FaithfulList (s : State) (links : List (Nat × Block)) : Prop where
  readsBack : ReadsBack s (links.map Prod.fst)
  unlinks : ∀ l x r, links = l ++ x :: r →
    ∃ s', (coalesceHelper x.1).run s = .ok ((), s') ∧ Unlinked s s' l x r

/-! ## Reading back -/

theorem linked_iff_doubly {m : Bytes} {prev p : Nat} {links : List (Nat × Block)} :
    Linked m prev p links ↔ Doubly (fun a => loadLE m (a + 4) 8) (fun a => loadLE m a 8) NULL
      prev p (links.map Prod.fst) := by
  induction links generalizing prev p with
  | nil => exact Iff.rfl
  | cons x links ih => rw [Linked, ih, List.map_cons, Doubly]

section Follow

variable {s : State} {link : Nat → M Nat} {next : Nat → Nat} {as : List Nat} {n p : Nat}

theorem follow_ne_null (hp : p ≠ NULL) : (follow link (n + 1) p).run s =
    (do let rest ← follow link n (← link p); return p :: rest : M (List Nat)).run s := by
  rw [follow, if_neg hp]

theorem follow_nil_iff : (follow link (n + 1) p).run s = .ok ([], s) ↔ p = NULL := by
  constructor
  · intro h
    by_contra hp
    rw [follow_ne_null hp] at h
    obtain ⟨q, t, -, h⟩ := run_bind_eq_ok.mp h
    obtain ⟨rest, u, -, h⟩ := run_bind_eq_ok.mp h
    cases h
  · rintro rfl
    rfl

theorem follow_cons_iff {a q : Nat} (ha : a ≠ NULL) (hLink : (link a).run s = .ok (q, s)) :
    (follow link (n + 1) p).run s = .ok (a :: as, s) ↔
      p = a ∧ (follow link n q).run s = .ok (as, s) := by
  constructor
  · intro h
    have hp : p ≠ NULL := by
      rintro rfl
      cases h
    rw [follow_ne_null hp] at h
    obtain ⟨q', t, hStep, h⟩ := run_bind_eq_ok.mp h
    obtain ⟨rest, u, hFollow, h⟩ := run_bind_eq_ok.mp h
    cases h
    rw [hLink] at hStep
    cases hStep
    exact ⟨rfl, hFollow⟩
  · rintro ⟨rfl, hFollow⟩
    rw [follow_ne_null ha, run_bind_ok hLink, run_bind_ok hFollow, run_pure]

theorem follow_iff (hRun : ∀ a ∈ as, (link a).run s = .ok (next a, s)) (hNull : NULL ∉ as)
    (hFuel : as.length < n) :
    (follow link n p).run s = .ok (as, s) ↔ Leads next NULL p as := by
  induction as generalizing n p with
  | nil =>
    obtain ⟨n, rfl⟩ := Nat.exists_eq_add_one.mpr hFuel
    exact follow_nil_iff
  | cons a as ih =>
    obtain ⟨n, rfl⟩ := Nat.exists_eq_add_one.mpr (Nat.zero_lt_of_lt hFuel)
    rw [List.mem_cons, not_or] at hNull
    obtain ⟨hHere, hNull⟩ := hNull
    rw [follow_cons_iff (Ne.symm hHere) (hRun a List.mem_cons_self), Leads,
      ih (fun b hb => hRun b (List.mem_cons_of_mem a hb)) hNull (Nat.lt_of_succ_lt_succ hFuel)]

end Follow

namespace Spread

variable {s : State} {links : List (Nat × Block)}

theorem bounds (h : Spread s links) : ∀ a ∈ links.map Prod.fst,
    s.memStartBrk ≤ a ∧ a + 12 ≤ s.memBrk := by
  intro a ha
  obtain ⟨x, hx, rfl⟩ := List.mem_map.mp ha
  obtain ⟨hLo, hHi⟩ := h.inside x hx
  have hRoom := h.room x hx
  rw [FREEBLOCKSIZE] at hRoom
  omega

theorem nodup (h : Spread s links) : (links.map Prod.fst).Nodup := by
  apply List.pairwise_map.mpr
  apply h.apart.imp
  intro x y hApart
  have hx := x.2.size_pos
  have hy := y.2.size_pos
  rw [Apart] at hApart
  omega

theorem length_lt (h : Spread s links) :
    (links.map Prod.fst).length < s.limit - s.memStartBrk + 1 := by
  have hSub : links.map Prod.fst ⊆ List.range' s.memStartBrk (s.memBrk - s.memStartBrk) := by
    intro a ha
    obtain ⟨hLo, hHi⟩ := h.bounds a ha
    exact List.mem_range'_1.mpr ⟨hLo, by omega⟩
  have hLength := (List.subperm_of_subset h.nodup hSub).length_le
  rw [List.length_range'] at hLength
  have hLimit := s.brk_le_limit
  omega

theorem null_not_mem (h : Spread s links) : NULL ∉ links.map Prod.fst :=
  fun hMem => ne_null_of_start_le (h.bounds NULL hMem).1 rfl

theorem forwards_iff (h : Spread s links) {p : Nat} :
    (readBack succ p).run s = .ok (links.map Prod.fst, s) ↔
      Leads (fun a => loadLE s.bytes (a + 4) 8) NULL p (links.map Prod.fst) := by
  apply follow_iff
  · intro a ha
    obtain ⟨hLo, hHi⟩ := h.bounds a ha
    exact succ_run hLo hHi
  · exact h.null_not_mem
  · exact h.length_lt

theorem backwards_iff (h : Spread s links) {p : Nat} :
    (readBack pred p).run s = .ok ((links.map Prod.fst).reverse, s) ↔
      Leads (fun a => loadLE s.bytes a 8) NULL p (links.map Prod.fst).reverse := by
  apply follow_iff
  · intro a ha
    obtain ⟨hLo, hHi⟩ := h.bounds a (List.mem_reverse.mp ha)
    exact pred_run hLo (by omega)
  · rw [List.mem_reverse]
    exact h.null_not_mem
  · rw [List.length_reverse]
    exact h.length_lt

theorem readsBack_iff (h : Spread s links) :
    ReadsBack s (links.map Prod.fst) ↔ Linked s.bytes NULL s.heapBasefree links := by
  rw [linked_iff_doubly, doubly_iff_leads, ← h.forwards_iff, ← h.backwards_iff]
  constructor
  · intro hReads
    exact ⟨hReads.forwards, hReads.backwards⟩
  · rintro ⟨hForwards, hBackwards⟩
    exact ⟨hForwards, hBackwards⟩

theorem withBytes (h : Spread s links) (m : Bytes) (base : Nat) :
    Spread { s.withBytes m with heapBasefree := base } links :=
  ⟨h.inside, h.room, h.apart⟩

theorem tail {x : Nat × Block} (h : Spread s (x :: links)) : Spread s links :=
  ⟨fun y hy => h.inside y (List.mem_cons_of_mem x hy),
    fun y hy => h.room y (List.mem_cons_of_mem x hy), h.apart.of_cons⟩

end Spread

/-! ## The assignments -/

instance (bp newp : Nat) : Moves Writes (setPred bp newp) :=
  inferInstanceAs (Moves Writes (store 8 bp newp))

instance (w : LinkStore) : Moves Writes w.assign := by
  cases w with
  | pred bp newp => exact inferInstanceAs (Moves Writes (setPred bp newp))
  | succ bp newp => exact inferInstanceAs (Moves Writes (setSucc bp newp))

instance moves_assignAll (stores : List LinkStore) : Moves Writes (assignAll stores) := by
  induction stores with
  | nil => exact inferInstanceAs (Moves Writes (pure ()))
  | cons w stores ih =>
    rw [assignAll]
    infer_instance

instance (stores : List LinkStore) (first : Nat) : Moves Writes (linkBlocks stores first) := by
  unfold linkBlocks
  infer_instance

theorem Spread.of_linkBlocks {s s' : State} {links : List (Nat × Block)} {stores : List LinkStore}
    {first : Nat} (h : Spread s links) (hRun : (linkBlocks stores first).run s = .ok ((), s')) :
    Spread s' links := by
  obtain ⟨hStart, hBrk, -⟩ := Moves.move (R := Writes) hRun
  refine ⟨?_, h.room, h.apart⟩
  rw [hStart, hBrk]
  exact h.inside

/-! ## Two blocks or more -/

theorem not_faithfulList {s : State} {x y : Nat × Block} {rest : List (Nat × Block)}
    (h : Spread s (x :: y :: rest)) : ¬ FaithfulList s (x :: y :: rest) := by
  intro hFaithful
  obtain ⟨hHead, hFirst, hNext, hBack, -⟩ := h.readsBack_iff.mp hFaithful.readsBack
  obtain ⟨hXLo, hXHi⟩ := h.bounds x.1 (by simp)
  obtain ⟨hYLo, hYHi⟩ := h.bounds y.1 (by simp)
  have hHelper := coalesceHelper_front hXLo hXHi hYLo (by omega) hFirst hNext hBack
  obtain ⟨s', hRun, hUnlinked⟩ := hFaithful.unlinks [] x (y :: rest) rfl
  rw [hHelper] at hRun
  cases hRun
  -- the second block heads the list now and still names the first
  have hSpread : Spread { s with heapBasefree := y.1 } (y :: rest) := h.tail.withBytes s.bytes y.1
  obtain ⟨-, hNull, -⟩ := hSpread.readsBack_iff.mp hUnlinked.readsBack
  exact ne_null_of_start_le hXLo (hBack.symm.trans hNull)

/-! ## At most one block -/

theorem faithfulList_nil {s : State} (hBase : s.heapBasefree = NULL) : FaithfulList s [] where
  readsBack := by
    have hSpread : Spread s [] := ⟨nofun, nofun, List.Pairwise.nil⟩
    exact hSpread.readsBack_iff.mpr hBase
  unlinks l x r h := by simp at h

theorem faithfulList_singleton {s : State} {x : Nat × Block} (h : Spread s [x])
    (hBase : s.heapBasefree = x.1) (hPred : loadLE s.bytes x.1 8 = NULL)
    (hSucc : loadLE s.bytes (x.1 + 4) 8 = NULL) : FaithfulList s [x] where
  readsBack := h.readsBack_iff.mpr ⟨hBase, hPred, hSucc⟩
  unlinks l y r hParts := by
    obtain ⟨hLo, hHi⟩ := h.bounds x.1 (by simp)
    obtain ⟨rfl, rfl, rfl⟩ : l = [] ∧ y = x ∧ r = [] := by
      obtain _ | ⟨z, l⟩ := l <;> simp_all
    refine ⟨_, coalesceHelper_alone hLo hHi hPred hSucc, ?_, nofun, nofun, ?_⟩
    · exact (faithfulList_nil rfl).readsBack
    · intro z hz
      exact ⟨⟨rfl, rfl⟩, fun _ => ⟨rfl, rfl⟩⟩

section Null

/-- The memory with both links of the block at `a` null. -/
def clearLinks (m : Bytes) (a : Nat) : Bytes := storeLE (storeLE m a 8 NULL) (a + 4) 8 NULL

theorem clearLinks_comm (m : Bytes) (a : Nat) :
    storeLE (storeLE m (a + 4) 8 NULL) a 8 NULL = clearLinks m a := by
  funext q
  simp only [clearLinks, storeLE, NULL, Nat.zero_div]
  split <;> split <;> rfl

theorem succ_clearLinks (m : Bytes) (a : Nat) : loadLE (clearLinks m a) (a + 4) 8 = NULL :=
  loadLE_storeLE_of_lt (by decide)

theorem pred_clearLinks (m : Bytes) (a : Nat) : loadLE (clearLinks m a) a 8 = NULL := by
  rw [← clearLinks_comm]
  exact loadLE_storeLE_of_lt (by decide)

variable {s : State} {x : Nat × Block}

theorem assignAll_singleton {stores : List LinkStore} (h : Spread s [x])
    (hStores : stores.Perm (neighbours NULL [x.1])) :
    (assignAll stores).run s = .ok ((), s.withBytes (clearLinks s.bytes x.1)) := by
  obtain ⟨hLo, hHi⟩ := h.bounds x.1 (by simp)
  have hPred : ∀ m, (setPred x.1 NULL).run (s.withBytes m) =
      .ok ((), s.withBytes (storeLE m x.1 8 NULL)) := by
    intro m
    apply store_run
    rw [Memlib.inHeap_iff]
    exact ⟨hLo, show x.1 + 8 ≤ s.memBrk by omega⟩
  have hSucc : ∀ m, (setSucc x.1 NULL).run (s.withBytes m) =
      .ok ((), s.withBytes (storeLE m (x.1 + 4) 8 NULL)) := fun m => setSucc_run hLo hHi
  obtain rfl | rfl := List.perm_pair.mp hStores
  · exact (run_bind_ok (hPred s.bytes)).trans (run_bind_ok (hSucc _))
  · rw [← clearLinks_comm]
    exact (run_bind_ok (hSucc s.bytes)).trans (run_bind_ok (hPred _))

end Null

/-- In whatever order the fields are assigned, the links are a faithful list exactly when there
is at most one block. -/
theorem linkBlocks_faithful_iff (s : State) (links : List (Nat × Block)) (stores : List LinkStore)
    (h : Spread s links) (hStores : stores.Perm (neighbours NULL (links.map Prod.fst))) :
    (∃ s', (linkBlocks stores ((links.map Prod.fst).headD NULL)).run s = .ok ((), s') ∧
      FaithfulList s' links) ↔ links.length ≤ 1 := by
  constructor
  · rintro ⟨s', hRun, hFaithful⟩
    obtain _ | ⟨x, _ | ⟨y, rest⟩⟩ := links
    · exact Nat.zero_le 1
    · exact le_rfl
    · exact absurd hFaithful (not_faithfulList (h.of_linkBlocks hRun))
  · intro hShort
    obtain _ | ⟨x, _ | ⟨y, rest⟩⟩ := links
    · obtain rfl := List.perm_nil.mp hStores
      exact ⟨{ s with heapBasefree := NULL }, rfl, faithfulList_nil rfl⟩
    · have hAssign := assignAll_singleton h hStores
      refine ⟨{ s.withBytes (clearLinks s.bytes x.1) with heapBasefree := x.1 },
        run_bind_ok hAssign, ?_⟩
      exact faithfulList_singleton (h.withBytes _ _) rfl (pred_clearLinks _ _) (succ_clearLinks _ _)
    · simp at hShort

theorem spread_single : Spread singleHeap [(4128, .ofSize 24 false)] where
  inside := by decide
  room := by decide
  apart := List.pairwise_singleton _ _

theorem spread_two : Spread singleHeap [(4128, .ofSize 24 false), (4176, .ofSize 24 false)] where
  inside := by decide
  room := by decide
  apart := List.pairwise_pair.mpr (.inl (by decide))

theorem linkBlocks_faithful_iff_single :
    ∃ s', (linkBlocks [.succ 4128 NULL, .pred 4128 NULL] 4128).run singleHeap = .ok ((), s') ∧
      FaithfulList s' [(4128, .ofSize 24 false)] :=
  (linkBlocks_faithful_iff singleHeap [(4128, .ofSize 24 false)]
    [.succ 4128 NULL, .pred 4128 NULL] spread_single (List.Perm.swap _ _ _)).mpr le_rfl

/-- Two blocks of an ordinary heap: the way back leads to the address of the second block shifted
by a word. Where the shared words agree, unlinking the first block leaves its address behind. -/
theorem two_blocks_not_faithful :
    (do linkBlocks (neighbours NULL [4128, 4176]) 4128; readBack pred 4176 : M (List Nat)).run
      singleHeap = .error (.outside (4176 * 2 ^ 32)) ∧
    ((coalesceHelper (2 ^ 32 - 72)).run pairHeap).toOption.map
      (fun r => (r.2.heapBasefree, loadLE r.2.bytes (2 ^ 32) 8)) = some (2 ^ 32, 2 ^ 32 - 72) ∧
    ¬ ∀ (s : State) (links : List (Nat × Block)) (stores : List LinkStore), Spread s links →
      stores.Perm (neighbours NULL (links.map Prod.fst)) →
      ∃ s', (linkBlocks stores ((links.map Prod.fst).headD NULL)).run s = .ok ((), s') ∧
        FaithfulList s' links := by
  refine ⟨by rfl, by decide +kernel, fun hAll => ?_⟩
  obtain ⟨s', hRun, hFaithful⟩ := hAll _ _ _ spread_two (List.Perm.refl _)
  exact not_faithfulList (spread_two.of_linkBlocks hRun) hFaithful

end Cs33.Malloc
