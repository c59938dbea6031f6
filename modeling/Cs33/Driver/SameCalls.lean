import Cs33.Driver.Utilisation

/-! # The three replays make the same calls

A logged allocator also keeps its calls with their answers. If two states of
the allocator that differ in payload bytes only answer alike, then what
`eval_mm_valid` asks of the allocator in an accepted replay is what
`eval_mm_util` and `eval_mm_speed` ask of it, from any state of the driver.
-/

namespace Cs33.Driver

open Cs33.Malloc ByteMemory

/-- A call of the allocator with its answer. -/
inductive Call where
  | init (answer : Int)
  | malloc (size answer : Nat)
  | realloc (ptr size answer : Nat)
  | free (ptr : Nat)
deriving DecidableEq, Repr

variable {σ : Type}

def logging {α : Type} (x : Exec (σ × Memlib) Stop α) (entry : α → Call) :
    Exec ((σ × List Call) × Memlib) Stop α where
  run h :=
    match x.run (h.1.1, h.2) with
    | .ok (a, k) => .ok (a, (k.1, h.1.2 ++ [entry a]), k.2)
    | .error e => .error e

def Allocator.logged (A : Allocator σ) : Allocator (σ × List Call) where
  mmInit := logging A.mmInit .init
  mmMalloc size := logging (A.mmMalloc size) (.malloc size)
  mmRealloc ptr size := logging (A.mmRealloc ptr size) (.realloc ptr size)
  mmFree ptr := logging (A.mmFree ptr) fun _ => .free ptr

def Mdriver.calls (d : Mdriver (σ × List Call)) : List Call := d.heap.1.2

def Mdriver.start (d : Mdriver σ) : Nat := d.heap.2.memStartBrk

def StartKept {α : Type} (x : Exec (σ × Memlib) Stop α) : Prop :=
  ∀ (h : σ × Memlib) (a : α) (h' : σ × Memlib), x.run h = .ok (a, h') →
    h'.2.memStartBrk = h.2.memStartBrk

def Answered (A : Allocator σ) (h : σ × Memlib) (p n : Nat) : Prop :=
  ∃ before, (A.mmMalloc n).run before = .ok (p, h) ∨
    ∃ ptr, (A.mmRealloc ptr n).run before = .ok (p, h)

/-- Results and next states do not depend on payload bytes: `same` relates the states that
answer alike, filling a new payload on one side keeps it, and `mem_reset_brk` with `mm_init`
brings any two states of the same storage into it. -/
structure Deterministic (A : Allocator σ) (same : σ × Memlib → σ × Memlib → Prop) : Prop where
  init : ∀ (h h' : σ × Memlib) r k, h.2.memStartBrk = h'.2.memStartBrk →
    A.mmInit.run (h.1, Malloc.memResetBrk h.2) = .ok (r, k) →
    ∃ k', A.mmInit.run (h'.1, Malloc.memResetBrk h'.2) = .ok (r, k') ∧ same k k'
  malloc : ∀ n, Exec.Follows same (A.mmMalloc n) (A.mmMalloc n)
  realloc : ∀ ptr n, Exec.Follows same (A.mmRealloc ptr n) (A.mmRealloc ptr n)
  free : ∀ ptr, Exec.Follows same (A.mmFree ptr) (A.mmFree ptr)
  fill : ∀ h h' p n c, Answered A h p n → p ≠ NULL → h.2.InHeap p n → same h h' →
    same (h.1, { h.2 with bytes := fill h.2.bytes p n c }) h'
  initStart : StartKept A.mmInit
  mallocStart : ∀ n, StartKept (A.mmMalloc n)
  reallocStart : ∀ ptr n, StartKept (A.mmRealloc ptr n)
  freeStart : ∀ ptr, StartKept (A.mmFree ptr)

/-- An id is reallocated or freed only after it was allocated; sizes are `int`s. -/
def AllocatedFirst : List Int → List TraceOp → Prop
  | _, [] => True
  | known, op :: ops =>
    IsInt op.size ∧ (op.type = .alloc ∨ op.index ∈ known) ∧
      AllocatedFirst (op.index :: known) ops

/-! ## Logged calls -/

theorem logging_eq_ok {α : Type} {x : Exec (σ × Memlib) Stop α} {entry : α → Call}
    {h k : (σ × List Call) × Memlib} {a : α} :
    (logging x entry).run h = .ok (a, k) ↔
      x.run (h.1.1, h.2) = .ok (a, k.1.1, k.2) ∧ k.1.2 = h.1.2 ++ [entry a] := by
  obtain ⟨⟨s, log⟩, mem⟩ := k
  rw [logging]
  dsimp only
  cases hRun : x.run (h.1.1, h.2) with
  | error e => simp
  | ok r =>
    constructor
    · intro hEq
      cases hEq
      exact ⟨rfl, rfl⟩
    · rintro ⟨hEq, rfl⟩
      cases hEq
      rfl

theorem StartKept.logging {α : Type} {x : Exec (σ × Memlib) Stop α} (h : StartKept x)
    (entry : α → Call) : StartKept (logging x entry) := by
  intro s a s' hRun
  exact h _ _ _ (logging_eq_ok.mp hRun).1

def SameSince (same : σ × Memlib → σ × Memlib → Prop) (log log' : List Call)
    (h h' : (σ × List Call) × Memlib) : Prop :=
  same (h.1.1, h.2) (h'.1.1, h'.2) ∧ ∃ calls, h.1.2 = log ++ calls ∧ h'.1.2 = log' ++ calls

section Logged

variable {same : σ × Memlib → σ × Memlib → Prop} {log log' : List Call}

theorem logging_follows {α : Type} {x : Exec (σ × Memlib) Stop α}
    (hx : Exec.Follows same x x) (entry : α → Call) :
    Exec.Follows (SameSince same log log') (logging x entry) (logging x entry) := by
  rintro h h' a k ⟨hSame, calls, hLog, hLog'⟩ hRun
  obtain ⟨hRun, hLogged⟩ := logging_eq_ok.mp hRun
  obtain ⟨⟨s, mem⟩, hRun', hSame'⟩ := hx _ _ _ _ hSame hRun
  refine ⟨((s, h'.1.2 ++ [entry a]), mem), logging_eq_ok.mpr ⟨hRun', rfl⟩, hSame',
    calls ++ [entry a], ?_, ?_⟩
  · rw [hLogged, hLog, List.append_assoc]
  · exact (congrArg (· ++ [entry a]) hLog').trans (List.append_assoc _ _ _)

theorem SameSince.filled {A : Allocator σ} (hDet : Deterministic A same)
    {k k' : (σ × List Call) × Memlib} {index size : Int} {p : Nat}
    (hSame : SameSince same log log' k k') (hAnswered : Answered A (k.1.1, k.2) p (toSizeT size))
    (hp : p ≠ NULL) (hIn : k.2.InHeap p (toSizeT size)) :
    SameSince same log log' (filled k index p size) k' := by
  obtain ⟨hSame, hCalls⟩ := hSame
  exact ⟨hDet.fill _ _ _ _ _ hAnswered hp hIn hSame, hCalls⟩

end Logged

/-! ## One request of `eval_mm_speed` -/

section SpeedOp

variable {B : Allocator σ} {d d₁ d' : Mdriver σ}

def Mdriver.place (d : Mdriver σ) (h : σ × Memlib) (index : Int) (p : Nat) : Mdriver σ :=
  { d with heap := h, blocks := Function.update d.blocks index p }

theorem setBlock_eq_ok {index : Int} {p : Nat} : (setBlock index p).run d = .ok ((), d₁) ↔
    d₁ = { d with blocks := Function.update d.blocks index p } := by
  constructor
  · intro hSet
    cases hSet
    rfl
  · rintro rfl
    rfl

theorem speedOp_alloc {index size : Int} :
    (speedOp B ⟨.alloc, index, size⟩).run d = .ok ((), d₁) ↔
      ∃ p h, (B.mmMalloc (toSizeT size)).run d.heap = .ok (p, h) ∧ p ≠ NULL ∧
        d₁ = d.place h index p := by
  rw [speedOp]
  dsimp only
  rw [checked_call_eq_ok nofun]
  simp only [setBlock_eq_ok]
  rfl

theorem speedOp_realloc {index size : Int} :
    (speedOp B ⟨.realloc, index, size⟩).run d = .ok ((), d₁) ↔
      ∃ p h, (B.mmRealloc (d.blocks index) (toSizeT size)).run d.heap = .ok (p, h) ∧ p ≠ NULL ∧
        d₁ = d.place h index p := by
  have hBlock : (getBlock index).run d = .ok (d.blocks index, d) := rfl
  rw [speedOp]
  dsimp only
  rw [Exec.run_bind_ok hBlock, checked_call_eq_ok nofun]
  simp only [setBlock_eq_ok]
  rfl

theorem speedOp_free {index size : Int} :
    (speedOp B ⟨.free, index, size⟩).run d = .ok ((), d₁) ↔
      ∃ h, (B.mmFree (d.blocks index)).run d.heap = .ok ((), h) ∧
        d₁ = { d with heap := h } := by
  have hBlock : (getBlock index).run d = .ok (d.blocks index, d) := rfl
  rw [speedOp]
  dsimp only
  rw [Exec.run_bind_ok hBlock]
  exact call_eq_ok

def SameBlocks (d d' : Mdriver σ) : Prop := d.heap = d'.heap ∧ d.blocks = d'.blocks

theorem intOp_run (n : Int) (d : Mdriver σ) :
    ∃ r d', (intOp n).run d = .ok (r, d') ∧ SameBlocks d d' := by
  rw [intOp]
  split
  · exact ⟨_, _, rfl, rfl, rfl⟩
  · exact ⟨_, _, rfl, rfl, rfl⟩

/-- `eval_mm_util` asks for what `eval_mm_speed` asks for, whatever it counts. -/
theorem utilOp_of_speedOp {op : TraceOp} (hSame : SameBlocks d d')
    (hRun : (speedOp B op).run d = .ok ((), d₁)) (total maxTotal : Int) :
    ∃ r d₂, (utilOp B op total maxTotal).run d' = .ok (r, d₂) ∧ SameBlocks d₁ d₂ := by
  obtain ⟨type, index, size⟩ := op
  obtain ⟨hHeap, hBlocks⟩ := hSame
  have hBlock : (getBlock index).run d' = .ok (d'.blocks index, d') := rfl
  have hSize : (getBlockSize index).run d' = .ok (d'.blockSizes index, d') := rfl
  cases type with
  | alloc =>
    obtain ⟨p, h, hMalloc, hp, rfl⟩ := speedOp_alloc.mp hRun
    rw [hHeap] at hMalloc
    obtain ⟨r, d₂, hTotal, hHeap₂, hBlocks₂⟩ := intOp_run (total + size) (d'.remember h index p size)
    refine ⟨(r, if maxTotal < r then r else maxTotal), d₂, ?_, hHeap₂, ?_⟩
    · rw [utilOp, Exec.run_bind_ok (call_run hMalloc), if_neg hp]
      change (intOp (total + size) >>= _ : D σ _).run (d'.remember h index p size) = _
      rw [Exec.run_bind_ok hTotal, Exec.run_pure]
    · rw [← hBlocks₂, Mdriver.place, hBlocks]
      rfl
  | realloc =>
    obtain ⟨p, h, hRealloc, hp, rfl⟩ := speedOp_realloc.mp hRun
    rw [hHeap, hBlocks] at hRealloc
    obtain ⟨diff, d₂, hDiff, hHeap₂, hBlocks₂⟩ :=
      intOp_run (size - toInt (d'.blockSizes index)) (d'.remember h index p size)
    obtain ⟨r, d₃, hTotal, hHeap₃, hBlocks₃⟩ := intOp_run (total + diff) d₂
    refine ⟨(r, if maxTotal < r then r else maxTotal), d₃, ?_, hHeap₂.trans hHeap₃, ?_⟩
    · rw [utilOp, Exec.run_bind_ok hSize, Exec.run_bind_ok hBlock,
        Exec.run_bind_ok (call_run hRealloc), if_neg hp]
      change (intOp (size - toInt (d'.blockSizes index)) >>= _ : D σ _).run
        (d'.remember h index p size) = _
      rw [Exec.run_bind_ok hDiff, Exec.run_bind_ok hTotal, Exec.run_pure]
    · rw [← hBlocks₃, ← hBlocks₂, Mdriver.place, hBlocks]
      rfl
  | free =>
    obtain ⟨h, hFree, rfl⟩ := speedOp_free.mp hRun
    rw [hHeap, hBlocks] at hFree
    obtain ⟨r, d₂, hTotal, hHeap₂, hBlocks₂⟩ :=
      intOp_run (total - toInt (d'.blockSizes index)) { d' with heap := h }
    refine ⟨(r, maxTotal), d₂, ?_, hHeap₂, hBlocks.trans hBlocks₂⟩
    rw [utilOp, Exec.run_bind_ok hSize, Exec.run_bind_ok hBlock, Exec.run_bind_ok (call_run hFree),
      Exec.run_bind_ok hTotal, Exec.run_pure]

theorem utilOps_of_speedOps {ops : List TraceOp} (hSame : SameBlocks d d')
    (hRun : (speedOps B ops).run d = .ok ((), d₁)) (total maxTotal : Int) :
    ∃ r d₂, (utilOps B ops total maxTotal).run d' = .ok (r, d₂) ∧ SameBlocks d₁ d₂ := by
  induction ops generalizing d d' total maxTotal with
  | nil =>
    cases hRun
    exact ⟨_, d', rfl, hSame⟩
  | cons op ops ih =>
    obtain ⟨_, d₂, hOp, hRest⟩ := Exec.run_bind_eq_ok.mp hRun
    obtain ⟨r, d₃, hOp', hSame'⟩ := utilOp_of_speedOp hSame hOp total maxTotal
    obtain ⟨r', d₄, hRest', hSame''⟩ := ih hSame' hRest r.1 r.2
    refine ⟨r', d₄, ?_, hSame''⟩
    rw [utilOps, Exec.run_bind_ok hOp']
    exact hRest'

theorem evalMmSpeed_eq_ok {ops : List TraceOp} :
    (evalMmSpeed B ops).run d = .ok ((), d₁) ↔
      ∃ r h, B.mmInit.run (d.heap.1, Malloc.memResetBrk d.heap.2) = .ok (r, h) ∧ 0 ≤ r ∧
        (speedOps B ops).run { d with heap := h } = .ok ((), d₁) := by
  have hReset : (memResetBrk : D σ Unit).run d =
      .ok ((), { d with heap := (d.heap.1, Malloc.memResetBrk d.heap.2) }) := rfl
  rw [evalMmSpeed, Exec.run_bind_ok hReset, checked_call_eq_ok nofun]
  simp only [not_lt]

theorem evalMmUtil_of_speed {ops : List TraceOp}
    (hRun : (evalMmSpeed B ops).run d = .ok ((), d₁)) :
    ∃ u d₂, (evalMmUtil B ops).run d = .ok (u, d₂) ∧ SameBlocks d₁ d₂ := by
  obtain ⟨r, h, hInit, hr, hOps⟩ := evalMmSpeed_eq_ok.mp hRun
  obtain ⟨⟨_, maxTotal⟩, d₂, hOps', hSame⟩ := utilOps_of_speedOps ⟨rfl, rfl⟩ hOps 0 FREE_HEAP
  have hReset : (memResetBrk : D σ Unit).run d =
      .ok ((), { d with heap := (d.heap.1, Malloc.memResetBrk d.heap.2) }) := rfl
  have hCall : (call B.mmInit).run { d with heap := (d.heap.1, Malloc.memResetBrk d.heap.2) } =
      .ok (r, { d with heap := h }) := call_run hInit
  refine ⟨⟨maxTotal, max (FREE_HEAP : Int) (memHeapsize d₂.heap.2)⟩, d₂, ?_, hSame⟩
  rw [evalMmUtil, Exec.run_bind_ok hReset, Exec.run_bind_ok hCall, if_neg (by omega),
    Exec.run_bind_ok hOps']
  exact utilStats_run d₂ maxTotal

end SpeedOp

/-! ## Two replays in lockstep -/

/-- The replay of `eval_mm_valid` beside another one: both asked the allocator for the same
calls, and the blocks of the known ids are where they are. -/
structure Lockstep (same : σ × Memlib → σ × Memlib → Prop) (log log' : List Call) (lo : Nat)
    (d d' : Mdriver (σ × List Call)) (known : List Int) : Prop where
  heap : SameSince same log log' d.heap d'.heap
  blocks : ∀ i ∈ known, d.blocks i = d'.blocks i
  start : d.start = lo
  other : d'.start = lo

section Lockstep

variable {A : Allocator σ} {same : σ × Memlib → σ × Memlib → Prop} {log log' : List Call}
  {lo : Nat} {d d₁ d' : Mdriver (σ × List Call)} {known : List Int}

theorem Lockstep.answer (hLock : Lockstep same log log' lo d d' known)
    {k k' : (σ × List Call) × Memlib} {index size : Int} {p : Nat} (ranges : List Range)
    (hSame : SameSince same log log' (filled k index p size) k')
    (hStart : k.2.memStartBrk = lo) (hOther : k'.2.memStartBrk = lo) :
    Lockstep same log log' lo (d.record k ranges index p size) (d'.place k' index p)
      (index :: known) := by
  refine ⟨hSame, ?_, hStart, hOther⟩
  intro i hi
  change Function.update d.blocks index p i = Function.update d'.blocks index p i
  obtain hEq | hEq := eq_or_ne i index
  · rw [hEq, Function.update_self, Function.update_self]
  · rw [Function.update_of_ne hEq, Function.update_of_ne hEq]
    exact hLock.blocks i ((List.mem_cons.mp hi).resolve_left hEq)

theorem Lockstep.handOut (hLock : Lockstep same log log' lo d d' known)
    (hDet : Deterministic A same) {x : Exec (σ × Memlib) Stop Nat} {entry : Nat → Call} {p : Nat}
    {index size : Int} {k : (σ × List Call) × Memlib} (hx : Exec.Follows same x x)
    (hStart : StartKept x) (hInt : IsInt size) (hp : p ≠ NULL)
    (hRun : (logging x entry).run d.heap = .ok (p, k))
    (hAnswered : Answered A (k.1.1, k.2) p (toSizeT size)) {checked : List Range}
    (hAccepted : Accepted k.2 checked p size) (ranges : List Range) :
    ∃ k', (logging x entry).run d'.heap = .ok (p, k') ∧
      Lockstep same log log' lo (d.record k ranges index p size) (d'.place k' index p)
        (index :: known) := by
  obtain ⟨k', hRun', hSame⟩ := logging_follows hx entry _ _ _ _ hLock.heap hRun
  have hIn := (hAccepted.inHeap hInt.2).1
  rw [← toSizeT_of_nonneg hAccepted.size_pos.le hInt.2] at hIn
  refine ⟨k', hRun', hLock.answer ranges (hSame.filled hDet hAnswered hp hIn) ?_ ?_⟩
  · exact (hStart.logging entry _ _ _ hRun).trans hLock.start
  · exact (hStart.logging entry _ _ _ hRun').trans hLock.other

/-- What an accepted request of `eval_mm_valid` asks for, `eval_mm_speed` asks for. -/
theorem Lockstep.step (hLock : Lockstep same log log' lo d d' known) (hDet : Deterministic A same)
    {tracenum i : Nat} {op : TraceOp} (hInt : IsInt op.size)
    (hKnown : op.type = .alloc ∨ op.index ∈ known)
    (hRun : (validOp A.logged tracenum i op).run d = .ok (true, d₁)) :
    ∃ d₂, (speedOp A.logged op).run d' = .ok ((), d₂) ∧
      Lockstep same log log' lo d₁ d₂ (op.index :: known) := by
  obtain ⟨type, index, size⟩ := op
  cases type with
  | alloc =>
    obtain ⟨p, k, hMalloc, hp, hAccepted, rfl⟩ := validOp_alloc.mp hRun
    have hAnswered : Answered A (k.1.1, k.2) p (toSizeT size) :=
      ⟨_, .inl (logging_eq_ok.mp hMalloc).1⟩
    obtain ⟨k', hMalloc', hNext⟩ := hLock.handOut hDet (hDet.malloc _) (hDet.mallocStart _) hInt hp
      hMalloc hAnswered hAccepted d.ranges
    exact ⟨_, speedOp_alloc.mpr ⟨p, k', hMalloc', hp, rfl⟩, hNext⟩
  | realloc =>
    have hMem : index ∈ known := hKnown.resolve_left nofun
    obtain ⟨p, k, hRealloc, hp, hAccepted, -, rfl⟩ := validOp_realloc.mp hRun
    have hAnswered : Answered A (k.1.1, k.2) p (toSizeT size) :=
      ⟨_, .inr ⟨_, (logging_eq_ok.mp hRealloc).1⟩⟩
    obtain ⟨k', hRealloc', hNext⟩ := hLock.handOut hDet (hDet.realloc _ _) (hDet.reallocStart _ _)
      hInt hp hRealloc hAnswered hAccepted (dropRange d.ranges (d.blocks index))
    refine ⟨_, speedOp_realloc.mpr ⟨p, k', ?_, hp, rfl⟩, hNext⟩
    rw [← hLock.blocks index hMem]
    exact hRealloc'
  | free =>
    have hMem : index ∈ known := hKnown.resolve_left nofun
    obtain ⟨k, hFree, rfl⟩ := validOp_free.mp hRun
    obtain ⟨k', hFree', hSame⟩ := logging_follows (hDet.free _) _ _ _ _ _ hLock.heap hFree
    refine ⟨{ d' with heap := k' }, speedOp_free.mpr ⟨k', ?_, rfl⟩, hSame, ?_, ?_, ?_⟩
    · rw [← hLock.blocks index hMem]
      exact hFree'
    · intro i hi
      obtain rfl | hi := List.mem_cons.mp hi
      · exact hLock.blocks i hMem
      · exact hLock.blocks i hi
    · exact ((hDet.freeStart _).logging _ _ _ _ hFree).trans hLock.start
    · exact ((hDet.freeStart _).logging _ _ _ _ hFree').trans hLock.other

theorem Lockstep.run (hLock : Lockstep same log log' lo d d' known) (hDet : Deterministic A same)
    {tracenum i : Nat} {ops : List TraceOp} (hOps : AllocatedFirst known ops)
    (hRun : (validOps A.logged tracenum i ops).run d = .ok (1, d₁)) :
    ∃ d₂ known', (speedOps A.logged ops).run d' = .ok ((), d₂) ∧
      Lockstep same log log' lo d₁ d₂ known' := by
  induction ops generalizing d d' known i with
  | nil =>
    cases hRun
    exact ⟨d', known, rfl, hLock⟩
  | cons op ops ih =>
    obtain ⟨hInt, hKnown, hOps⟩ := hOps
    obtain ⟨b, d₂, hOp, hRest⟩ := Exec.run_bind_eq_ok.mp hRun
    cases b with
    | false => cases hRest
    | true =>
      obtain ⟨d₃, hOp', hNext⟩ := hLock.step hDet hInt hKnown hOp
      obtain ⟨d₄, known', hRest', hEnd⟩ := ih hNext hOps hRest
      exact ⟨d₄, known', (Exec.run_bind_ok hOp').trans hRest', hEnd⟩

theorem speed_of_valid (hDet : Deterministic A same) {tracenum : Nat} {ops : List TraceOp}
    (hOps : AllocatedFirst [] ops)
    (hValid : (evalMmValid A.logged tracenum ops).run d = .ok (1, d₁))
    (hStart : d'.start = d.start) :
    ∃ d₂ known, (evalMmSpeed A.logged ops).run d' = .ok ((), d₂) ∧
      Lockstep same d.calls d'.calls d.start d₁ d₂ known := by
  obtain ⟨r, k, hInit, hr, hRun⟩ := evalMmValid_eq_one.mp hValid
  obtain ⟨hInitA, hLog⟩ := logging_eq_ok.mp hInit
  obtain ⟨⟨s, mem⟩, hInitA', hSame⟩ :=
    hDet.init (d.heap.1.1, d.heap.2) (d'.heap.1.1, d'.heap.2) r (k.1.1, k.2) hStart.symm hInitA
  have hInit' : A.logged.mmInit.run (d'.heap.1, Malloc.memResetBrk d'.heap.2) =
      .ok (r, ((s, d'.calls ++ [.init r]), mem)) := logging_eq_ok.mpr ⟨hInitA', rfl⟩
  have hStartK : k.2.memStartBrk = d.start := (hDet.initStart _ _ _ hInitA :)
  have hStartMem : mem.memStartBrk = d'.start := (hDet.initStart _ _ _ hInitA' :)
  have hLock : Lockstep same d.calls d'.calls d.start { d with heap := k, ranges := [] }
      { d' with heap := ((s, d'.calls ++ [.init r]), mem) } [] := by
    exact ⟨⟨hSame, [.init r], hLog, rfl⟩, by simp, hStartK, hStartMem.trans hStart⟩
  obtain ⟨d₂, known, hRun', hEnd⟩ := hLock.run hDet hOps hRun
  exact ⟨d₂, known, evalMmSpeed_eq_ok.mpr ⟨r, _, hInit', hr, hRun'⟩, hEnd⟩

end Lockstep

/-- After an accepted replay `eval_mm_util` and `eval_mm_speed` complete on the same storage,
whatever the driver holds, and make the calls that `eval_mm_valid` made. -/
theorem replays_same_calls (A : Allocator σ) (same : σ × Memlib → σ × Memlib → Prop)
    (tracenum : Nat) (ops : List TraceOp) (d₀ d₁ : Mdriver (σ × List Call))
    (hDet : Deterministic A same) (hOps : AllocatedFirst [] ops)
    (hValid : (evalMmValid A.logged tracenum ops).run d₀ = .ok (1, d₁)) :
    ∃ calls, d₁.calls = d₀.calls ++ calls ∧ d₁.start = d₀.start ∧
      ∀ d : Mdriver (σ × List Call), d.start = d₀.start →
        (∃ u d', (evalMmUtil A.logged ops).run d = .ok (u, d') ∧
          d'.calls = d.calls ++ calls ∧ d'.start = d₀.start) ∧
        ∃ d', (evalMmSpeed A.logged ops).run d = .ok ((), d') ∧
          d'.calls = d.calls ++ calls ∧ d'.start = d₀.start := by
  obtain ⟨_, _, -, ⟨-, calls, hCalls, -⟩, -, hStart₁, -⟩ := speed_of_valid hDet hOps hValid rfl
  refine ⟨calls, hCalls, hStart₁, ?_⟩
  intro d hStart
  obtain ⟨d₂, _, hSpeed, ⟨-, calls', hCalls', hOther⟩, -, -, hEnd⟩ :=
    speed_of_valid hDet hOps hValid hStart
  obtain rfl : calls' = calls := List.append_cancel_left (hCalls'.symm.trans hCalls)
  obtain ⟨u, d₃, hUtil, hHeap, -⟩ := evalMmUtil_of_speed hSpeed
  refine ⟨⟨u, d₃, hUtil, ?_, ?_⟩, d₂, hSpeed, hOther, hEnd⟩
  · rw [Mdriver.calls, ← hHeap]
    exact hOther
  · rw [Mdriver.start, ← hHeap]
    exact hEnd

/-- An allocator that hands out the break in steps of 8 bytes and reallocates in place. -/
def bump : Allocator Unit where
  mmInit := ⟨fun h => .ok (0, h)⟩
  mmMalloc n := ⟨fun h => .ok ((memSbrk (8 * ((n + 7) / 8) : Nat) h.2).1, (),
    (memSbrk (8 * ((n + 7) / 8) : Nat) h.2).2)⟩
  mmRealloc ptr _ := ⟨fun h => .ok (ptr, h)⟩
  mmFree _ := ⟨fun h => .ok ((), h)⟩

def sameBrk (h h' : Unit × Memlib) : Prop :=
  h.2.memStartBrk = h'.2.memStartBrk ∧ h.2.memBrk = h'.2.memBrk

theorem sameBrk_memSbrk {h h' : Unit × Memlib} (hSame : sameBrk h h') (n : Int) :
    (memSbrk n h.2).1 = (memSbrk n h'.2).1 ∧
      sameBrk ((), (memSbrk n h.2).2) ((), (memSbrk n h'.2).2) := by
  obtain ⟨hStart, hBrk⟩ := hSame
  have hMax : h.2.memMaxAddr = h'.2.memMaxAddr := by
    rw [h.2.max_eq, h'.2.max_eq, hStart]
  by_cases hRefuse : n < 0 ∨ (h.2.memMaxAddr : Int) < h.2.memBrk + n
  · have hRefuse' : n < 0 ∨ (h'.2.memMaxAddr : Int) < h'.2.memBrk + n := by
      rwa [hMax, hBrk] at hRefuse
    rw [memSbrk_refuse hRefuse, memSbrk_refuse hRefuse']
    exact ⟨rfl, hStart, hBrk⟩
  · have hPos : 0 ≤ n := by omega
    have hFits : h.2.memBrk + n ≤ h.2.memMaxAddr := by omega
    have hFits' : h'.2.memBrk + n ≤ h'.2.memMaxAddr := by omega
    refine ⟨?_, ?_, ?_⟩
    · rw [memSbrk_fst hPos hFits, memSbrk_fst hPos hFits', hBrk]
    · rw [memSbrk_start, memSbrk_start, hStart]
    · rw [memSbrk_brk hPos hFits, memSbrk_brk hPos hFits', hBrk]

theorem bump_deterministic : Deterministic bump sameBrk where
  init := by
    rintro h h' r k hStart hInit
    cases hInit
    exact ⟨_, rfl, hStart, hStart⟩
  malloc n := by
    rintro h h' a k hSame hRun
    cases hRun
    obtain ⟨hPtr, hNext⟩ := sameBrk_memSbrk hSame (8 * ((n + 7) / 8) : Nat)
    refine ⟨((), (memSbrk (8 * ((n + 7) / 8) : Nat) h'.2).2), ?_, hNext⟩
    rw [hPtr]
    rfl
  realloc ptr n := by
    rintro h h' a k hSame hRun
    cases hRun
    exact ⟨h', rfl, hSame⟩
  free ptr := by
    rintro h h' a k hSame hRun
    cases hRun
    exact ⟨h', rfl, hSame⟩
  fill := fun _ _ _ _ _ _ _ _ hSame => hSame
  initStart := by
    rintro h a h' hRun
    cases hRun
    rfl
  mallocStart n := by
    rintro h a h' hRun
    cases hRun
    exact memSbrk_start _ _
  reallocStart ptr n := by
    rintro h a h' hRun
    cases hRun
    rfl
  freeStart ptr := by
    rintro h a h' hRun
    cases hRun
    rfl

def bumpDriver : Mdriver (Unit × List Call) where
  heap := (((), []), memInit 4096 (fun _ => 0) page_pos page_max)
  ranges := []
  blocks := fun _ => NULL
  blockSizes := fun _ => 0
  reports := []
  overflowed := false

def bumpTrace : List TraceOp :=
  [⟨.alloc, 0, 16⟩, ⟨.alloc, 1, 5⟩, ⟨.realloc, 0, 8⟩, ⟨.free, 1, 0⟩]

def bumpEnd : Mdriver (Unit × List Call) :=
  match (evalMmValid bump.logged 0 bumpTrace).run bumpDriver with
  | .ok (_, d) => d
  | .error _ => bumpDriver

theorem replays_same_calls_bump : ∃ u d,
    (evalMmUtil bump.logged bumpTrace).run bumpEnd = .ok (u, d) ∧
      d.calls = bumpEnd.calls ++ [.init 0, .malloc 16 4096, .malloc 5 4112, .realloc 4096 8 4096,
        .free 4112] := by
  have hOps : AllocatedFirst [] bumpTrace := by
    simp [bumpTrace, AllocatedFirst, IsInt]
  have hValid : (evalMmValid bump.logged 0 bumpTrace).run bumpDriver = .ok (1, bumpEnd) := rfl
  obtain ⟨calls, hCalls, hStart, hLater⟩ :=
    replays_same_calls bump sameBrk 0 bumpTrace bumpDriver bumpEnd bump_deterministic hOps hValid
  obtain ⟨⟨u, d, hUtil, hSame, -⟩, -⟩ := hLater bumpEnd hStart
  refine ⟨u, d, hUtil, ?_⟩
  rw [hSame]
  exact congrArg (bumpEnd.calls ++ ·) hCalls.symm

end Cs33.Driver
