import Cs33.Driver.ReadTrace
import Cs33.Driver.SameCalls

/-! # The evaluation loop of mdriver.c

`main` replays each trace file with `eval_mm_valid`, and only if that returns
1 with `eval_mm_util` and ten times with `eval_mm_speed`. What it prints at
the end rests on the number of reported errors, not on the verdicts. The
clocks are not modelled, and the score line keeps its average utilization.
-/

namespace Cs33.Driver

open Cs33.Malloc Text

variable {σ : Type}

/-- A trace file, and what `malloc` and the stack hold when it is read. -/
structure TraceFile where
  text : Chars
  header : Header
  sizes : Nat → Int
  size : Nat
  blocks : Int → Nat
  blockSizes : Int → Nat

/-- The fields of a `stats_t` that do not come from a clock. -/
structure Stats where
  ops : Int
  valid : Int
  util : ℚ
  maxHeap : Int
  idealMaxHeap : Int
deriving DecidableEq, Repr

/-- Why the driver ends without a result. -/
inductive MainHalt where
  | read (reason : ReadHalt)
  | replay (reason : Halt)
deriving DecidableEq, Repr

inductive Result where
  | score (avgMmUtil : ℚ)
  | terminated (errors : Nat)
deriving DecidableEq, Repr

structure Summary where
  stats : List Stats
  numcorrect : Nat
  result : Result
deriving DecidableEq, Repr

abbrev E (σ : Type) := Exec (Mdriver σ) MainHalt

def replay {α : Type} (x : D σ α) : E σ α where
  run d := (x.run d).mapError .replay

/-- The `n` calls of `ftimer_gettod`. -/
def ftimerGettod (f : D σ Unit) : Nat → D σ Unit
  | 0 => return ()
  | n + 1 => do
    f
    ftimerGettod f n

def fsecs (f : D σ Unit) : D σ Unit := ftimerGettod f 10

def TraceFile.read (file : TraceFile) : Except ReadHalt Trace :=
  readTrace file.header file.sizes file.size file.text

/-- `read_trace`, with the arrays of the trace it returns. -/
def openTrace (file : TraceFile) : E σ Trace where
  run d :=
    match file.read with
    | .ok trace => .ok (trace, { d with blocks := file.blocks, blockSizes := file.blockSizes })
    | .error e => .error (.read e)

def evalTrace (A : Allocator σ) (tracenum : Nat) (file : TraceFile) : E σ Stats := do
  let trace ← openTrace file
  let ops := trace.header.numOps.toInt
  let valid ← replay (evalMmValid A tracenum trace.ops)
  if valid = 0 then
    return ⟨ops, valid, 0, 0, 0⟩
  else
    let util ← replay (evalMmUtil A trace.ops)
    replay (fsecs (evalMmSpeed A trace.ops))
    return ⟨ops, valid, util.ratio, util.maxHeap, util.idealMaxHeap⟩

def evalTraces (A : Allocator σ) : Nat → List TraceFile → E σ (List Stats)
  | _, [] => return []
  | i, file :: files => do
    let stats ← evalTrace A i file
    let rest ← evalTraces A (i + 1) files
    return stats :: rest

def isCorrect (stats : Stats) : Bool := stats.valid != 0

/-- `errors` counts the calls of `malloc_error`. -/
def main (A : Allocator σ) (files : List TraceFile) : E σ Summary := do
  let stats ← evalTraces A 0 files
  let util := (stats.map Stats.util).sum
  let numcorrect := stats.countP isCorrect
  let errors ← Exec.gets fun d => d.reports.length
  if errors = 0 then
    return ⟨stats, numcorrect, .score (util / files.length)⟩
  else
    return ⟨stats, numcorrect, .terminated errors⟩

/-- The driver when it enters the loop: what `mem_init` and the static data hold. -/
def Mdriver.entry (statics : σ) (mem : Memlib) (blocks blockSizes : Int → Nat) : Mdriver σ where
  heap := (statics, mem)
  ranges := []
  blocks := blocks
  blockSizes := blockSizes
  reports := []
  overflowed := false

/-! ## What a replay leaves alone -/

/-- `R` looks only at the allocator's data, at where the storage begins and at the reports. -/
class Beyond (R : Mdriver σ → Mdriver σ → Prop) : Prop where
  same : ∀ d d', d'.heap.1 = d.heap.1 → d'.start = d.start → d'.reports = d.reports → R d d'

/-- Each call of the allocator moves the driver along `R`. -/
class CallsMove (R : Mdriver σ → Mdriver σ → Prop) (A : Allocator σ) : Prop where
  init : Exec.Moves R (call A.mmInit)
  malloc : ∀ n, Exec.Moves R (call (A.mmMalloc n))
  realloc : ∀ ptr n, Exec.Moves R (call (A.mmRealloc ptr n))
  free : ∀ ptr, Exec.Moves R (call (A.mmFree ptr))

attribute [instance] CallsMove.init CallsMove.malloc CallsMove.realloc CallsMove.free

/-- A program that returns, and leaves alone the allocator's data, the beginning of the storage
and the reports. -/
class Silent {α : Type} (x : D σ α) : Prop where
  runs : ∀ d, ∃ a d', x.run d = .ok (a, d') ∧ d'.heap.1 = d.heap.1 ∧ d'.start = d.start ∧
    d'.reports = d.reports

instance : Silent (memResetBrk : D σ Unit) := ⟨fun _ => ⟨_, _, rfl, rfl, rfl, rfl⟩⟩

instance (p : Nat) (c : UInt8) (n : Nat) : Silent (memset p c n : D σ Unit) :=
  ⟨fun _ => ⟨_, _, rfl, rfl, rfl, rfl⟩⟩

instance : Silent (getMem : D σ Memlib) := ⟨fun _ => ⟨_, _, rfl, rfl, rfl, rfl⟩⟩

instance : Silent (getRanges : D σ (List Range)) := ⟨fun _ => ⟨_, _, rfl, rfl, rfl, rfl⟩⟩

instance (ranges : List Range) : Silent (setRanges ranges : D σ Unit) :=
  ⟨fun _ => ⟨_, _, rfl, rfl, rfl, rfl⟩⟩

instance : Silent (clearRanges : D σ Unit) := ⟨fun _ => ⟨_, _, rfl, rfl, rfl, rfl⟩⟩

instance (lo : Nat) : Silent (removeRange lo : D σ Unit) := ⟨fun _ => ⟨_, _, rfl, rfl, rfl, rfl⟩⟩

instance (index : Int) : Silent (getBlock index : D σ Nat) :=
  ⟨fun _ => ⟨_, _, rfl, rfl, rfl, rfl⟩⟩

instance (index : Int) (p : Nat) : Silent (setBlock index p : D σ Unit) :=
  ⟨fun _ => ⟨_, _, rfl, rfl, rfl, rfl⟩⟩

instance (index : Int) : Silent (getBlockSize index : D σ Nat) :=
  ⟨fun _ => ⟨_, _, rfl, rfl, rfl, rfl⟩⟩

instance (index : Int) (n : Nat) : Silent (setBlockSize index n : D σ Unit) :=
  ⟨fun _ => ⟨_, _, rfl, rfl, rfl, rfl⟩⟩

instance (n : Int) : Silent (intOp n : D σ Int) := by
  constructor
  intro d
  rw [intOp]
  split <;> exact ⟨_, _, rfl, rfl, rfl, rfl⟩

section Moves

variable {R : Mdriver σ → Mdriver σ → Prop} [IsPreorder (Mdriver σ) R] [Beyond R]

instance {α : Type} (x : D σ α) [hx : Silent x] : Exec.Moves R x := by
  constructor
  intro d a d' h
  obtain ⟨b, d₁, hRun, hHeap, hStart, hReports⟩ := hx.runs d
  cases hRun.symm.trans h
  exact Beyond.same d d' hHeap hStart hReports

instance {α : Type} (msg : AppError) : Exec.Moves R (appError msg : D σ α) :=
  inferInstanceAs (Exec.Moves R (Exec.stop _))

variable {A : Allocator σ} [CallsMove R A]

instance (op : TraceOp) (total maxTotal : Int) : Exec.Moves R (utilOp A op total maxTotal) := by
  obtain ⟨type, index, size⟩ := op
  have hCount (n : Int) : Exec.Moves R
      (do let total ← intOp (total + (← intOp n))
          return (total, if maxTotal < total then total else maxTotal) : D σ (Int × Int)) :=
    inferInstance
  cases type <;>
  · rw [utilOp]
    dsimp only
    infer_instance

instance moves_utilOps (ops : List TraceOp) (total maxTotal : Int) :
    Exec.Moves R (utilOps A ops total maxTotal) := by
  induction ops generalizing total maxTotal with
  | nil => exact inferInstanceAs (Exec.Moves R (pure _))
  | cons op ops ih =>
    rw [utilOps]
    infer_instance

instance (ops : List TraceOp) : Exec.Moves R (evalMmUtil A ops) := by
  rw [evalMmUtil]
  infer_instance

instance (op : TraceOp) : Exec.Moves R (speedOp A op) := by
  obtain ⟨type, index, size⟩ := op
  cases type <;>
  · rw [speedOp]
    dsimp only
    infer_instance

instance moves_speedOps (ops : List TraceOp) : Exec.Moves R (speedOps A ops) := by
  induction ops with
  | nil => exact inferInstanceAs (Exec.Moves R (pure ()))
  | cons op ops ih =>
    rw [speedOps]
    infer_instance

instance (ops : List TraceOp) : Exec.Moves R (evalMmSpeed A ops) := by
  rw [evalMmSpeed]
  infer_instance

instance moves_ftimerGettod (f : D σ Unit) [Exec.Moves R f] (n : Nat) :
    Exec.Moves R (ftimerGettod f n) := by
  induction n with
  | zero => exact inferInstanceAs (Exec.Moves R (pure ()))
  | succ n ih =>
    rw [ftimerGettod]
    infer_instance

variable [hReport : ∀ tracenum i error, Exec.Moves R (mallocError tracenum i error : D σ Unit)]

instance (lo : Nat) (size : Int) (tracenum i : Nat) :
    Exec.Moves R (addRange lo size tracenum i : D σ Int) := by
  have hSearch (ranges : List Range) (hi : Nat) : Exec.Moves R
      (match ranges.find? (endIn lo hi) with
      | some p => do
        mallocError tracenum i (.overlaps lo hi p.lo p.hi)
        return 0
      | none => do
        setRanges (⟨lo, hi⟩ :: ranges)
        return 1 : D σ Int) := by
    split <;> infer_instance
  rw [addRange]
  infer_instance

instance (tracenum i : Nat) (op : TraceOp) : Exec.Moves R (validOp A tracenum i op) := by
  obtain ⟨type, index, size⟩ := op
  have hFill (newp : Nat) : Exec.Moves R
      (do memset newp (UInt8.ofNat (lowByte index)) (toSizeT size)
          setBlock index newp
          setBlockSize index (toSizeT size)
          return true : D σ Bool) := inferInstance
  have hCompare (newp : Nat) (oldsize : Nat) : Exec.Moves R
      (do let mem ← getMem
          if differs mem.bytes newp (if size < toInt oldsize then size else toInt oldsize).toNat index
          then do
            mallocError tracenum i .notPreserved
            return false
          else do
            memset newp (UInt8.ofNat (lowByte index)) (toSizeT size)
            setBlock index newp
            setBlockSize index (toSizeT size)
            return true : D σ Bool) := inferInstance
  cases type <;>
  · rw [validOp]
    dsimp only
    infer_instance

instance moves_validOps (tracenum i : Nat) (ops : List TraceOp) :
    Exec.Moves R (validOps A tracenum i ops) := by
  induction ops generalizing i with
  | nil => exact inferInstanceAs (Exec.Moves R (pure 1))
  | cons op ops ih =>
    rw [validOps]
    infer_instance

instance (tracenum : Nat) (ops : List TraceOp) : Exec.Moves R (evalMmValid A tracenum ops) := by
  have hInit : Exec.Moves R
      (do if (← call A.mmInit) < 0 then
            mallocError tracenum 0 .initFailed
            return 0
          else
            validOps A tracenum 0 ops : D σ Int) := inferInstance
  rw [evalMmValid]
  infer_instance

end Moves

/-! ## One report for each rejected trace -/

def SameReports (d d' : Mdriver σ) : Prop := d'.reports = d.reports

instance : IsPreorder (Mdriver σ) SameReports where
  refl _ := rfl
  trans _ _ _ h h' := Eq.trans h' h

instance : Beyond (SameReports (σ := σ)) where
  same _ _ _ _ h := h

instance {α : Type} (x : Exec (σ × Memlib) Stop α) : Exec.Moves SameReports (call x) := by
  constructor
  intro d a d' h
  obtain ⟨_, -, rfl⟩ := call_eq_ok.mp h
  rfl

instance (A : Allocator σ) : CallsMove SameReports A where
  init := inferInstance
  malloc _ := inferInstance
  realloc _ _ := inferInstance
  free _ := inferInstance

/-- The program gives `pass` and reports nothing, or it gives `fail` and has added one report,
which names the trace and a request in `opnums`. -/
def Checks {α : Type} (tracenum : Nat) (opnums : Nat → Prop) (pass fail : α) (x : D σ α) : Prop :=
  ∀ d a d', x.run d = .ok (a, d') →
    a = pass ∧ SameReports d d' ∨
      a = fail ∧ ∃ i error, opnums i ∧ d'.reports = d.reports ++ [⟨tracenum, lineNum i, error⟩]

section Checks

variable {α β : Type} {tracenum i : Nat} {opnums : Nat → Prop} {pass fail : α} {pass' fail' : β}

theorem Checks.pure : Checks (σ := σ) tracenum opnums pass fail (pure pass) := by
  intro d a d' h
  cases h
  exact .inl ⟨rfl, rfl⟩

theorem Checks.report (hi : opnums i) (error : MallocError) :
    Checks (σ := σ) tracenum opnums pass fail (do mallocError tracenum i error; return fail) := by
  intro d a d' h
  cases h
  exact .inr ⟨rfl, i, error, hi, rfl⟩

theorem Checks.stop (e : Halt) : Checks (σ := σ) tracenum opnums pass fail (Exec.stop e) :=
  nofun

theorem Checks.ite {c : Prop} [Decidable c] {x y : D σ α}
    (hx : c → Checks tracenum opnums pass fail x) (hy : ¬ c → Checks tracenum opnums pass fail y) :
    Checks tracenum opnums pass fail (if c then x else y) := by
  split
  · exact hx ‹_›
  · exact hy ‹_›

theorem Checks.after {x : D σ α} [hx : Exec.Moves SameReports x] {f : α → D σ β}
    (hf : ∀ a, Checks tracenum opnums pass' fail' (f a)) :
    Checks tracenum opnums pass' fail' (x >>= f) := by
  intro d b d' h
  obtain ⟨a, d₁, hRun, hRest⟩ := Exec.run_bind_eq_ok.mp h
  have hSame : d₁.reports = d.reports := hx.move hRun
  obtain ⟨hb, hReports⟩ | ⟨hb, j, error, hj, hReports⟩ := hf a d₁ b d' hRest
  · exact .inl ⟨hb, hReports.trans hSame⟩
  · exact .inr ⟨hb, j, error, hj, hReports.trans (congrArg (· ++ _) hSame)⟩

/-- A failed first check is the result. -/
theorem Checks.andThen {x : D σ α} {f : α → D σ β} (hx : Checks tracenum opnums pass fail x)
    (hFail : f fail = Pure.pure fail') (hPass : Checks tracenum opnums pass' fail' (f pass)) :
    Checks tracenum opnums pass' fail' (x >>= f) := by
  intro d b d' h
  obtain ⟨a, d₁, hRun, hRest⟩ := Exec.run_bind_eq_ok.mp h
  obtain ⟨rfl, hSame⟩ | ⟨rfl, j, error, hj, hReports⟩ := hx d a d₁ hRun
  · obtain ⟨hb, hReports⟩ | ⟨hb, j, error, hj, hReports⟩ := hPass d₁ b d' hRest
    · exact .inl ⟨hb, Eq.trans hReports hSame⟩
    · exact .inr ⟨hb, j, error, hj, hReports.trans (congrArg (· ++ _) hSame)⟩
  · rw [hFail] at hRest
    cases hRest
    exact .inr ⟨rfl, j, error, hj, hReports⟩

theorem Checks.mono {more : Nat → Prop} {x : D σ α} (hx : Checks tracenum opnums pass fail x)
    (hMore : ∀ j, opnums j → more j) : Checks tracenum more pass fail x := by
  intro d a d' h
  obtain hPass | ⟨ha, j, error, hj, hReports⟩ := hx d a d' h
  · exact .inl hPass
  · exact .inr ⟨ha, j, error, hMore j hj, hReports⟩

theorem addRange_checks (lo : Nat) (size : Int) :
    Checks (σ := σ) tracenum (i = ·) 1 0 (addRange lo size tracenum i) := by
  rw [addRange]
  refine .ite (fun _ => .stop _) fun _ => .ite (fun _ => .report rfl _) fun _ => .after fun mem => ?_
  refine .ite (fun _ => .report rfl _) fun _ => .after fun ranges => ?_
  split
  · exact .report rfl _
  · exact .after fun _ => .pure

theorem validOp_checks (A : Allocator σ) (op : TraceOp) :
    Checks tracenum (i = ·) true false (validOp A tracenum i op) := by
  obtain ⟨type, index, size⟩ := op
  cases type with
  | alloc =>
    refine .after fun p => .ite (fun _ => .report rfl _) fun _ => ?_
    apply (addRange_checks p size).andThen (if_pos rfl)
    rw [if_neg (by decide)]
    exact .after fun _ => .after fun _ => .after fun _ => .pure
  | realloc =>
    refine .after fun oldp => .after fun newp => .ite (fun _ => .report rfl _) fun _ => ?_
    refine .after fun _ => (addRange_checks newp size).andThen (if_pos rfl) ?_
    rw [if_neg (by decide)]
    refine .after fun oldsize => .after fun mem => .ite (fun _ => .report rfl _) fun _ => ?_
    exact .after fun _ => .after fun _ => .after fun _ => .pure
  | free => exact .after fun p => .after fun _ => .after fun _ => .pure

theorem validOps_checks (A : Allocator σ) (ops : List TraceOp) :
    Checks tracenum (fun j => j < i + ops.length) 1 0 (validOps A tracenum i ops) := by
  induction ops generalizing i with
  | nil => exact .pure
  | cons op ops ih =>
    have hLength : (op :: ops).length = ops.length + 1 := rfl
    have hFirst : Checks tracenum (fun j => j < i + (op :: ops).length) true false
        (validOp A tracenum i op) := (validOp_checks A op).mono (by omega)
    rw [validOps]
    refine hFirst.andThen rfl ?_
    exact (ih (i := i + 1)).mono (by omega)

theorem evalMmValid_checks (A : Allocator σ) (ops : List TraceOp) :
    Checks tracenum (fun j => j = 0 ∨ j < ops.length) 1 0 (evalMmValid A tracenum ops) := by
  rw [evalMmValid]
  refine .after fun _ => .after fun _ => .after fun r => .ite (fun _ => .report (.inl rfl) _) fun _ => ?_
  exact (validOps_checks A ops).mono (by omega)

end Checks

/-! ## Runs of the loop that return -/

section Runs

attribute [local irreducible] TraceFile.read

variable {A : Allocator σ} {tracenum i : Nat} {file : TraceFile} {files before : List TraceFile}
  {d d' : Mdriver σ} {stats : Stats} {statses : List Stats}

theorem replay_eq_ok {α : Type} {x : D σ α} {a : α} :
    (replay x).run d = .ok (a, d') ↔ x.run d = .ok (a, d') := by
  rw [replay]
  dsimp only
  cases hRun : x.run d with
  | error e => simp [Except.mapError]
  | ok r => simp [Except.mapError]

theorem replay_eq_error {α : Type} {x : D σ α} {e : MainHalt} :
    (replay x).run d = .error e ↔ ∃ reason, x.run d = .error reason ∧ e = .replay reason := by
  rw [replay]
  dsimp only
  cases hRun : x.run d with
  | error reason => simp [Except.mapError, eq_comm]
  | ok r => simp [Except.mapError]

def Mdriver.opened (d : Mdriver σ) (file : TraceFile) : Mdriver σ :=
  { d with blocks := file.blocks, blockSizes := file.blockSizes }

theorem openTrace_eq_ok {trace : Trace} :
    (openTrace file).run d = .ok (trace, d') ↔ file.read = .ok trace ∧ d' = d.opened file := by
  rw [openTrace]
  dsimp only
  cases hRead : file.read with
  | error e => simp
  | ok t =>
    constructor
    · intro h
      cases h
      exact ⟨rfl, rfl⟩
    · rintro ⟨h, rfl⟩
      cases h
      rfl

theorem evalTrace_eq_ok : (evalTrace A tracenum file).run d = .ok (stats, d') ↔
    ∃ trace valid d₁, file.read = .ok trace ∧
      (evalMmValid A tracenum trace.ops).run (d.opened file) = .ok (valid, d₁) ∧
      (valid = 0 ∧ stats = ⟨trace.header.numOps.toInt, 0, 0, 0, 0⟩ ∧ d' = d₁ ∨
        valid ≠ 0 ∧ ∃ util d₂, (evalMmUtil A trace.ops).run d₁ = .ok (util, d₂) ∧
          (fsecs (evalMmSpeed A trace.ops)).run d₂ = .ok ((), d') ∧
          stats = ⟨trace.header.numOps.toInt, valid, util.ratio, util.maxHeap, util.idealMaxHeap⟩) := by
  rw [evalTrace]
  constructor
  · intro h
    obtain ⟨trace, d₀, hOpen, h⟩ := Exec.run_bind_eq_ok.mp h
    obtain ⟨hRead, rfl⟩ := openTrace_eq_ok.mp hOpen
    obtain ⟨valid, d₁, hValid, h⟩ := Exec.run_bind_eq_ok.mp h
    refine ⟨trace, valid, d₁, hRead, replay_eq_ok.mp hValid, ?_⟩
    split at h
    · rename_i hZero
      subst hZero
      cases h
      exact .inl ⟨rfl, rfl, rfl⟩
    · rename_i hZero
      obtain ⟨util, d₂, hUtil, h⟩ := Exec.run_bind_eq_ok.mp h
      obtain ⟨u, d₃, hSpeed, h⟩ := Exec.run_bind_eq_ok.mp h
      cases h
      exact .inr ⟨hZero, util, d₂, replay_eq_ok.mp hUtil, replay_eq_ok.mp hSpeed, rfl⟩
  · rintro ⟨trace, valid, d₁, hRead, hValid, hRest⟩
    rw [Exec.run_bind_ok (openTrace_eq_ok.mpr ⟨hRead, rfl⟩),
      Exec.run_bind_ok (replay_eq_ok.mpr hValid)]
    obtain ⟨rfl, rfl, rfl⟩ | ⟨hZero, util, d₂, hUtil, hSpeed, rfl⟩ := hRest
    · rw [if_pos rfl]
      rfl
    · rw [if_neg hZero, Exec.run_bind_ok (replay_eq_ok.mpr hUtil),
        Exec.run_bind_ok (replay_eq_ok.mpr hSpeed)]
      rfl

/-- The report names a trace file and the line of one of its requests, or of the first. -/
def NamesRequest (files : List TraceFile) (r : Report) : Prop :=
  ∃ file trace k, files[r.tracenum]? = some file ∧ file.read = .ok trace ∧ r.line = lineNum k ∧
    (k = 0 ∨ k < trace.ops.length)

theorem evalTrace_reports (files : List TraceFile)
    (hRun : (evalTrace A before.length file).run d = .ok (stats, d')) :
    stats.valid = 1 ∧ d'.reports = d.reports ∨
      stats.valid = 0 ∧ ∃ r, r.tracenum = before.length ∧ NamesRequest (before ++ file :: files) r ∧
        d'.reports = d.reports ++ [r] := by
  obtain ⟨trace, valid, d₁, hRead, hValid, hRest⟩ := evalTrace_eq_ok.mp hRun
  obtain ⟨rfl, hSame⟩ | ⟨rfl, k, error, hk, hReports⟩ := evalMmValid_checks A trace.ops _ _ _ hValid
  · obtain ⟨hZero, -⟩ | ⟨-, util, d₂, hUtil, hSpeed, rfl⟩ := hRest
    · exact absurd hZero (by decide)
    · have hUtilSame : d₂.reports = d₁.reports := Exec.Moves.move (R := SameReports) hUtil
      have hSpeedSame : d'.reports = d₂.reports :=
        (moves_ftimerGettod (R := SameReports) (evalMmSpeed A trace.ops) 10).move hSpeed
      exact .inl ⟨rfl, hSpeedSame.trans (hUtilSame.trans hSame)⟩
  · obtain ⟨-, rfl, rfl⟩ | ⟨hZero, -⟩ := hRest
    · refine .inr ⟨rfl, ⟨before.length, lineNum k, error⟩, rfl, ?_, hReports⟩
      exact ⟨file, trace, k, by simp, hRead, rfl, hk⟩
    · exact absurd rfl hZero

/-- The rejected traces are those with a report, in order, one report for each. -/
theorem evalTraces_reports (before : List TraceFile)
    (hRun : (evalTraces A before.length files).run d = .ok (statses, d')) :
    statses.length = files.length ∧ (∀ s ∈ statses, s.valid = 0 ∨ s.valid = 1) ∧
      ∃ reports, d'.reports = d.reports ++ reports ∧
        reports.map Report.tracenum = statses.findIdxs (fun s => !isCorrect s) before.length ∧
        ∀ r ∈ reports, NamesRequest (before ++ files) r := by
  induction files generalizing before d statses with
  | nil =>
    cases hRun
    exact ⟨rfl, by simp, [], by simp⟩
  | cons file files ih =>
    obtain ⟨s, d₁, hFirst, hRun⟩ := Exec.run_bind_eq_ok.mp hRun
    obtain ⟨rest, d₂, hRest, hRun⟩ := Exec.run_bind_eq_ok.mp hRun
    cases hRun
    have hSplit : before ++ file :: files = (before ++ [file]) ++ files := by simp
    have hNext : (evalTraces A (before ++ [file]).length files).run d₁ = .ok (rest, d') := by
      rw [List.length_append]
      exact hRest
    obtain ⟨hLength, hValid, reports, hReports, hNums, hNames⟩ := ih _ hNext
    rw [List.length_append, List.length_singleton] at hNums
    rw [← hSplit] at hNames
    refine ⟨congrArg (· + 1) hLength, ?_⟩
    obtain ⟨hOne, hSame⟩ | ⟨hZero, r, hr, hName, hAdded⟩ := evalTrace_reports files hFirst
    · refine ⟨List.forall_mem_cons.mpr ⟨.inr hOne, hValid⟩, reports, ?_, ?_, hNames⟩
      · rw [hReports, hSame]
      · rw [List.findIdxs_cons, if_neg (by simp [isCorrect, hOne]), hNums]
    · refine ⟨List.forall_mem_cons.mpr ⟨.inl hZero, hValid⟩, r :: reports, ?_, ?_, ?_⟩
      · rw [hReports, hAdded, List.append_assoc]
        rfl
      · rw [List.findIdxs_cons, if_pos (by simp [isCorrect, hZero]), List.map_cons, hr, hNums]
      · exact List.forall_mem_cons.mpr ⟨hName, hNames⟩

end Runs

/-- A run of the driver that returns has reported each rejected trace once, in order and at the
line of a request, and prints a score exactly if every trace is correct. -/
theorem main_accounts (A : Allocator σ) (files : List TraceFile) (statics : σ) (mem : Memlib)
    (blocks blockSizes : Int → Nat) (s : Summary) (d : Mdriver σ)
    (hRun : (main A files).run (Mdriver.entry statics mem blocks blockSizes) = .ok (s, d)) :
    s.stats.length = files.length ∧ (∀ x ∈ s.stats, x.valid = 0 ∨ x.valid = 1) ∧
      d.reports.map Report.tracenum = s.stats.findIdxs (fun x => !isCorrect x) ∧
      (∀ r ∈ d.reports, NamesRequest files r) ∧
      s.numcorrect + d.reports.length = files.length ∧
      s.result = if s.numcorrect = files.length then
          .score ((s.stats.map Stats.util).sum / files.length)
        else
          .terminated (files.length - s.numcorrect) := by
  obtain ⟨stats, d₁, hStats, hRun⟩ := Exec.run_bind_eq_ok.mp hRun
  obtain ⟨hLength, hValid, reports, hReports, hNums, hNames⟩ := evalTraces_reports [] hStats
  obtain rfl : d₁.reports = reports := hReports
  have hErrors : d₁.reports.length = stats.countP fun x => !isCorrect x := by
    rw [← List.length_map Report.tracenum, hNums, List.length_findIdxs]
  have hCount : stats.countP isCorrect + d₁.reports.length = files.length := by
    have hSplit := List.length_eq_countP_add_countP isCorrect (l := stats)
    simp only [Bool.not_eq_true, Bool.decide_eq_false] at hSplit
    rw [hErrors, ← hLength, hSplit]
  change (if d₁.reports.length = 0 then _ else _ : E σ Summary).run d₁ = .ok (s, d) at hRun
  split at hRun
  · rename_i hNone
    cases hRun
    refine ⟨hLength, hValid, hNums, hNames, hCount, ?_⟩
    have hAll : stats.countP isCorrect = files.length := by omega
    exact (if_pos hAll).symm
  · rename_i hSome
    cases hRun
    refine ⟨hLength, hValid, hNums, hNames, hCount, ?_⟩
    have hNotAll : stats.countP isCorrect ≠ files.length := by omega
    have hErrors : d.reports.length = files.length - stats.countP isCorrect := by omega
    exact (congrArg Result.terminated hErrors).trans (if_neg hNotAll).symm

def traceFile (text : String) : TraceFile where
  text := text.toList
  header := ⟨0, 0, 0, 0⟩
  sizes := fun _ => 0
  size := 0
  blocks := fun _ => NULL
  blockSizes := fun _ => 0

def smallFile : TraceFile := traceFile "9\n1\n2\n1\na 0 8\nf 0\n"

/-- `bump` reallocates the first block over the second one. -/
def clashFile : TraceFile := traceFile "9\n2\n3\n1\na 0 8\na 1 8\nr 0 16\n"

def smallMem : Memlib := memInit 4096 (fun _ => 0) page_pos page_max

theorem main_accounts_small : ∃ s d, (main bump [smallFile, clashFile]).run
    (Mdriver.entry () smallMem (fun _ => NULL) fun _ => 0) = .ok (s, d) ∧
      d.reports.map Report.tracenum = [1] ∧ s.numcorrect + d.reports.length = 2 := by
  have hRun : (main bump [smallFile, clashFile]).run
      (Mdriver.entry () smallMem (fun _ => NULL) fun _ => 0) = .ok (_, _) := rfl
  obtain ⟨-, -, hNums, -, hCount, -⟩ := main_accounts bump [smallFile, clashFile] () smallMem
    (fun _ => NULL) (fun _ => 0) _ _ hRun
  exact ⟨_, _, hRun, hNums, hCount⟩

/-! ## No replay after an accepted one fails -/

def NotApp (e : Halt) : Prop := ∀ msg, e ≠ .appError msg

section Stops

variable {P : Halt → Prop}

instance {α : Type} (x : D σ α) [hx : Silent x] : Exec.Stops P x := by
  constructor
  intro d e h
  obtain ⟨b, d', hRun, -⟩ := hx.runs d
  cases hRun.symm.trans h

instance (tracenum i : Nat) (error : MallocError) :
    Exec.Stops P (mallocError tracenum i error : D σ Unit) :=
  inferInstanceAs (Exec.Stops P (Exec.modify _))

instance {α : Type} (x : Exec (σ × Memlib) Stop α) : Exec.Stops NotApp (call x) := by
  constructor
  intro d e h msg hEq
  rw [call] at h
  dsimp only at h
  cases hRun : x.run d.heap with
  | error reason =>
    rw [hRun] at h
    cases h
    cases hEq
  | ok r =>
    rw [hRun] at h
    cases h

instance (lo : Nat) (size : Int) (tracenum i : Nat) :
    Exec.Stops NotApp (addRange lo size tracenum i : D σ Int) := by
  have hAssertion : Exec.Stops NotApp (Exec.stop .assertion : D σ Int) :=
    Exec.stops_stop nofun
  have hSearch (ranges : List Range) (hi : Nat) : Exec.Stops NotApp
      (match ranges.find? (endIn lo hi) with
      | some p => do
        mallocError tracenum i (.overlaps lo hi p.lo p.hi)
        return 0
      | none => do
        setRanges (⟨lo, hi⟩ :: ranges)
        return 1 : D σ Int) := by
    split <;> infer_instance
  rw [addRange]
  infer_instance

variable (A : Allocator σ)

instance (tracenum i : Nat) (op : TraceOp) : Exec.Stops NotApp (validOp A tracenum i op) := by
  obtain ⟨type, index, size⟩ := op
  have hFill (newp : Nat) : Exec.Stops NotApp
      (do memset newp (UInt8.ofNat (lowByte index)) (toSizeT size)
          setBlock index newp
          setBlockSize index (toSizeT size)
          return true : D σ Bool) := inferInstance
  have hCompare (newp : Nat) (oldsize : Nat) : Exec.Stops NotApp
      (do let mem ← getMem
          if differs mem.bytes newp (if size < toInt oldsize then size else toInt oldsize).toNat index
          then do
            mallocError tracenum i .notPreserved
            return false
          else do
            memset newp (UInt8.ofNat (lowByte index)) (toSizeT size)
            setBlock index newp
            setBlockSize index (toSizeT size)
            return true : D σ Bool) := inferInstance
  cases type <;>
  · rw [validOp]
    dsimp only
    infer_instance

instance stops_validOps (tracenum i : Nat) (ops : List TraceOp) :
    Exec.Stops NotApp (validOps A tracenum i ops) := by
  induction ops generalizing i with
  | nil => exact inferInstanceAs (Exec.Stops NotApp (pure 1))
  | cons op ops ih =>
    rw [validOps]
    infer_instance

instance (tracenum : Nat) (ops : List TraceOp) : Exec.Stops NotApp (evalMmValid A tracenum ops) := by
  rw [evalMmValid]
  infer_instance

end Stops

section Repeats

variable {A : Allocator σ} {same : σ × Memlib → σ × Memlib → Prop}

/-- The log grows, and the storage begins where it did. -/
def LogGrows (d d' : Mdriver (σ × List Call)) : Prop := d.calls <+: d'.calls ∧ d'.start = d.start

instance : IsPreorder (Mdriver (σ × List Call)) LogGrows where
  refl _ := ⟨List.prefix_rfl, rfl⟩
  trans _ _ _ h h' := ⟨h.1.trans h'.1, h'.2.trans h.2⟩

instance : Beyond (LogGrows (σ := σ)) where
  same d d' hHeap hStart _ := ⟨by rw [Mdriver.calls, Mdriver.calls, hHeap], hStart⟩

instance (tracenum i : Nat) (error : MallocError) :
    Exec.Moves LogGrows (mallocError tracenum i error : D (σ × List Call) Unit) := by
  constructor
  intro d a d' h
  cases h
  exact ⟨List.prefix_rfl, rfl⟩

theorem grows_logging {α : Type} {x : Exec (σ × Memlib) Stop α} (hx : StartKept x)
    (entry : α → Call) : Exec.Moves LogGrows (call (logging x entry)) := by
  constructor
  intro d a d' h
  obtain ⟨k, hRun, rfl⟩ := call_eq_ok.mp h
  obtain ⟨hCall, hLog⟩ := logging_eq_ok.mp hRun
  exact ⟨⟨[entry a], hLog.symm⟩, (hx _ _ _ hCall :)⟩

theorem Deterministic.grows (hDet : Deterministic A same) : CallsMove LogGrows A.logged where
  init := grows_logging hDet.initStart _
  malloc n := grows_logging (hDet.mallocStart n) _
  realloc ptr n := grows_logging (hDet.reallocStart ptr n) _
  free ptr := grows_logging (hDet.freeStart ptr) _

/-- From any state of the driver over the same storage the program returns after these calls. -/
def Asks {α : Type} (start : Nat) (calls : List Call) (x : D (σ × List Call) α) : Prop :=
  ∀ d : Mdriver (σ × List Call), d.start = start →
    ∃ a d', x.run d = .ok (a, d') ∧ d'.calls = d.calls ++ calls ∧ d'.start = start

theorem Asks.ftimerGettod {start : Nat} {calls : List Call} {f : D (σ × List Call) Unit}
    (h : Asks start calls f) (n : Nat) :
    Asks start (List.replicate n calls).flatten (ftimerGettod f n) := by
  induction n with
  | zero =>
    intro d hStart
    exact ⟨(), d, rfl, (List.append_nil _).symm, hStart⟩
  | succ n ih =>
    intro d hStart
    obtain ⟨_, d₁, hFirst, hCalls, hStart₁⟩ := h d hStart
    obtain ⟨_, d₂, hRest, hCalls', hStart₂⟩ := ih d₁ hStart₁
    refine ⟨(), d₂, (Exec.run_bind_ok hFirst).trans hRest, ?_, hStart₂⟩
    rw [hCalls', hCalls, List.append_assoc, List.replicate_succ, List.flatten_cons]

/-- What an accepted replay asks for, the other two ask for. -/
theorem asks_of_valid (hDet : Deterministic A same) {tracenum : Nat} {ops : List TraceOp}
    {d d' : Mdriver (σ × List Call)} (hOps : AllocatedFirst [] ops)
    (hValid : (evalMmValid A.logged tracenum ops).run d = .ok (1, d')) :
    ∃ calls, d'.calls = d.calls ++ calls ∧ d'.start = d.start ∧
      Asks d.start calls (evalMmUtil A.logged ops) ∧
      Asks d.start calls (evalMmSpeed A.logged ops) := by
  obtain ⟨_, _, -, ⟨-, calls, hCalls, -⟩, -, hStart, -⟩ := speed_of_valid hDet hOps hValid rfl
  have hSpeed : Asks d.start calls (evalMmSpeed A.logged ops) := by
    intro d₀ hStart₀
    obtain ⟨d₁, _, hRun, ⟨-, calls', hCalls', hOther⟩, -, -, hEnd⟩ :=
      speed_of_valid hDet hOps hValid hStart₀
    obtain rfl : calls' = calls := List.append_cancel_left (hCalls'.symm.trans hCalls)
    exact ⟨(), d₁, hRun, hOther, hEnd⟩
  refine ⟨calls, hCalls, hStart, ?_, hSpeed⟩
  intro d₀ hStart₀
  obtain ⟨_, d₁, hRun, hOther, hEnd⟩ := hSpeed d₀ hStart₀
  obtain ⟨u, d₂, hUtil, hHeap, -⟩ := evalMmUtil_of_speed hRun
  rw [Mdriver.calls, hHeap] at hOther
  rw [Mdriver.start, hHeap] at hEnd
  exact ⟨u, d₂, hUtil, hOther, hEnd⟩

/-- How often the replays of a trace put its calls. -/
def replays (stats : Stats) : Nat := if isCorrect stats then 12 else 1

/-- Every reallocation and free in the file names an id that was allocated before it. -/
def TraceFile.AllocatesFirst (file : TraceFile) : Prop :=
  ∀ trace, file.read = .ok trace → AllocatedFirst [] trace.ops

/-- Validating the trace of the file from this state of the driver puts these calls. -/
def Validates (A : Allocator σ) (i : Nat) (file : TraceFile) (d : Mdriver (σ × List Call))
    (calls : List Call) : Prop :=
  ∃ trace valid d', file.read = .ok trace ∧
    (evalMmValid A.logged i trace.ops).run (d.opened file) = .ok (valid, d') ∧
      d'.calls = d.calls ++ calls

theorem Validates.unique {A : Allocator σ} {i : Nat} {file : TraceFile}
    {d : Mdriver (σ × List Call)} {calls calls' : List Call} (h : Validates A i file d calls)
    (h' : Validates A i file d calls') : calls = calls' := by
  obtain ⟨trace, valid, e, hRead, hRun, hCalls⟩ := h
  obtain ⟨trace', valid', e', hRead', hRun', hCalls'⟩ := h'
  cases hRead.symm.trans hRead'
  cases hRun.symm.trans hRun'
  exact List.append_cancel_left (hCalls.symm.trans hCalls')

/-- The files are evaluated one after the other, and each evaluation puts the calls of its own
validation as often as its verdict says. -/
inductive Replayed (A : Allocator σ) : Nat → Mdriver (σ × List Call) → List TraceFile → List Stats →
    List (List Call) → Mdriver (σ × List Call) → Prop
  | done (i : Nat) (d : Mdriver (σ × List Call)) : Replayed A i d [] [] [] d
  | next {i : Nat} {d d₁ d' : Mdriver (σ × List Call)} {file : TraceFile} {files : List TraceFile}
      {stats : Stats} {statses : List Stats} {calls : List Call} {rest : List (List Call)} :
      (evalTrace A.logged i file).run d = .ok (stats, d₁) → Validates A i file d calls →
      d₁.calls = d.calls ++ (List.replicate (replays stats) calls).flatten →
      Replayed A (i + 1) d₁ files statses rest d' →
      Replayed A i d (file :: files) (stats :: statses) (calls :: rest) d'

theorem Replayed.calls_eq {A : Allocator σ} {i : Nat} {d d' : Mdriver (σ × List Call)}
    {files : List TraceFile} {statses : List Stats} {calls : List (List Call)}
    (h : Replayed A i d files statses calls d') : d'.calls = d.calls ++
      (List.zipWith (fun s c => (List.replicate (replays s) c).flatten) statses calls).flatten := by
  induction h with
  | done i d => exact (List.append_nil _).symm
  | next _ _ hCalls _ ih => rw [ih, hCalls, List.append_assoc, List.zipWith_cons_cons, List.flatten_cons]

section Files

attribute [local irreducible] TraceFile.read

variable {i : Nat} {file : TraceFile} {files : List TraceFile} {stats : Stats}
  {statses : List Stats} {d d' : Mdriver (σ × List Call)}

theorem evalTrace_calls (hDet : Deterministic A same) (hFile : file.AllocatesFirst)
    (hRun : (evalTrace A.logged i file).run d = .ok (stats, d')) :
    ∃ calls, Validates A i file d calls ∧
      d'.calls = d.calls ++ (List.replicate (replays stats) calls).flatten := by
  obtain ⟨trace, valid, d₁, hRead, hValid, hRest⟩ := evalTrace_eq_ok.mp hRun
  obtain ⟨rfl, -⟩ | ⟨rfl, -⟩ := evalMmValid_checks A.logged trace.ops _ _ _ hValid
  · obtain ⟨hZero, -⟩ | ⟨-, util, d₂, hUtil, hSpeed, rfl⟩ := hRest
    · exact absurd hZero (by decide)
    · obtain ⟨calls, hCalls, hStart, hAsksUtil, hAsksSpeed⟩ :=
        asks_of_valid hDet (hFile trace hRead) hValid
      obtain ⟨_, _, hUtil', hCalls₂, hStart₂⟩ := hAsksUtil d₁ hStart
      cases hUtil.symm.trans hUtil'
      obtain ⟨_, _, hSpeed', hCalls₃, hStart₃⟩ := hAsksSpeed.ftimerGettod 10 d₂ hStart₂
      cases hSpeed.symm.trans hSpeed'
      refine ⟨calls, ⟨trace, 1, d₁, hRead, hValid, hCalls⟩, ?_⟩
      rw [hCalls₃, hCalls₂, hCalls, List.append_assoc, List.append_assoc]
      rfl
  · obtain ⟨-, rfl, rfl⟩ | ⟨hZero, -⟩ := hRest
    · have hGrows : LogGrows (d.opened file) d' :=
        haveI := hDet.grows
        Exec.Moves.move hValid
      obtain ⟨⟨calls, hCalls⟩, -⟩ := hGrows
      refine ⟨calls, ⟨trace, 0, _, hRead, hValid, hCalls.symm⟩, ?_⟩
      exact hCalls.symm.trans (congrArg (d.calls ++ ·) (List.append_nil calls).symm)
    · exact absurd rfl hZero

/-- The loop does not end in `app_error`. -/
def NotAppMain (e : MainHalt) : Prop := ∀ msg, e ≠ .replay (.appError msg)

theorem evalTrace_stops (hDet : Deterministic A same) (hFile : file.AllocatesFirst) :
    Exec.Stops NotAppMain (evalTrace A.logged i file) := by
  constructor
  intro d e hRun msg hApp
  rw [evalTrace] at hRun
  cases hRead : file.read with
  | error reason =>
    have hOpen : (openTrace file).run d = .error (.read reason) := by
      rw [openTrace]
      dsimp only
      rw [hRead]
    rw [Exec.run_bind_error hOpen] at hRun
    cases hRun
    cases hApp
  | ok trace =>
    rw [Exec.run_bind_ok (openTrace_eq_ok.mpr ⟨hRead, rfl⟩)] at hRun
    cases hValid : (evalMmValid A.logged i trace.ops).run (d.opened file) with
    | error reason =>
      rw [Exec.run_bind_error (replay_eq_error.mpr ⟨reason, hValid, rfl⟩)] at hRun
      cases hRun
      cases hApp
      exact Exec.Stops.reason (P := NotApp) hValid msg rfl
    | ok r =>
      obtain ⟨valid, d₁⟩ := r
      rw [Exec.run_bind_ok (replay_eq_ok.mpr hValid)] at hRun
      split at hRun
      · cases hRun
      · rename_i hZero
        obtain ⟨rfl, -⟩ | ⟨rfl, -⟩ := evalMmValid_checks A.logged trace.ops _ _ _ hValid
        · obtain ⟨calls, -, hStart, hAsksUtil, hAsksSpeed⟩ :=
            asks_of_valid hDet (hFile trace hRead) hValid
          obtain ⟨_, d₂, hUtil, -, hStart₂⟩ := hAsksUtil d₁ hStart
          obtain ⟨_, d₃, hSpeed, -⟩ := hAsksSpeed.ftimerGettod 10 d₂ hStart₂
          have hSecs : (fsecs (evalMmSpeed A.logged trace.ops)).run d₂ = .ok (_, d₃) := hSpeed
          rw [Exec.run_bind_ok (replay_eq_ok.mpr hUtil),
            Exec.run_bind_ok (replay_eq_ok.mpr hSecs)] at hRun
          cases hRun
        · exact hZero rfl

theorem evalTraces_calls (hDet : Deterministic A same) (hFiles : ∀ file ∈ files, file.AllocatesFirst)
    (hRun : (evalTraces A.logged i files).run d = .ok (statses, d')) :
    ∃ calls, Replayed A i d files statses calls d' := by
  induction files generalizing i d statses with
  | nil =>
    cases hRun
    exact ⟨[], .done i d'⟩
  | cons file files ih =>
    obtain ⟨hFile, hFiles⟩ := List.forall_mem_cons.mp hFiles
    obtain ⟨s, d₁, hFirst, hRun⟩ := Exec.run_bind_eq_ok.mp hRun
    obtain ⟨rest, d₂, hRest, hRun⟩ := Exec.run_bind_eq_ok.mp hRun
    cases hRun
    obtain ⟨calls, hValid, hCalls⟩ := evalTrace_calls hDet hFile hFirst
    obtain ⟨more, hMore⟩ := ih hFiles hRest
    exact ⟨calls :: more, .next hFirst hValid hCalls hMore⟩

theorem evalTraces_stops (hDet : Deterministic A same)
    (hFiles : ∀ file ∈ files, file.AllocatesFirst) :
    Exec.Stops NotAppMain (evalTraces A.logged i files) := by
  induction files generalizing i with
  | nil => exact inferInstanceAs (Exec.Stops _ (pure []))
  | cons file files ih =>
    obtain ⟨hFile, hFiles⟩ := List.forall_mem_cons.mp hFiles
    have := evalTrace_stops hDet hFile (i := i)
    have := ih hFiles (i := i + 1)
    rw [evalTraces]
    infer_instance

end Files

end Repeats

/-- With an allocator whose answers do not depend on payload bytes, no run of the driver ends in
`app_error`. In one that returns the log is made of the calls that validating each trace puts from
the state its turn finds, twelve times for a correct trace and once for a rejected one. -/
theorem main_replays (A : Allocator σ) (same : σ × Memlib → σ × Memlib → Prop)
    (files : List TraceFile) (statics : σ) (mem : Memlib) (blocks blockSizes : Int → Nat)
    (hDet : Deterministic A same) (hFiles : ∀ file ∈ files, file.AllocatesFirst) :
    let start := Mdriver.entry (statics, []) mem blocks blockSizes
    (∀ msg, (main A.logged files).run start ≠ .error (.replay (.appError msg))) ∧
      ∀ s d, (main A.logged files).run start = .ok (s, d) →
        ∃ calls : List (List Call), Replayed A 0 start files s.stats calls d ∧
          d.calls = (List.zipWith (fun stats c => (List.replicate (replays stats) c).flatten)
            s.stats calls).flatten := by
  constructor
  · intro msg hRun
    have := evalTraces_stops hDet hFiles (i := 0)
    have hStops : Exec.Stops NotAppMain (main A.logged files) := by
      rw [main]
      infer_instance
    exact hStops.reason hRun msg rfl
  · intro s d hRun
    obtain ⟨stats, d₁, hStats, hRun⟩ := Exec.run_bind_eq_ok.mp hRun
    obtain ⟨calls, hReplayed⟩ := evalTraces_calls hDet hFiles hStats
    have hCalls := hReplayed.calls_eq
    change (if d₁.reports.length = 0 then _ else _ : E (σ × List Call) Summary).run d₁ =
      .ok (s, d) at hRun
    split at hRun <;>
    · cases hRun
      exact ⟨calls, hReplayed, hCalls⟩

theorem allocatesFirst_small : ∀ file ∈ [smallFile, clashFile], file.AllocatesFirst := by
  have hSmall : smallFile.read = .ok ⟨⟨9, 1, 2, 1⟩, [⟨.alloc, 0, 8⟩, ⟨.free, 0, 0⟩]⟩ := by decide
  have hClash : clashFile.read =
      .ok ⟨⟨9, 2, 3, 1⟩, [⟨.alloc, 0, 8⟩, ⟨.alloc, 1, 8⟩, ⟨.realloc, 0, 16⟩]⟩ := by decide
  simp only [List.forall_mem_cons]
  refine ⟨?_, ?_, by simp⟩
  · intro trace hRead
    cases hSmall.symm.trans hRead
    simp [AllocatedFirst, IsInt]
  · intro trace hRead
    cases hClash.symm.trans hRead
    simp [AllocatedFirst, IsInt]

/-- The trace that is correct is asked for twelve times, and the one after it once. -/
theorem main_replays_small : ∃ s d calls, (main bump.logged [smallFile, clashFile]).run
    (Mdriver.entry ((), []) smallMem (fun _ => NULL) fun _ => 0) = .ok (s, d) ∧
      Replayed bump 0 (Mdriver.entry ((), []) smallMem (fun _ => NULL) fun _ => 0)
        [smallFile, clashFile] s.stats calls d ∧
      calls = [[.init 0, .malloc 8 4096, .free 4096],
        [.init 0, .malloc 8 4096, .malloc 8 4104, .realloc 4096 16 4096]] := by
  have hRun : (main bump.logged [smallFile, clashFile]).run
      (Mdriver.entry ((), []) smallMem (fun _ => NULL) fun _ => 0) = .ok (_, _) := rfl
  obtain ⟨calls, hReplayed, hCalls⟩ := (main_replays bump sameBrk [smallFile, clashFile] () smallMem
    (fun _ => NULL) (fun _ => 0) bump_deterministic allocatesFirst_small).2 _ _ hRun
  refine ⟨_, _, calls, hRun, hReplayed, ?_⟩
  obtain _ | ⟨hFirst, hValid, -, hRest⟩ := hReplayed
  obtain _ | ⟨-, hValid', -, hRest⟩ := hRest
  obtain _ | _ := hRest
  have hAfter : (evalTrace bump.logged 0 smallFile).run
    (Mdriver.entry ((), []) smallMem (fun _ => NULL) fun _ => 0) = .ok (_, _) := rfl
  cases hAfter.symm.trans hFirst
  have hSmall : _ = [Call.init 0, .malloc 8 4096, .free 4096] :=
    hValid.unique ⟨_, _, _, rfl, rfl, rfl⟩
  have hClash : _ = [Call.init 0, .malloc 8 4096, .malloc 8 4104, .realloc 4096 16 4096] :=
    hValid'.unique ⟨_, _, _, rfl, rfl, rfl⟩
  rw [hSmall, hClash]

end Cs33.Driver
