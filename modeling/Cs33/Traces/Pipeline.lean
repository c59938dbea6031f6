import Mathlib.Data.List.Permutation
import Cs33.Driver.Completeness
import Cs33.Lib.GuardedRun
import Cs33.Traces.ReadBack

/-! # From checktrace.pl to the driver

checktrace.pl tells ids apart by their digits and `read_trace` by their values.
On ids without leading zeros the two agree, so the checker accepts a file exactly
if the trace that the driver reads from it is proper, and what the checker prints
reads back as a proper trace that leaves nothing live.
-/

namespace Cs33.Traces

open Text GuardedRun

/-- The entry for a request whose id is written without leading zeros and whose size is at
least 1. -/
inductive Replays : Request → Driver.TraceOp → Prop where
  | alloc {i n : Nat} {size : Chars} (hId : i < 2 ^ 31) (hSize : intNumeral size = some n)
      (hPos : 0 < n) : Replays (.alloc (decimal i) size) ⟨.alloc, i, n⟩
  | realloc {i n : Nat} {size : Chars} (hId : i < 2 ^ 31) (hSize : intNumeral size = some n)
      (hPos : 0 < n) : Replays (.realloc (decimal i) size) ⟨.realloc, i, n⟩
  | free {i : Nat} (hId : i < 2 ^ 31) (size : Int) : Replays (.free (decimal i)) ⟨.free, i, size⟩

def Plain (q : Request) : Prop := ∃ op, Replays q op

/-! ## Entries -/

section Entries

variable {q : Request} {r : Driver.Request} {rs : List Request} {reqs : List Driver.Request}

theorem decimal_inj {i j : Nat} : decimal i = decimal j ↔ i = j := by
  constructor
  · intro h
    have hValue := integerValue_decimal i
    rw [h, integerValue_decimal j] at hValue
    exact (Int.ofNat_inj.mp (Option.some.inj hValue)).symm
  · rintro rfl
    rfl

theorem toInt_small {n : Nat} (h : n < 2 ^ 31) : Driver.toInt n = n := by
  unfold Driver.toInt Malloc.uint32ToInt Malloc.toUint32
  rw [Nat.mod_eq_of_lt (by omega), if_pos (by omega)]

theorem intNumeral_lt {word : Chars} {n : Nat} (h : intNumeral word = some n) : n < 2 ^ 31 :=
  (intNumeral_eq_some.mp h).2.2.1

theorem Replays.numeric {op : Driver.TraceOp} (h : Replays q op) : Numeric q := by
  cases h with
  | @alloc i n size hId hSize _ => exact ⟨⟨.alloc, i, n⟩, .alloc (intNumeral_decimal hId) hSize⟩
  | @realloc i n size hId hSize _ => exact ⟨⟨.realloc, i, n⟩, .realloc (intNumeral_decimal hId) hSize⟩
  | @free i hId _ => exact ⟨⟨.free, i, 0⟩, .free (intNumeral_decimal hId) 0⟩

theorem Names.replays (h : Names q r) (hPlain : Plain q) (junk : Int) :
    Replays q ⟨r.type, Driver.toInt r.index, if r.type = .free then junk else Driver.toInt r.size⟩ := by
  obtain ⟨op, hPlain⟩ := hPlain
  cases hPlain with
  | @alloc i n size hId hSize hPos =>
    cases h with
    | @alloc _ _ i' n' hId' hSize' =>
      obtain rfl : i = i' := Option.some.inj ((intNumeral_decimal hId).symm.trans hId')
      obtain rfl : n = n' := Option.some.inj (hSize.symm.trans hSize')
      change Replays _ ⟨.alloc, Driver.toInt i, Driver.toInt n⟩
      rw [toInt_small hId, toInt_small (intNumeral_lt hSize)]
      exact .alloc hId hSize hPos
  | @realloc i n size hId hSize hPos =>
    cases h with
    | @realloc _ _ i' n' hId' hSize' =>
      obtain rfl : i = i' := Option.some.inj ((intNumeral_decimal hId).symm.trans hId')
      obtain rfl : n = n' := Option.some.inj (hSize.symm.trans hSize')
      change Replays _ ⟨.realloc, Driver.toInt i, Driver.toInt n⟩
      rw [toInt_small hId, toInt_small (intNumeral_lt hSize)]
      exact .realloc hId hSize hPos
  | @free i hId _ =>
    cases h with
    | @free _ i' hId' _ =>
      obtain rfl : i = i' := Option.some.inj ((intNumeral_decimal hId).symm.trans hId')
      change Replays _ ⟨.free, Driver.toInt i, junk⟩
      rw [toInt_small hId]
      exact .free hId junk

theorem replays_entries (h : List.Forall₂ Names rs reqs) (hPlain : ∀ q ∈ rs, Plain q)
    (junk : Nat → Int) (opIndex : Nat) :
    List.Forall₂ Replays rs (Driver.entries junk opIndex reqs) := by
  induction h generalizing opIndex with
  | nil => exact .nil
  | @cons q r rs reqs hFirst _ ih =>
    obtain ⟨hHead, hTail⟩ := List.forall_mem_cons.mp hPlain
    exact .cons (hFirst.replays hHead (junk opIndex)) (ih hTail (opIndex + 1))

end Entries

/-! ## The two disciplines -/

section Discipline

variable {before rs : List Request} {live : List (Int × Int)} {ops : List Driver.TraceOp}
  {q : Request} {op : Driver.TraceOp}

theorem foldl_concat (before rs : List Request) :
    rs.foldl (fun before q => before ++ [q]) before = before ++ rs := by
  induction rs generalizing before with
  | nil => exact (List.append_nil before).symm
  | cons q rs ih => rw [List.foldl_cons, ih, List.append_assoc, List.singleton_append]

theorem disciplined_iff_permits :
    Disciplined rs ↔ Permits Allowed (fun before q => before ++ [q]) [] rs := by
  refine forall₂_congr fun before q => forall₂_congr fun after _ => ?_
  rw [foldl_concat, List.nil_append]

theorem proper_iff_permits : Driver.Proper ops ↔ Permits Driver.Allowed Driver.liveAfter [] ops := by
  constructor
  · intro h before op after hSplit
    refine h before op ⟨after, ?_⟩
    rw [hSplit, List.append_assoc, List.singleton_append]
  · rintro h before op ⟨after, hSplit⟩
    apply h before op after
    rw [← hSplit, List.append_assoc, List.singleton_append]

/-- The live ids of the two readers. -/
structure SameLive (before : List Request) (live : List (Int × Int)) : Prop where
  same : ∀ i : Nat, Live before (decimal i) ↔ (i : Int) ∈ live.map Prod.fst
  nodup : (live.map Prod.fst).Nodup
  named : ∀ j ∈ live.map Prod.fst, ∃ i : Nat, j = i

theorem mem_fst_eraseP (h : (live.map Prod.fst).Nodup) {i j : Int} :
    j ∈ (live.eraseP fun x => x.1 == i).map Prod.fst ↔ j ∈ live.map Prod.fst ∧ j ≠ i := by
  simp only [List.mem_map, Driver.mem_eraseP_key h]
  constructor
  · rintro ⟨x, ⟨hx, hne⟩, rfl⟩
    exact ⟨⟨x, hx, rfl⟩, hne⟩
  · rintro ⟨⟨x, hx, rfl⟩, hne⟩
    exact ⟨x, ⟨hx, hne⟩, rfl⟩

theorem nodup_fst_eraseP (h : (live.map Prod.fst).Nodup) (p : Int × Int → Bool) :
    ((live.eraseP p).map Prod.fst).Nodup :=
  h.sublist (List.eraseP_sublist.map _)

theorem SameLive.guard (h : SameLive before live) (hReplays : Replays q op) :
    Allowed before q ↔ Driver.Allowed live op := by
  cases hReplays with
  | @alloc i n size _ hSize hPos =>
    have hInt : Driver.PosInt n := ⟨Int.natCast_pos.mpr hPos, by
      have hLt := intNumeral_lt hSize
      omega⟩
    exact (not_congr (h.same i)).trans (and_iff_right hInt).symm
  | @realloc i n size _ hSize hPos =>
    have hInt : Driver.PosInt n := ⟨Int.natCast_pos.mpr hPos, by
      have hLt := intNumeral_lt hSize
      omega⟩
    exact (h.same i).trans (and_iff_right hInt).symm
  | @free i _ _ => exact h.same i

theorem SameLive.next (h : SameLive before live) (hReplays : Replays q op)
    (hAllowed : Allowed before q) : SameLive (before ++ [q]) (Driver.liveAfter live op) := by
  have hGuard := (h.guard hReplays).mp hAllowed
  cases hReplays with
  | @alloc i n size _ _ _ =>
    refine ⟨fun j => ?_, .cons hGuard.2 h.nodup, List.forall_mem_cons.mpr ⟨⟨i, rfl⟩, h.named⟩⟩
    have hSame := h.same j
    simp [live_append_one, Request.allocated, decimal_inj, Driver.liveAfter, hSame, eq_comm]
  | @realloc i _ _ _ _ _ =>
    have hMem : (i : Int) ∈ live.map Prod.fst := hGuard.2
    have hFresh : (i : Int) ∉ (live.eraseP fun x => x.1 == (i : Int)).map Prod.fst := fun hIn =>
      ((mem_fst_eraseP h.nodup).mp hIn).2 rfl
    refine ⟨fun j => ?_, .cons hFresh (nodup_fst_eraseP h.nodup _),
      List.forall_mem_cons.mpr ⟨⟨i, rfl⟩, fun j hj => h.named j ((mem_fst_eraseP h.nodup).mp hj).1⟩⟩
    rw [live_append_one, h.same j]
    change _ ↔ (j : Int) ∈ (i : Int) :: (live.eraseP fun x => x.1 == (i : Int)).map Prod.fst
    rw [List.mem_cons, mem_fst_eraseP h.nodup]
    by_cases hEq : (j : Int) = i
    · simp [Request.allocated, hEq, hMem]
    · simp [Request.allocated, hEq]
  | free _ _ =>
    refine ⟨fun j => ?_, nodup_fst_eraseP h.nodup _, fun j hj => h.named j ((mem_fst_eraseP h.nodup).mp hj).1⟩
    rw [live_append_one, h.same j]
    rw [Driver.liveAfter, mem_fst_eraseP h.nodup]
    simp [Request.allocated, decimal_inj, eq_comm]

theorem sameLive_nil : SameLive [] [] where
  same _ := iff_of_false not_live_nil List.not_mem_nil
  nodup := List.nodup_nil
  named := nofun

/-- The two disciplines agree, and so do the ids that are live at the end. -/
theorem disciplined_iff_proper (h : List.Forall₂ Replays rs ops) :
    (Disciplined rs ↔ Driver.Proper ops) ∧ (Disciplined rs → SameLive rs (Driver.liveOf ops)) := by
  have hRun := permits_iff (R := SameLive) (S := Replays) (fun _ _ _ _ hLive => hLive.guard)
    (fun _ _ _ _ hLive => hLive.next) sameLive_nil h
  rw [disciplined_iff_permits, proper_iff_permits]
  refine ⟨hRun.1, fun hPermits => ?_⟩
  have hLive := hRun.2 hPermits
  rwa [foldl_concat, List.nil_append] at hLive

end Discipline

/-! ## The checker and the driver -/

section Checker

variable {file : Chars} {c : Counts} {rs : List Request} {t : Driver.Trace}

/-- A trace that the driver reads has the checker's requests, and its header counts them. -/
theorem Written.read (fresh : Driver.Header) (junk : Nat → Int) (size : Nat)
    (h : Written (lines file) c rs) (hPlain : ∀ q ∈ rs, Plain q)
    (hRead : Driver.readTrace fresh junk size file = .ok t) :
    ∃ reqs, List.Forall₂ Names rs reqs ∧ List.Forall₂ Replays rs t.ops ∧ t.header = c.header ∧
      Driver.largest 0 reqs + 1 = c.numIds ∧ rs.length = c.numOps := by
  obtain ⟨reqs, hNames, hResult⟩ := readTrace_of_written fresh junk size h
  rw [hRead] at hResult
  split at hResult
  · cases hResult
  · split at hResult
    · cases hResult
      rename_i hChecks
      exact ⟨reqs, hNames, replays_entries hNames hPlain junk 0, rfl, hChecks⟩
    · cases hResult

theorem allocated_named {id : Chars} (hPlain : ∀ q ∈ rs, Plain q)
    (hId : id ∈ rs.filterMap Request.allocated) : ∃ i : Nat, i < 2 ^ 31 ∧ id = decimal i := by
  obtain ⟨q, hq, hId⟩ := List.mem_filterMap.mp hId
  obtain ⟨size, rfl⟩ := allocated_eq_some.mp hId
  obtain ⟨op, hReplays⟩ := hPlain _ hq
  cases hReplays with
  | @alloc i _ _ hLt _ _ => exact ⟨i, hLt, rfl⟩

/-- No id is live for the checker if none is for the driver. -/
theorem SameLive.empty_iff {live : List (Int × Int)} (h : SameLive rs live)
    (hPlain : ∀ q ∈ rs, Plain q) : live = [] ↔ ∀ id, ¬ Live rs id := by
  constructor
  · rintro rfl id hLive
    obtain ⟨i, -, rfl⟩ := allocated_named hPlain hLive.allocated_mem
    exact absurd ((h.same i).mp hLive) List.not_mem_nil
  · intro hDead
    have hNone : live.map Prod.fst = [] := by
      refine List.eq_nil_iff_forall_not_mem.mpr fun j hj => ?_
      obtain ⟨i, rfl⟩ := h.named j hj
      exact hDead (decimal i) ((h.same i).mpr hj)
    exact List.map_eq_nil_iff.mp hNone

end Checker

/-! ## The balanced trace in the driver -/

section Balanced

variable {c : Counts} {rs : List Request} {reqs reqs' : List Driver.Request} {freed : List Chars}
  {ops : List Driver.TraceOp}

def Request.id : Request → Chars
  | .alloc id _ => id
  | .realloc id _ => id
  | .free id => id

theorem Replays.index {q : Request} {op : Driver.TraceOp} (h : Replays q op) :
    ∃ i : Nat, op.index = i ∧ q.id = decimal i := by
  cases h <;> exact ⟨_, rfl, rfl⟩

/-- A disciplined trace names no id that it does not allocate. -/
theorem Disciplined.allocates (h : Disciplined rs) {q : Request} (hq : q ∈ rs) :
    q.id ∈ rs.filterMap Request.allocated := by
  obtain ⟨before, after, rfl⟩ := List.append_of_mem hq
  have hAllowed : Allowed before q := h before q after rfl
  have hBefore : ∀ id, Live before id → id ∈ (before ++ q :: after).filterMap Request.allocated := by
    intro id hLive
    rw [List.filterMap_append]
    exact List.mem_append_left _ hLive.allocated_mem
  cases q with
  | alloc id size => simp [Request.id, Request.allocated]
  | realloc id size => exact hBefore id hAllowed
  | free id => exact hBefore id hAllowed

theorem allocated_frees (rs : List Request) (freed : List Chars) :
    (rs ++ freed.map Request.free).filterMap Request.allocated = rs.filterMap Request.allocated := by
  have hNone : (freed.map Request.free).filterMap Request.allocated = [] := by
    refine List.filterMap_eq_nil_iff.mpr fun q hq => ?_
    obtain ⟨id, -, rfl⟩ := List.mem_map.mp hq
    rfl
  rw [List.filterMap_append, hNone, List.append_nil]

theorem largest_frees (h : List.Forall₂ Names rs reqs)
    (h' : List.Forall₂ Names (rs ++ freed.map .free) reqs') (m : Nat) :
    Driver.largest m reqs' = Driver.largest m reqs := by
  induction h generalizing reqs' m with
  | nil =>
    rw [List.nil_append] at h'
    induction freed generalizing reqs' with
    | nil =>
      cases h'
      rfl
    | cons id freed ih =>
      cases h' with
      | cons hFirst hRest =>
        cases hFirst
        exact (ih hRest :)
  | @cons q r rs reqs hFirst _ ih =>
    cases h' with
    | @cons _ r' _ reqs' hFirst' hRest' =>
      rw [Driver.largest, Driver.largest, ih hRest']
      cases hFirst with
      | alloc hId _ =>
        cases hFirst' with
        | alloc hId' _ =>
          cases hId.symm.trans hId'
          rfl
      | realloc hId _ =>
        cases hFirst' with
        | realloc hId' _ =>
          cases hId.symm.trans hId'
          rfl
      | free _ _ =>
        cases hFirst'
        rfl

/-- The largest named id covers the allocated ones. -/
theorem le_largest_allocated (h : List.Forall₂ Names rs reqs) {i : Nat}
    (hi : decimal i ∈ rs.filterMap Request.allocated) (hLt : i < 2 ^ 31) :
    i ≤ Driver.largest 0 reqs := by
  have hNamed : ∃ r ∈ reqs, r.type ≠ .free ∧ r.index = i := by
    obtain ⟨q, hq, hId⟩ := List.mem_filterMap.mp hi
    obtain ⟨size, rfl⟩ := allocated_eq_some.mp hId
    induction h with
    | nil => cases hq
    | @cons q r rs reqs hFirst _ ih =>
      obtain rfl | hq := List.mem_cons.mp hq
      · cases hFirst with
        | @alloc _ _ j _ hId' _ =>
          rw [intNumeral_decimal hLt] at hId'
          exact ⟨_, List.mem_cons_self, nofun, (Option.some.inj hId').symm⟩
      · obtain ⟨r', hr', hBoth⟩ :=
          ih (List.mem_filterMap.mpr ⟨_, hq, rfl⟩) hq
        exact ⟨r', List.mem_cons_of_mem _ hr', hBoth⟩
  obtain ⟨r, hr, hType, rfl⟩ := hNamed
  exact (Driver.le_largest 0 reqs).2 r hr hType

/-- There are no more ids than numbers below a bound of theirs. -/
theorem length_le_of_named {n : Nat} (hNodup : freed.Nodup)
    (h : ∀ id ∈ freed, ∃ i : Nat, i < n ∧ id = decimal i) : freed.length ≤ n := by
  have hSubset : freed ⊆ (List.range n).map fun i : Nat => decimal i := by
    intro id hId
    obtain ⟨i, hLt, rfl⟩ := h id hId
    exact List.mem_map.mpr ⟨i, List.mem_range.mpr hLt, rfl⟩
  have hLength := (List.subperm_of_subset hNodup hSubset).length_le
  rwa [List.length_map, List.length_range] at hLength

/-- The lines that checktrace.pl prints are a trace file again. -/
theorem Balances.written {input kept output : List Chars} (h : Balances input kept rs freed output)
    (hInput : Written input c rs) (hKept : kept.length = rs.length)
    (hFreed : ∀ id ∈ freed, ∃ i : Nat, i < 2 ^ 31 ∧ id = decimal i)
    (hRoom : rs.length + freed.length < 2 ^ 31) :
    Written output { c with numOps := rs.length + freed.length } (rs ++ freed.map .free) := by
  obtain ⟨l₀, l₁, l₂, l₃, body, rfl, -, h₀, h₁, -, h₃⟩ := hInput.split
  refine ⟨?_, h.asked, ?_⟩
  · have hCount : numberLine (decimal (rs.length + freed.length : Nat)) = some (rs.length + freed.length) := by
      unfold numberLine
      rw [words_word (decimal_word _).1 (decimal_word _).2]
      exact intNumeral_decimal hRoom
    rw [h.printed, hKept]
    simp only [List.getElem?_cons_zero, List.getElem?_cons_succ, Option.getD_some, List.cons_append,
      List.nil_append, List.take_succ_cons, List.take_zero, List.map_cons, List.map_nil, h₀, h₁, h₃,
      hCount, Counts.lines]
  · intro q hq
    obtain hq | hq := List.mem_append.mp hq
    · exact hInput.numeric q hq
    · obtain ⟨id, hId, rfl⟩ := List.mem_map.mp hq
      obtain ⟨i, hLt, rfl⟩ := hFreed id hId
      exact (Replays.free hLt 0).numeric

/-- The entries of a trace followed by the frees that balance it. -/
structure Driven (rs : List Request) (freed : List Chars) (numIds : Nat) (ops : List Driver.TraceOp) :
    Prop where
  replays : List.Forall₂ Replays (rs ++ freed.map .free) ops
  nodup : freed.Nodup
  live : ∀ id, id ∈ freed ↔ Live rs id
  proper : Driver.Proper ops
  dead : Driver.liveOf ops = []
  bounds : ∀ op ∈ ops, 0 ≤ op.index ∧ op.index < numIds

theorem checked_output (fresh : Driver.Header) (junk : Nat → Int) (size : Nat)
    (floating : Chars → Nat → Chars) {file : Chars} {t : Driver.Trace} (h : Written (lines file) c rs)
    (hPlain : ∀ q ∈ rs, Plain q) (hRead : Driver.readTrace fresh junk size file = .ok t)
    (hRoom : c.numOps + c.numIds < 2 ^ 31) (hDisciplined : Disciplined rs) :
    ∃ freed stdout t', checktrace floating false file = ⟨stdout, none⟩ ∧
      checktrace floating true stdout = ⟨"Balanced trace.\n".toList, none⟩ ∧
      Driver.readTrace fresh junk size stdout = .ok t' ∧
      t'.header = { c with numOps := c.numOps + freed.length }.header ∧
      Driven rs freed c.numIds t'.ops := by
  obtain ⟨reqs, hNames, -, -, hLargest, hCount⟩ := h.read fresh junk size hPlain hRead
  have hKept := length_requests h.asked
  obtain ⟨freed, stdout, hRun, hText, hWords, hBalances⟩ :=
    first_run floating h.asked hDisciplined (hCount ▸ h.integerValue_numOps)
  obtain ⟨hSummary, -⟩ := hBalances.second_run floating hDisciplined hWords hText
  have hBound : ∀ id ∈ rs.filterMap Request.allocated, ∃ i : Nat, i < c.numIds ∧ id = decimal i := by
    intro id hId
    obtain ⟨i, hLt, rfl⟩ := allocated_named hPlain hId
    have hLe := le_largest_allocated hNames hId hLt
    exact ⟨i, by omega, rfl⟩
  have hFreed : ∀ id ∈ freed, ∃ i : Nat, i < c.numIds ∧ id = decimal i := fun id hId =>
    hBound id ((hBalances.live id).mp hId).allocated_mem
  have hFew := length_le_of_named hBalances.nodup hFreed
  have hInt : ∀ id ∈ freed, ∃ i : Nat, i < 2 ^ 31 ∧ id = decimal i := by
    intro id hId
    obtain ⟨i, hLt, hEq⟩ := hFreed id hId
    exact ⟨i, by omega, hEq⟩
  have hWritten := hBalances.written h hKept hInt (by omega)
  have hAllPlain : ∀ q ∈ rs ++ freed.map Request.free, Plain q := by
    refine List.forall_mem_append.mpr ⟨hPlain, fun q hq => ?_⟩
    obtain ⟨id, hId, rfl⟩ := List.mem_map.mp hq
    obtain ⟨i, hLt, rfl⟩ := hInt id hId
    exact ⟨_, .free hLt 0⟩
  obtain ⟨reqs', hNames', hResult⟩ := readTrace_of_written fresh junk size hWritten
  have hLength : (rs ++ freed.map Request.free).length = rs.length + freed.length := by simp
  rw [hLength, if_neg (Nat.lt_irrefl _), if_pos ⟨(largest_frees hNames hNames' 0).symm ▸ hLargest, rfl⟩]
    at hResult
  have hOps := replays_entries hNames' hAllPlain junk 0
  obtain ⟨hAll, hDead⟩ := hDisciplined.frees hBalances.nodup hBalances.live
  obtain ⟨hProper, hLive⟩ := disciplined_iff_proper hOps
  refine ⟨freed, stdout, _, hRun, hSummary, hResult, by rw [hCount], hOps, hBalances.nodup, hBalances.live,
    hProper.mp hAll, ((hLive hAll).empty_iff hAllPlain).mpr hDead, ?_⟩
  refine forall_right hOps fun q hq op hReplays => ?_
  obtain ⟨i, hIndex, hId⟩ := hReplays.index
  have hAllocated := hAll.allocates hq
  rw [allocated_frees, hId] at hAllocated
  obtain ⟨j, hLt, hEq⟩ := hBound _ hAllocated
  obtain rfl := decimal_inj.mp hEq
  omega

end Balanced

/-! ## The verdict -/

section Verdict

variable {σ : Type} {A : Driver.Allocator σ} {ops : List Driver.TraceOp} {live : List (Int × Int)}
  {known : List Int}

theorem usable_of_permits (h : Permits Driver.Allowed Driver.liveAfter live ops)
    (hKnown : ∀ i ∈ live.map Prod.fst, i ∈ known) (hNodup : (live.map Prod.fst).Nodup) :
    Driver.Usable known ops := by
  induction ops generalizing live known with
  | nil => trivial
  | cons op ops ih =>
    obtain ⟨hAllowed, hRest⟩ := permits_cons.mp h
    obtain ⟨type, index, size⟩ := op
    cases type with
    | alloc =>
      refine ⟨hAllowed.1, ih hRest ?_ (.cons hAllowed.2 hNodup)⟩
      exact List.forall_mem_cons.mpr ⟨List.mem_cons_self, fun i hi => List.mem_cons_of_mem _ (hKnown i hi)⟩
    | realloc =>
      have hFresh : index ∉ (live.eraseP fun x => x.1 == index).map Prod.fst := fun hIn =>
        ((mem_fst_eraseP hNodup).mp hIn).2 rfl
      refine ⟨hAllowed.1, hKnown index hAllowed.2,
        ih hRest ?_ (.cons hFresh (nodup_fst_eraseP hNodup _))⟩
      exact List.forall_mem_cons.mpr
        ⟨hKnown index hAllowed.2, fun i hi => hKnown i ((mem_fst_eraseP hNodup).mp hi).1⟩
    | free =>
      refine ⟨hKnown index hAllowed, ih hRest ?_ (nodup_fst_eraseP hNodup _)⟩
      intro i hi
      obtain ⟨hi, hne⟩ := (mem_fst_eraseP hNodup).mp hi
      exact List.mem_filter.mpr ⟨hKnown i hi, by simpa using hne⟩

theorem valid_of_proper (tracenum : Nat) (d : Driver.Mdriver σ) (h : Driver.Proper ops)
    (hCorrect : Driver.CorrectFor A d.heap ops) :
    (∃ d', (Driver.evalMmValid A tracenum ops).run d = .ok (1, d')) ↔ Driver.CharIds ops := by
  obtain ⟨r, heap, hInit, hr, hCorrect⟩ := hCorrect
  have hUsable : Driver.Usable [] ops := usable_of_permits (proper_iff_permits.mp h) nofun List.nodup_nil
  have hStart : Driver.Shadow { d with heap := heap, ranges := [] } [] [] :=
    ⟨rfl, .nil, by simp, by simp, by simp⟩
  rw [← hStart.accepts_iff (A := A) (i := 0) hUsable hCorrect]
  constructor
  · rintro ⟨d', hValid⟩
    obtain ⟨r', h', hInit', -, hRun⟩ := Driver.evalMmValid_eq_one.mp hValid
    cases hInit.symm.trans hInit'
    exact ⟨d', hRun⟩
  · rintro ⟨d', hRun⟩
    exact ⟨d', Driver.evalMmValid_eq_one.mpr ⟨r, heap, hInit, hr, hRun⟩⟩

end Verdict

end Cs33.Traces
