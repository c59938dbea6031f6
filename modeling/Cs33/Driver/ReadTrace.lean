import Cs33.Driver.Mdriver
import Cs33.Lib.Text

/-! # `read_trace` of mdriver.c

The array of requests has `num_ops` entries, and a store at an index past them
stops the program. The entries are stored in order, so the model keeps the
list of those stored so far. A scan that fails assigns nothing: a variable keeps
its value, and a field of the fresh trace what `malloc` left in it. With a
negative count `malloc` fails; otherwise it is taken to succeed.
-/

namespace Cs33.Driver

open Cs33.Malloc Text

/-- The four numbers of a `trace_t`, ints. -/
structure Header where
  suggHeapsize : BitVec 32
  numIds : BitVec 32
  numOps : BitVec 32
  weight : BitVec 32
deriving DecidableEq, Repr

structure Trace where
  header : Header
  ops : List TraceOp
deriving DecidableEq, Repr

/-- The messages with which `read_trace` ends the process. -/
inductive ReadError where
  | mallocOps
  | mallocBlocks
  | bogusType (type : Char)
deriving DecidableEq, Repr

def ReadError.format : ReadError → String
  | .mallocOps => "malloc 2 failed in read_trace"
  | .mallocBlocks => "malloc 3 failed in read_trace"
  | .bogusType _ => "Bogus type character (%c) in tracefile %s\n"

/-- Why `read_trace` does not return: it ends the process, an assertion fails, it stores to
`ops[opIndex]` past the array, or its loop does not end. -/
inductive ReadHalt where
  | exit (error : ReadError)
  | assertion
  | outside (opIndex : Nat)
  | endless
deriving DecidableEq, Repr

/-! ## `fscanf` -/

/-- `%u`: what `strtoul` makes of a numeral, cut to an `unsigned`. -/
def scannedUnsigned (neg : Bool) (n : Nat) : Nat :=
  toUint32 (if 2 ^ 64 ≤ n then 2 ^ 64 - 1 else if neg then (2 ^ 64 - n) % 2 ^ 64 else n)

/-- `%d`: what `strtol` makes of a numeral, cut to an `int`. -/
def scannedInt (neg : Bool) (n : Nat) : BitVec 32 :=
  BitVec.ofInt 32 (if neg then max (-2 ^ 63) (-n) else min (2 ^ 63 - 1) n)

/-- `fscanf(tracefile, "%d", &field)`. -/
def fscanfInt (field : BitVec 32) (s : Chars) : BitVec 32 × Chars :=
  match scanDecimal s with
  | (none, rest) => (field, rest)
  | (some (neg, n), rest) => (scannedInt neg n, rest)

def readHeader (fresh : Header) (s : Chars) : Header × Chars :=
  let (suggHeapsize, s) := fscanfInt fresh.suggHeapsize s
  let (numIds, s) := fscanfInt fresh.numIds s
  let (numOps, s) := fscanfInt fresh.numOps s
  let (weight, s) := fscanfInt fresh.weight s
  (⟨suggHeapsize, numIds, numOps, weight⟩, s)

/-- The variables that a request line is scanned into, and the rest of the file. -/
structure Scan where
  index : Nat
  size : Nat
  input : Chars
deriving DecidableEq, Repr

/-- `fscanf(tracefile, "%u %u", &index, &size)`. -/
def fscanfIndexSize (sc : Scan) : Scan :=
  match scanDecimal sc.input with
  | (none, rest) => { sc with input := rest }
  | (some (neg, n), rest) =>
    let sc := { sc with index := scannedUnsigned neg n }
    match scanDecimal rest with
    | (none, rest) => { sc with input := rest }
    | (some (neg, n), rest) => { sc with size := scannedUnsigned neg n, input := rest }

/-- The literal `d` of a format. -/
def skipD : Chars → Chars
  | 'd' :: s => s
  | s => s

/-- `fscanf(tracefile, "%ud", &index)`. -/
def fscanfIndexD (sc : Scan) : Scan :=
  match scanDecimal sc.input with
  | (none, rest) => { sc with input := rest }
  | (some (neg, n), rest) =>
    { sc with index := scannedUnsigned neg n, input := skipD rest }

/-! ## The loop -/

structure Reader extends Scan where
  maxIndex : Nat
  opIndex : Nat
  ops : List TraceOp

def Reader.skipTo (rest : Chars) (r : Reader) : Reader := { r with input := rest }

def Reader.scan (f : Scan → Scan) (r : Reader) : Reader := { r with toScan := f r.toScan }

/-- The stores to `trace->ops[op_index]`. -/
def Reader.store (numOps : Int) (type : OpType) (size : Int) (r : Reader) :
    Except ReadHalt Reader :=
  if (r.opIndex : Int) < numOps then
    .ok { r with ops := r.ops ++ [⟨type, toInt r.index, size⟩] }
  else
    .error (.outside r.opIndex)

def Reader.track (r : Reader) : Reader :=
  { r with maxIndex := if r.maxIndex < r.index then r.index else r.maxIndex }

/-- The switch on `type[0]`. An `f` line stores no size. -/
def readRequest (numOps : Int) (junk : Nat → Int) (type : Char) (r : Reader) :
    Except ReadHalt Reader :=
  match type with
  | 'a' => do
    let r := r.scan fscanfIndexSize
    let r ← r.store numOps .alloc (toInt r.size)
    return r.track
  | 'r' => do
    let r := r.scan fscanfIndexSize
    let r ← r.store numOps .realloc (toInt r.size)
    return r.track
  | 'f' => do
    let r := r.scan fscanfIndexD
    r.store numOps .free (junk r.opIndex)
  | _ => .error (.exit (.bogusType type))

def readLoop (numOps : Int) (junk : Nat → Int) : Nat → Reader → Except ReadHalt Reader
  | 0, _ => .error .endless
  | rounds + 1, r =>
    match scanWord r.input with
    | none => .ok r
    | some (type, rest) => do
      let r ← readRequest numOps junk (type.headD ' ') (r.skipTo rest)
      readLoop numOps junk rounds { r with opIndex := r.opIndex + 1 }

/-- An `int` converted to `unsigned`. -/
def toUnsigned (n : Int) : Nat := (n % 2 ^ 32).toNat

/-- `fresh` and `junk` are what `malloc` left in the trace record and in the sizes of its
requests; `size` is the uninitialised variable. Every round of the loop takes a character from
the file. -/
def readTrace (fresh : Header) (junk : Nat → Int) (size : Nat) (file : Chars) :
    Except ReadHalt Trace := do
  let (header, body) := readHeader fresh file
  let numIds := header.numIds.toInt
  let numOps := header.numOps.toInt
  if numOps < 0 then
    .error (.exit .mallocOps)
  else if numIds < 0 then
    .error (.exit .mallocBlocks)
  else
    let r ← readLoop numOps junk (body.length + 1) ⟨⟨0, size, body⟩, 0, 0, []⟩
    if r.maxIndex = toUnsigned (numIds - 1) ∧ toUnsigned numOps = r.opIndex then
      return ⟨header, r.ops⟩
    else
      .error .assertion

/-! ## What the file says -/

/-- A request line, with the values of the variables after its scan. -/
structure Request where
  type : OpType
  index : Nat
  size : Nat
deriving DecidableEq, Repr

def requestType : Char → Option OpType
  | 'a' => some .alloc
  | 'r' => some .realloc
  | 'f' => some .free
  | _ => none

def scanArgs : OpType → Scan → Scan
  | .alloc => fscanfIndexSize
  | .realloc => fscanfIndexSize
  | .free => fscanfIndexD

/-- The request lines up to the end of the file or the first bogus type, and that type. -/
def requests : Nat → Scan → List Request × Option Char
  | 0, _ => ([], none)
  | rounds + 1, sc =>
    match scanWord sc.input with
    | none => ([], none)
    | some (word, rest) =>
      match requestType (word.headD ' ') with
      | none => ([], some (word.headD ' '))
      | some type =>
        let sc := scanArgs type { sc with input := rest }
        let (rs, bogus) := requests rounds sc
        (⟨type, sc.index, sc.size⟩ :: rs, bogus)

def fileRequests (fresh : Header) (size : Nat) (file : Chars) : List Request × Option Char :=
  let body := (readHeader fresh file).2
  requests (body.length + 1) ⟨0, size, body⟩

/-- The entries of `ops` from `opIndex` on. -/
def entries (junk : Nat → Int) : Nat → List Request → List TraceOp
  | _, [] => []
  | opIndex, q :: rs =>
    ⟨q.type, toInt q.index, if q.type = .free then junk opIndex else toInt q.size⟩ ::
      entries junk (opIndex + 1) rs

/-- `max_index` after the given requests: an `f` line leaves it alone. -/
def largest : Nat → List Request → Nat
  | m, [] => m
  | m, q :: rs => largest (if q.type = .free then m else max m q.index) rs

/-- The bounds that the replays rely on. -/
def ReadsInBounds (result : Except ReadHalt Trace) : Prop :=
  (∀ i, result ≠ .error (.outside i)) ∧ result ≠ .error .endless ∧
    ∀ t, result = .ok t → (t.ops.length : Int) = t.header.numOps.toInt ∧
      ∀ op ∈ t.ops, 0 ≤ op.index ∧ op.index < t.header.numIds.toInt

/-- The array has room for every request line. In a file that passes the two assertions there is
an id, and every `f` line names one. -/
structure FitsHeader (header : Header) (rs : List Request) (bogus : Option Char) : Prop where
  room : (rs.length : Int) ≤ header.numOps.toInt
  ids : bogus = none → (rs.length : Int) = header.numOps.toInt →
    largest 0 rs = toUnsigned (header.numIds.toInt - 1) →
    0 < header.numIds.toInt ∧ ∀ q ∈ rs, q.type = .free → (q.index : Int) < header.numIds.toInt

/-! ## One round -/

section Round

variable {numOps : Int} {junk : Nat → Int} {rounds : Nat} {r : Reader} {word rest : Chars}

/-- The reader after a request line of the given type. -/
def Reader.next (junk : Nat → Int) (type : OpType) (r : Reader) : Reader :=
  let sc := scanArgs type r.toScan
  { toScan := sc
    maxIndex := if type = .free then r.maxIndex else max r.maxIndex sc.index
    opIndex := r.opIndex + 1
    ops := r.ops ++ [⟨type, toInt sc.index, if type = .free then junk r.opIndex else toInt sc.size⟩] }

theorem track_eq (r : Reader) : r.track = { r with maxIndex := max r.maxIndex r.index } := by
  rw [Reader.track]
  congr 1
  split <;> omega

theorem store_room {type : OpType} {size : Int} (h : (r.opIndex : Int) < numOps) :
    r.store numOps type size = .ok { r with ops := r.ops ++ [⟨type, toInt r.index, size⟩] } := by
  rw [Reader.store, if_pos h]

theorem store_full {type : OpType} {size : Int} (h : ¬ (r.opIndex : Int) < numOps) :
    r.store numOps type size = .error (.outside r.opIndex) := by
  rw [Reader.store, if_neg h]

theorem readRequest_bogus {c : Char} (hType : requestType c = none) :
    readRequest numOps junk c r = .error (.exit (.bogusType c)) := by
  unfold requestType at hType
  unfold readRequest
  split at hType
  · cases hType
  · cases hType
  · cases hType
  · rfl

theorem readRequest_full {c : Char} {type : OpType} (hType : requestType c = some type)
    (hFull : ¬ (r.opIndex : Int) < numOps) :
    readRequest numOps junk c r = .error (.outside r.opIndex) := by
  unfold requestType at hType
  split at hType <;> cases hType
  · rw [readRequest, store_full (r := r.scan fscanfIndexSize) hFull]
    rfl
  · rw [readRequest, store_full (r := r.scan fscanfIndexSize) hFull]
    rfl
  · rw [readRequest, store_full (r := r.scan fscanfIndexD) hFull]
    rfl

theorem readRequest_room {c : Char} {type : OpType} (hType : requestType c = some type)
    (hRoom : (r.opIndex : Int) < numOps) :
    readRequest numOps junk c r = .ok { r.next junk type with opIndex := r.opIndex } := by
  unfold requestType at hType
  split at hType <;> cases hType
  · rw [readRequest, store_room (r := r.scan fscanfIndexSize) hRoom]
    exact congrArg Except.ok (track_eq _)
  · rw [readRequest, store_room (r := r.scan fscanfIndexSize) hRoom]
    exact congrArg Except.ok (track_eq _)
  · rw [readRequest, store_room (r := r.scan fscanfIndexD) hRoom]
    rfl

theorem readLoop_eof (h : scanWord r.input = none) :
    readLoop numOps junk (rounds + 1) r = .ok r := by
  rw [readLoop, h]

theorem readLoop_bogus (h : scanWord r.input = some (word, rest))
    (hType : requestType (word.headD ' ') = none) :
    readLoop numOps junk (rounds + 1) r = .error (.exit (.bogusType (word.headD ' '))) := by
  rw [readLoop, h]
  dsimp only
  rw [readRequest_bogus hType]
  rfl

theorem readLoop_full (h : scanWord r.input = some (word, rest)) {type : OpType}
    (hType : requestType (word.headD ' ') = some type) (hFull : ¬ (r.opIndex : Int) < numOps) :
    readLoop numOps junk (rounds + 1) r = .error (.outside r.opIndex) := by
  rw [readLoop, h]
  dsimp only
  rw [readRequest_full (r := r.skipTo rest) hType hFull]
  rfl

theorem readLoop_next (h : scanWord r.input = some (word, rest)) {type : OpType}
    (hType : requestType (word.headD ' ') = some type) (hRoom : (r.opIndex : Int) < numOps) :
    readLoop numOps junk (rounds + 1) r = readLoop numOps junk rounds ((r.skipTo rest).next junk type) := by
  rw [readLoop, h]
  dsimp only
  rw [readRequest_room (r := r.skipTo rest) hType hRoom]
  rfl

end Round

/-! ## The whole file -/

section Loop

variable {numOps : Nat} {junk : Nat → Int} {rounds : Nat} {r : Reader} {rs : List Request}
  {bogus : Option Char}

theorem length_skipD_le (s : Chars) : (skipD s).length ≤ s.length := by
  unfold skipD
  split
  · exact Nat.le_succ _
  · exact le_rfl

theorem length_fscanfIndexSize_le (sc : Scan) :
    (fscanfIndexSize sc).input.length ≤ sc.input.length := by
  have hFirst := length_scanDecimal_le sc.input
  unfold fscanfIndexSize
  split
  · rename_i rest hScan
    rwa [hScan] at hFirst
  · rename_i neg n rest hScan
    rw [hScan] at hFirst
    have hSecond := length_scanDecimal_le rest
    dsimp only
    split
    · rename_i rest' hScan'
      rw [hScan'] at hSecond
      exact hSecond.trans hFirst
    · rename_i neg' n' rest' hScan'
      rw [hScan'] at hSecond
      exact hSecond.trans hFirst

theorem length_fscanfIndexD_le (sc : Scan) :
    (fscanfIndexD sc).input.length ≤ sc.input.length := by
  have hFirst := length_scanDecimal_le sc.input
  unfold fscanfIndexD
  split
  · rename_i rest hScan
    rwa [hScan] at hFirst
  · rename_i neg n rest hScan
    rw [hScan] at hFirst
    exact (length_skipD_le rest).trans hFirst

theorem requests_cases {sc : Scan} (h : requests (rounds + 1) sc = (rs, bogus)) :
    (scanWord sc.input = none ∧ rs = [] ∧ bogus = none) ∨
    ∃ word rest, scanWord sc.input = some (word, rest) ∧
      ((requestType (word.headD ' ') = none ∧ rs = [] ∧ bogus = some (word.headD ' ')) ∨
        ∃ type rs', requestType (word.headD ' ') = some type ∧
          requests rounds (scanArgs type { sc with input := rest }) = (rs', bogus) ∧
          rs = ⟨type, (scanArgs type { sc with input := rest }).index,
            (scanArgs type { sc with input := rest }).size⟩ :: rs') := by
  rw [requests] at h
  split at h
  · cases h
    exact .inl ⟨‹_›, rfl, rfl⟩
  · rename_i word rest hWord
    refine .inr ⟨word, rest, hWord, ?_⟩
    split at h
    · cases h
      exact .inl ⟨‹_›, rfl, rfl⟩
    · rename_i type hType
      cases h
      exact .inr ⟨type, _, hType, rfl, rfl⟩

theorem length_scanArgs_le (type : OpType) (sc : Scan) :
    (scanArgs type sc).input.length ≤ sc.input.length := by
  cases type with
  | alloc => exact length_fscanfIndexSize_le sc
  | realloc => exact length_fscanfIndexSize_le sc
  | free => exact length_fscanfIndexD_le sc

theorem scannedUnsigned_lt (neg : Bool) (n : Nat) : scannedUnsigned neg n < 2 ^ 32 :=
  Nat.mod_lt _ (Nat.two_pow_pos 32)

theorem scanArgs_index_lt (type : OpType) {sc : Scan} (h : sc.index < 2 ^ 32) :
    (scanArgs type sc).index < 2 ^ 32 := by
  have hPair : (fscanfIndexSize sc).index < 2 ^ 32 := by
    unfold fscanfIndexSize
    split
    · exact h
    · dsimp only
      split <;> exact scannedUnsigned_lt _ _
  cases type with
  | alloc => exact hPair
  | realloc => exact hPair
  | free =>
    rw [scanArgs, fscanfIndexD]
    split
    · exact h
    · exact scannedUnsigned_lt _ _

/-- More requests than there are entries left: the store after the last entry is reached. -/
theorem readLoop_outside (h : requests rounds r.toScan = (rs, bogus))
    (hIndex : r.opIndex ≤ numOps) (hMore : numOps < r.opIndex + rs.length) :
    readLoop numOps junk rounds r = .error (.outside numOps) := by
  induction rounds generalizing r rs with
  | zero =>
    cases h
    exact absurd hMore (Nat.not_lt.mpr hIndex)
  | succ rounds ih =>
    obtain ⟨-, rfl, -⟩ | ⟨word, rest, hWord, ⟨-, rfl, -⟩ | ⟨type, rs', hType, hRest, rfl⟩⟩ :=
      requests_cases h
    · exact absurd hMore (Nat.not_lt.mpr hIndex)
    · exact absurd hMore (Nat.not_lt.mpr hIndex)
    · by_cases hRoom : r.opIndex < numOps
      · rw [readLoop_next hWord hType (Int.ofNat_lt.mpr hRoom)]
        rw [List.length_cons] at hMore
        exact ih (r := (r.skipTo rest).next junk type) hRest hRoom
          (show numOps < r.opIndex + 1 + rs'.length by omega)
      · obtain rfl : r.opIndex = numOps := by omega
        exact readLoop_full hWord hType (by omega)

/-- Enough entries for all requests, and a bogus type after them. -/
theorem readLoop_exits {c : Char} (h : requests rounds r.toScan = (rs, some c))
    (hRoom : r.opIndex + rs.length ≤ numOps) :
    readLoop numOps junk rounds r = .error (.exit (.bogusType c)) := by
  induction rounds generalizing r rs with
  | zero => cases h
  | succ rounds ih =>
    obtain ⟨-, -, hNone⟩ | ⟨word, rest, hWord, ⟨hType, -, hSome⟩ | ⟨type, rs', hType, hRest, rfl⟩⟩ :=
      requests_cases h
    · cases hNone
    · cases hSome
      exact readLoop_bogus hWord hType
    · rw [List.length_cons] at hRoom
      rw [readLoop_next hWord hType (Int.ofNat_lt.mpr (by omega))]
      exact ih (r := (r.skipTo rest).next junk type) hRest
        (show r.opIndex + 1 + rs'.length ≤ numOps by omega)

/-- Enough entries for all requests, and nothing after them. -/
theorem readLoop_finishes (junk : Nat → Int) (h : requests rounds r.toScan = (rs, none))
    (hFuel : r.input.length < rounds) (hRoom : r.opIndex + rs.length ≤ numOps) :
    ∃ r', readLoop numOps junk rounds r = .ok r' ∧ r'.maxIndex = largest r.maxIndex rs ∧
      r'.opIndex = r.opIndex + rs.length ∧ r'.ops = r.ops ++ entries junk r.opIndex rs := by
  induction rounds generalizing r rs with
  | zero => exact absurd hFuel (Nat.not_lt_zero _)
  | succ rounds ih =>
    obtain ⟨hWord, rfl, -⟩ | ⟨word, rest, hWord, ⟨-, -, hSome⟩ | ⟨type, rs', hType, hRest, rfl⟩⟩ :=
      requests_cases h
    · exact ⟨r, readLoop_eof hWord, rfl, rfl, (List.append_nil _).symm⟩
    · cases hSome
    · rw [List.length_cons] at hRoom
      have hShorter := length_scanWord_lt hWord
      have hArgs := length_scanArgs_le type ⟨r.index, r.size, rest⟩
      obtain ⟨r', hRun, hMax, hIndex, hOps⟩ := ih (r := (r.skipTo rest).next junk type) hRest
        (show (scanArgs type ⟨r.index, r.size, rest⟩).input.length < rounds by
          dsimp only at hArgs
          omega)
        (show r.opIndex + 1 + rs'.length ≤ numOps by omega)
      refine ⟨r', ?_, hMax, ?_, ?_⟩
      · rw [readLoop_next hWord hType (Int.ofNat_lt.mpr (by omega)), hRun]
      · rw [hIndex, List.length_cons]
        change r.opIndex + 1 + rs'.length = _
        omega
      · rw [hOps, entries]
        change r.ops ++ [_] ++ _ = _
        rw [List.append_assoc]
        rfl

end Loop

theorem length_entries (junk : Nat → Int) (i : Nat) (rs : List Request) :
    (entries junk i rs).length = rs.length := by
  induction rs generalizing i with
  | nil => rfl
  | cons q rs ih => rw [entries, List.length_cons, ih, List.length_cons]

theorem index_entries (junk : Nat → Int) (i : Nat) (rs : List Request) :
    (entries junk i rs).map TraceOp.index = rs.map fun q => toInt q.index := by
  induction rs generalizing i with
  | nil => rfl
  | cons q rs ih => rw [entries, List.map_cons, ih, List.map_cons]

theorem forall_index_entries (P : Int → Prop) (junk : Nat → Int) (i : Nat) (rs : List Request) :
    (∀ op ∈ entries junk i rs, P op.index) ↔ ∀ q ∈ rs, P (toInt q.index) :=
  calc (∀ op ∈ entries junk i rs, P op.index)
      ↔ ∀ n ∈ (entries junk i rs).map TraceOp.index, P n := List.forall_mem_map.symm
    _ ↔ ∀ n ∈ rs.map fun q => toInt q.index, P n := by rw [index_entries]
    _ ↔ ∀ q ∈ rs, P (toInt q.index) := List.forall_mem_map

theorem le_largest (m : Nat) (rs : List Request) :
    m ≤ largest m rs ∧ ∀ q ∈ rs, q.type ≠ .free → q.index ≤ largest m rs := by
  induction rs generalizing m with
  | nil => exact ⟨le_rfl, nofun⟩
  | cons q rs ih =>
    rw [largest]
    obtain ⟨hFrom, hRest⟩ := ih (if q.type = .free then m else max m q.index)
    constructor
    · refine le_trans ?_ hFrom
      split
      · exact le_rfl
      · exact le_max_left _ _
    · intro q' hq' hType
      obtain rfl | hq' := List.mem_cons.mp hq'
      · rw [if_neg hType] at hFrom ⊢
        exact (le_max_right _ _).trans hFrom
      · exact hRest q' hq' hType

theorem index_lt {rounds : Nat} {sc : Scan} {rs : List Request} {bogus : Option Char}
    (h : requests rounds sc = (rs, bogus)) (hStart : sc.index < 2 ^ 32) :
    ∀ q ∈ rs, q.index < 2 ^ 32 := by
  induction rounds generalizing sc rs with
  | zero =>
    cases h
    exact nofun
  | succ rounds ih =>
    obtain ⟨-, rfl, -⟩ | ⟨word, rest, -, ⟨-, rfl, -⟩ | ⟨type, rs', -, hRest, rfl⟩⟩ :=
      requests_cases h
    · exact nofun
    · exact nofun
    · have hHere := scanArgs_index_lt type (show ({ sc with input := rest } : Scan).index < 2 ^ 32 from hStart)
      exact List.forall_mem_cons.mpr ⟨hHere, ih hRest hHere⟩

theorem toInt_index {n : Nat} (h : n < 2 ^ 32) {bound : Int} (hBound : bound < 2 ^ 31) :
    0 ≤ toInt n ∧ toInt n < bound ↔ (n : Int) < bound := by
  unfold toInt uint32ToInt toUint32
  rw [Nat.mod_eq_of_lt h]
  split <;> omega

section File

variable {fresh : Header} {junk : Nat → Int} {size : Nat} {file : Chars} {numOps : Nat}
  {rs : List Request} {bogus : Option Char}

/-- The reader at the first request line. -/
def startReader (size : Nat) (body : Chars) : Reader := ⟨⟨0, size, body⟩, 0, 0, []⟩

theorem startReader_fuel (size : Nat) (body : Chars) :
    (startReader size body).input.length < body.length + 1 := Nat.lt_add_one _

theorem fileRequests_eq : fileRequests fresh size file =
    requests ((readHeader fresh file).2.length + 1) (startReader size (readHeader fresh file).2).toScan := rfl

theorem readTrace_eq (hIds : 0 ≤ (readHeader fresh file).1.numIds.toInt)
    (hOps : (readHeader fresh file).1.numOps.toInt = numOps) :
    readTrace fresh junk size file =
      (readLoop numOps junk ((readHeader fresh file).2.length + 1) (startReader size (readHeader fresh file).2)).bind
        fun r =>
          if r.maxIndex = toUnsigned ((readHeader fresh file).1.numIds.toInt - 1) ∧
              toUnsigned numOps = r.opIndex then
            .ok ⟨(readHeader fresh file).1, r.ops⟩
          else .error .assertion := by
  rw [readTrace]
  dsimp only
  rw [hOps, if_neg (by omega), if_neg (by omega)]
  rfl

theorem readTrace_outside (h : fileRequests fresh size file = (rs, bogus))
    (hIds : 0 ≤ (readHeader fresh file).1.numIds.toInt)
    (hOps : (readHeader fresh file).1.numOps.toInt = numOps) (hMore : numOps < rs.length) :
    readTrace fresh junk size file = .error (.outside numOps) := by
  rw [fileRequests_eq] at h
  rw [readTrace_eq hIds hOps, readLoop_outside (r := startReader size (readHeader fresh file).2) h
    (Nat.zero_le _) (show numOps < 0 + rs.length by omega)]
  rfl

theorem readTrace_exits {c : Char} (h : fileRequests fresh size file = (rs, some c))
    (hIds : 0 ≤ (readHeader fresh file).1.numIds.toInt)
    (hOps : (readHeader fresh file).1.numOps.toInt = numOps) (hRoom : rs.length ≤ numOps) :
    readTrace fresh junk size file = .error (.exit (.bogusType c)) := by
  rw [fileRequests_eq] at h
  rw [readTrace_eq hIds hOps, readLoop_exits (r := startReader size (readHeader fresh file).2) h
    (show 0 + rs.length ≤ numOps by omega)]
  rfl

theorem readTrace_finishes (h : fileRequests fresh size file = (rs, none))
    (hIds : 0 ≤ (readHeader fresh file).1.numIds.toInt)
    (hOps : (readHeader fresh file).1.numOps.toInt = numOps) (hRoom : rs.length ≤ numOps) :
    readTrace fresh junk size file =
      if largest 0 rs = toUnsigned ((readHeader fresh file).1.numIds.toInt - 1) ∧
          rs.length = numOps then
        .ok ⟨(readHeader fresh file).1, entries junk 0 rs⟩
      else .error .assertion := by
  have hLt := (readHeader fresh file).1.numOps.toInt_lt
  rw [fileRequests_eq] at h
  obtain ⟨r, hRun, hMax, hIndex, hEntries⟩ := readLoop_finishes junk h (startReader_fuel _ _)
    (show 0 + rs.length ≤ numOps by omega)
  have hUnsigned : toUnsigned numOps = numOps := by
    rw [hOps] at hLt
    unfold toUnsigned
    omega
  have hCount : numOps = 0 + rs.length ↔ rs.length = numOps := by omega
  rw [readTrace_eq hIds hOps, hRun]
  change (if r.maxIndex = _ ∧ _ = r.opIndex then _ else _) = _
  rw [hMax, hIndex, hEntries, hUnsigned]
  change (if _ ∧ numOps = 0 + rs.length then _ else _) = _
  simp only [hCount]
  rfl

/-- A returned trace: the `a` and `r` lines are covered by the assertion, except that a count of
0 ids lets the index of all ones through. -/
theorem returned_iff (h : fileRequests fresh size file = (rs, none))
    (hIds : 0 ≤ (readHeader fresh file).1.numIds.toInt)
    (hOps : (readHeader fresh file).1.numOps.toInt = numOps)
    (hLargest : largest 0 rs = toUnsigned ((readHeader fresh file).1.numIds.toInt - 1))
    (hCount : rs.length = numOps) :
    ReadsInBounds (.ok ⟨(readHeader fresh file).1, entries junk 0 rs⟩) ↔
      FitsHeader (readHeader fresh file).1 rs none := by
  have hLt := (readHeader fresh file).1.numIds.toInt_lt
  have hIndex := index_lt h (by decide : (0 : Nat) < 2 ^ 32)
  generalize hHeader : (readHeader fresh file).1 = header at *
  have hOp : (∀ op ∈ entries junk 0 rs, 0 ≤ op.index ∧ op.index < header.numIds.toInt) ↔
      ∀ q ∈ rs, 0 ≤ toInt q.index ∧ toInt q.index < header.numIds.toInt :=
    forall_index_entries (fun n => 0 ≤ n ∧ n < header.numIds.toInt) junk 0 rs
  constructor
  · rintro ⟨-, -, hBounds⟩
    obtain ⟨-, hAll⟩ := hBounds _ rfl
    replace hAll := hOp.mp hAll
    refine ⟨by rw [hOps, hCount], fun _ _ _ => ⟨?_, ?_⟩⟩
    · by_contra hNone
      obtain hZero : header.numIds.toInt = 0 := by omega
      obtain _ | ⟨q, rs⟩ := rs
      · rw [hZero] at hLargest
        exact absurd hLargest (by decide)
      · have hFirst := hAll q List.mem_cons_self
        omega
    · intro q hq _
      exact (toInt_index (hIndex q hq) hLt).mp (hAll q hq)
  · intro hFits
    obtain ⟨hPos, hFree⟩ := hFits.ids rfl (by rw [hOps, hCount]) hLargest
    refine ⟨nofun, nofun, ?_⟩
    rintro _ ⟨⟩
    refine ⟨?_, hOp.mpr fun q hq => (toInt_index (hIndex q hq) hLt).mpr ?_⟩
    · rw [length_entries, hCount, hOps]
    · by_cases hType : q.type = .free
      · exact hFree q hq hType
      · have hLe := (le_largest 0 rs).2 q hq hType
        rw [hLargest, toUnsigned] at hLe
        omega

end File

/-- For a header with nonnegative counts `read_trace` keeps the bounds that the replays rely on
if and only if the request lines fit the header. -/
theorem readTrace_in_bounds_iff (fresh : Header) (junk : Nat → Int) (size : Nat) (file : Chars)
    (hIds : 0 ≤ (readHeader fresh file).1.numIds.toInt)
    (hOps : 0 ≤ (readHeader fresh file).1.numOps.toInt) :
    ReadsInBounds (readTrace fresh junk size file) ↔
      FitsHeader (readHeader fresh file).1 (fileRequests fresh size file).1
        (fileRequests fresh size file).2 := by
  obtain ⟨numOps, hNumOps⟩ := Int.eq_ofNat_of_zero_le hOps
  rcases hFile : fileRequests fresh size file with ⟨rs, bogus⟩
  by_cases hRoom : rs.length ≤ numOps
  · cases bogus with
    | some c =>
      rw [readTrace_exits hFile hIds hNumOps hRoom]
      refine iff_of_true ⟨nofun, nofun, nofun⟩ ⟨?_, nofun⟩
      rw [hNumOps]
      exact Int.ofNat_le.mpr hRoom
    | none =>
      rw [readTrace_finishes hFile hIds hNumOps hRoom]
      by_cases hChecks : largest 0 rs = toUnsigned ((readHeader fresh file).1.numIds.toInt - 1) ∧
          rs.length = numOps
      · rw [if_pos hChecks]
        exact returned_iff hFile hIds hNumOps hChecks.1 hChecks.2
      · rw [if_neg hChecks]
        refine iff_of_true ⟨nofun, nofun, nofun⟩ ⟨?_, fun _ hCount hLargest => ?_⟩
        · rw [hNumOps]
          exact Int.ofNat_le.mpr hRoom
        · rw [hNumOps] at hCount
          exact absurd ⟨hLargest, Int.ofNat_inj.mp hCount⟩ hChecks
  · rw [readTrace_outside hFile hIds hNumOps (Nat.not_le.mp hRoom)]
    refine iff_of_false (fun h => h.1 _ rfl) fun h => hRoom ?_
    have hFits := h.room
    rw [hNumOps] at hFits
    exact Int.ofNat_le.mp hFits

/-- Two lines for one id, in bounds. -/
def shortFile : Chars := "20000\n1\n2\n1\na 0 512\nf 0\n".toList

/-- The `f` line names an id that the header does not have. -/
def strayFile : Chars := "20000\n1\n2\n1\na 0 512\nf 7\n".toList

theorem readTrace_in_bounds_iff_short : ReadsInBounds (readTrace ⟨0, 0, 0, 0⟩ (fun _ => 0) 0 shortFile) := by
  refine (readTrace_in_bounds_iff _ _ _ _ (by decide) (by decide)).mpr ⟨by decide, fun _ _ _ => ?_⟩
  exact ⟨by decide, by decide⟩

/-- No check looks at the id of an `f` line. -/
theorem stray_free_returned : ¬ ∀ (fresh : Header) (junk : Nat → Int) (size : Nat) (file : Chars),
    0 ≤ (readHeader fresh file).1.numIds.toInt → 0 ≤ (readHeader fresh file).1.numOps.toInt →
    ReadsInBounds (readTrace fresh junk size file) := by
  intro hAll
  obtain ⟨-, -, hBounds⟩ := hAll ⟨0, 0, 0, 0⟩ (fun _ => 0) 0 strayFile (by decide) (by decide)
  obtain ⟨-, hOps⟩ := hBounds ⟨⟨20000, 1, 2, 1⟩, [⟨.alloc, 0, 512⟩, ⟨.free, 7, 0⟩]⟩ (by decide)
  exact absurd (hOps ⟨.free, 7, 0⟩ (by simp)).2 (by decide)

end Cs33.Driver
