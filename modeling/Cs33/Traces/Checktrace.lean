import Mathlib.Data.List.AList
import Mathlib.Data.List.Induction
import Mathlib.Data.List.Sort
import Cs33.Lib.Text

/-! # checktrace.pl

The program reads and prints lines; the model works on the whole text. A
variable or a hash entry without a value reads as the empty string, and a
string counts as true unless it is empty or `0`. The trace it is to check is a
list of requests, and consistency is stated about that list alone.
-/

namespace Cs33.Traces

open Text

/-! ## The program -/

abbrev Hash := AList fun _ : Chars => Chars

/-- Where the program dies, with the variables of the message. -/
inductive CheckError where
  | reallocUnallocated (linenum : Nat)
  | allocLive (linenum : Nat)
  | reusedId (linenum : Nat) (id : Chars)
  | freeUnallocated (linenum : Nat)
  | freeFreed (linenum : Nat)
  | residue
deriving DecidableEq, Repr

def CheckError.message : CheckError → String
  | .reallocUnallocated _ => "$0: ERROR[$linenum]: realloc without previous alloc\n"
  | .allocLive _ => "$0: ERROR[$linenum]: allocate with no intervening free.\n"
  | .reusedId _ _ => "$0: ERROR[$linenum]: reused ID $id.\n"
  | .freeUnallocated _ => "$0: ERROR[$linenum]: freeing unallocated block.\n"
  | .freeFreed _ => "$0: ERROR[$linenum]: freeing already freed block.\n"
  | .residue => "$0: ERROR: Invalid free request in residue.\n"

def isTrue : Option Chars → Bool
  | none => false
  | some v => v ≠ [] && v ≠ ['0']

/-- `!v`: the empty string or `1`. -/
def negation (v : Option Chars) : Chars := if isTrue v then [] else ['1']

/-- `v eq s`. -/
def sameString (v : Option Chars) (s : Chars) : Bool := v.getD [] == s

structure Checker where
  hash : Hash
  lines : List Chars
  linenum : Nat

/-- One round of the loop over the requests, on the first two words of the line. In
`!$HASH{$id} eq "f"` the negation binds first. -/
def checkRequest (c : Checker) (line : Chars) (cmd : Option Chars) (id : Chars) :
    Except CheckError Checker :=
  let linenum := c.linenum + 1
  if !isTrue cmd then
    .ok { c with linenum := linenum }
  else
    let c := { c with linenum := linenum, lines := c.lines ++ [line] }
    let entry := c.hash.lookup id
    if sameString cmd ['r'] then
      if !isTrue entry then .error (.reallocUnallocated linenum) else .ok c
    else if sameString cmd ['a'] && sameString entry ['a'] then
      .error (.allocLive linenum)
    else if sameString cmd ['a'] && sameString entry ['f'] then
      .error (.reusedId linenum id)
    else if sameString cmd ['f'] && !entry.isSome then
      .error (.freeUnallocated linenum)
    else if sameString cmd ['f'] && negation entry == ['f'] then
      .error (.freeFreed linenum)
    else if sameString cmd ['f'] then
      .ok { c with hash := c.hash.erase id }
    else
      .ok { c with hash := c.hash.insert id (cmd.getD []) }

def checkLine (c : Checker) (line : Chars) : Except CheckError Checker :=
  checkRequest c line (words line)[0]? ((words line)[1]?.getD [])

/-- The integer that a string counts as. There is none where Perl may see a fraction, an exponent,
an infinity or no number. -/
def integerValue (s : Chars) : Option Int :=
  let (neg, s) := scanSign (skipSpace s)
  let n := Nat.ofDigitChars 10 (s.takeWhile Char.isDigit) 0
  match s.dropWhile Char.isDigit with
  | [] => some (if neg then -n else n)
  | c :: _ => if c ∈ ['.', 'e', 'E', 'i', 'I', 'n', 'N'] then none else some (if neg then -n else n)

def decimal (n : Int) : Chars :=
  if n < 0 then '-' :: Nat.toDigits 10 n.natAbs else Nat.toDigits 10 n.natAbs

/-- What `$old_num_ops + $new_ops` prints; `floating` stands for the sums that are not between
integers. -/
def sum (floating : Chars → Nat → Chars) (oldNumOps : Chars) (newOps : Nat) : Chars :=
  match integerValue oldNumOps with
  | some n => decimal (n + newOps)
  | none => floating oldNumOps newOps

/-- The order in which Perl sorts strings. -/
def stringLe : Chars → Chars → Bool
  | [], _ => true
  | _ :: _, [] => false
  | c :: s, d :: t => c.toNat < d.toNat || (c == d && stringLe s t)

/-- What the program prints, and where it dies if it does. -/
structure Output where
  stdout : Chars
  died : Option CheckError
deriving DecidableEq, Repr

/-- The free requests that balance the trace. -/
def printFrees (hash : Hash) : List Chars → Output
  | [] => ⟨[], none⟩
  | key :: keys =>
    let entry := hash.lookup key
    if !sameString entry ['a'] && !sameString entry ['r'] then
      ⟨[], some .residue⟩
    else
      let out := printFrees hash keys
      { out with stdout := unlines [['f', ' '] ++ key] ++ out.stdout }

def checktrace (floating : Chars → Nat → Chars) (summary : Bool) (stdin : Chars) : Output :=
  let input := lines stdin
  let heapSize := input[0]?.getD []
  let numBlocks := input[1]?.getD []
  let oldNumOps := input[2]?.getD []
  let weight := input[3]?.getD []
  match (input.drop 4).foldlM checkLine ⟨∅, [], 4⟩ with
  | .error e => ⟨[], some e⟩
  | .ok c =>
    if summary then
      ⟨if c.hash.keys = [] then "Balanced trace.\n".toList else "Unbalanced tree.\n".toList, none⟩
    else
      let newNumOps := sum floating oldNumOps c.hash.keys.length
      let frees := printFrees c.hash (c.hash.keys.insertionSort (stringLe · ·))
      { frees with
        stdout := unlines ([heapSize, numBlocks, newNumOps, weight] ++ c.lines) ++ frees.stdout }

/-! ## Traces -/

inductive Request where
  | alloc (id size : Chars)
  | realloc (id size : Chars)
  | free (id : Chars)
deriving DecidableEq, Repr

/-- The request on a line of one of the three forms. -/
def request (line : Chars) : Option Request :=
  match words line with
  | [['a'], id, size] => some (.alloc id size)
  | [['r'], id, size] => some (.realloc id size)
  | [['f'], id] => some (.free id)
  | _ => none

/-- The requests on the lines that are not blank, if all these have one. -/
def requests : List Chars → Option (List Request)
  | [] => some []
  | line :: ls =>
    if words line = [] then requests ls
    else do
      let q ← request line
      let rs ← requests ls
      return q :: rs

def Request.allocated : Request → Option Chars
  | .alloc id _ => some id
  | _ => none

/-- Allocated by one of the requests, and not freed by a later one. -/
def Live (before : List Request) (id : Chars) : Prop :=
  ∃ earlier size later, before = earlier ++ .alloc id size :: later ∧ .free id ∉ later

/-- What a request may name after those before it. -/
def Allowed (before : List Request) : Request → Prop
  | .alloc id _ => ¬ Live before id
  | .realloc id _ => Live before id
  | .free id => Live before id

/-- Every `a` names an id that is not live, every `r` and every `f` one that is. -/
def Disciplined (rs : List Request) : Prop :=
  ∀ before q after, rs = before ++ q :: after → Allowed before q

structure Consistent (rs : List Request) : Prop where
  once : (rs.filterMap Request.allocated).Nodup
  reallocLive : ∀ before id size after, rs = before ++ .realloc id size :: after → Live before id
  freeLive : ∀ before id after, rs = before ++ .free id :: after → Live before id

/-- Some id is allocated after it was freed. -/
def Reuses (rs : List Request) : Prop :=
  ∃ before id size after, rs = before ++ .alloc id size :: after ∧ .free id ∈ before

/-! ## Live ids -/

section Live

variable {before rs : List Request} {q : Request} {id : Chars}

theorem not_live_nil : ¬ Live [] id := by
  rintro ⟨earlier, size, later, h, -⟩
  simp at h

theorem allocated_eq_some : q.allocated = some id ↔ ∃ size, q = .alloc id size := by
  cases q <;> simp [Request.allocated, eq_comm]

theorem live_append_one :
    Live (before ++ [q]) id ↔ q.allocated = some id ∨ (Live before id ∧ q ≠ .free id) := by
  rw [allocated_eq_some]
  constructor
  · rintro ⟨earlier, size, later, h, hFree⟩
    obtain rfl | ⟨later, last, rfl⟩ := List.eq_nil_or_concat' later
    · obtain ⟨-, hLast⟩ := List.append_inj' h rfl
      exact .inl ⟨size, by simpa using hLast⟩
    · rw [← List.cons_append, ← List.append_assoc] at h
      obtain ⟨hBefore, hLast⟩ := List.append_inj' h rfl
      obtain rfl : q = last := by simpa using hLast
      simp only [List.mem_append, List.mem_singleton, not_or] at hFree
      exact .inr ⟨⟨earlier, size, later, hBefore, hFree.1⟩, Ne.symm hFree.2⟩
  · rintro (⟨size, rfl⟩ | ⟨⟨earlier, size, later, rfl, hFree⟩, hOther⟩)
    · exact ⟨before, size, [], rfl, List.not_mem_nil⟩
    · refine ⟨earlier, size, later ++ [q], by simp, ?_⟩
      simp only [List.mem_append, List.mem_singleton, not_or]
      exact ⟨hFree, hOther.symm⟩

theorem Live.allocated_mem (h : Live before id) : id ∈ before.filterMap Request.allocated := by
  obtain ⟨earlier, size, later, rfl, -⟩ := h
  simp [Request.allocated]

theorem live_or_freed (h : id ∈ before.filterMap Request.allocated) :
    Live before id ∨ .free id ∈ before := by
  obtain ⟨q, hq, hId⟩ := List.mem_filterMap.mp h
  obtain ⟨size, rfl⟩ := allocated_eq_some.mp hId
  obtain ⟨earlier, later, rfl⟩ := List.append_of_mem hq
  by_cases hFree : .free id ∈ later
  · exact .inr (by simp [hFree])
  · exact .inl ⟨earlier, size, later, rfl, hFree⟩

theorem Disciplined.prefix {after : List Request} (h : Disciplined (before ++ after)) :
    Disciplined before := by
  intro before' q after' hSplit
  exact h before' q (after' ++ after) (by rw [hSplit, List.append_assoc, List.cons_append])

/-- A disciplined trace is consistent unless it allocates an id after freeing it. -/
theorem Disciplined.once (h : Disciplined rs) (hReuse : ¬ Reuses rs) :
    (rs.filterMap Request.allocated).Nodup := by
  induction rs using List.reverseRecOn with
  | nil => exact List.nodup_nil
  | append_singleton rs q ih =>
    have hRest := ih h.prefix fun ⟨before, id, size, after, hSplit, hFree⟩ =>
      hReuse ⟨before, id, size, after ++ [q], by rw [hSplit]; simp, hFree⟩
    rw [List.filterMap_append, List.nodup_append']
    refine ⟨hRest, by cases h : q.allocated <;> simp [h], ?_⟩
    intro id hBefore hLast
    obtain ⟨size, rfl⟩ : ∃ size, q = .alloc id size := by
      rw [← allocated_eq_some]
      simpa using hLast
    have hNotLive : ¬ Live rs id := h rs (.alloc id size) [] rfl
    exact hReuse ⟨rs, id, size, [], rfl, (live_or_freed hBefore).resolve_left hNotLive⟩

theorem Consistent.disciplined (h : Consistent rs) : Disciplined rs := by
  intro before q after hSplit
  cases q with
  | realloc id size => exact h.reallocLive before id size after hSplit
  | free id => exact h.freeLive before id after hSplit
  | alloc id size =>
    intro hLive
    have hOnce := h.once
    rw [hSplit, List.filterMap_append] at hOnce
    exact List.disjoint_of_nodup_append hOnce hLive.allocated_mem (by simp [Request.allocated])

theorem Consistent.not_reuses (h : Consistent rs) : ¬ Reuses rs := by
  rintro ⟨before, id, size, after, hSplit, hFree⟩
  obtain ⟨earlier, later, rfl⟩ := List.append_of_mem hFree
  have hLive : Live earlier id :=
    h.freeLive earlier id (later ++ .alloc id size :: after) (by rw [hSplit]; simp)
  have hOnce := h.once
  rw [hSplit, List.append_assoc, List.filterMap_append] at hOnce
  apply List.disjoint_of_nodup_append hOnce hLive.allocated_mem
  exact List.mem_filterMap.mpr ⟨.alloc id size, by simp, rfl⟩

/-- Consistency is discipline without reuse. -/
theorem consistent_iff : Consistent rs ↔ Disciplined rs ∧ ¬ Reuses rs := by
  constructor
  · intro h
    exact ⟨h.disciplined, h.not_reuses⟩
  · rintro ⟨h, hReuse⟩
    exact ⟨h.once hReuse, fun before id size after => h before (.realloc id size) after,
      fun before id after => h before (.free id) after⟩

end Live

/-! ## One line -/

section Line

variable {c : Checker} {line id size : Chars} {before : List Request} {q : Request}

/-- The hash holds the live ids, and `a` for each. -/
def Tracks (hash : Hash) (before : List Request) : Prop :=
  ∀ id, (Live before id → hash.lookup id = some ['a']) ∧ (¬ Live before id → hash.lookup id = none)

def Request.fields : Request → List Chars
  | .alloc id size => [['a'], id, size]
  | .realloc id size => [['r'], id, size]
  | .free id => [['f'], id]

theorem request_fields (h : request line = some q) : words line = q.fields := by
  unfold request at h
  split at h <;> cases h <;> assumption

/-- The state after a line that is kept. -/
def Checker.keep (c : Checker) (line : Chars) (hash : Hash) : Checker :=
  ⟨hash, c.lines ++ [line], c.linenum + 1⟩

theorem checkLine_blank (h : words line = []) :
    checkLine c line = .ok { c with linenum := c.linenum + 1 } := by
  rw [checkLine, h]
  rfl

theorem checkLine_realloc (h : words line = [['r'], id, size]) :
    checkLine c line = if isTrue (c.hash.lookup id) then .ok (c.keep line c.hash)
      else .error (.reallocUnallocated (c.linenum + 1)) := by
  rw [checkLine, h]
  change checkRequest c line (some ['r']) id = _
  cases hTrue : isTrue (c.hash.lookup id) <;>
    simp [checkRequest, hTrue, show isTrue (some ['r']) from rfl, sameString, Checker.keep]

theorem checkLine_alloc (h : words line = [['a'], id, size]) :
    checkLine c line = if sameString (c.hash.lookup id) ['a'] then .error (.allocLive (c.linenum + 1))
      else if sameString (c.hash.lookup id) ['f'] then .error (.reusedId (c.linenum + 1) id)
      else .ok (c.keep line (c.hash.insert id ['a'])) := by
  rw [checkLine, h]
  change checkRequest c line (some ['a']) id = _
  simp [checkRequest, isTrue, sameString, Checker.keep]

/-- The test for a block that is already freed never holds. -/
theorem negation_ne (v : Option Chars) : negation v ≠ ['f'] := by
  unfold negation
  split <;> decide

theorem checkLine_free (h : words line = [['f'], id]) :
    checkLine c line = if (c.hash.lookup id).isSome then .ok (c.keep line (c.hash.erase id))
      else .error (.freeUnallocated (c.linenum + 1)) := by
  rw [checkLine, h]
  change checkRequest c line (some ['f']) id = _
  cases hSome : c.hash.lookup id with
  | none => simp [checkRequest, hSome, isTrue, sameString]
  | some v => simp [checkRequest, hSome, isTrue, sameString, negation_ne, Checker.keep]

theorem Tracks.snoc {hash hash' : Hash} (h : Tracks hash before)
    (hNamed : ∀ id, q.allocated = some id → hash'.lookup id = some ['a'])
    (hFree : ∀ id, q = .free id → hash'.lookup id = none)
    (hOther : ∀ id, q.allocated ≠ some id → q ≠ .free id → hash'.lookup id = hash.lookup id) :
    Tracks hash' (before ++ [q]) := by
  intro id
  rw [live_append_one]
  by_cases hAlloc : q.allocated = some id
  · simp [hAlloc, hNamed id hAlloc]
  · by_cases hq : q = .free id
    · simp [hq, hFree id hq, Request.allocated]
    · simpa [hAlloc, hq, hOther id hAlloc hq] using h id

theorem checkLine_allowed (hTracks : Tracks c.hash before) (hq : request line = some q)
    (hAllowed : Allowed before q) :
    ∃ hash, checkLine c line = .ok (c.keep line hash) ∧ Tracks hash (before ++ [q]) := by
  have hWords := request_fields hq
  cases q with
  | alloc id size =>
    refine ⟨c.hash.insert id ['a'], ?_, hTracks.snoc ?_ nofun ?_⟩
    · rw [checkLine_alloc hWords, (hTracks id).2 hAllowed]
      rfl
    · rintro _ ⟨⟩
      exact AList.lookup_insert _
    · intro id' hOther _
      exact AList.lookup_insert_ne fun hEq => hOther (congrArg some hEq.symm)
  | realloc id size =>
    refine ⟨c.hash, ?_, hTracks.snoc nofun nofun fun _ _ _ => rfl⟩
    rw [checkLine_realloc hWords, (hTracks id).1 hAllowed]
    rfl
  | free id =>
    refine ⟨c.hash.erase id, ?_, hTracks.snoc nofun ?_ ?_⟩
    · rw [checkLine_free hWords, (hTracks id).1 hAllowed]
      rfl
    · rintro _ ⟨⟩
      exact AList.lookup_erase _ _
    · intro id' _ hOther
      exact AList.lookup_erase_ne fun hEq => hOther (congrArg Request.free hEq.symm)

theorem checkLine_refused (hTracks : Tracks c.hash before) (hq : request line = some q)
    (hRefused : ¬ Allowed before q) : ∃ e, checkLine c line = .error e := by
  have hWords := request_fields hq
  cases q with
  | alloc id size =>
    refine ⟨.allocLive (c.linenum + 1), ?_⟩
    rw [checkLine_alloc hWords, (hTracks id).1 (not_not.mp hRefused)]
    rfl
  | realloc id size =>
    refine ⟨.reallocUnallocated (c.linenum + 1), ?_⟩
    rw [checkLine_realloc hWords, (hTracks id).2 hRefused]
    rfl
  | free id =>
    refine ⟨.freeUnallocated (c.linenum + 1), ?_⟩
    rw [checkLine_free hWords, (hTracks id).2 hRefused]
    rfl

end Line

/-! ## The whole trace -/

section Run

variable {c : Checker} {line : Chars} {ls : List Chars} {before rs : List Request}

/-- Discipline of the requests after those before them. -/
def DisciplinedFrom (before rs : List Request) : Prop :=
  ∀ mid q after, rs = mid ++ q :: after → Allowed (before ++ mid) q

theorem disciplinedFrom_cons {q : Request} :
    DisciplinedFrom before (q :: rs) ↔ Allowed before q ∧ DisciplinedFrom (before ++ [q]) rs := by
  constructor
  · intro h
    refine ⟨by simpa using h [] q rs rfl, ?_⟩
    rintro mid q' after rfl
    simpa using h (q :: mid) q' after rfl
  · rintro ⟨hFirst, hRest⟩ mid q' after hSplit
    cases mid with
    | nil =>
      cases hSplit
      simpa using hFirst
    | cons q'' mid =>
      cases hSplit
      simpa using hRest mid q' after rfl

theorem requests_cons (h : requests (line :: ls) = some rs) :
    (words line = [] ∧ requests ls = some rs) ∨
    ∃ q rs', words line ≠ [] ∧ request line = some q ∧ requests ls = some rs' ∧ rs = q :: rs' := by
  rw [requests] at h
  split at h
  · exact .inl ⟨‹_›, h⟩
  · simp only [bind, Option.bind_eq_some_iff, pure, Option.some.injEq] at h
    obtain ⟨q, hq, rs', hRest, rfl⟩ := h
    exact .inr ⟨q, rs', ‹_›, hq, hRest, rfl⟩

theorem checkLines_accepted (hTracks : Tracks c.hash before) (h : requests ls = some rs)
    (hDisciplined : DisciplinedFrom before rs) :
    ∃ c', ls.foldlM checkLine c = .ok c' ∧ Tracks c'.hash (before ++ rs) ∧
      c'.lines = c.lines ++ ls.filter (words · ≠ []) := by
  induction ls generalizing c before rs with
  | nil =>
    cases h
    exact ⟨c, rfl, by simpa using hTracks, by simp⟩
  | cons line ls ih =>
    obtain ⟨hBlank, hRest⟩ | ⟨q, rs', hWords, hq, hRest, rfl⟩ := requests_cons h
    · obtain ⟨c', hRun, hTracks', hLines⟩ :=
        ih (c := { c with linenum := c.linenum + 1 }) hTracks hRest hDisciplined
      refine ⟨c', ?_, hTracks', ?_⟩
      · rw [List.foldlM_cons, checkLine_blank hBlank]
        exact hRun
      · simpa [hBlank] using hLines
    · obtain ⟨hFirst, hDisciplined⟩ := disciplinedFrom_cons.mp hDisciplined
      obtain ⟨hash, hLine, hHash⟩ := checkLine_allowed hTracks hq hFirst
      obtain ⟨c', hRun, hTracks', hLines⟩ := ih (c := c.keep line hash) hHash hRest hDisciplined
      refine ⟨c', ?_, by simpa using hTracks', ?_⟩
      · rw [List.foldlM_cons, hLine]
        exact hRun
      · simpa [hWords, Checker.keep] using hLines

theorem checkLines_refused (hTracks : Tracks c.hash before) (h : requests ls = some rs)
    (hRefused : ¬ DisciplinedFrom before rs) : ∃ e, ls.foldlM checkLine c = .error e := by
  induction ls generalizing c before rs with
  | nil =>
    cases h
    exact absurd (by simp [DisciplinedFrom]) hRefused
  | cons line ls ih =>
    obtain ⟨hBlank, hRest⟩ | ⟨q, rs', -, hq, hRest, rfl⟩ := requests_cons h
    · obtain ⟨e, hRun⟩ := ih (c := { c with linenum := c.linenum + 1 }) hTracks hRest hRefused
      exact ⟨e, by rw [List.foldlM_cons, checkLine_blank hBlank]; exact hRun⟩
    · by_cases hFirst : Allowed before q
      · obtain ⟨hash, hLine, hHash⟩ := checkLine_allowed hTracks hq hFirst
        obtain ⟨e, hRun⟩ := ih (c := c.keep line hash) hHash hRest fun hDisciplined =>
          hRefused (disciplinedFrom_cons.mpr ⟨hFirst, hDisciplined⟩)
        exact ⟨e, by rw [List.foldlM_cons, hLine]; exact hRun⟩
      · obtain ⟨e, hLine⟩ := checkLine_refused hTracks hq hFirst
        exact ⟨e, by rw [List.foldlM_cons, hLine]; rfl⟩

theorem tracks_empty : Tracks ∅ [] := fun _ =>
  ⟨fun h => absurd h not_live_nil, fun _ => AList.lookup_empty _⟩

def freeLine (id : Chars) : Chars := ['f', ' '] ++ id

theorem printFrees_live {hash : Hash} {keys : List Chars}
    (h : ∀ key ∈ keys, hash.lookup key = some ['a']) :
    printFrees hash keys = ⟨unlines (keys.map freeLine), none⟩ := by
  induction keys with
  | nil => rfl
  | cons key keys ih =>
    have hKey := h key List.mem_cons_self
    have hRest := ih fun key' hMem => h key' (List.mem_cons_of_mem key hMem)
    simp [printFrees, hKey, hRest, sameString, unlines, freeLine]

theorem Tracks.mem_keys {hash : Hash} (h : Tracks hash before) {id : Chars} :
    id ∈ hash.keys ↔ Live before id := by
  rw [← AList.mem_keys, ← AList.lookup_isSome]
  by_cases hLive : Live before id
  · simp [hLive, (h id).1 hLive]
  · simp [hLive, (h id).2 hLive]

/-- The ids that the printed free requests name. -/
def balancingIds (hash : Hash) : List Chars := hash.keys.insertionSort (stringLe · ·)

theorem Tracks.mem_balancingIds {hash : Hash} (h : Tracks hash before) {id : Chars} :
    id ∈ balancingIds hash ↔ Live before id := by
  rw [balancingIds, List.mem_insertionSort, h.mem_keys]

variable (floating : Chars → Nat → Chars) (summary : Bool) {stdin : Chars}

theorem checktrace_accepted (h : requests ((lines stdin).drop 4) = some rs) (hDisciplined : Disciplined rs) :
    ∃ hash, Tracks hash rs ∧ checktrace floating true stdin =
        ⟨if hash.keys = [] then "Balanced trace.\n".toList else "Unbalanced tree.\n".toList, none⟩ ∧
      checktrace floating false stdin =
        ⟨unlines ([(lines stdin)[0]?.getD [], (lines stdin)[1]?.getD [],
            sum floating ((lines stdin)[2]?.getD []) hash.keys.length, (lines stdin)[3]?.getD []] ++
            ((lines stdin).drop 4).filter (words · ≠ [])) ++
          unlines ((balancingIds hash).map freeLine), none⟩ := by
  obtain ⟨c, hRun, hTracks, hLines⟩ :=
    checkLines_accepted (c := ⟨∅, [], 4⟩) tracks_empty h hDisciplined
  rw [List.nil_append] at hTracks hLines
  have hKeys : ∀ key ∈ balancingIds c.hash, c.hash.lookup key = some ['a'] := fun key hKey =>
    (hTracks key).1 (hTracks.mem_balancingIds.mp hKey)
  refine ⟨c.hash, hTracks, ?_, ?_⟩
  · rw [checktrace, hRun]
    rfl
  · rw [checktrace, hRun]
    dsimp only
    rw [← balancingIds, printFrees_live hKeys, hLines]
    rfl

theorem checktrace_refused (h : requests ((lines stdin).drop 4) = some rs) (hRefused : ¬ Disciplined rs) :
    ∃ e, checktrace floating summary stdin = ⟨[], some e⟩ := by
  obtain ⟨e, hRun⟩ := checkLines_refused (c := ⟨∅, [], 4⟩) tracks_empty h hRefused
  refine ⟨e, ?_⟩
  rw [checktrace, hRun]

theorem died_iff (h : requests ((lines stdin).drop 4) = some rs) :
    (checktrace floating summary stdin).died = none ↔ Disciplined rs := by
  by_cases hDisciplined : Disciplined rs
  · obtain ⟨hash, -, hSummary, hOutput⟩ := checktrace_accepted floating h hDisciplined
    refine iff_of_true ?_ hDisciplined
    cases summary with
    | true => rw [hSummary]
    | false => rw [hOutput]
  · obtain ⟨e, hRun⟩ := checktrace_refused floating summary h hDisciplined
    simp [hRun, hDisciplined]

end Run

/-- The program accepts the disciplined traces; they are the consistent ones up to reuse. -/
theorem checktrace_consistent_iff (floating : Chars → Nat → Chars) (summary : Bool) (stdin : Chars)
    (rs : List Request) (h : requests ((lines stdin).drop 4) = some rs) :
    ((checktrace floating summary stdin).died = none ↔ Consistent rs) ↔
      ¬ (Disciplined rs ∧ Reuses rs) := by
  rw [died_iff floating summary h, consistent_iff]
  by_cases hDisciplined : Disciplined rs <;> by_cases hReuses : Reuses rs <;>
    simp [hDisciplined, hReuses]

/-- An id allocated, freed and allocated again. -/
def reusedTrace : Chars := unlines
  [['9'], ['1'], ['3'], ['1'], ['a', ' ', '0', ' ', '8'], ['f', ' ', '0'], ['a', ' ', '0', ' ', '8']]

def reusedRequests : List Request := [.alloc ['0'] ['8'], .free ['0'], .alloc ['0'] ['8']]

theorem reused_id_accepted :
    requests ((lines reusedTrace).drop 4) = some reusedRequests ∧
      ¬ ((checktrace (fun old _ => old) false reusedTrace).died = none ↔ Consistent reusedRequests) := by
  refine ⟨by decide, fun h => ?_⟩
  exact absurd (h.mp (by decide)).once (by decide)

theorem checktrace_consistent_iff_reused :
    ((checktrace (fun old _ => old) false reusedTrace).died = none ↔ Consistent reusedRequests) ↔
      ¬ (Disciplined reusedRequests ∧ Reuses reusedRequests) :=
  checktrace_consistent_iff (fun old _ => old) false reusedTrace reusedRequests (by decide)

end Cs33.Traces
