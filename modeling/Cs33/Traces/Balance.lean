import Mathlib.Data.List.TakeWhile
import Cs33.Traces.Checktrace

/-! # The balanced output

The hash after an accepted trace holds the live ids, so the appended requests
free each of them once and leave none live. The second run reads back the lines
the first one printed.
-/

namespace Cs33.Traces

open Text

/-! ## Counting -/

theorem integerValue_digits {ds : Chars} (h : ∀ c ∈ ds, c.isDigit = true) :
    integerValue ds = some (Nat.ofDigitChars 10 ds 0 : Int) := by
  have hSpace : skipSpace ds = ds := by
    cases ds with
    | nil => rfl
    | cons c ds => simp [skipSpace, isSpace_of_isDigit (h c List.mem_cons_self)]
  have hSign : scanSign ds = (false, ds) := by
    unfold scanSign
    split
    · exact absurd (h '-' List.mem_cons_self) (by decide)
    · exact absurd (h '+' List.mem_cons_self) (by decide)
    · rfl
  have hTake : ds.takeWhile Char.isDigit = ds := List.takeWhile_eq_self_iff.mpr h
  have hDrop : ds.dropWhile Char.isDigit = [] := List.dropWhile_eq_nil_iff.mpr h
  simp [integerValue, hSpace, hSign, hTake, hDrop]

theorem decimal_natCast (n : Nat) : decimal n = Nat.toDigits 10 n := by
  simp [decimal]

theorem isDigit_decimal {n : Nat} {c : Char} (h : c ∈ decimal n) : c.isDigit = true := by
  rw [decimal_natCast] at h
  exact Nat.isDigit_of_mem_toDigits (by decide) (by decide) h

theorem integerValue_decimal (n : Nat) : integerValue (decimal n) = some (n : Int) := by
  rw [integerValue_digits fun c hc => isDigit_decimal hc, decimal_natCast,
    Nat.ofDigitChars_ten_toDigits]

theorem newline_notMem_decimal (n : Nat) : '\n' ∉ decimal n := fun h =>
  absurd (isDigit_decimal h) (by decide)

/-! ## The requests of the output -/

section Requests

variable {ls ls' : List Chars} {rs rs' : List Request} {id : Chars} {q : Request}

theorem requests_append (h : requests ls = some rs) (h' : requests ls' = some rs') :
    requests (ls ++ ls') = some (rs ++ rs') := by
  induction ls generalizing rs with
  | nil =>
    cases h
    exact h'
  | cons line ls ih =>
    obtain ⟨hBlank, hRest⟩ | ⟨q, rest, hWords, hq, hRest, rfl⟩ := requests_cons h
    · simp [requests, hBlank, ih hRest]
    · simp [requests, hWords, hq, ih hRest]

theorem requests_filter (h : requests ls = some rs) :
    requests (ls.filter (words · ≠ [])) = some rs := by
  induction ls generalizing rs with
  | nil => exact h
  | cons line ls ih =>
    obtain ⟨hBlank, hRest⟩ | ⟨q, rest, hWords, hq, hRest, rfl⟩ := requests_cons h
    · simpa [hBlank] using ih hRest
    · have hKept := ih hRest
      simp only [ne_eq, decide_not] at hKept
      simp [requests, hWords, hq, hKept]

theorem length_requests (h : requests ls = some rs) :
    (ls.filter (words · ≠ [])).length = rs.length := by
  induction ls generalizing rs with
  | nil =>
    cases h
    rfl
  | cons line ls ih =>
    obtain ⟨hBlank, hRest⟩ | ⟨q, rest, hWords, hq, hRest, rfl⟩ := requests_cons h
    · simpa [hBlank] using ih hRest
    · simpa [hWords] using ih hRest

/-- The ids of a trace are words of its lines. -/
theorem id_mem_words (h : requests ls = some rs) (hId : id ∈ rs.filterMap Request.allocated) :
    ∃ line, id ∈ words line := by
  induction ls generalizing rs with
  | nil =>
    cases h
    cases hId
  | cons line ls ih =>
    obtain ⟨-, hRest⟩ | ⟨q, rest, -, hq, hRest, rfl⟩ := requests_cons h
    · exact ih hRest hId
    · obtain ⟨q', hMem, hAlloc⟩ := List.mem_filterMap.mp hId
      obtain rfl | hMem := List.mem_cons.mp hMem
      · obtain ⟨size, rfl⟩ := allocated_eq_some.mp hAlloc
        exact ⟨line, by simp [request_fields hq, Request.fields]⟩
      · exact ih hRest (List.mem_filterMap.mpr ⟨q', hMem, hAlloc⟩)

theorem words_freeLine {line : Chars} (h : id ∈ words line) : words (freeLine id) = [['f'], id] := by
  obtain ⟨hNonempty, hWord⟩ := mem_words h
  have hFirst : words (['f'] ++ ' ' :: id) = ['f'] :: words id := by
    refine words_append (List.cons_ne_nil _ _) (fun c hc => ?_) id
    rw [List.mem_singleton.mp hc]
    rfl
  exact hFirst.trans (congrArg _ (words_word hNonempty hWord))

theorem requests_freeLines {ids : List Chars} (h : ∀ id ∈ ids, ∃ line, id ∈ words line) :
    requests (ids.map freeLine) = some (ids.map .free) := by
  induction ids with
  | nil => rfl
  | cons id ids ih =>
    obtain ⟨line, hLine⟩ := h id List.mem_cons_self
    have hRest := ih fun id' hMem => h id' (List.mem_cons_of_mem id hMem)
    simp [requests, request, words_freeLine hLine, hRest]

theorem Disciplined.snoc (h : Disciplined rs) (hAllowed : Allowed rs q) :
    Disciplined (rs ++ [q]) := by
  intro before q' after hSplit
  obtain rfl | ⟨after, last, rfl⟩ := List.eq_nil_or_concat' after
  · obtain ⟨rfl, hLast⟩ := List.append_inj' hSplit rfl
    cases hLast
    exact hAllowed
  · rw [← List.cons_append, ← List.append_assoc] at hSplit
    exact h before q' after (List.append_inj' hSplit rfl).1

/-- Freeing each live id once keeps the discipline and leaves no id live. -/
theorem Disciplined.frees {ids : List Chars} (h : Disciplined rs) (hNodup : ids.Nodup)
    (hLive : ∀ id, id ∈ ids ↔ Live rs id) :
    Disciplined (rs ++ ids.map .free) ∧ ∀ id, ¬ Live (rs ++ ids.map .free) id := by
  induction ids generalizing rs with
  | nil => simpa [h] using hLive
  | cons id ids ih =>
    obtain ⟨hNotMem, hNodup⟩ := List.nodup_cons.mp hNodup
    have hStep := ih (h.snoc (q := .free id) ((hLive id).mp List.mem_cons_self)) hNodup fun id' => by
      rw [live_append_one, ← hLive id', List.mem_cons]
      constructor
      · intro hMem
        refine .inr ⟨.inr hMem, fun hEq => hNotMem ?_⟩
        rwa [Request.free.inj hEq]
      · rintro (hAlloc | ⟨rfl | hMem, hOther⟩)
        · cases hAlloc
        · exact absurd rfl hOther
        · exact hMem
    rwa [List.append_assoc] at hStep

end Requests

/-! ## The output -/

/-- The lines of an output that balances the input: `kept` are the request lines of the input, and
`freed` the ids that the appended lines name. -/
structure Balances (input kept : List Chars) (rs : List Request) (freed output : List Chars) :
    Prop where
  printed : output = [input[0]?.getD [], input[1]?.getD [],
    decimal (kept.length + freed.length : Nat), input[3]?.getD []] ++ (kept ++ freed.map freeLine)
  numOps : integerValue (output[2]?.getD []) = some ((output.drop 4).length : Int)
  asked : requests (output.drop 4) = some (rs ++ freed.map .free)
  nodup : freed.Nodup
  live : ∀ id, id ∈ freed ↔ Live rs id

section Output

variable {input kept freed : List Chars} {rs : List Request} {stdin stdout : Chars}

theorem newline_notMem_field (stdin : Chars) (i : Nat) : '\n' ∉ (lines stdin)[i]?.getD [] := by
  cases hLine : (lines stdin)[i]? with
  | none => exact List.not_mem_nil
  | some line => exact newline_notMem_lines (List.mem_of_getElem? hLine)

theorem newline_notMem_freeLine {line id : Chars} (h : id ∈ words line) : '\n' ∉ freeLine id := by
  simp only [freeLine, List.mem_append, not_or]
  exact ⟨by decide, fun hMem => absurd ((mem_words h).2 '\n' hMem) (by decide)⟩

theorem sum_of_value (floating : Chars → Nat → Chars) {old : Chars} {n : Nat}
    (h : integerValue old = some (n : Int)) (new : Nat) :
    sum floating old new = decimal (n + new : Nat) := by
  simp [sum, h]

theorem first_run (floating : Chars → Nat → Chars)
    (h : requests ((lines stdin).drop 4) = some rs) (hDisciplined : Disciplined rs)
    (hCount : integerValue ((lines stdin)[2]?.getD []) = some (rs.length : Int)) :
    ∃ freed stdout, checktrace floating false stdin = ⟨stdout, none⟩ ∧ unlines (lines stdout) = stdout ∧
      (∀ id ∈ freed, ∃ line, id ∈ words line) ∧
      Balances (lines stdin) (((lines stdin).drop 4).filter (words · ≠ [])) rs freed (lines stdout) := by
  obtain ⟨hash, hTracks, -, hOutput⟩ := checktrace_accepted floating h hDisciplined
  have hLive : ∀ id, id ∈ balancingIds hash ↔ Live rs id := fun id => hTracks.mem_balancingIds
  have hWords : ∀ id ∈ balancingIds hash, ∃ line, id ∈ words line := fun id hMem =>
    id_mem_words h ((hLive id).mp hMem).allocated_mem
  have hNodup : (balancingIds hash).Nodup :=
    (List.perm_insertionSort _ _).nodup_iff.mpr hash.keys_nodup
  have hLength : (balancingIds hash).length = hash.keys.length := List.length_insertionSort _ _
  have hKept := length_requests h
  rw [sum_of_value floating hCount, ← hKept, ← hLength, ← unlines_append, List.append_assoc] at hOutput
  generalize hk : ((lines stdin).drop 4).filter (words · ≠ []) = kept at hOutput hKept ⊢
  have hNewline : ∀ line ∈ [(lines stdin)[0]?.getD [], (lines stdin)[1]?.getD [],
      decimal (kept.length + (balancingIds hash).length : Nat), (lines stdin)[3]?.getD []] ++
      (kept ++ (balancingIds hash).map freeLine), '\n' ∉ line := by
    intro line hMem
    simp only [List.mem_append, List.mem_cons, List.not_mem_nil, or_false, List.mem_map] at hMem
    obtain (rfl | rfl | rfl | rfl) | hMem | ⟨id, hMem, rfl⟩ := hMem
    · exact newline_notMem_field stdin 0
    · exact newline_notMem_field stdin 1
    · exact newline_notMem_decimal _
    · exact newline_notMem_field stdin 3
    · rw [← hk] at hMem
      exact newline_notMem_lines (List.mem_of_mem_drop (List.mem_filter.mp hMem).1)
    · obtain ⟨line, hLine⟩ := hWords id hMem
      exact newline_notMem_freeLine hLine
  have hLines := lines_unlines hNewline
  refine ⟨balancingIds hash, _, hOutput, congrArg unlines hLines, hWords, hLines, ?_, ?_, hNodup, hLive⟩
  · rw [hLines]
    simpa using integerValue_decimal (kept.length + (balancingIds hash).length)
  · have hFirst : requests kept = some rs := by
      rw [← hk]
      exact requests_filter h
    have hAll := requests_append hFirst (requests_freeLines hWords)
    rw [hLines]
    exact hAll

/-- Nothing is left to free after the output, so the second run prints what it reads. -/
theorem Balances.second_run (floating : Chars → Nat → Chars)
    (h : Balances input (kept.filter (words · ≠ [])) rs freed (lines stdout))
    (hDisciplined : Disciplined rs) (hWords : ∀ id ∈ freed, ∃ line, id ∈ words line)
    (hText : unlines (lines stdout) = stdout) :
    checktrace floating true stdout = ⟨"Balanced trace.\n".toList, none⟩ ∧
      checktrace floating false stdout = ⟨stdout, none⟩ := by
  obtain ⟨hAll, hDead⟩ := hDisciplined.frees h.nodup h.live
  obtain ⟨hash, hTracks, hSummary, hOutput⟩ := checktrace_accepted floating h.asked hAll
  have hKeys : hash.keys = [] :=
    List.eq_nil_iff_forall_not_mem.mpr fun id hMem => hDead id (hTracks.mem_keys.mp hMem)
  have hIds : balancingIds hash = [] := by rw [balancingIds, hKeys]; rfl
  have hFrees : (freed.map freeLine).filter (words · ≠ []) = freed.map freeLine := by
    refine List.filter_eq_self.mpr fun line hMem => ?_
    obtain ⟨id, hId, rfl⟩ := List.mem_map.mp hMem
    obtain ⟨line, hLine⟩ := hWords id hId
    simp [words_freeLine hLine]
  constructor
  · rw [hSummary, if_pos hKeys]
  · have hSame : [(lines stdout)[0]?.getD [], (lines stdout)[1]?.getD [],
        decimal (((lines stdout).drop 4).length + 0 : Nat), (lines stdout)[3]?.getD []] ++
        ((lines stdout).drop 4).filter (words · ≠ []) = lines stdout := by
      rw [h.printed]
      simpa using hFrees
    rw [hOutput, hIds, hKeys, sum_of_value floating h.numOps, List.length_nil, hSame, hText]
    simp [unlines]

end Output

/-- Balancing an accepted trace whose header counts its requests; a second run accepts the result,
finds it balanced and prints it again. -/
theorem checktrace_balances (floating : Chars → Nat → Chars) (stdin : Chars) (rs : List Request)
    (h : requests ((lines stdin).drop 4) = some rs)
    (hAccepted : (checktrace floating false stdin).died = none)
    (hCount : integerValue ((lines stdin)[2]?.getD []) = some (rs.length : Int)) :
    ∃ freed stdout, checktrace floating false stdin = ⟨stdout, none⟩ ∧
      Balances (lines stdin) (((lines stdin).drop 4).filter (words · ≠ [])) rs freed (lines stdout) ∧
      checktrace floating true stdout = ⟨"Balanced trace.\n".toList, none⟩ ∧
      checktrace floating false stdout = ⟨stdout, none⟩ := by
  have hDisciplined := (died_iff floating false h).mp hAccepted
  obtain ⟨freed, stdout, hRun, hText, hWords, hBalances⟩ := first_run floating h hDisciplined hCount
  exact ⟨freed, stdout, hRun, hBalances, hBalances.second_run floating hDisciplined hWords hText⟩

/-- Two ids, of which one is freed, and a blank line. -/
def shortTrace : Chars := unlines
  [['9'], ['2'], ['3'], ['1'], ['a', ' ', '0', ' ', '8'], [], ['a', ' ', '1', ' ', '8'], ['f', ' ', '0']]

def shortRequests : List Request := [.alloc ['0'] ['8'], .alloc ['1'] ['8'], .free ['0']]

theorem checktrace_balances_short :
    ∃ freed stdout, checktrace (fun old _ => old) false shortTrace = ⟨stdout, none⟩ ∧
      Balances (lines shortTrace) (((lines shortTrace).drop 4).filter (words · ≠ [])) shortRequests freed
        (lines stdout) ∧
      checktrace (fun old _ => old) true stdout = ⟨"Balanced trace.\n".toList, none⟩ ∧
      checktrace (fun old _ => old) false stdout = ⟨stdout, none⟩ :=
  checktrace_balances (fun old _ => old) shortTrace shortRequests (by decide) (by decide) (by decide)

end Cs33.Traces
