import Cs33.Datalab.Scoreboard
import Cs33.Datalab.TestSet
import Cs33.Lib.Percent

/-! # The autoresult and its submission

driver.pl sends the scores as one string to a result server, in the URI of a
GET request. The string is encoded there, the nickname is not. The server is
no part of the repository: what follows is about the text it is sent.
-/

namespace Cs33.Datalab

open Text
open Traces (decimal Hash)

/-- A character that `url_encode` keeps: `[a-zA-Z0-9_\-.]`. -/
def keptInUrl (c : Char) : Bool := c.isAlphanum || c == '_' || c == '-' || c == '.'

def urlEncode (value : Chars) : Chars := percentEncode keptInUrl value

def COURSE_NAME : Chars := "csapp".toList
def LAB : Chars := "datalab".toList

/-- What `submitr` prints to the server. -/
def request (course userid lab result : Chars) : Chars :=
  "GET /".toList ++ course ++ "/submitr.pl/?userid=".toList ++ userid ++ "&lab=".toList ++ lab ++
    "&result=".toList ++ urlEncode result ++ "&submit=submit HTTP/1.0\r\n\r\n".toList

inductive NicknameError where
  | empty
  | tooLong
  | illegal
  | whitespace
deriving DecidableEq, Repr

/-- `[_-\w.,'@ ]`: the minus sign begins no range before a class. -/
def nicknameChar (c : Char) : Bool :=
  c.isAlphanum || ['_', '-', '.', ',', '\'', '@', ' '].contains c

/-- What `^` and `$` enclose: a `$` also matches before a newline at the end. -/
def beforeNewline (s : Chars) : Chars := if s.getLast? = some '\n' then s.dropLast else s

/-- `check_nickname`. -/
def checkNickname (nickname : Chars) : Except NicknameError Unit :=
  let body := beforeNewline nickname
  if nickname.length < 1 then .error .empty
  else if nickname.length > 35 then .error .tooLong
  else if body.isEmpty || body.any (!nicknameChar ·) then .error .illegal
  else if nickname.all isSpace then .error .whitespace
  else .ok ()

/-- What driver.pl sends for a user; the nickname `0` counts as none there. -/
def submission (login nickname result : Chars) : Chars :=
  request COURSE_NAME (login ++ ':' :: nickname) LAB result

/-- What a submission is made of: a login without reserved characters, a nickname that
`check_nickname` lets through, and bytes. -/
structure Sendable (login nickname result : Chars) : Prop where
  login_kept : ∀ c ∈ login, keptInUrl c = true
  accepted : checkNickname nickname = .ok ()
  bytes : ∀ c ∈ result, c.toNat < 256

/-- A request line of three fields, and the empty line that ends the request. -/
def OneRequest (s : Chars) : Prop :=
  ∃ method uri version : Chars, (∀ c ∈ method ++ uri ++ version, c ≠ ' ' ∧ c ≠ '\r' ∧ c ≠ '\n') ∧
    s = method ++ ' ' :: (uri ++ ' ' :: (version ++ "\r\n\r\n".toList))

/-! ## The request -/

section Request

variable {login nickname result s : Chars} {c : Char}

theorem OneRequest.count_eq (h : OneRequest s) : s.count ' ' = 2 ∧ s.count '\n' = 2 := by
  obtain ⟨method, uri, version, hFields, rfl⟩ := h
  have hNone : ∀ c, c = ' ' ∨ c = '\n' →
      method.count c = 0 ∧ uri.count c = 0 ∧ version.count c = 0 := by
    intro c hc
    have hMem : c ∉ method ++ uri ++ version := by
      intro hMem
      obtain ⟨hBlank, -, hNewline⟩ := hFields c hMem
      exact hc.elim hBlank hNewline
    simpa only [List.mem_append, not_or, ← List.count_eq_zero, and_assoc] using hMem
  obtain ⟨hMethod, hUri, hVersion⟩ := hNone ' ' (.inl rfl)
  obtain ⟨hMethod', hUri', hVersion'⟩ := hNone '\n' (.inr rfl)
  constructor
  · simp [List.count_append, hMethod, hUri, hVersion]
  · simp [List.count_append, hMethod', hUri', hVersion']

theorem beforeNewline_cases (s : Chars) : s = beforeNewline s ∨ s = beforeNewline s ++ ['\n'] := by
  unfold beforeNewline
  split
  · rename_i hLast
    obtain ⟨front, rfl⟩ := List.getLast?_eq_some_iff.mp hLast
    rw [List.dropLast_concat]
    exact .inr rfl
  · exact .inl rfl

/-- A nickname that is accepted has legal characters, and a newline at its end at most. -/
theorem checkNickname_ok (h : checkNickname nickname = .ok ()) (hc : c ∈ nickname) :
    nicknameChar c = true ∨ c = '\n' := by
  have hLegal : ∀ c ∈ beforeNewline nickname, nicknameChar c = true := by
    unfold checkNickname at h
    dsimp only at h
    split at h
    · cases h
    split at h
    · cases h
    split at h
    · cases h
    · rename_i hLegal
      exact (by simpa using hLegal : _ ∧ _).2
  obtain hSame | hEnd := beforeNewline_cases nickname
  · rw [hSame] at hc
    exact .inl (hLegal c hc)
  · rw [hEnd] at hc
    obtain hc | hc := List.mem_append.mp hc
    · exact .inl (hLegal c hc)
    · exact .inr (List.mem_singleton.mp hc)

/-- A character that ends neither a field of the request line nor a parameter. -/
def Harmless (c : Char) : Prop := c ≠ ' ' ∧ c ≠ '\r' ∧ c ≠ '\n' ∧ c ≠ '&'

theorem harmless_of_kept (h : keptInUrl c = true) : Harmless c ∧ c ≠ ':' := by
  refine ⟨⟨?_, ?_, ?_, ?_⟩, ?_⟩ <;>
  · rintro rfl
    exact absurd h (by decide)

theorem nicknameChar_ne (h : nicknameChar c = true) : c ≠ '\r' ∧ c ≠ '\n' ∧ c ≠ '&' := by
  refine ⟨?_, ?_, ?_⟩ <;>
  · rintro rfl
    exact absurd h (by decide)

theorem harmless_urlEncode (hBytes : ∀ c ∈ result, c.toNat < 256) (h : c ∈ urlEncode result) :
    Harmless c := by
  obtain hKept | rfl | ⟨k, hk, rfl⟩ := mem_percentEncode hBytes h
  · exact (harmless_of_kept hKept).1
  · refine ⟨?_, ?_, ?_, ?_⟩ <;> decide
  · have hAll : ∀ k : Fin 16, k.val.digitChar.toUpper ≠ ' ' ∧ k.val.digitChar.toUpper ≠ '\r' ∧
        k.val.digitChar.toUpper ≠ '\n' ∧ k.val.digitChar.toUpper ≠ '&' := by decide
    exact hAll ⟨k, hk⟩

theorem submission_eq (login nickname result : Chars) : submission login nickname result =
    "GET /csapp/submitr.pl/?userid=".toList ++ ((login ++ ':' :: nickname) ++
      '&' :: ("lab=datalab&result=".toList ++ (urlEncode result ++
        "&submit=submit HTTP/1.0\r\n\r\n".toList))) := by
  have hStart : "GET /".toList ++ COURSE_NAME ++ "/submitr.pl/?userid=".toList =
      "GET /csapp/submitr.pl/?userid=".toList := by decide
  have hMiddle : "&lab=".toList ++ LAB ++ "&result=".toList =
      '&' :: "lab=datalab&result=".toList := by decide
  have hAssoc : ∀ start userid a b c encoded last : Chars,
      start ++ userid ++ a ++ b ++ c ++ encoded ++ last =
        start ++ (userid ++ ((a ++ b ++ c) ++ (encoded ++ last))) := by simp
  have hText := hAssoc ("GET /".toList ++ COURSE_NAME ++ "/submitr.pl/?userid=".toList)
    (login ++ ':' :: nickname) "&lab=".toList LAB "&result=".toList (urlEncode result)
    "&submit=submit HTTP/1.0\r\n\r\n".toList
  rw [hStart, hMiddle] at hText
  exact hText

/-- Its blanks and newlines are those of the request format and of the nickname. -/
theorem count_submission (h : Sendable login nickname result) (hc : c = ' ' ∨ c = '\n') :
    (submission login nickname result).count c = 2 + nickname.count c := by
  have hLogin : login.count c = 0 := by
    rw [List.count_eq_zero]
    intro hMem
    obtain ⟨⟨hBlank, -, hNewline, -⟩, -⟩ := harmless_of_kept (h.login_kept c hMem)
    exact hc.elim hBlank hNewline
  have hResult : (urlEncode result).count c = 0 := by
    rw [List.count_eq_zero]
    intro hMem
    obtain ⟨hBlank, -, hNewline, -⟩ := harmless_urlEncode h.bytes hMem
    exact hc.elim hBlank hNewline
  rw [submission_eq]
  simp only [List.count_append, List.count_cons, hLogin, hResult]
  obtain rfl | rfl := hc
  · have hStart : "GET /csapp/submitr.pl/?userid=".toList.count ' ' = 1 := by decide
    have hMiddle : "lab=datalab&result=".toList.count ' ' = 0 := by decide
    have hEnd : "&submit=submit HTTP/1.0\r\n\r\n".toList.count ' ' = 1 := by decide
    rw [hStart, hMiddle, hEnd, if_neg (by decide), if_neg (by decide)]
    omega
  · have hStart : "GET /csapp/submitr.pl/?userid=".toList.count '\n' = 0 := by decide
    have hMiddle : "lab=datalab&result=".toList.count '\n' = 0 := by decide
    have hEnd : "&submit=submit HTTP/1.0\r\n\r\n".toList.count '\n' = 2 := by decide
    rw [hStart, hMiddle, hEnd, if_neg (by decide), if_neg (by decide)]
    omega

/-- The request line has three fields unless the nickname has a blank or ends with a newline. -/
theorem oneRequest_iff (h : Sendable login nickname result) :
    OneRequest (submission login nickname result) ↔ ' ' ∉ nickname ∧ '\n' ∉ nickname := by
  constructor
  · intro hOne
    obtain ⟨hBlank, hNewline⟩ := hOne.count_eq
    rw [count_submission h (.inl rfl)] at hBlank
    rw [count_submission h (.inr rfl)] at hNewline
    rw [← List.count_eq_zero, ← List.count_eq_zero]
    omega
  · rintro ⟨hBlank, hNewline⟩
    let uri := "/csapp/submitr.pl/?userid=".toList ++ ((login ++ ':' :: nickname) ++
      '&' :: ("lab=datalab&result=".toList ++ (urlEncode result ++ "&submit=submit".toList)))
    have hText : submission login nickname result =
        "GET".toList ++ ' ' :: (uri ++ ' ' :: ("HTTP/1.0".toList ++ "\r\n\r\n".toList)) := by
      rw [submission_eq]
      simp [uri]
    refine ⟨"GET".toList, uri, "HTTP/1.0".toList, ?_, hText⟩
    have hNickname : ∀ c ∈ nickname, c ≠ ' ' ∧ c ≠ '\r' ∧ c ≠ '\n' := by
      intro c hc
      obtain hLegal | rfl := checkNickname_ok h.accepted hc
      · exact ⟨fun hEq => hBlank (hEq ▸ hc), (nicknameChar_ne hLegal).1, (nicknameChar_ne hLegal).2.1⟩
      · exact absurd hc hNewline
    have hLogin : ∀ c ∈ login, c ≠ ' ' ∧ c ≠ '\r' ∧ c ≠ '\n' := by
      intro c hc
      obtain ⟨⟨hBlank, hReturn, hNewline, -⟩, -⟩ := harmless_of_kept (h.login_kept c hc)
      exact ⟨hBlank, hReturn, hNewline⟩
    have hResult : ∀ c ∈ urlEncode result, c ≠ ' ' ∧ c ≠ '\r' ∧ c ≠ '\n' := by
      intro c hc
      obtain ⟨hBlank, hReturn, hNewline, -⟩ := harmless_urlEncode h.bytes hc
      exact ⟨hBlank, hReturn, hNewline⟩
    simp only [uri, List.forall_mem_append, List.forall_mem_cons]
    exact ⟨⟨by simp, by simp, ⟨hLogin, by decide, hNickname⟩, by decide, by simp, hResult, by simp⟩,
      by simp⟩

/-- No part of the text can be taken for another. -/
theorem submission_inj {login' nickname' result' : Chars} (h : Sendable login nickname result)
    (h' : Sendable login' nickname' result')
    (hSame : submission login' nickname' result' = submission login nickname result) :
    login' = login ∧ nickname' = nickname ∧ result' = result := by
  have hAnd : ∀ {login nickname result}, Sendable login nickname result →
      '&' ∉ login ++ ':' :: nickname := by
    intro login nickname result h hMem
    obtain hMem | hMem := List.mem_append.mp hMem
    · exact (harmless_of_kept (h.login_kept _ hMem)).1.2.2.2 rfl
    · obtain hColon | hMem := List.mem_cons.mp hMem
      · exact absurd hColon (by decide)
      · obtain hLegal | hNewline := checkNickname_ok h.accepted hMem
        · exact (nicknameChar_ne hLegal).2.2 rfl
        · exact absurd hNewline (by decide)
  have hColon : ∀ {login nickname result}, Sendable login nickname result → ':' ∉ login :=
    fun h hMem => (harmless_of_kept (h.login_kept _ hMem)).2 rfl
  rw [submission_eq, submission_eq] at hSame
  obtain ⟨hUserid, hRest⟩ := append_cons_inj (hAnd h') (hAnd h) (List.append_cancel_left hSame)
  obtain ⟨hLogin, hNickname⟩ := append_cons_inj (hColon h') (hColon h) hUserid
  have hEncoded := List.append_cancel_right (List.append_cancel_left hRest)
  exact ⟨hLogin, hNickname, percentEncode_inj rfl h'.bytes h.bytes hEncoded⟩

end Request

/-- The text is one request line of three fields exactly if the nickname has no blank and no
newline: `check_nickname` accepts both. In any case it determines the login, the nickname and the
whole result. -/
theorem submission_exact (login nickname result : Chars) (h : Sendable login nickname result) :
    (OneRequest (submission login nickname result) ↔ ' ' ∉ nickname ∧ '\n' ∉ nickname) ∧
      ∀ login' nickname' result', Sendable login' nickname' result' →
        submission login' nickname' result' = submission login nickname result →
          login' = login ∧ nickname' = nickname ∧ result' = result :=
  ⟨oneRequest_iff h, fun _ _ _ h' hSame => submission_inj h h' hSame⟩

theorem submission_exact_bits :
    OneRequest (submission "unknown".toList "bit-o'clock".toList "36|20|16|21".toList) ∧
      ¬ OneRequest (submission "unknown".toList "bit o'clock".toList "36|20|16|21".toList) := by
  have hLogin : ∀ c ∈ "unknown".toList, keptInUrl c = true := by simp [keptInUrl]
  have hBytes : ∀ c ∈ "36|20|16|21".toList, c.toNat < 256 := by simp
  have hSent := submission_exact _ "bit-o'clock".toList _ ⟨hLogin, rfl, hBytes⟩
  have hBlank := submission_exact _ "bit o'clock".toList _ ⟨hLogin, rfl, hBytes⟩
  exact ⟨hSent.1.mpr (by simp), fun h => absurd (hBlank.1.mp h).1 (by simp)⟩

/-! ## The autoresult of the handout -/

/-- What the string says about a function with all points. -/
def fullPart (puzzlePOps : Hash) (t : TestRec) : Chars :=
  " |".toList ++ [':'].intercalate [t.name, decimal t.rating, decimal t.rating, decimal 2,
    entry puzzlePOps t.name]

theorem testSet_names (rounds : Nat) : (∀ t ∈ testSet rounds, FunctionName t.name) ∧
    ((testSet rounds).map (·.name)).Nodup := by
  constructor
  · have hNil : ∀ t ∈ ([] : List TestRec), FunctionName t.name :=
      fun _ h => absurd h List.not_mem_nil
    simp only [testSet, List.forall_mem_cons]
    refine ⟨?_, ?_, ?_, ?_, ?_, ?_, ?_, ?_, hNil⟩ <;> exact functionName_of rfl rfl rfl
  · simp [testSet]

theorem errors_zero {vs : List Verdict} (h : 0 = (vs.map Verdict.errors).sum) :
    ∀ v ∈ vs, v.errors = 0 := by
  intro v hv
  exact List.sum_eq_zero_iff_forall_eq_nat.mp h.symm _ (List.mem_map_of_mem hv)

theorem zipWith_fullPart (puzzlePOps : Hash) {vs vs' : List Verdict} {ts : List TestRec}
    (hTested : vs.map Verdict.tested = ts) (hTested' : vs'.map Verdict.tested = ts)
    (hErrors : ∀ v ∈ vs, v.errors = 0) (hErrors' : ∀ v ∈ vs', v.errors = 0) :
    List.zipWith (testedPart puzzlePOps) vs vs' = ts.map (fullPart puzzlePOps) := by
  induction ts generalizing vs vs' with
  | nil =>
    rw [List.map_eq_nil_iff] at hTested
    rw [hTested]
    rfl
  | cons t ts ih =>
    obtain ⟨v, vs, rfl, rfl, hRest⟩ := List.map_eq_cons_iff.mp hTested
    obtain ⟨v', vs', rfl, hHere, hRest'⟩ := List.map_eq_cons_iff.mp hTested'
    obtain ⟨hZero, hZeros⟩ := List.forall_mem_cons.mp hErrors
    obtain ⟨hZero', hZeros'⟩ := List.forall_mem_cons.mp hErrors'
    have hPart : testedPart puzzlePOps v v' = fullPart puzzlePOps v.tested := by
      rw [testedPart, fullPart, Verdict.tpoints_graded, Verdict.tpoints_graded, if_pos hZero,
        if_pos hZero']
      rfl
    rw [List.zipWith_cons_cons, hPart, ih hRest hRest' hZeros hZeros', List.map_cons]

/-- The autoresult of this bits.c has all points, whatever the random values of the two runs. -/
theorem handout_autoresult (limit limit' : Int) (w w' : Surroundings) (rounds : Nat)
    (hRounds : 33 ≤ rounds) (hSupplied : ∀ t ∈ testSet rounds, Supplied (graded limit 0) w t)
    (hSupplied' : ∀ t ∈ testSet rounds, Supplied (graded limit' 2) w' t)
    (hRanges : (w.sqrtRange ≤ TEST_RANGE ∧ w.cbrtRange ≤ TEST_RANGE) ∧
      w'.sqrtRange ≤ TEST_RANGE ∧ w'.cbrtRange ≤ TEST_RANGE)
    (hTime : ∀ i, w.timedOut i = false) (hTime' : ∀ i, w'.timedOut i = false)
    (puzzlePOps : Hash) (tops : Int) :
    ∃ out out', (runTests (graded limit 0) w (testSet rounds)).run [] = .ok (0, out) ∧
      (runTests (graded limit' 2) w' (testSet rounds)).run [] = .ok (0, out') ∧
      ∀ keys : List Chars, keys.Perm (readCorrectness (printed out)).puzzleNumber.keys →
        autoresult (readCorrectness (printed out)) (readPerformance (printed out')) puzzlePOps tops keys =
          some ("36|20|16|".toList ++ decimal tops ++ (testSet rounds).flatMap (fullPart puzzlePOps)) := by
  obtain ⟨hNames, hNodup⟩ := testSet_names rounds
  have hRun := runTests_correct hRounds (fun t hMem _ => hSupplied t hMem) hRanges.1.1 hRanges.1.2 hTime []
  have hRun' := runTests_correct hRounds (fun t hMem _ => hSupplied' t hMem) hRanges.2.1 hRanges.2.2
    hTime' []
  refine ⟨_, _, hRun, hRun', ?_⟩
  intro keys hKeys
  obtain ⟨vs, b, others, hTested, -, hErrors, hRead, hReads, hNone⟩ := read_graded hRun hNames hNodup
  obtain ⟨vs', b', others', hTested', -, hErrors', hRead', hReads', -⟩ := read_graded hRun' hNames hNodup
  have hZero := errors_zero hErrors
  have hZero' := errors_zero hErrors'
  have hVs := names_tested hTested
  have hVs' : vs'.map (·.tested.name) = vs.map (·.tested.name) := by
    rw [hVs, names_tested hTested']
  have hPoints : (vs.map (Verdict.tpoints (graded limit 0))).sum = 20 := by
    rw [correctness_points, List.filter_eq_self.mpr fun v hv => decide_eq_true (hZero v hv)]
    have hRatings : vs.map (·.tested.rating) = (testSet rounds).map (·.rating) := by
      rw [← hTested, List.map_map]
      rfl
    rw [hRatings]
    rfl
  have hPerf : (vs'.map (Verdict.tpoints (graded limit' 2))).sum = 16 := by
    have hLength : vs'.length = 8 := by
      rw [← List.length_map Verdict.tested, hTested']
      rfl
    rw [performance_points, List.countP_eq_length.mpr fun v hv => decide_eq_true (hZero' v hv), hLength]
  rw [hRead] at hKeys ⊢
  rw [readPerformance_eq, hRead']
  have hSorted := (hReads.sortedNames (hVs ▸ hNodup) hKeys).2 (hNone hTime)
  have hResult := autoresult_of_reads hReads hReads' hVs' puzzlePOps tops hSorted
  rw [hPoints, hPerf, zipWith_fullPart puzzlePOps hTested hTested' hZero hZero'] at hResult
  have hHead : ∀ a b c d : Chars, ['|'].intercalate [a, b, c, d] =
      a ++ '|' :: (b ++ '|' :: (c ++ '|' :: d)) := by simp
  have hTotals : ['|'].intercalate [decimal (20 + 16 : Nat), decimal (20 : Nat), decimal (16 : Nat),
      decimal tops] = "36|20|16|".toList ++ decimal tops := by
    rw [hHead]
    rfl
  rw [hTotals] at hResult
  rw [List.flatMap_def]
  exact hResult

theorem handout_autoresult_low :
    let w : Surroundings := ⟨fun _ _ min _ _ => min, fun _ => false, 707, 79⟩
    ∃ out out', (runTests (graded 10 0) w (testSet 33)).run [] = .ok (0, out) ∧
      (runTests (graded 10 2) w (testSet 33)).run [] = .ok (0, out') ∧
      autoresult (readCorrectness (printed out)) (readPerformance (printed out')) ∅ 21
          (readCorrectness (printed out)).puzzleNumber.keys =
        some ("36|20|16|".toList ++ decimal 21 ++ (testSet 33).flatMap (fullPart ∅)) := by
  intro w
  have hSupplied : ∀ rating, ∀ t ∈ testSet 33, Supplied (graded 10 rating) w t := by
    intro rating t hMem
    obtain ⟨-, hWorkable⟩ := testSet_bounds t hMem
    exact ⟨fun _ arg _ => ⟨le_rfl, (hWorkable arg).2.1⟩, nofun⟩
  have hRanges : w.sqrtRange ≤ TEST_RANGE ∧ w.cbrtRange ≤ TEST_RANGE := by decide
  obtain ⟨out, out', hRun, hRun', hResult⟩ := handout_autoresult 10 10 w w 33 le_rfl (hSupplied 0)
    (hSupplied 2) ⟨hRanges, hRanges⟩ (fun _ => rfl) (fun _ => rfl) ∅ 21
  exact ⟨out, out', hRun, hRun', hResult _ (List.Perm.refl _)⟩

end Cs33.Datalab
