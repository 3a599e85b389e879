import LispShell.Proofs.LogicalLine
import LispShell.Proofs.Restart
import LispShell.Proofs.Scan

set_option autoImplicit false

/-!
# Refills in the middle of a line

A source may deliver a line in one read or in two.  The results of all calls are the same, whatever
the scanner was in the middle of where the first of the two reads ends; only line numbers differ, as
each read counts for a line.

The first part must not end in a backslash or a carriage return, since what these mean depends on
whether the line break follows in the same read, and it must hold no line break.

The argument is a simulation.  `Refilled` relates a scanner that gets the text in one read with one
that gets it in two: both reads may lie ahead, or the second scanner may be between its two reads,
or both may be behind it, one line apart.
-/

namespace LispShell

/-! ## The simulation -/

/-- The status of a read that went well, at the end of the stream or before it. -/
def ReadStatus.ofEnded (ended : Bool) : ReadStatus :=
  if ended then .endOfStream else .ok

/-- After a read that went well a call is as one with these characters at hand from the start. -/
theorem ScanState.request_ofEnded {s : ScanState} (h : s.finished = false) (retried : Bool)
    (text : List Char) (ended : Bool) (reads : List Read) :
    s.request retried (⟨text, .ofEnded ended⟩ :: reads) =
      (Scanner.nextToken { s.fill text ended with reads }).after [.read] := by
  have hfinished : ∀ t, (s.fill text ended).scanRest = .inl t → t.finished = ended := by
    intro t ht
    obtain ⟨mode, held, rfl⟩ := eq_of_scanRest_inl ht
    simp [fill, h]
  simp only [Scanner.nextToken, request]
  congr 1
  cases ended with
  | false =>
    simp only [ReadStatus.ofEnded, Bool.false_eq_true, if_false]
    cases hscan : (s.fill text false).scanRest with
    | inl t => simp [hfinished t hscan]
    | inr a => rfl
  | true =>
    simp only [ReadStatus.ofEnded, if_true, conclude]
    cases hscan : (s.fill text true).scanRest with
    | inl t => simp [hfinished t hscan]
    | inr a => rfl

/-- The first scanner gets in one read, `u ++ v`, what the second gets in two.  Both reads may lie
ahead or behind, and the second scanner may be between its two, in what is left of `u`. -/
inductive Refilled (u v : List Char) (ended : Bool) (later : List Read) :
    Scanner → Scanner → Prop where
  | ahead (s : ScanState) (sooner : List Read) :
      Refilled u v ended later
        { s with reads := sooner ++ ⟨u ++ v, .ofEnded ended⟩ :: later }
        { s with reads := sooner ++ ⟨u, .ok⟩ :: ⟨v, .ofEnded ended⟩ :: later }
  | between (s : ScanState) (hopen : s.finished = false) (hbreak : '\n' ∉ s.rest) :
      Refilled u v ended later
        { s with rest := s.rest ++ (s.fill v ended).rest, finished := ended, reads := later }
        { s with reads := ⟨v, .ofEnded ended⟩ :: later }
  | behind (s : Scanner) : Refilled u v ended later s (s.shift 1)

/-- Two replies give the same but for line numbers and leave related scanners. -/
def Reply.Refilled (u v : List Char) (ended : Bool) (later : List Read) (r r' : Reply) : Prop :=
  r.lexeme = r'.lexeme ∧ LispShell.Refilled u v ended later r.scanner r'.scanner

section

variable {u v : List Char} {ended : Bool} {later : List Read}

theorem Reply.refilled_shift (r : Reply) : r.Refilled u v ended later (r.shift 1) :=
  ⟨(Lexeme.ofResult_shiftResult 1 r.result).symm, .behind r.scanner⟩

/-- Between its two reads the second scanner gives what it has of the first one's characters, and
where these are used up it is one read behind. -/
theorem refilled_nextToken_between {s : ScanState} (hopen : s.finished = false)
    (hbreak : '\n' ∉ s.rest) :
    (Scanner.nextToken { s with
        rest := s.rest ++ (s.fill v ended).rest, finished := ended, reads := later }).Refilled
      u v ended later (Scanner.nextToken { s with reads := ⟨v, .ofEnded ended⟩ :: later }) := by
  have happend := ScanState.scan_append s.previous (s.fill v ended).rest s.mode s.held hbreak
  have hsuffix := ScanState.rest_scan_suffix s.previous s.mode s.held s.rest
  cases hscan : ScanState.scan s.previous s.mode s.held s.rest with
  | complete kind text rest =>
    rw [hscan] at hsuffix
    have hrest : '\n' ∉ rest := fun hmem => hbreak (hsuffix.subset hmem)
    simp only [Scanner.nextToken, ScanState.scanRest, happend, hscan]
    exact ⟨rfl, .between (s.afterToken (ScanState.refinedKind kind text) rest) hopen hrest⟩
  | rejected rest =>
    rw [hscan] at hsuffix
    have hrest : '\n' ∉ rest := fun hmem => hbreak (hsuffix.subset hmem)
    simp only [Scanner.nextToken, ScanState.scanRest, happend, hscan]
    exact ⟨rfl, .between { s with held := [], rest, mode := .start } hopen hrest⟩
  | dry mode held =>
    -- The first scanner goes on with what the second one asks its source for.
    let dry : ScanState := { s with mode, held, rest := [] }
    let next : Scanner :=
      { dry with rest := (s.fill v ended).rest, finished := ended, reads := later }
    have hfirst : Scanner.nextToken { s with
        rest := s.rest ++ (s.fill v ended).rest, finished := ended, reads := later } =
        next.nextToken := by
      rw [hscan] at happend
      simp only [Scanner.nextToken, next, dry]
      rw [ScanState.scanRest_eq_of_scan_eq (by exact happend)]
    have hsecond : Scanner.nextToken { s with reads := ⟨v, .ofEnded ended⟩ :: later } =
        dry.request false (⟨v, .ofEnded ended⟩ :: later) := by
      simp [Scanner.nextToken, ScanState.scanRest, hscan, hopen, dry]
    have hfilled : ({ dry.fill v ended with reads := later } : Scanner) = next.shift 1 := by
      simp [ScanState.fill, Scanner.shift, hopen, dry, next]
    have hdry : dry.finished = false := hopen
    rw [hfirst, hsecond, ScanState.request_ofEnded hdry, hfilled, Scanner.nextToken_shift]
    exact next.nextToken.refilled_shift

/-- The first of the two reads brings the second scanner between them. -/
theorem refilled_request_split {s : ScanState} (hopen : s.finished = false) (retried : Bool)
    (hbreak : '\n' ∉ u) (hslash : u.getLast? ≠ some '\\') (hreturn : u.getLast? ≠ some '\r') :
    (s.request retried (⟨u ++ v, .ofEnded ended⟩ :: later)).Refilled u v ended later
      (s.request retried (⟨u, .ok⟩ :: ⟨v, .ofEnded ended⟩ :: later)) := by
  have hok : ReadStatus.ok = .ofEnded false := rfl
  let filled : ScanState := { s with line := s.line + 1, rest := u }
  have hfirst : s.fill (u ++ v) ended = { filled with
      rest := filled.rest ++ (filled.fill v ended).rest, finished := ended } := by
    simp [ScanState.fill, Line.logical_append hbreak hslash hreturn, hopen, filled]
  have hsecond : s.fill u false = filled := by
    simp [ScanState.fill, Line.logical_of_not_mem hbreak, filled]
  rw [ScanState.request_ofEnded hopen, hok, ScanState.request_ofEnded hopen, hfirst, hsecond]
  exact refilled_nextToken_between hopen hbreak

/-- Reading up to the split read and past it. -/
theorem refilled_request (hbreak : '\n' ∉ u) (hslash : u.getLast? ≠ some '\\')
    (hreturn : u.getLast? ≠ some '\r') (sooner : List Read) :
    ∀ (s : ScanState) (retried : Bool), s.finished = false →
      (s.request retried (sooner ++ ⟨u ++ v, .ofEnded ended⟩ :: later)).Refilled u v ended later
        (s.request retried (sooner ++ ⟨u, .ok⟩ :: ⟨v, .ofEnded ended⟩ :: later)) := by
  induction sooner with
  | nil =>
    intro s retried hopen
    exact refilled_request_split hopen retried hbreak hslash hreturn
  | cons read sooner ih =>
    intro s retried hopen
    obtain ⟨text, status⟩ := read
    have hahead (a : Answer) : Reply.Refilled u v ended later
        (a.toReply (sooner ++ ⟨u ++ v, .ofEnded ended⟩ :: later))
        (a.toReply (sooner ++ ⟨u, .ok⟩ :: ⟨v, .ofEnded ended⟩ :: later)) :=
      ⟨rfl, .ahead a.state sooner⟩
    simp only [List.cons_append, ScanState.request]
    cases status with
    | ok =>
      cases hscan : (s.fill text false).scanRest with
      | inl t =>
        obtain ⟨mode, held, rfl⟩ := ScanState.eq_of_scanRest_inl hscan
        exact ih _ false (by simp [ScanState.fill, hopen])
      | inr a => exact hahead a
    | interrupted => exact hahead ⟨.ok (.control .interrupt s.line), s.reset, []⟩
    | endOfStream =>
      simp only [ScanState.conclude]
      cases (s.fill text true).scanRest with
      | inl t => exact hahead t.finish
      | inr a => exact hahead a
    | failed e =>
      cases retried with
      | true => exact hahead ⟨.error (.read e), s.fill text true, []⟩
      | false =>
        cases hreclaim : s.reclaim with
        | none => exact hahead ⟨.error (.read e), s.fill text true, []⟩
        | some answer =>
          obtain ⟨taken, t⟩ := answer
          obtain ⟨foreground, rfl⟩ := ScanState.eq_of_reclaim hreclaim
          cases taken with
          | false => exact hahead ⟨.error (.read e), { s with foreground }.fill text true, []⟩
          | true => exact ih { s with foreground } true hopen

/-- One call keeps the relation and gives the same but for line numbers. -/
theorem refilled_nextToken (hbreak : '\n' ∉ u) (hslash : u.getLast? ≠ some '\\')
    (hreturn : u.getLast? ≠ some '\r') {s t : Scanner} (h : Refilled u v ended later s t) :
    s.nextToken.Refilled u v ended later t.nextToken := by
  cases h with
  | ahead s sooner =>
    unfold Scanner.nextToken
    simp only
    cases hscan : s.scanRest with
    | inr a => exact ⟨rfl, .ahead a.state sooner⟩
    | inl t =>
      simp only
      cases hfinished : t.finished with
      | true => exact ⟨rfl, .ahead t.finish.state sooner⟩
      | false => exact refilled_request hbreak hslash hreturn sooner t false hfinished
  | between s hopen hrest => exact refilled_nextToken_between hopen hrest
  | behind =>
    rw [Scanner.nextToken_shift]
    exact s.nextToken.refilled_shift

/-- Any number of calls give the same but for line numbers. -/
theorem results_of_refilled (hbreak : '\n' ∉ u) (hslash : u.getLast? ≠ some '\\')
    (hreturn : u.getLast? ≠ some '\r') (n : Nat) :
    ∀ {s t : Scanner}, Refilled u v ended later s t →
      (s.results n).map Lexeme.ofResult = (t.results n).map Lexeme.ofResult := by
  induction n with
  | zero => intro s t _; rfl
  | succ n ih =>
    intro s t h
    obtain ⟨hlexeme, hnext⟩ := refilled_nextToken hbreak hslash hreturn h
    simp only [Scanner.results, List.map_cons]
    rw [ih hnext]
    exact congrArg (· :: _) hlexeme

end

/-- Whether a source delivers a text in one read or in two makes no difference to the results of
the calls for tokens, their line numbers apart.  Any reads may come before and after, and any state
may be the first. -/
theorem results_split (s : ScanState) (sooner later : List Read) {u v : List Char}
    {status : ReadStatus} (hstatus : status = .ok ∨ status = .endOfStream) (hbreak : '\n' ∉ u)
    (hslash : u.getLast? ≠ some '\\') (hreturn : u.getLast? ≠ some '\r') (n : Nat) :
    (Scanner.results { s with reads := sooner ++ ⟨u ++ v, status⟩ :: later } n).map
        Lexeme.ofResult =
      (Scanner.results { s with reads := sooner ++ ⟨u, .ok⟩ :: ⟨v, status⟩ :: later } n).map
        Lexeme.ofResult := by
  obtain ⟨ended, rfl⟩ : ∃ ended, status = .ofEnded ended := by
    rcases hstatus with rfl | rfl
    · exact ⟨false, rfl⟩
    · exact ⟨true, rfl⟩
  exact results_of_refilled hbreak hslash hreturn n (.ahead s sooner)

/-- An operator in two parts, after an interrupted read and before a failing one. -/
theorem results_split_operator :
    (ReadStatus.ok = .ok ∨ ReadStatus.ok = .endOfStream) ∧ '\n' ∉ ['a', '&'] ∧
      ['a', '&'].getLast? ≠ some '\\' ∧ ['a', '&'].getLast? ≠ some '\r' ∧
      (Scanner.results { ScanState.initial "sh" none with
          reads := [.interrupt] ++ ⟨['a', '&'], .ok⟩ :: ⟨['&', '\n'], .ok⟩ :: [.fail .timedOut] }
        5).map Lexeme.ofResult =
      [.token .interrupt "", .token .symbol "a", .token .andThen "and", .readFault .timedOut,
        .token .endOfInput ""] := by
  have hbreak : '\n' ∉ ['a', '&'] := by decide
  have hslash : ['a', '&'].getLast? ≠ some '\\' := by decide
  have hreturn : ['a', '&'].getLast? ≠ some '\r' := by decide
  refine ⟨.inl rfl, hbreak, hslash, hreturn, ?_⟩
  rw [← results_split (ScanState.initial "sh" none) [.interrupt] [.fail .timedOut] (.inl rfl) hbreak
    hslash hreturn 5]
  decide

end LispShell
