import LispShell.Proofs.FailedReads

set_option autoImplicit false

/-!
# The text of a read that is tried again

A read that fails may have got part of a line.  If the collaborator takes the terminal back and the
read is tried again, the scanner drops that part: a run goes on as if the failed read had not been
made.  So the part is lost, since the source does not give it a second time.

The argument is a simulation.  `Retried` relates a scanner whose source has the failed read with one
whose source has not: the read lies ahead of the first, or the two are the same.
-/

namespace LispShell

/-! ## The collaborator's answers -/

/-- The state with a collaborator that will give these answers. -/
def ScanState.asking (answers : List Bool) (s : ScanState) : ScanState :=
  { s with foreground := some answers }

/-- The answer of a scanner with such a collaborator. -/
def Answer.asking (answers : List Bool) (a : Answer) : Answer :=
  { a with state := a.state.asking answers }

namespace ScanState

variable (answers : List Bool) (s : ScanState)

theorem scanRest_asking :
    (s.asking answers).scanRest = s.scanRest.map (asking answers) (Answer.asking answers) := by
  simp only [scanRest, asking]
  cases scan s.previous s.mode s.held s.rest <;> rfl

theorem finish_asking : (s.asking answers).finish = s.finish.asking answers := by
  have hmode : (s.asking answers).mode = s.mode := rfl
  unfold finish
  rw [hmode]
  split
  · rfl
  · rfl

theorem fill_asking (text : List Char) (ended : Bool) :
    (s.asking answers).fill text ended = (s.fill text ended).asking answers := rfl

theorem reclaim_asking (taken : Bool) :
    (s.asking (taken :: answers)).reclaim = some (taken, s.asking answers) := rfl

end ScanState

/-! ## The simulation -/

/-- The reads `sooner` have used up the answers `asked` of the collaborator, one for each that
failed, and the last of them did not fail.  A read that fails after them is the first of its block,
and its question gets the next answer. -/
structure Asked (sooner : List Read) (asked : List Bool) : Prop where
  length_eq : asked.length = sooner.countP fun r => r.error?.isSome
  last : ∀ r ∈ sooner.getLast?, r.error? = none

/-- The source of the first scanner has the read `failed` in front of `next`, and its collaborator
will then take the terminal back; the source of the second has not. -/
inductive Retried (failed next : Read) (later : List Read) (answers : List Bool) :
    Scanner → Scanner → Prop where
  | ahead (s : ScanState) (sooner : List Read) (asked : List Bool)
      (hasked : s.finished = false → Asked sooner asked) :
      Retried failed next later answers
        { s.asking (asked ++ true :: answers) with reads := sooner ++ failed :: next :: later }
        { s.asking (asked ++ answers) with reads := sooner ++ next :: later }
  | behind (s : Scanner) : Retried failed next later answers s s

/-- What the two say of themselves is the same. -/
theorem Retried.seen {failed next : Read} {later : List Read} {answers : List Bool}
    {s t : Scanner} (h : Retried failed next later answers s t) :
    s.line = t.line ∧ s.isFinished = t.isFinished := by
  cases h <;> exact ⟨rfl, rfl⟩

/-- Two replies give the same, report the same and leave related scanners. -/
structure Reply.Retried (failed next : Read) (later : List Read) (answers : List Bool)
    (r r' : Reply) : Prop where
  result : r.result = r'.result
  reports : r.events.filterMap Event.report? = r'.events.filterMap Event.report?
  scanner : LispShell.Retried failed next later answers r.scanner r'.scanner

/-- What can be seen of a call but for its reads and its questions to the collaborator. -/
def Outcome.withoutReads (o : Outcome) : Outcome :=
  { o with events := (o.events.filterMap Event.report?).map .report }

theorem Asked.tail_of_good {read : Read} {sooner : List Read} {asked : List Bool}
    (h : Asked (read :: sooner) asked) (hgood : read.error? = none) : Asked sooner asked := by
  refine ⟨by simpa [hgood] using h.length_eq, ?_⟩
  intro r hr
  apply h.last
  rw [List.getLast?_cons, Option.mem_def.mp hr]
  rfl

theorem Asked.tail_of_failed {read : Read} {sooner : List Read} {asked : List Bool} {e : ReadError}
    (h : Asked (read :: sooner) asked) (hfailed : read.error? = some e) :
    ∃ taken asked', asked = taken :: asked' ∧ Asked sooner asked' ∧ sooner ≠ [] := by
  have hlength := h.length_eq
  rw [List.countP_cons_of_pos (by simp [hfailed])] at hlength
  obtain ⟨taken, asked', rfl⟩ := List.exists_cons_of_length_eq_add_one hlength
  have hne : sooner ≠ [] := by
    rintro rfl
    have hnone := h.last read rfl
    rw [hfailed] at hnone
    cases hnone
  refine ⟨taken, asked', rfl, ⟨Nat.succ.inj hlength, ?_⟩, hne⟩
  intro r hr
  apply h.last
  rw [List.getLast?_cons, Option.mem_def.mp hr]
  rfl

section

variable {failed next : Read} {later : List Read} {answers : List Bool}

theorem Reply.Retried.after_read {r r' : Reply} (h : r.Retried failed next later answers r') :
    (r.after [.read]).Retried failed next later answers (r'.after [.read]) :=
  ⟨h.result, by simpa [after, List.filterMap_cons, Event.report?] using h.reports, h.scanner⟩

theorem Reply.Retried.after_reclaim {r r' : Reply} (h : r.Retried failed next later answers r')
    (taken : Bool) :
    (r.after [.reclaim taken]).Retried failed next later answers (r'.after [.reclaim taken]) :=
  ⟨h.result, by simpa [after, List.filterMap_cons, Event.report?] using h.reports, h.scanner⟩

/-- An answer with the failed read still ahead. -/
theorem Answer.retried (a : Answer) {sooner : List Read} {asked : List Bool}
    (hasked : a.state.finished = false → Asked sooner asked) :
    Reply.Retried failed next later answers
      ((a.asking (asked ++ true :: answers)).toReply (sooner ++ failed :: next :: later))
      ((a.asking (asked ++ answers)).toReply (sooner ++ next :: later)) :=
  ⟨rfl, rfl, .ahead a.state sooner asked hasked⟩

/-! ## One call -/

namespace ScanState

/-- A read that does not fail is treated the same whether or not the one before it did. -/
theorem request_of_error?_eq_none {next : Read} (hnext : next.error? = none) (s : ScanState)
    (later : List Read) : s.request true (next :: later) = s.request false (next :: later) := by
  obtain ⟨text, status⟩ := next
  cases status with
  | failed e => cases hnext
  | _ => rfl

/-- The failed read is made and tried again, and what is left of it are its events. -/
theorem retried_request_failed {e : ReadError} (hfailed : failed.error? = some e)
    (hnext : next.error? = none) (s : ScanState) :
    ((s.asking (true :: answers)).request false (failed :: next :: later)).Retried
      failed next later answers ((s.asking answers).request false (next :: later)) := by
  obtain ⟨text, status⟩ := failed
  obtain rfl : status = .failed e := Read.status_eq_failed hfailed
  rw [request]
  simp only [reclaim_asking, Bool.false_eq_true, if_false, if_true]
  rw [request_of_error?_eq_none hnext]
  exact ⟨rfl, by simp [Reply.after, List.filterMap_cons, Event.report?], .behind _⟩

theorem retried_conclude (s : ScanState) (hfinished : s.finished = true) (sooner : List Read)
    (asked : List Bool) :
    ((s.asking (asked ++ true :: answers)).conclude (sooner ++ failed :: next :: later)).Retried
      failed next later answers
      ((s.asking (asked ++ answers)).conclude (sooner ++ next :: later)) := by
  simp only [conclude, scanRest_asking]
  cases hscan : s.scanRest with
  | inl t =>
    simp only [Sum.map_inl, finish_asking]
    refine Answer.retried _ fun hopen => ?_
    obtain ⟨mode, held, rfl⟩ := eq_of_scanRest_inl hscan
    rw [(keeps_finish _).finished, hfinished] at hopen
    cases hopen
  | inr a =>
    refine Answer.retried a fun hopen => ?_
    rw [(keeps_of_scanRest hscan).finished, hfinished] at hopen
    cases hopen

theorem retried_fail (s : ScanState) (text : List Char) (e : ReadError) (sooner : List Read)
    (asked : List Bool) :
    ((s.asking (asked ++ true :: answers)).fail text e (sooner ++ failed :: next :: later)).Retried
      failed next later answers
      ((s.asking (asked ++ answers)).fail text e (sooner ++ next :: later)) := by
  refine Answer.retried ⟨.error (.read e), s.fill text true, []⟩ fun hopen => ?_
  simp [fill] at hopen

/-- Reading up to the failed read and past it. -/
theorem retried_request {e : ReadError} (hfailed : failed.error? = some e)
    (hnext : next.error? = none) (sooner : List Read) :
    ∀ (s : ScanState) (asked : List Bool) (retried : Bool), s.finished = false →
      Asked sooner asked → (sooner = [] → retried = false) →
      ((s.asking (asked ++ true :: answers)).request retried
          (sooner ++ failed :: next :: later)).Retried failed next later answers
        ((s.asking (asked ++ answers)).request retried (sooner ++ next :: later)) := by
  induction sooner with
  | nil =>
    intro s asked retried _ hasked hretried
    obtain rfl : asked = [] := List.eq_nil_of_length_eq_zero hasked.length_eq
    obtain rfl := hretried rfl
    exact retried_request_failed hfailed hnext s
  | cons read sooner ih =>
    intro s asked retried hopen hasked _
    obtain ⟨text, status⟩ := read
    simp only [List.cons_append, request]
    refine .after_read ?_
    cases status with
    | ok =>
      have hgood := hasked.tail_of_good rfl
      simp only [fill_asking, scanRest_asking]
      cases hscan : (s.fill text false).scanRest with
      | inl t =>
        have hopen' : t.finished = false := by
          obtain ⟨mode, held, rfl⟩ := eq_of_scanRest_inl hscan
          simp [fill, hopen]
        exact ih t asked false hopen' hgood fun _ => rfl
      | inr a => exact a.retried fun _ => hgood
    | interrupted =>
      exact Answer.retried ⟨.ok (.control .interrupt s.line), s.reset, []⟩
        fun _ => hasked.tail_of_good rfl
    | endOfStream =>
      exact retried_conclude (s.fill text true) (by simp [fill]) sooner asked
    | failed e =>
      cases retried with
      | true => exact retried_fail s text e sooner asked
      | false =>
        -- The first failure of a block uses up an answer on both sides.
        obtain ⟨taken, asked, rfl, hasked', hne⟩ := hasked.tail_of_failed rfl
        simp only [List.cons_append, reclaim_asking, Bool.false_eq_true, if_false]
        refine .after_reclaim ?_ taken
        cases taken with
        | true => exact ih s asked true hopen hasked' fun hnil => absurd hnil hne
        | false => exact retried_fail s text e sooner asked

end ScanState

/-- One call keeps the relation, and gives and reports the same. -/
theorem retried_nextToken {e : ReadError} (hfailed : failed.error? = some e)
    (hnext : next.error? = none) {s t : Scanner} (h : Retried failed next later answers s t) :
    s.nextToken.Retried failed next later answers t.nextToken := by
  cases h with
  | behind => exact ⟨rfl, rfl, .behind _⟩
  | ahead s sooner asked hasked =>
    simp only [Scanner.nextToken, ScanState.scanRest_asking]
    cases hscan : s.scanRest with
    | inr a =>
      refine a.retried fun hopen => hasked ?_
      rwa [(ScanState.keeps_of_scanRest hscan).finished] at hopen
    | inl t =>
      have hsame : t.finished = s.finished := by
        obtain ⟨mode, held, rfl⟩ := ScanState.eq_of_scanRest_inl hscan
        rfl
      have hfinished (x : List Bool) : (t.asking x).finished = t.finished := rfl
      simp only [Sum.map_inl, hfinished]
      by_cases hclosed : t.finished = true
      · rw [if_pos hclosed, if_pos hclosed, ScanState.finish_asking, ScanState.finish_asking]
        refine Answer.retried _ fun hopen => hasked ?_
        rwa [(ScanState.keeps_finish _).finished, hsame] at hopen
      · have hopen : t.finished = false := by simpa using hclosed
        rw [if_neg hclosed, if_neg hclosed]
        exact ScanState.retried_request hfailed hnext sooner t asked false hopen
          (hasked (hsame ▸ hopen)) fun _ => rfl

/-- Calls of any kind keep the relation and show the same but for reads and questions. -/
theorem withoutReads_outcome_of_retried {e : ReadError} (hfailed : failed.error? = some e)
    (hnext : next.error? = none) (c : Call) {s t : Scanner}
    (h : Retried failed next later answers s t) :
    (s.outcome c).withoutReads = (t.outcome c).withoutReads ∧
      Retried failed next later answers (s.after c) (t.after c) := by
  cases c with
  | nextToken =>
    have hr := retried_nextToken hfailed hnext h
    obtain ⟨hline, hended⟩ := hr.scanner.seen
    refine ⟨?_, hr.scanner⟩
    simp only [Scanner.outcome, Outcome.withoutReads, Scanner.after, hr.result, hr.reports, hline,
      hended]
  | reset =>
    cases h with
    | behind => exact ⟨rfl, .behind _⟩
    | ahead s sooner asked hasked => exact ⟨rfl, .ahead s.reset sooner asked hasked⟩
  | report message =>
    cases h with
    | behind => exact ⟨rfl, .behind _⟩
    | ahead s sooner asked hasked => exact ⟨rfl, .ahead s sooner asked hasked⟩

end

namespace Scanner

/-- If a read fails and is tried again because the collaborator took the terminal back, and the next
read does not fail, then all calls give and report what they would if the failed read had not been
made: whatever text came with it is dropped. -/
theorem run_without_retried (s : ScanState) (sooner later : List Read) {failed next : Read}
    {asked : List Bool} (answers : List Bool) (hasked : Asked sooner asked)
    (hfailed : failed.error?.isSome = true) (hnext : next.error? = none) (calls : List Call) :
    (run { s.asking (asked ++ true :: answers) with
        reads := sooner ++ failed :: next :: later } calls).map Outcome.withoutReads =
      (run { s.asking (asked ++ answers) with
        reads := sooner ++ next :: later } calls).map Outcome.withoutReads := by
  obtain ⟨e, hfailed⟩ := Option.isSome_iff_exists.mp hfailed
  have hrelated : Retried failed next later answers
      { s.asking (asked ++ true :: answers) with reads := sooner ++ failed :: next :: later }
      { s.asking (asked ++ answers) with reads := sooner ++ next :: later } :=
    .ahead s sooner asked fun _ => hasked
  revert hrelated
  generalize ({ s.asking (asked ++ true :: answers) with
    reads := sooner ++ failed :: next :: later } : Scanner) = u
  generalize ({ s.asking (asked ++ answers) with reads := sooner ++ next :: later } : Scanner) = v
  intro hrelated
  -- From here on only the relation counts, and every call keeps it.
  induction calls generalizing u v with
  | nil => rfl
  | cons c calls ih =>
    obtain ⟨hseen, hafter⟩ := withoutReads_outcome_of_retried hfailed hnext c hrelated
    simp only [run, List.map_cons, hseen, ih _ _ hafter]

/-- A failure in the middle of quoted text, after an earlier one that was tried again too. -/
theorem run_without_retried_quoted :
    Asked [.fail .timedOut, .line ['"', 'a']] [true] ∧
      (⟨['b'], .failed .other⟩ : Read).error?.isSome = true ∧
      (Read.line ['c', '"']).error? = none ∧
      (run { (ScanState.initial "tty" none).asking ([true] ++ true :: []) with
          reads := [.fail .timedOut, .line ['"', 'a']] ++
            ⟨['b'], .failed .other⟩ :: .line ['c', '"'] :: [] }
        [.nextToken, .nextToken]).map Outcome.withoutReads =
      (run { (ScanState.initial "tty" none).asking ([true] ++ []) with
          reads := [.fail .timedOut, .line ['"', 'a']] ++ .line ['c', '"'] :: [] }
        [.nextToken, .nextToken]).map Outcome.withoutReads :=
  have hasked : Asked [.fail .timedOut, .line ['"', 'a']] [true] := ⟨rfl, by decide⟩
  ⟨hasked, rfl, rfl,
    run_without_retried (.initial "tty" none) [.fail .timedOut, .line ['"', 'a']] [] [] hasked rfl
      rfl [.nextToken, .nextToken]⟩

/-- The text of the failed read is not put in front of the next one: of `echo`, read in two parts,
only the second is left. -/
theorem lexeme_ne_joined :
    (ofReads "tty" [⟨['e', 'c'], .failed .other⟩, .line ['h', 'o']]
        (some [true])).nextToken.lexeme ≠
      (ofReads "tty" [.line (['e', 'c'] ++ ['h', 'o'])] (some [true])).nextToken.lexeme := by
  decide

end Scanner

end LispShell
