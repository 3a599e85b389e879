import LispShell.Proofs.Journal

set_option autoImplicit false

/-!
# Reports

A scanner reports a fault of its text once, in the call that gives the fault, and an error of the
grammar once, in the call that tells of it.  It reports nothing else: a read that fails is given to
the caller, and that is all.

`Call.due` says what a call has to report, and `ReportLaw` that each call of a run reports this, as
the last thing that it does, and with the line number that the scanner has then.  What is reported
in a run is then what is due, in the order of the calls.  It makes no difference what came before:
a fault may follow lines that were used up, reads that were tried again, interruptions, new
beginnings and other faults.
-/

namespace LispShell

/-! ## What is due -/

/-- The report of a fault of the text.  A read that failed is not a fault of the text. -/
def Fault.report? (name : String) : Fault → Option Report
  | .unexpected line => some ⟨name, line, "unexpected '<' (expected '<(')"⟩
  | .unterminated line => some ⟨name, line, "unterminated quoted text"⟩
  | .read _ => none

/-- What is to be reported of a result. -/
def dueOf (name : String) : Except Fault Token → List Report
  | .ok _ => []
  | .error fault => (fault.report? name).toList

/-- What a call is to report that comes after `line` lines were read and gives this result, if it is
for a token. -/
def Call.due (name : String) (line : Nat) (result : Option (Except Fault Token)) :
    Call → List Report
  | .nextToken => result.elim [] (dueOf name)
  | .reset => []
  | .report message => [⟨name, line, message⟩]

/-- What is to be reported in a run of calls that had these outcomes. -/
def dueInRun (name : String) : Nat → List Call → List Outcome → List Report
  | line, c :: calls, o :: outcomes =>
    c.due name line o.result ++ dueInRun name o.line calls outcomes
  | _, _, _ => []

/-! ## What is reported -/

/-- These events are reports of what is due, after some that report nothing. -/
def Reported (events : List Event) (due : List Report) : Prop :=
  ∃ quiet, quiet.filterMap Event.report? = [] ∧ events = quiet ++ due.map .report

/-- The call reports what is due, and its line is the one that the scanner has then. -/
structure Outcome.Reports (o : Outcome) (due : List Report) : Prop where
  events : Reported o.events due
  line : ∀ report ∈ due, report.line = o.line

/-- Each call of a run reports what is due; `line` lines were read before. -/
def ReportLaw (name : String) : Nat → List Call → List Outcome → Prop
  | _, [], [] => True
  | line, c :: calls, o :: outcomes =>
    o.Reports (c.due name line o.result) ∧ ReportLaw name o.line calls outcomes
  | _, _, _ => False

theorem Reported.append {quiet events : List Event} {due : List Report}
    (hquiet : quiet.filterMap Event.report? = []) (h : Reported events due) :
    Reported (quiet ++ events) due := by
  obtain ⟨quiet', hquiet', rfl⟩ := h
  refine ⟨quiet ++ quiet', ?_, (List.append_assoc _ _ _).symm⟩
  rw [List.filterMap_append, hquiet, hquiet', List.append_nil]

/-- What is due is all that is reported. -/
theorem Reported.filterMap_eq {events : List Event} {due : List Report} (h : Reported events due) :
    events.filterMap Event.report? = due := by
  obtain ⟨quiet, hquiet, rfl⟩ := h
  rw [List.filterMap_append, hquiet, List.nil_append, List.filterMap_map]
  exact List.filterMap_some

theorem ReportLaw.filterMap_eq {name : String} {line : Nat} {calls : List Call}
    {outcomes : List Outcome} (h : ReportLaw name line calls outcomes) :
    (outcomes.flatMap Outcome.events).filterMap Event.report? =
      dueInRun name line calls outcomes := by
  induction calls generalizing line outcomes with
  | nil =>
    cases outcomes with
    | nil => rfl
    | cons o outcomes => exact h.elim
  | cons c calls ih =>
    cases outcomes with
    | nil => exact h.elim
    | cons o outcomes =>
      obtain ⟨ho, hrest⟩ := h
      rw [List.flatMap_cons, List.filterMap_append, ho.events.filterMap_eq, ih hrest, dueInRun]

/-! ## One call -/

/-- The call reports what is due for its result, in the name of the scanner and with its line. -/
structure Reply.Reports (r : Reply) (name : String) : Prop where
  name_eq : r.scanner.name = name
  events : Reported r.events (dueOf name r.result)
  line : ∀ report ∈ dueOf name r.result, report.line = r.scanner.line

theorem Reply.Reports.after {r : Reply} {name : String} (h : r.Reports name) {quiet : List Event}
    (hquiet : quiet.filterMap Event.report? = []) : (r.after quiet).Reports name :=
  ⟨h.name_eq, h.events.append hquiet, h.line⟩

/-- An answer that does nothing but report what is due for its result. -/
theorem Answer.reports {a : Answer} {name : String} (due : List Report)
    (hname : a.state.name = name) (hdue : dueOf name a.result = due)
    (hevents : a.events = due.map .report) (hline : ∀ report ∈ due, report.line = a.state.line)
    (reads : List Read) : (a.toReply reads).Reports name := by
  subst hdue
  exact ⟨hname, ⟨[], rfl, hevents⟩, hline⟩

namespace ScanState

theorem reports_of_scanRest {s : ScanState} {a : Answer} (h : s.scanRest = .inr a)
    (reads : List Read) : (a.toReply reads).Reports s.name := by
  unfold scanRest at h
  split at h
  · cases h
  · obtain rfl := Sum.inr.inj h
    exact Answer.reports [] rfl rfl rfl (List.forall_mem_nil _) reads
  · obtain rfl := Sum.inr.inj h
    exact Answer.reports [_] rfl rfl rfl (List.forall_mem_singleton.mpr rfl) reads

theorem reports_finish (s : ScanState) (reads : List Read) :
    (s.finish.toReply reads).Reports s.name := by
  unfold finish
  split
  · exact Answer.reports [_] rfl rfl rfl (List.forall_mem_singleton.mpr rfl) reads
  · exact Answer.reports [] rfl rfl rfl (List.forall_mem_nil _) reads

theorem reports_conclude (s : ScanState) (reads : List Read) :
    (s.conclude reads).Reports s.name := by
  unfold conclude
  cases hscan : s.scanRest with
  | inl t =>
    obtain ⟨mode, held, rfl⟩ := eq_of_scanRest_inl hscan
    exact reports_finish { s with mode, held, rest := [] } reads
  | inr a => exact reports_of_scanRest hscan reads

theorem reports_fail (s : ScanState) (text : List Char) (e : ReadError) (reads : List Read) :
    (s.fail text e reads).Reports s.name :=
  Answer.reports [] rfl rfl rfl (List.forall_mem_nil _) reads

/-- A call that reads reports what is due for its result, after all its reads and questions. -/
theorem Requests.reports {s : ScanState} {retried : Bool} {reads : List Read} {r : Reply}
    {made : List Entry} (h : Requests s retried reads r made) : r.Reports s.name := by
  induction h with
  | @exhausted s retried => exact (reports_conclude (s.fill [] true) []).after rfl
  | dry hscan _ ih =>
    obtain ⟨mode, held, rfl⟩ := eq_of_scanRest_inl hscan
    exact ih.after rfl
  | @answer s retried text reads a hscan => exact (reports_of_scanRest hscan reads).after rfl
  | @interrupted s retried text reads =>
    have hanswer : (Answer.toReply ⟨.ok (.control .interrupt s.line), s.reset, []⟩ reads).Reports
        s.name := Answer.reports [] rfl rfl rfl (List.forall_mem_nil _) reads
    exact hanswer.after rfl
  | @endOfStream s retried text reads => exact (reports_conclude (s.fill text true) reads).after rfl
  | @unasked s retried text reads e _ => exact (reports_fail s text e reads).after rfl
  | @refused s t text reads e hreclaim =>
    obtain ⟨foreground, rfl⟩ := eq_of_reclaim hreclaim
    exact ((reports_fail { s with foreground } text e reads).after rfl).after rfl
  | retry hreclaim _ ih =>
    obtain ⟨foreground, rfl⟩ := eq_of_reclaim hreclaim
    exact (ih.after rfl).after rfl

end ScanState

/-! ## All calls -/

namespace Scanner

theorem reports_nextToken (s : Scanner) : s.nextToken.Reports s.name := by
  unfold nextToken
  cases hscan : s.toScanState.scanRest with
  | inr a => exact ScanState.reports_of_scanRest hscan s.reads
  | inl t =>
    obtain ⟨mode, held, rfl⟩ := ScanState.eq_of_scanRest_inl hscan
    dsimp only
    split
    · exact ScanState.reports_finish _ s.reads
    · exact (ScanState.requests s.reads _ false).reports

/-- A call keeps the name of the input and reports what is due. -/
theorem reports_outcome (s : Scanner) (c : Call) :
    (s.after c).name = s.name ∧
      (s.outcome c).Reports (c.due s.name s.line (s.outcome c).result) := by
  cases c with
  | nextToken =>
    have h := s.reports_nextToken
    exact ⟨h.name_eq, h.events, h.line⟩
  | reset => exact ⟨rfl, ⟨[], rfl, rfl⟩, List.forall_mem_nil _⟩
  | report message => exact ⟨rfl, ⟨[], rfl, rfl⟩, List.forall_mem_singleton.mpr rfl⟩

/-- No call changes the name of the input. -/
theorem name_afterAll (s : Scanner) (calls : List Call) : (s.afterAll calls).name = s.name := by
  induction calls generalizing s with
  | nil => rfl
  | cons c calls ih => exact (ih (s.after c)).trans (s.reports_outcome c).1

theorem reportLaw (s : Scanner) (calls : List Call) :
    ReportLaw s.name s.line calls (s.run calls) := by
  induction calls generalizing s with
  | nil => trivial
  | cons c calls ih =>
    obtain ⟨hname, hreports⟩ := s.reports_outcome c
    have hrest := ih (s.after c)
    rw [hname] at hrest
    exact ⟨hreports, hrest⟩

/-- Whatever a scanner is in the middle of, and whatever its source has and its collaborator
answers, each call reports the fault of the text that it gives, or the error that it is told, once
and with the name of the input and the line at hand.  So the reports of a run are these faults and
errors, in the order of the calls. -/
theorem reportLaw_run (s : Scanner) (calls : List Call) :
    ReportLaw s.name s.line calls (s.run calls) ∧
      ((s.run calls).flatMap Outcome.events).filterMap Event.report? =
        dueInRun s.name s.line calls (s.run calls) :=
  ⟨s.reportLaw calls, (s.reportLaw calls).filterMap_eq⟩

end Scanner

end LispShell
