import LispShell.Proofs.Restart

set_option autoImplicit false

/-!
# The journal of a run

`Reply.events` tells that a read was made, and neither what it gave nor what the scanner was in the
middle of.  The journal of a run does: it lists, in the order of time, every read with the state in
which it was asked for, every question to the collaborator, every report, every result and every
reset.

The journal holds what the run shows and nothing else.  Its events are those of the outcomes, its
results are theirs, and its reads are those that the source has, in their order.

`Requests` says once what a call that reads lines can do, read by read.  What holds of every such
call is shown by induction on it.
-/

namespace LispShell

/-! ## Entries -/

/-- Something that happens in a run. -/
inductive Entry where
  /-- the scanner, in this state, asks its source for a line and gets this -/
  | read (state : ScanState) (read : Read)
  /-- it asks its collaborator to take the terminal back, and gets this answer -/
  | reclaim (taken : Bool)
  | report (report : Report)
  /-- a call for the next token is over, with this result -/
  | gave (result : Except Fault Token)
  | reset

namespace Entry

/-- The entry as an event. -/
def event? : Entry → Option Event
  | .read _ _ => some .read
  | .reclaim taken => some (.reclaim taken)
  | .report r => some (.report r)
  | .gave _ | .reset => none

/-- The read that was made. -/
def read? : Entry → Option Read
  | .read _ r => some r
  | _ => none

/-- The result that was given. -/
def result? : Entry → Option (Except Fault Token)
  | .gave result => some result
  | _ => none

end Entry

/-- The report that an event is. -/
def Event.report? : Event → Option Report
  | .report r => some r
  | _ => none

/-! ## Journals -/

/-- What a call enters after its last read: its reports and its result. -/
def Reply.closing (r : Reply) : List Entry :=
  (r.events.filterMap Event.report?).map .report ++ [.gave r.result]

/-- The reads that `request` makes, and what it asks the collaborator in between. -/
def ScanState.inquiries (s : ScanState) (retried : Bool) : List Read → List Entry
  | [] => [.read s (.last [])]
  | ⟨text, status⟩ :: reads =>
    .read s ⟨text, status⟩ ::
      match status with
      | .ok =>
        match (s.fill text false).scanRest with
        | .inl t => t.inquiries false reads
        | .inr _ => []
      | .interrupted | .endOfStream => []
      | .failed _ =>
        if retried then []
        else
          match s.reclaim with
          | none => []
          | some (taken, t) => .reclaim taken :: if taken then t.inquiries true reads else []

namespace Scanner

/-- The reads that a call for the next token makes, and what it asks the collaborator in between. -/
def inquiries (s : Scanner) : List Entry :=
  match s.toScanState.scanRest with
  | .inr _ => []
  | .inl state => if state.finished then [] else state.inquiries false s.reads

/-- What a call enters. -/
def entries (s : Scanner) : Call → List Entry
  | .nextToken => s.inquiries ++ s.nextToken.closing
  | .reset => [.reset]
  | .report message => [.report ⟨s.name, s.line, message⟩]

/-- The journal of a run of calls. -/
def journal (s : Scanner) : List Call → List Entry
  | [] => []
  | c :: calls => s.entries c ++ (s.after c).journal calls

/-- The scanner after a run of calls. -/
def afterAll (s : Scanner) (calls : List Call) : Scanner :=
  calls.foldl after s

end Scanner

/-! ## The end of a call -/

namespace Reply

@[simp] theorem closing_after_read (r : Reply) : (r.after [.read]).closing = r.closing := by
  simp [closing, after, List.filterMap_cons, Event.report?]

@[simp] theorem closing_after_reclaim (r : Reply) (taken : Bool) :
    (r.after [.reclaim taken]).closing = r.closing := by
  simp [closing, after, List.filterMap_cons, Event.report?]

theorem read?_closing (r : Reply) : r.closing.filterMap Entry.read? = [] := by
  rw [List.filterMap_eq_nil_iff]
  intro entry hentry
  rw [closing, List.mem_append, List.mem_map, List.mem_singleton] at hentry
  obtain ⟨report, -, rfl⟩ | rfl := hentry
  · rfl
  · rfl

theorem result?_closing (r : Reply) : r.closing.filterMap Entry.result? = [r.result] := by
  simp [closing, Entry.result?, Function.comp_def]

theorem event?_closing {r : Reply} {reports : List Report}
    (h : r.events = reports.map Event.report) :
    r.closing.filterMap Entry.event? = r.events := by
  simp [closing, h, Entry.event?, Event.report?, Function.comp_def]

end Reply

namespace ScanState

/-- Scanning the characters at hand does nothing besides but report. -/
theorem exists_events_of_scanRest {s : ScanState} {a : Answer} (h : s.scanRest = .inr a) :
    ∃ reports : List Report, a.events = reports.map Event.report := by
  unfold scanRest at h
  split at h
  · cases h
  · obtain rfl := Sum.inr.inj h
    exact ⟨[], rfl⟩
  · obtain rfl := Sum.inr.inj h
    exact ⟨[_], rfl⟩

theorem exists_events_finish (s : ScanState) :
    ∃ reports : List Report, s.finish.events = reports.map Event.report := by
  unfold finish
  split
  · exact ⟨[_], rfl⟩
  · exact ⟨[], rfl⟩

theorem exists_events_conclude (s : ScanState) (reads : List Read) :
    ∃ reports : List Report, (s.conclude reads).events = reports.map Event.report := by
  unfold conclude
  split
  · exact exists_events_finish _
  · rename_i h
    exact exists_events_of_scanRest h

/-! ## Reading lines -/

/-- A call that reads lines goes this way: from a state, with these reads to come, it ends with this
reply and enters these reads and questions before. -/
inductive Requests : ScanState → Bool → List Read → Reply → List Entry → Prop where
  /-- the source has no reads left -/
  | exhausted {s : ScanState} {retried : Bool} :
      Requests s retried [] (((s.fill [] true).conclude []).after [.read]) [.read s (.last [])]
  /-- a line that is used up -/
  | dry {s t : ScanState} {retried : Bool} {text : List Char} {reads : List Read} {r : Reply}
      {made : List Entry} (hscan : (s.fill text false).scanRest = .inl t)
      (hnext : Requests t false reads r made) :
      Requests s retried (⟨text, .ok⟩ :: reads) (r.after [.read]) (.read s ⟨text, .ok⟩ :: made)
  /-- a line with a token or a fault -/
  | answer {s : ScanState} {retried : Bool} {text : List Char} {reads : List Read} {a : Answer}
      (hscan : (s.fill text false).scanRest = .inr a) :
      Requests s retried (⟨text, .ok⟩ :: reads) ((a.toReply reads).after [.read])
        [.read s ⟨text, .ok⟩]
  | interrupted {s : ScanState} {retried : Bool} {text : List Char} {reads : List Read} :
      Requests s retried (⟨text, .interrupted⟩ :: reads)
        ((Answer.toReply ⟨.ok (.control .interrupt s.line), s.reset, []⟩ reads).after [.read])
        [.read s ⟨text, .interrupted⟩]
  | endOfStream {s : ScanState} {retried : Bool} {text : List Char} {reads : List Read} :
      Requests s retried (⟨text, .endOfStream⟩ :: reads)
        (((s.fill text true).conclude reads).after [.read]) [.read s ⟨text, .endOfStream⟩]
  /-- a failure after another one, or without a collaborator -/
  | unasked {s : ScanState} {retried : Bool} {text : List Char} {reads : List Read} {e : ReadError}
      (halone : retried = true ∨ s.reclaim = none) :
      Requests s retried (⟨text, .failed e⟩ :: reads) ((s.fail text e reads).after [.read])
        [.read s ⟨text, .failed e⟩]
  /-- a failure, and the collaborator does not take the terminal back -/
  | refused {s t : ScanState} {text : List Char} {reads : List Read} {e : ReadError}
      (hreclaim : s.reclaim = some (false, t)) :
      Requests s false (⟨text, .failed e⟩ :: reads)
        (((t.fail text e reads).after [.reclaim false]).after [.read])
        [.read s ⟨text, .failed e⟩, .reclaim false]
  /-- a failure, and the read is tried again -/
  | retry {s t : ScanState} {text : List Char} {reads : List Read} {e : ReadError} {r : Reply}
      {made : List Entry} (hreclaim : s.reclaim = some (true, t))
      (hnext : Requests t true reads r made) :
      Requests s false (⟨text, .failed e⟩ :: reads) ((r.after [.reclaim true]).after [.read])
        (.read s ⟨text, .failed e⟩ :: .reclaim true :: made)

/-- Every call that reads goes one of these ways. -/
theorem requests (reads : List Read) : ∀ (s : ScanState) (retried : Bool),
    Requests s retried reads (s.request retried reads) (s.inquiries retried reads) := by
  induction reads with
  | nil => exact fun _ _ => .exhausted
  | cons read reads ih =>
    intro s retried
    obtain ⟨text, status⟩ := read
    simp only [request, inquiries]
    cases status with
    | ok =>
      cases hscan : (s.fill text false).scanRest with
      | inl t => exact .dry hscan (ih t false)
      | inr a => exact .answer hscan
    | interrupted => exact .interrupted
    | endOfStream => exact .endOfStream
    | failed e =>
      cases retried with
      | true => exact .unasked (.inl rfl)
      | false =>
        cases hreclaim : s.reclaim with
        | none => exact .unasked (.inr hreclaim)
        | some answer =>
          obtain ⟨taken, t⟩ := answer
          cases taken with
          | true => exact .retry hreclaim (ih t true)
          | false => exact .refused hreclaim

variable {s : ScanState} {retried : Bool} {reads : List Read} {r : Reply} {made : List Entry}

theorem event?_cons_read (read : Read) (h : (made ++ r.closing).filterMap Entry.event? = r.events) :
    (.read s read :: made ++ (r.after [.read]).closing).filterMap Entry.event? =
      (r.after [.read]).events := by
  rw [Reply.closing_after_read]
  exact congrArg (Event.read :: ·) h

theorem event?_cons_reclaim (taken : Bool)
    (h : (made ++ r.closing).filterMap Entry.event? = r.events) :
    (.reclaim taken :: made ++ (r.after [.reclaim taken]).closing).filterMap Entry.event? =
      (r.after [.reclaim taken]).events := by
  rw [Reply.closing_after_reclaim]
  exact congrArg (Event.reclaim taken :: ·) h

/-- The entries of a call that reads are its events. -/
theorem Requests.event?_append_closing (h : Requests s retried reads r made) :
    (made ++ r.closing).filterMap Entry.event? = r.events := by
  induction h with
  | exhausted =>
    obtain ⟨reports, hreports⟩ := exists_events_conclude _ []
    exact event?_cons_read _ (Reply.event?_closing hreports)
  | dry _ _ ih => exact event?_cons_read _ ih
  | @answer s retried text reads a hscan =>
    obtain ⟨reports, hreports⟩ := exists_events_of_scanRest hscan
    exact event?_cons_read _ (Reply.event?_closing (r := a.toReply reads) hreports)
  | @endOfStream s retried text reads =>
    obtain ⟨reports, hreports⟩ := exists_events_conclude _ reads
    exact event?_cons_read _ (Reply.event?_closing hreports)
  | retry _ _ ih => exact event?_cons_read _ (event?_cons_reclaim true ih)
  | interrupted => rfl
  | unasked _ => rfl
  | refused _ => rfl

/-- The reads that are made and those that are left are the reads of the source; where these are
used up, the stream is at its end. -/
theorem Requests.exists_reads (h : Requests s retried reads r made) : ∃ n,
    made.filterMap Entry.read? ++ r.scanner.reads = reads ++ List.replicate n (.last []) := by
  -- A call that stops after a read leaves all other reads to the source.
  have hstop : ∀ (read : Read) (reads : List Read),
      ∃ n, [read] ++ reads = read :: reads ++ List.replicate n (.last []) :=
    fun read reads => ⟨0, (List.append_nil _).symm⟩
  induction h with
  | exhausted => exact ⟨1, congrArg (_ :: ·) (reads_conclude _ [])⟩
  | dry _ _ ih =>
    obtain ⟨n, hn⟩ := ih
    exact ⟨n, congrArg (_ :: ·) hn⟩
  | answer _ => exact hstop _ _
  | interrupted => exact hstop _ _
  | @endOfStream s retried text reads =>
    obtain ⟨n, hn⟩ := hstop ⟨text, .endOfStream⟩ reads
    exact ⟨n, (congrArg (_ :: ·) (reads_conclude _ reads)).trans hn⟩
  | unasked _ => exact hstop _ _
  | refused _ => exact hstop _ _
  | retry _ _ ih =>
    obtain ⟨n, hn⟩ := ih
    exact ⟨n, congrArg (_ :: ·) hn⟩

theorem Requests.result?_eq_nil (h : Requests s retried reads r made) :
    made.filterMap Entry.result? = [] := by
  induction h with
  | dry _ _ ih => exact ih
  | retry _ _ ih => exact ih
  | _ => rfl

end ScanState

/-! ## The whole run -/

namespace Scanner

variable (s : Scanner)

theorem event?_entries (c : Call) :
    (s.entries c).filterMap Entry.event? = (s.outcome c).events := by
  cases c with
  | reset => rfl
  | report message => rfl
  | nextToken =>
    simp only [entries, inquiries, outcome, nextToken]
    cases hscan : s.toScanState.scanRest with
    | inr a =>
      obtain ⟨reports, hreports⟩ := ScanState.exists_events_of_scanRest hscan
      exact Reply.event?_closing (r := a.toReply s.reads) hreports
    | inl t =>
      dsimp only
      split
      · obtain ⟨reports, hreports⟩ := t.exists_events_finish
        exact Reply.event?_closing (r := t.finish.toReply s.reads) hreports
      · exact (ScanState.requests s.reads t false).event?_append_closing

theorem result?_entries (c : Call) :
    (s.entries c).filterMap Entry.result? = (s.outcome c).result.toList := by
  cases c with
  | reset => rfl
  | report message => rfl
  | nextToken =>
    have hinquiries : s.inquiries.filterMap Entry.result? = [] := by
      unfold inquiries
      split
      · rfl
      · split
        · rfl
        · exact (ScanState.requests _ _ _).result?_eq_nil
    rw [entries, List.filterMap_append, hinquiries, Reply.result?_closing]
    rfl

/-- The reads of a call are those of its inquiries. -/
theorem read?_entries_nextToken :
    (s.entries .nextToken).filterMap Entry.read? = s.inquiries.filterMap Entry.read? := by
  rw [entries, List.filterMap_append, Reply.read?_closing, List.append_nil]

theorem exists_reads_entries (c : Call) : ∃ n,
    (s.entries c).filterMap Entry.read? ++ (s.after c).reads =
      s.reads ++ List.replicate n (.last []) := by
  cases c with
  | reset => exact ⟨0, (List.append_nil _).symm⟩
  | report message => exact ⟨0, (List.append_nil _).symm⟩
  | nextToken =>
    rw [read?_entries_nextToken]
    simp only [inquiries, after, nextToken]
    cases s.toScanState.scanRest with
    | inr a => exact ⟨0, (List.append_nil _).symm⟩
    | inl t =>
      dsimp only
      split
      · exact ⟨0, (List.append_nil _).symm⟩
      · exact (ScanState.requests s.reads t false).exists_reads

/-- The events of a run, in the order of time. -/
theorem event?_journal (calls : List Call) :
    (s.journal calls).filterMap Entry.event? = (s.run calls).flatMap Outcome.events := by
  induction calls generalizing s with
  | nil => rfl
  | cons c calls ih =>
    rw [journal, run, List.filterMap_append, List.flatMap_cons, event?_entries, ih]

/-- The results of a run. -/
theorem result?_journal (calls : List Call) :
    (s.journal calls).filterMap Entry.result? = (s.run calls).filterMap Outcome.result := by
  induction calls generalizing s with
  | nil => rfl
  | cons c calls ih =>
    rw [journal, run, List.filterMap_append, List.filterMap_cons, result?_entries, ih]
    cases (s.outcome c).result with
    | none => rfl
    | some result => rfl

/-- The reads of a run are those of the source, after which the stream is at its end. -/
theorem exists_reads_journal (calls : List Call) : ∃ n,
    (s.journal calls).filterMap Entry.read? ++ (s.afterAll calls).reads =
      s.reads ++ List.replicate n (.last []) := by
  induction calls generalizing s with
  | nil => exact ⟨0, (List.append_nil _).symm⟩
  | cons c calls ih =>
    obtain ⟨m, hm⟩ := s.exists_reads_entries c
    obtain ⟨n, hn⟩ := ih (s.after c)
    refine ⟨m + n, ?_⟩
    rw [journal, List.filterMap_append, afterAll, List.foldl_cons, List.append_assoc]
    change _ ++ (_ ++ ((s.after c).afterAll calls).reads) = _
    rw [hn, ← List.append_assoc, hm, List.append_assoc, List.replicate_append_replicate]

end Scanner

end LispShell
