import LispShell.Proofs.Refill
import LispShell.Proofs.RetriedText

set_option autoImplicit false

/-!
# A failed read that is not tried again

A read that fails for good ends the input, and the call that made it gives the failure.  It does no
more harm than that: the next call finds the scanner as it would be if the stream had ended with
that read, in the middle of whatever token it is in.  So the run over a source with such a read is
the run over the source in which it is the last one, with one more result.

The two sources have the same reads up to the one that fails.  `Onward` says what a call comes to
that knows only those: either it ends before they are used up, or it makes them all and goes on to
whatever comes after them, and what it has done until then does not depend on that.
-/

namespace LispShell

/-! ## Calls over a part of a source -/

/-- A call over a source that begins with the reads `sooner`, as a function of the reads after them.
The same goes for the reads and questions that it enters. -/
inductive Onward (sooner : List Read) (call : List Read → Reply) (enter : List Read → List Entry) :
    Prop where
  /-- it ends before they are used up -/
  | stops (answer : Answer) (made : List Entry) (left : List Read)
      (hmade : made.filterMap Entry.read? ++ left = sooner)
      (hcall : ∀ later, call later = answer.toReply (left ++ later))
      (henter : ∀ later, enter later = made)
  /-- it makes them all, and asks for more in this state -/
  | passes (s : ScanState) (retried : Bool) (events : List Event) (made : List Entry)
      (hopen : s.finished = false) (hreports : events.filterMap Event.report? = [])
      (hmade : made.filterMap Entry.read? = sooner)
      (hcall : ∀ later, call later = (s.request retried later).after events)
      (henter : ∀ later, enter later = made ++ s.inquiries retried later)

/-- The same call after some earlier events and entries. -/
theorem Onward.after {sooner : List Read} {call : List Read → Reply}
    {enter : List Read → List Entry} (h : Onward sooner call enter) {events : List Event}
    (made : List Entry) (hreports : events.filterMap Event.report? = []) :
    Onward (made.filterMap Entry.read? ++ sooner) (fun later => (call later).after events)
      (fun later => made ++ enter later) := by
  cases h with
  | stops answer made' left hmade hcall henter =>
    refine .stops { answer with events := events ++ answer.events } (made ++ made') left ?_ ?_ ?_
    · rw [List.filterMap_append, List.append_assoc, hmade]
    · intro later
      rw [hcall]
      rfl
    · intro later
      rw [henter]
  | passes s retried events' made' hopen hreports' hmade hcall henter =>
    refine .passes s retried (events ++ events') (made ++ made') hopen ?_ ?_ ?_ ?_
    · rw [List.filterMap_append, hreports, hreports', List.append_nil]
    · rw [List.filterMap_append, hmade]
    · intro later
      simp only [hcall, Reply.after, List.append_assoc]
    · intro later
      rw [henter, List.append_assoc]

theorem Onward.after_read {sooner : List Read} {call : List Read → Reply}
    {enter : List Read → List Entry} (h : Onward sooner call enter) (s : ScanState) (read : Read) :
    Onward (read :: sooner) (fun later => (call later).after [.read])
      fun later => .read s read :: enter later :=
  h.after [.read s read] rfl

theorem Onward.after_reclaim {sooner : List Read} {call : List Read → Reply}
    {enter : List Read → List Entry} (h : Onward sooner call enter) (taken : Bool) :
    Onward sooner (fun later => (call later).after [.reclaim taken])
      fun later => .reclaim taken :: enter later :=
  h.after [.reclaim taken] rfl

namespace ScanState

/-- What is scanned after the last read does not depend on the reads that are left. -/
theorem exists_answer_conclude (s : ScanState) :
    ∃ answer : Answer, ∀ reads, s.conclude reads = answer.toReply reads := by
  unfold conclude
  cases s.scanRest with
  | inl t => exact ⟨t.finish, fun _ => rfl⟩
  | inr a => exact ⟨a, fun _ => rfl⟩

theorem onward_request (sooner : List Read) : ∀ (s : ScanState) (retried : Bool),
    s.finished = false → Onward sooner (fun later => s.request retried (sooner ++ later))
      (fun later => s.inquiries retried (sooner ++ later)) := by
  induction sooner with
  | nil =>
    intro s retried hopen
    exact .passes s retried [] [] hopen rfl rfl (fun _ => rfl) fun _ => rfl
  | cons read sooner ih =>
    intro s retried hopen
    obtain ⟨text, status⟩ := read
    -- A call that stops after this read leaves all the others of `sooner`.
    have hstops (answer : Answer) : Onward sooner (fun later => answer.toReply (sooner ++ later))
        fun _ => [] :=
      .stops answer [] sooner rfl (fun _ => rfl) fun _ => rfl
    have hfail (t : ScanState) (e : ReadError) :
        Onward sooner (fun later => t.fail text e (sooner ++ later)) fun _ => [] :=
      hstops ⟨.error (.read e), t.fill text true, []⟩
    simp only [List.cons_append, request, inquiries]
    cases status with
    | ok =>
      refine Onward.after_read ?_ s ⟨text, .ok⟩
      cases hscan : (s.fill text false).scanRest with
      | inl t =>
        obtain ⟨mode, held, rfl⟩ := eq_of_scanRest_inl hscan
        exact ih _ false (by simp [fill, hopen])
      | inr a => exact hstops a
    | interrupted => exact (hstops ⟨.ok (.control .interrupt s.line), s.reset, []⟩).after_read s _
    | endOfStream =>
      obtain ⟨answer, hanswer⟩ := exists_answer_conclude (s.fill text true)
      simp only [hanswer]
      exact (hstops answer).after_read s _
    | failed e =>
      refine Onward.after_read ?_ s ⟨text, .failed e⟩
      cases retried with
      | true => exact hfail s e
      | false =>
        cases hreclaim : s.reclaim with
        | none => exact hfail s e
        | some answer =>
          obtain ⟨taken, t⟩ := answer
          obtain ⟨foreground, rfl⟩ := eq_of_reclaim hreclaim
          refine Onward.after_reclaim ?_ taken
          cases taken with
          | false => exact hfail _ e
          | true => exact ih { s with foreground } true hopen

end ScanState

/-- A call for a token, over a source that begins with the reads `sooner`. -/
theorem Scanner.onward_nextToken (s : ScanState) (sooner : List Read) :
    Onward sooner (fun later => nextToken { s with reads := sooner ++ later })
      (fun later => inquiries { s with reads := sooner ++ later }) := by
  simp only [nextToken, inquiries]
  cases s.scanRest with
  | inr a => exact .stops a [] sooner rfl (fun _ => rfl) fun _ => rfl
  | inl t =>
    dsimp only
    cases hfinished : t.finished with
    | true => exact .stops t.finish [] sooner rfl (fun _ => rfl) fun _ => rfl
    | false => exact ScanState.onward_request sooner t false hfinished

/-! ## The call that makes the read -/

/-- Of the calls for a token the one after the first `i` makes the read `failed`, when all the reads
`sooner` have been made, and does not try it again. -/
def Scanner.GivesUp (s : Scanner) (i : Nat) (sooner : List Read) (failed : Read) : Prop :=
  ∃ front state back,
    (s.afterAll (List.replicate i .nextToken)).entries .nextToken =
      front ++ .read state failed :: back ∧
    (s.journal (List.replicate i .nextToken) ++ front).filterMap Entry.read? = sooner ∧
    ∀ rest, back ≠ .reclaim true :: rest

/-- What can be seen of a call that gives a failed read. -/
def Outcome.failure (e : ReadError) (line : Nat) : Outcome where
  result := some (.error (.read e))
  events := []
  line := line
  finished := false

theorem Entry.eq_nil_of_cons_read {more back rest : List Entry} {s : ScanState} {read : Read}
    (h : .read s read :: back = more ++ rest) (hnone : more.filterMap Entry.read? = []) :
    more = [] := by
  cases more with
  | nil => rfl
  | cons entry more =>
    obtain ⟨rfl, -⟩ := List.cons.inj h
    simp [Entry.read?] at hnone

/-- Entries that end before a read are told apart by their reads. -/
theorem Entry.append_read_inj {front front' back back' : List Entry} {s s' : ScanState}
    {read read' : Read}
    (hreads : front.filterMap Entry.read? = front'.filterMap Entry.read?)
    (h : front ++ .read s read :: back = front' ++ .read s' read' :: back') :
    front = front' ∧ back = back' := by
  -- If one went on further it would hold the read that follows the other.
  rw [List.append_eq_append_iff] at h
  obtain ⟨more, hfront, hback⟩ | ⟨more, hfront, hback⟩ := h
  · rw [hfront, List.filterMap_append, List.self_eq_append_right] at hreads
    obtain rfl := eq_nil_of_cons_read hback hreads
    exact ⟨(hfront.trans (List.append_nil front)).symm, (List.cons.inj hback).2⟩
  · rw [hfront, List.filterMap_append, List.append_right_eq_self] at hreads
    obtain rfl := eq_nil_of_cons_read hback hreads
    exact ⟨hfront.trans (List.append_nil front'), (List.cons.inj hback).2.symm⟩

namespace ScanState

/-- A failed read that is not tried again is counted and its text is at hand, as that of the last
read would be; the call gives the failure before it scans it. -/
theorem request_failed {s : ScanState} {retried : Bool} {text : List Char} {e : ReadError}
    {later : List Read}
    (h : ∀ rest, s.inquiries retried (⟨text, .failed e⟩ :: later) ≠
      .read s ⟨text, .failed e⟩ :: .reclaim true :: rest) :
    ∃ foreground events, events.filterMap Event.report? = [] ∧
      s.request retried (⟨text, .failed e⟩ :: later) =
        ⟨.error (.read e), { s.fill text true with foreground, reads := later }, events⟩ := by
  have hrequests := requests (⟨text, .failed e⟩ :: later) s retried
  revert h hrequests
  generalize s.inquiries retried (⟨text, .failed e⟩ :: later) = made
  generalize s.request retried (⟨text, .failed e⟩ :: later) = r
  intro h hrequests
  cases hrequests with
  | unasked _ => exact ⟨s.foreground, [.read], rfl, rfl⟩
  | refused hreclaim =>
    obtain ⟨foreground, rfl⟩ := eq_of_reclaim hreclaim
    exact ⟨foreground, [.read, .reclaim false], rfl, rfl⟩
  | retry _ _ => exact absurd rfl (h _)

end ScanState

/-! ## The calls after the end of the input -/

namespace Scanner

section

variable {s : Scanner}

/-- At the end of the input the collaborator makes no difference. -/
theorem nextToken_of_finished (h : s.finished = true) (foreground : Option (List Bool)) :
    nextToken { s with foreground } =
      { s.nextToken with scanner := { s.nextToken.scanner with foreground } } := by
  obtain ⟨state, reads⟩ := s
  simp only at h
  simp only [nextToken, ScanState.scanRest]
  cases ScanState.scan state.previous state.mode state.held state.rest with
  | complete kind text rest => rfl
  | rejected rest => rfl
  | dry mode held =>
    simp only [h, if_true, ScanState.finish]
    split
    · rfl
    · rfl

theorem after_of_finished (h : s.finished = true) (c : Call) :
    (s.after c).finished = true ∧ (s.after c).line = s.line := by
  obtain ⟨state, reads⟩ := s
  simp only at h
  cases c with
  | reset => exact ⟨h, rfl⟩
  | report message => exact ⟨h, rfl⟩
  | nextToken =>
    simp only [after, nextToken, ScanState.scanRest]
    cases ScanState.scan state.previous state.mode state.held state.rest with
    | complete kind text rest => exact ⟨h, rfl⟩
    | rejected rest => exact ⟨h, rfl⟩
    | dry mode held =>
      simp only [h, if_true, ScanState.finish]
      split
      · exact ⟨rfl, rfl⟩
      · exact ⟨rfl, rfl⟩

theorem run_of_finished (h : s.finished = true) (foreground : Option (List Bool))
    (calls : List Call) : run { s with foreground } calls = s.run calls := by
  induction calls generalizing s with
  | nil => rfl
  | cons c calls ih =>
    have houtcome : outcome { s with foreground } c = s.outcome c := by
      cases c with
      | nextToken =>
        unfold outcome
        simp only [after]
        rw [nextToken_of_finished h foreground]
        rfl
      | reset => rfl
      | report message => rfl
    have hafter : after { s with foreground } c = { s.after c with foreground } := by
      cases c with
      | nextToken =>
        unfold after
        dsimp only
        rw [nextToken_of_finished h foreground]
      | reset => rfl
      | report message => rfl
    rw [run, run, houtcome, hafter, ih (after_of_finished h c).1]

end

/-! ## The whole run -/

/-- A call with some reads and questions before it. -/
theorem withoutReads_run_of_after {s t : Scanner} {events : List Event}
    (hreports : events.filterMap Event.report? = [])
    (h : t.nextToken = s.nextToken.after events) (n : Nat) :
    (t.run (List.replicate n .nextToken)).map Outcome.withoutReads =
      (s.run (List.replicate n .nextToken)).map Outcome.withoutReads := by
  cases n with
  | zero => rfl
  | succ n =>
    simp only [List.replicate_succ, run, List.map_cons, outcome, after, h, Outcome.withoutReads,
      Reply.after, List.filterMap_append, hreports, List.nil_append]

section

variable {s : ScanState} {sooner later : List Read} {text : List Char} {e : ReadError}

/-- The call that makes the read stops with the failure where, at the end of the stream, it would
scan on. -/
theorem GivesUp.nextToken_zero
    (h : GivesUp { s with reads := sooner ++ ⟨text, .failed e⟩ :: later } 0 sooner
      ⟨text, .failed e⟩) :
    ∃ filled : Scanner, filled.finished = true ∧ filled.isFinished = false ∧
      (∃ foreground events, events.filterMap Event.report? = [] ∧
        nextToken { s with reads := sooner ++ ⟨text, .failed e⟩ :: later } =
          ⟨.error (.read e), { filled with foreground }, events⟩) ∧
      ∃ events, events.filterMap Event.report? = [] ∧
        nextToken { s with reads := sooner ++ ⟨text, .endOfStream⟩ :: later } =
          filled.nextToken.after events := by
  obtain ⟨front, state, back, hentries, hfront, hretry⟩ := h
  have hfront : front.filterMap Entry.read? = sooner := hfront
  cases onward_nextToken s sooner with
  | stops answer made left hmade hcall henter =>
    have hreads := read?_entries_nextToken { s with reads := sooner ++ ⟨text, .failed e⟩ :: later }
    rw [henter] at hreads
    have hlength := congrArg List.length (hreads.symm.trans (congrArg _ hentries))
    simp only [List.filterMap_append, List.filterMap_cons, Entry.read?, hfront, ← hmade,
      List.length_append, List.length_cons] at hlength
    omega
  | passes t retried events made hopen hreports hmade hcall henter =>
    have hsplit : made ++ t.inquiries retried (⟨text, .failed e⟩ :: later) ++
        (nextToken { s with reads := sooner ++ ⟨text, .failed e⟩ :: later }).closing =
          front ++ .read state ⟨text, .failed e⟩ :: back := by
      rw [← henter]
      exact hentries
    obtain ⟨foreground, events', hreports', hrequest⟩ :
        ∃ foreground events', events'.filterMap Event.report? = [] ∧
          t.request retried (⟨text, .failed e⟩ :: later) =
            ⟨.error (.read e), { t.fill text true with foreground, reads := later }, events'⟩ := by
      refine ScanState.request_failed fun rest hrest => ?_
      rw [hrest, List.append_assoc] at hsplit
      obtain ⟨-, hback⟩ := Entry.append_read_inj (hmade.trans hfront.symm) hsplit
      exact hretry _ hback.symm
    refine ⟨{ t.fill text true with reads := later }, ?_, ?_, ⟨foreground, events ++ events', ?_, ?_⟩,
      events ++ [.read], ?_, ?_⟩
    · simp [ScanState.fill]
    · simp [isFinished, ScanState.fill]
    · rw [List.filterMap_append, hreports, hreports', List.append_nil]
    · rw [hcall, hrequest]
      rfl
    · rw [List.filterMap_append, hreports]
      rfl
    · have hend : ReadStatus.endOfStream = .ofEnded true := rfl
      rw [hcall, hend, ScanState.request_ofEnded hopen]
      simp [Reply.after]

/-- A call before it makes some of the reads that come sooner. -/
theorem GivesUp.nextToken_succ {i : Nat}
    (h : GivesUp { s with reads := sooner ++ ⟨text, .failed e⟩ :: later } (i + 1) sooner
      ⟨text, .failed e⟩) :
    ∃ (answer : Answer) (left : List Read),
      nextToken { s with reads := sooner ++ ⟨text, .failed e⟩ :: later } =
        answer.toReply (left ++ ⟨text, .failed e⟩ :: later) ∧
      nextToken { s with reads := sooner ++ ⟨text, .endOfStream⟩ :: later } =
        answer.toReply (left ++ ⟨text, .endOfStream⟩ :: later) ∧
      GivesUp { answer.state with reads := left ++ ⟨text, .failed e⟩ :: later } i left
        ⟨text, .failed e⟩ := by
  obtain ⟨front, state, back, hentries, hfront, hretry⟩ := h
  rw [List.replicate_succ, journal, List.append_assoc, List.filterMap_append,
    read?_entries_nextToken] at hfront
  cases onward_nextToken s sooner with
  | stops answer made left hmade hcall henter =>
    subst hmade
    rw [henter] at hfront
    refine ⟨answer, left, hcall _, hcall _, front, state, back, ?_, ?_, hretry⟩
    · rw [← hentries, List.replicate_succ, afterAll, afterAll, List.foldl_cons, after, hcall]
      rfl
    · have hrest := List.append_cancel_left hfront
      rw [after, hcall] at hrest
      exact hrest
  | passes t retried events made hopen hreports hmade hcall henter =>
    have hlength := congrArg List.length hfront
    simp only [henter, List.filterMap_append, hmade, ScanState.inquiries, List.filterMap_cons,
      Entry.read?, List.length_append, List.length_cons] at hlength
    omega

/-- If a read fails and is not tried again, then calls for tokens give and report what they would if
it were the last read of the source, and the call that makes it gives the failure besides, before
all that the text of the read leads to.  The scanner may be in the middle of anything. -/
theorem run_of_givesUp {i : Nat}
    (h : GivesUp { s with reads := sooner ++ ⟨text, .failed e⟩ :: later } i sooner
      ⟨text, .failed e⟩) (n : Nat) :
    (run { s with reads := sooner ++ ⟨text, .failed e⟩ :: later }
      (List.replicate (i + n + 1) .nextToken)).map Outcome.withoutReads =
    ((run { s with reads := sooner ++ ⟨text, .endOfStream⟩ :: later }
      (List.replicate (i + n) .nextToken)).map Outcome.withoutReads).insertIdx i
        (.failure e (afterAll { s with reads := sooner ++ ⟨text, .endOfStream⟩ :: later }
          (List.replicate (i + 1) .nextToken)).line) := by
  induction i generalizing s sooner with
  | zero =>
    obtain ⟨filled, hfinished, hopen, ⟨foreground, events, hreports, hfailed⟩,
      events', hreports', hended⟩ := h.nextToken_zero
    rw [Nat.zero_add, withoutReads_run_of_after hreports' hended n, List.replicate_succ, run,
      List.map_cons, List.insertIdx_zero, after, hfailed, run_of_finished hfinished]
    congr 1
    have hline : filled.nextToken.scanner.line = filled.line :=
      (after_of_finished hfinished .nextToken).2
    have hopen' : isFinished { filled with foreground } = false := hopen
    simp [outcome, Outcome.withoutReads, Outcome.failure, after, hfailed, hreports, afterAll,
      hended, Reply.after, hline, hopen']
  | succ i ih =>
    obtain ⟨answer, left, hfailed, hended, hnext⟩ := h.nextToken_succ
    have hseen : (outcome { s with reads := sooner ++ ⟨text, .failed e⟩ :: later }
        .nextToken).withoutReads =
        (outcome { s with reads := sooner ++ ⟨text, .endOfStream⟩ :: later }
          .nextToken).withoutReads := by
      simp only [outcome, after, hfailed, hended]
      rfl
    have hfirst (t : Scanner) (k : Nat) :
        (t.run (List.replicate (k + 1) .nextToken)).map Outcome.withoutReads =
          (t.outcome .nextToken).withoutReads ::
            (t.nextToken.scanner.run (List.replicate k .nextToken)).map Outcome.withoutReads := rfl
    have hlast (t : Scanner) (k : Nat) : t.afterAll (List.replicate (k + 1) .nextToken) =
        t.nextToken.scanner.afterAll (List.replicate k .nextToken) := rfl
    have hrest := ih hnext
    rw [Nat.add_right_comm i 1 n, hfirst _ (i + n + 1), hseen, hfailed]
    refine (congrArg (_ :: ·) hrest).trans ?_
    rw [hfirst _ (i + n), List.insertIdx_succ_cons, hlast _ (i + 1), hended]
    rfl

end

/-- The third call comes to a read of this status, in the middle of an escape.  An earlier read
failed and was tried again, and the next time the collaborator will refuse. -/
def cutShort (status : ReadStatus) : Scanner :=
  { ScanState.initial "tty" (some [true]) with
    reads := [.fail .timedOut, .line ['l', 's']] ++ ⟨['"', 'a', '\\'], status⟩ :: [.line ['b']] }

theorem run_of_givesUp_cutShort :
    (cutShort (.failed .brokenPipe)).GivesUp 2 [.fail .timedOut, .line ['l', 's']]
        ⟨['"', 'a', '\\'], .failed .brokenPipe⟩ ∧
      ((cutShort (.failed .brokenPipe)).run (List.replicate 5 .nextToken)).map
          Outcome.withoutReads =
        (((cutShort .endOfStream).run (List.replicate 4 .nextToken)).map
          Outcome.withoutReads).insertIdx 2 (.failure .brokenPipe 2) := by
  have h : (cutShort (.failed .brokenPipe)).GivesUp 2 [.fail .timedOut, .line ['l', 's']]
      ⟨['"', 'a', '\\'], .failed .brokenPipe⟩ :=
    ⟨[], _, [.reclaim false, .gave (.error (.read .brokenPipe))], rfl, rfl, by simp⟩
  exact ⟨h, run_of_givesUp h 2⟩

example : ((cutShort (.failed .brokenPipe)).results 5).map Lexeme.ofResult =
    [.token .symbol "ls", .token .newline "\n", .readFault .brokenPipe, .unterminated,
      .token .endOfInput ""] := by
  decide

end Scanner

end LispShell
