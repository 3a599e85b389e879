import LispShell.Proofs.Run

set_option autoImplicit false

/-!
# Beginning anew

An interrupted read and a reset drop everything that a scanner is in the middle of.  What is left of
its past is the number of lines read, and that number does nothing but appear in tokens, faults and
reports: a scanner with `k` more lines behind it does the same with every line number raised by `k`.
So a scanner that began anew behaves like one that was just built over the rest of its source.

* `Scanner.run_shift` is the statement about line numbers, for every run of calls.
* `Scanner.nextToken_of_interrupted` describes a call that comes to an interrupted read.
-/

namespace LispShell

/-! ## Raised line numbers -/

/-- The token with its line number raised. -/
def Token.shift (k : Nat) (t : Token) : Token :=
  { t with line := t.line + k }

/-- The fault with its line number raised. -/
def Fault.shift (k : Nat) : Fault → Fault
  | .unexpected line => .unexpected (line + k)
  | .unterminated line => .unterminated (line + k)
  | .read e => .read e

/-- The event with the line number of a report raised. -/
def Event.shift (k : Nat) : Event → Event
  | .read => .read
  | .reclaim taken => .reclaim taken
  | .report r => .report { r with line := r.line + k }

/-- The result with its line number raised. -/
def shiftResult (k : Nat) : Except Fault Token → Except Fault Token
  | .ok t => .ok (t.shift k)
  | .error f => .error (f.shift k)

/-- The state with `k` more lines read before it. -/
def ScanState.shift (k : Nat) (s : ScanState) : ScanState :=
  { s with line := s.line + k }

/-- The answer with all line numbers raised. -/
def Answer.shift (k : Nat) (a : Answer) : Answer :=
  ⟨shiftResult k a.result, a.state.shift k, a.events.map (Event.shift k)⟩

/-- The scanner with `k` more lines read before it. -/
def Scanner.shift (k : Nat) (s : Scanner) : Scanner :=
  { s with line := s.line + k }

/-- The reply with all line numbers raised. -/
def Reply.shift (k : Nat) (r : Reply) : Reply :=
  ⟨shiftResult k r.result, r.scanner.shift k, r.events.map (Event.shift k)⟩

/-- The outcome with all line numbers raised. -/
def Outcome.shift (k : Nat) (o : Outcome) : Outcome :=
  { o with
    result := o.result.map (shiftResult k)
    events := o.events.map (Event.shift k)
    line := o.line + k }

/-! ## What raising leaves alone -/

/-- A raised result differs in nothing but its line number. -/
@[simp] theorem Lexeme.ofResult_shiftResult (k : Nat) (r : Except Fault Token) :
    Lexeme.ofResult (shiftResult k r) = Lexeme.ofResult r := by
  cases r with
  | ok t => rfl
  | error f => cases f <;> rfl

@[simp] theorem Answer.toReply_shift (k : Nat) (a : Answer) (reads : List Read) :
    (a.shift k).toReply reads = (a.toReply reads).shift k := rfl

@[simp] theorem Reply.shift_after (k : Nat) (r : Reply) (events : List Event) :
    (r.after events).shift k = (r.shift k).after (events.map (Event.shift k)) := by
  simp [Reply.after, Reply.shift]

namespace ScanState

variable (k : Nat) (s : ScanState)

theorem scanRest_shift :
    (s.shift k).scanRest = (s.scanRest).map (shift k) (Answer.shift k) := by
  simp only [scanRest, shift]
  cases scan s.previous s.mode s.held s.rest <;> rfl

theorem finish_shift : (s.shift k).finish = s.finish.shift k := by
  have hmode : (s.shift k).mode = s.mode := rfl
  unfold finish
  rw [hmode]
  split
  · rfl
  · rfl

theorem fill_shift (text : List Char) (ended : Bool) :
    (s.shift k).fill text ended = (s.fill text ended).shift k := by
  simp only [fill, shift, Nat.add_right_comm]

theorem conclude_shift (reads : List Read) :
    (s.shift k).conclude reads = (s.conclude reads).shift k := by
  simp only [conclude, scanRest_shift]
  cases s.scanRest with
  | inl t => simp [finish_shift]
  | inr a => simp

theorem fail_shift (text : List Char) (e : ReadError) (reads : List Read) :
    (s.shift k).fail text e reads = (s.fail text e reads).shift k := by
  simp only [fail, fill_shift]
  rfl

theorem reclaim_shift :
    (s.shift k).reclaim = s.reclaim.map fun answer => (answer.1, answer.2.shift k) := by
  obtain ⟨name, foreground, held, rest, line, mode, previous, finished⟩ := s
  cases foreground with
  | none => rfl
  | some answers => cases answers <;> rfl

/-- Reading lines does the same behind more lines. -/
theorem request_shift (reads : List Read) (retried : Bool) :
    (s.shift k).request retried reads = (s.request retried reads).shift k := by
  induction reads generalizing s retried with
  | nil => simp [request, fill_shift, conclude_shift, Event.shift]
  | cons read reads ih =>
    obtain ⟨text, status⟩ := read
    simp only [request, Reply.shift_after, List.map_cons, List.map_nil, Event.shift]
    congr 1
    cases status with
    | ok =>
      simp only [fill_shift, scanRest_shift]
      cases (s.fill text false).scanRest with
      | inl t => exact ih t false
      | inr a => rfl
    | interrupted => rfl
    | endOfStream => simp only [fill_shift, conclude_shift]
    | failed e =>
      simp only [fail_shift, reclaim_shift]
      split
      · rfl
      · cases s.reclaim with
        | none => rfl
        | some answer =>
          obtain ⟨taken, t⟩ := answer
          cases taken with
          | true => simp [ih t true, Event.shift]
          | false => simp [fail_shift, Event.shift]

end ScanState

namespace Scanner

variable (k : Nat) (s : Scanner)

/-- A call for the next token does the same behind more lines. -/
theorem nextToken_shift : (s.shift k).nextToken = s.nextToken.shift k := by
  have hstate : (s.shift k).toScanState = s.toScanState.shift k := rfl
  have hreads : (s.shift k).reads = s.reads := rfl
  unfold nextToken
  rw [hstate, hreads, ScanState.scanRest_shift]
  cases s.toScanState.scanRest with
  | inr a => rfl
  | inl t =>
    have hfinished : (t.shift k).finished = t.finished := rfl
    simp only [Sum.map_inl, hfinished, ScanState.finish_shift, ScanState.request_shift]
    split
    · rfl
    · rfl

/-- The scanner after a call, behind more lines. -/
theorem after_shift (c : Call) : (s.shift k).after c = (s.after c).shift k := by
  cases c with
  | nextToken => simp only [after, nextToken_shift]; rfl
  | reset => rfl
  | report message => rfl

/-- What can be seen of a call, behind more lines. -/
theorem outcome_shift (c : Call) : (s.shift k).outcome c = (s.outcome c).shift k := by
  cases c with
  | nextToken => simp only [outcome, after, nextToken_shift]; rfl
  | reset => rfl
  | report message => rfl

/-- A run of calls behind more lines is the same run with all line numbers raised. -/
theorem run_shift (calls : List Call) :
    (s.shift k).run calls = (s.run calls).map (Outcome.shift k) := by
  induction calls generalizing s with
  | nil => rfl
  | cons c calls ih =>
    simp only [run, List.map_cons, outcome_shift, after_shift]
    rw [ih]

end Scanner

/-! ## A new beginning -/

/-- A reset leaves of a scanner what a new one over the rest of its source has, and the number of
lines read. -/
theorem Scanner.reset_eq_shift {s : Scanner} (h : s.finished = false) :
    s.reset = (ofReads s.name s.reads s.foreground).shift s.line := by
  simp [reset, ScanState.reset, ofReads, shift, ScanState.initial, h]

/-- If scanning uses up the characters at hand, only the mode and what is held have changed. -/
theorem ScanState.eq_of_scanRest_inl {s t : ScanState} (h : s.scanRest = .inl t) :
    ∃ mode held, t = { s with mode, held, rest := [] } := by
  unfold scanRest at h
  split at h
  · rename_i mode held _
    exact ⟨mode, held, (Sum.inl.inj h).symm⟩
  · simp at h
  · simp at h

/-- Asking the collaborator changes nothing but its answers to come. -/
theorem ScanState.eq_of_reclaim {s t : ScanState} {taken : Bool}
    (h : s.reclaim = some (taken, t)) : ∃ foreground, t = { s with foreground } := by
  obtain ⟨name, foreground, held, rest, line, mode, previous, finished⟩ := s
  cases foreground with
  | none => simp [reclaim] at h
  | some answers =>
    cases answers with
    | nil =>
      simp only [reclaim, Option.map_some, Option.some.injEq, Prod.mk.injEq] at h
      exact ⟨_, h.2.symm⟩
    | cons answer answers =>
      simp only [reclaim, Option.map_some, Option.some.injEq, Prod.mk.injEq] at h
      exact ⟨_, h.2.symm⟩

/-- The reply of a call that came to an interrupted read after the reads `made`, from a scanner of
this name and with this many lines read: the scanner has begun anew. -/
structure Reply.IsInterrupt (r : Reply) (name : String) (line : Nat) (made : List Read) : Prop where
  result : r.result = .ok (.control .interrupt r.scanner.line)
  line : r.scanner.line = line + made.countP (·.status == .ok)
  scanner : r.scanner =
    (Scanner.ofReads name r.scanner.reads r.scanner.foreground).shift r.scanner.line

theorem ScanState.reads_conclude (s : ScanState) (reads : List Read) :
    (s.conclude reads).scanner.reads = reads := by
  unfold conclude
  split
  · rfl
  · rfl

/-- If one of the reads that were made was interrupted, it was the last and the scanner began
anew. -/
theorem ScanState.isInterrupt_request (reads : List Read) :
    ∀ (s : ScanState) (retried : Bool) (made later : List Read) (text : List Char),
      s.finished = false →
      reads = made ++ ⟨text, .interrupted⟩ :: (later ++ (s.request retried reads).scanner.reads) →
      later = [] ∧ (s.request retried reads).IsInterrupt s.name s.line made := by
  induction reads with
  | nil =>
    intro s retried made later text _ hreads
    simp at hreads
  | cons read reads ih =>
    intro s retried made later text hfinished hreads
    obtain ⟨readText, status⟩ := read
    cases made with
    | nil =>
      obtain ⟨hread, hlater⟩ := List.cons.inj hreads
      obtain ⟨rfl, rfl⟩ := Read.mk.inj hread
      refine ⟨List.self_eq_append_left.mp hlater, rfl, rfl, ?_⟩
      simp [request, Reply.after, Answer.toReply, reset, Scanner.ofReads, Scanner.shift, initial,
        hfinished]
    | cons first made =>
      obtain ⟨rfl, hrest⟩ := List.cons.inj hreads
      -- The call went on after its first read: no reply leaves all the other reads to the source.
      have hmore (r : Reply) (hr : r.scanner.reads = reads) :
          reads ≠ made ++ ⟨text, .interrupted⟩ :: (later ++ r.scanner.reads) := by
        intro h
        have hlength := congrArg List.length h
        simp only [hr, List.length_append, List.length_cons] at hlength
        omega
      cases status with
      | ok =>
        simp only [request] at hrest ⊢
        cases hscan : (s.fill readText false).scanRest with
        | inr a =>
          rw [hscan] at hrest
          exact absurd hrest (hmore (a.toReply reads) rfl)
        | inl t =>
          rw [hscan] at hrest
          obtain ⟨mode, held, rfl⟩ := eq_of_scanRest_inl hscan
          obtain ⟨hlast, h⟩ := ih _ false made later text (by simp [fill, hfinished]) hrest
          refine ⟨hlast, h.result, ?_, h.scanner⟩
          have hline := h.line
          simp only [Reply.after, fill] at hline ⊢
          rw [hline, List.countP_cons]
          simp
          omega
      | interrupted => exact absurd hrest (hmore _ rfl)
      | endOfStream => exact absurd hrest (hmore _ (reads_conclude _ reads))
      | failed e =>
        simp only [request] at hrest ⊢
        cases retried with
        | true => exact absurd hrest (hmore _ rfl)
        | false =>
          cases hreclaim : s.reclaim with
          | none =>
            rw [hreclaim] at hrest
            exact absurd hrest (hmore (s.fail readText e reads) rfl)
          | some answer =>
            obtain ⟨taken, t⟩ := answer
            obtain ⟨foreground, rfl⟩ := eq_of_reclaim hreclaim
            rw [hreclaim] at hrest
            cases taken with
            | false =>
              exact absurd hrest (hmore ({ s with foreground }.fail readText e reads) rfl)
            | true =>
              obtain ⟨hlast, h⟩ := ih { s with foreground } true made later text hfinished hrest
              refine ⟨hlast, h.result, ?_, h.scanner⟩
              have hline := h.line
              simp only [Bool.false_eq_true, if_false, if_true, Reply.after] at hline ⊢
              rw [hline, List.countP_cons]
              simp

namespace Scanner

/-- A call that came to an interrupted read after the reads `made` began anew. -/
theorem isInterrupt_nextToken {s : Scanner} {made later : List Read} {text : List Char}
    (h : s.reads = made ++ ⟨text, .interrupted⟩ :: (later ++ s.nextToken.scanner.reads)) :
    later = [] ∧ s.nextToken.IsInterrupt s.name s.line made := by
  obtain ⟨state, reads⟩ := s
  -- Without a read the source would keep all that it has.
  have hmade : (⟨state, reads⟩ : Scanner).nextToken.scanner.reads ≠ reads := by
    intro hsame
    have hlength := congrArg List.length h
    simp only [hsame, List.length_append, List.length_cons] at hlength
    omega
  unfold nextToken at h hmade ⊢
  simp only at h hmade ⊢
  cases hscan : state.scanRest with
  | inr a =>
    rw [hscan] at hmade
    exact absurd rfl hmade
  | inl t =>
    simp only [hscan] at h hmade ⊢
    cases hfinished : t.finished with
    | true =>
      simp only [hfinished, if_true] at hmade
      exact absurd rfl hmade
    | false =>
      simp only [hfinished, Bool.false_eq_true, if_false] at h ⊢
      obtain ⟨mode, held, rfl⟩ := ScanState.eq_of_scanRest_inl hscan
      exact ScanState.isInterrupt_request reads _ false made later text hfinished h

/-- At the end of the input a reset scanner gives the end and stays as it is. -/
theorem nextToken_reset_of_finished {s : Scanner} (h : s.finished = true) :
    s.reset.nextToken = ⟨.ok (.control .endOfInput s.line), s.reset, []⟩ := by
  obtain ⟨state, reads⟩ := s
  simp only at h
  simp [nextToken, reset, ScanState.reset, ScanState.scanRest, ScanState.scan, ScanState.finish,
    Mode.isQuoted, Answer.toReply, h]

/-- At the end of the input no call changes a reset scanner. -/
theorem after_reset_of_finished {s : Scanner} (h : s.finished = true) (c : Call) :
    s.reset.after c = s.reset := by
  cases c with
  | nextToken => simp only [after, nextToken_reset_of_finished h]
  | reset => rfl
  | report message => rfl

/-- At the end of the input all calls for a token of a reset scanner give the end. -/
theorem result_of_mem_run_reset {s : Scanner} (h : s.finished = true) (calls : List Call) :
    ∀ o ∈ s.reset.run calls, ∀ result ∈ o.result,
      result = .ok (.control .endOfInput s.line) := by
  induction calls with
  | nil => simp [run]
  | cons c calls ih =>
    intro o ho
    rw [run, after_reset_of_finished h] at ho
    cases ho with
    | tail _ ho => exact ih o ho
    | head =>
      intro result hresult
      cases c with
      | nextToken =>
        simp only [outcome, nextToken_reset_of_finished h, Option.mem_def,
          Option.some.injEq] at hresult
        exact hresult.symm
      | reset => simp [outcome] at hresult
      | report message => simp [outcome] at hresult

/-- A call that comes to an interrupted read, whatever it is in the middle of, reads no more, gives
one `interrupt` token, does not count the read, and drops all text; `made` are the reads that it
made before.  From then on, and likewise after a reset before the end of the input, it gives what a
scanner just built over the rest of the source gives, with the lines counted on.  After a reset at
the end of the input it gives nothing but the end. -/
theorem begins_anew (s : Scanner) :
    (∀ made text later,
      s.reads = made ++ ⟨text, .interrupted⟩ :: (later ++ s.nextToken.scanner.reads) →
      later = [] ∧
      s.nextToken.result = .ok (.control .interrupt s.nextToken.scanner.line) ∧
      s.nextToken.scanner.line = s.line + made.countP (·.status == .ok) ∧
      s.nextToken.scanner.held = [] ∧ s.nextToken.scanner.rest = [] ∧
      ∀ calls, s.nextToken.scanner.run calls =
        ((ofReads s.name s.nextToken.scanner.reads s.nextToken.scanner.foreground).run calls).map
          (Outcome.shift s.nextToken.scanner.line)) ∧
    (s.finished = false → ∀ calls, s.reset.run calls =
      ((ofReads s.name s.reads s.foreground).run calls).map (Outcome.shift s.line)) ∧
    (s.finished = true → ∀ calls, ∀ o ∈ s.reset.run calls, ∀ result ∈ o.result,
      result = .ok (.control .endOfInput s.line)) := by
  refine ⟨?_, ?_, ?_⟩
  · intro made text later hreads
    obtain ⟨hlast, h⟩ := isInterrupt_nextToken hreads
    refine ⟨hlast, h.result, h.line, ?_, ?_, ?_⟩
    · rw [h.scanner]; rfl
    · rw [h.scanner]; rfl
    · intro calls
      rw [← run_shift, ← h.scanner]
  · intro hfinished calls
    rw [reset_eq_shift hfinished, run_shift]
  · intro hfinished calls
    exact result_of_mem_run_reset hfinished calls

/-- A scanner after a `|`, whose source breaks off in the middle of an escape. -/
def brokenOff : Scanner :=
  (ofReads "sh" [⟨['|', '\n'], .ok⟩, ⟨['"', 'a', '\\'], .ok⟩, ⟨['b'], .interrupted⟩,
    ⟨['l', 's', '\n'], .ok⟩] (some [true])).after .nextToken

/-- A scanner in the middle of the last line of its source. -/
def nearEnd : Scanner :=
  (ofReads "sh" [⟨['a', ' ', 'b'], .endOfStream⟩] none).after .nextToken

theorem begins_anew_brokenOff :
    (brokenOff.reads = [⟨['"', 'a', '\\'], .ok⟩] ++
          ⟨['b'], .interrupted⟩ :: ([] ++ brokenOff.nextToken.scanner.reads) ∧
      brokenOff.nextToken.result = .ok (.control .interrupt 2) ∧
      brokenOff.nextToken.scanner.run [.nextToken, .reset, .nextToken] =
        ((ofReads "sh" [⟨['l', 's', '\n'], .ok⟩] (some [true])).run
          [.nextToken, .reset, .nextToken]).map (Outcome.shift 2)) ∧
    (brokenOff.finished = false ∧ brokenOff.reset.run [.nextToken] =
      ((ofReads "sh" brokenOff.reads (some [true])).run [.nextToken]).map (Outcome.shift 1)) ∧
    (nearEnd.finished = true ∧ ∀ o ∈ nearEnd.reset.run [.nextToken], ∀ result ∈ o.result,
      result = .ok (.control .endOfInput 1)) := by
  have hreads : brokenOff.reads = [⟨['"', 'a', '\\'], .ok⟩] ++
      ⟨['b'], .interrupted⟩ :: ([] ++ brokenOff.nextToken.scanner.reads) := by
    decide
  obtain ⟨-, hresult, -, -, -, hrun⟩ := (begins_anew brokenOff).1 _ _ _ hreads
  have hopen : brokenOff.finished = false := by decide
  have hended : nearEnd.finished = true := by decide
  refine ⟨⟨hreads, hresult, hrun _⟩, ⟨hopen, ?_⟩, ⟨hended, ?_⟩⟩
  · exact (begins_anew brokenOff).2.1 hopen _
  · exact (begins_anew nearEnd).2.2 hended _

end Scanner

end LispShell
