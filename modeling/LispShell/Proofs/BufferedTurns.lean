import LispShell.Proofs.BufferedScanner

set_option autoImplicit false

/-!
# The calls of a scanner with a buffer

`BufferedCall.Turns` lists what a turn can be, and whatever holds of turns is shown by its cases.

Every turn that does not end the call reads a line, goes past a character, or leads to one of a few
turns on the same character.  So calls come to an end, and `BufferedCall.complete` is the whole of a
call: its turns, its result and the scanner after it, or an access that is out of range.
-/

namespace LispShell

open ScanState

/-- A computation in two parts succeeds if both do. -/
theorem exists_of_bind_eq_ok {ε α β : Type} {x : Except ε α} {f : α → Except ε β} {b : β}
    (h : x >>= f = .ok b) : ∃ a, x = .ok a ∧ f a = .ok b := by
  cases x with
  | error e => cases h
  | ok a => exact ⟨a, rfl, h⟩

/-! ## Acts and moves -/

/-- What an act on a character has to do with the move on it, in a stage with these characters
held. -/
inductive Act.Fits (s : Stage) (held : List Char) (c : Char) : Act → Prop where
  | skip (hstage : s = .start) (hmove : (s.mode held).move c = .skip) :
      Fits s held c (.go .start true)
  | take {next : Stage} (hstage : s ≠ .singleQuoted) (hnext : next ≠ .start)
      (hmove : (s.mode held).move c = .take (next.mode (c :: held))) : Fits s held c (.go next true)
  /-- the character is looked at again, in a symbol -/
  | word (hstage : s = .bang ∨ s = .start ∧ endsSymbol c = false)
      (hmove : (s.mode held).move c = Mode.symbol.move c) : Fits s held c (.go .symbol false)
  /-- the line break after a comment is looked at again -/
  | uncomment (hstage : s = .comment) (hc : c = '\n') (hmove : (s.mode held).move c = .lineBreak) :
      Fits s held c (.go .start false)
  | lineBreak (hstage : s = .start) (hmove : (s.mode held).move c = .lineBreak) :
      Fits s held c (.complete .newline true)
  | close {kind : TokenKind} (hkind : kind ≠ .newline)
      (hmove : (s.mode held).move c = .close kind) : Fits s held c (.complete kind true)
  | closeBefore {kind : TokenKind} (hstage : s ≠ .start) (hkind : kind ≠ .newline)
      (hmove : (s.mode held).move c = .closeBefore kind) : Fits s held c (.complete kind false)
  | double (hstage : s.isQuoted = true) (hdouble : s ≠ .singleQuoted) :
      Fits s held c (.enter .double)
  | single (hstage : s = .singleQuoted) : Fits s held c (.enter .single)
  | reject (hstage : s = .less) (hmove : (s.mode held).move c = .reject) : Fits s held c .reject

/-- A character that ends symbols begins none. -/
theorem Stage.firstAct_ne {c : Char} (h : endsSymbol c = true) :
    firstAct c ≠ .go .symbol false := by
  simp only [endsSymbol, List.contains_iff_mem, List.mem_cons, List.not_mem_nil, or_false] at h
  rcases h with rfl | rfl | rfl | rfl | rfl | rfl | rfl | rfl | rfl | rfl | rfl | rfl | rfl | rfl |
    rfl | rfl | rfl
  all_goals decide

theorem Stage.fits_firstAct (held : List Char) (c : Char) :
    (firstAct c).Fits .start held c := by
  have hends : firstAct c = .go .symbol false → endsSymbol c = false := fun h =>
    Bool.eq_false_iff.mpr fun hends => firstAct_ne hends h
  unfold firstAct at hends ⊢
  split
  case h_20 =>
    refine .word (.inr ⟨rfl, ?_⟩) ?_
    · simp_all
    · simp_all [Stage.mode, Mode.firstMove, Mode.move, Mode.symbolMove]
  case h_1 => exact .lineBreak rfl rfl
  case h_9 => exact .skip rfl rfl
  case h_10 => exact .skip rfl rfl
  all_goals first | exact .close (by decide) rfl | exact .take (by decide) (by decide) rfl

/-- What an act on a character and the move on it have to do with each other, in every stage. -/
theorem Stage.fits_act (s : Stage) {held : List Char} {escaped : Bool} (c : Char)
    (h : s = .comment → escaped = (held.head? == some '\\')) :
    (s.act escaped c).Fits s held c := by
  cases s with
  | start => exact fits_firstAct held c
  | ampersand =>
    by_cases hc : c = '&'
    · simp only [act, if_pos hc]
      exact .close (by decide) (if_pos hc)
    · simp only [act, if_neg hc]
      exact .closeBefore (by decide) (by decide) (if_neg hc)
  | bang =>
    simp only [act]
    repeat' split
    · exact .take (by decide) (by decide) (by simp_all [Stage.mode, Mode.move])
    · exact .take (by decide) (by decide) (by simp_all [Stage.mode, Mode.move])
    · exact .take (by decide) (by decide) (by simp_all [Stage.mode, Mode.move])
    · exact .word (.inl rfl) (by simp_all [Stage.mode, Mode.move])
  | bangGreater =>
    by_cases hc : c = '>'
    · subst hc
      exact .close (by decide) rfl
    · simp only [act, hc, decide_false]
      exact .closeBefore (by decide) (by decide) (if_neg hc)
  | colon =>
    by_cases hc : c = ':'
    · simp only [act, if_pos hc]
      exact .close (by decide) (if_pos hc)
    · simp only [act, if_neg hc]
      exact .closeBefore (by decide) (by decide) (if_neg hc)
  | comment =>
    obtain rfl := h rfl
    simp only [act]
    split
    · rename_i hc
      exact .uncomment rfl (by simp_all) (if_pos hc)
    · rename_i hc
      exact .take (by decide) (by decide) (if_neg hc)
  | greater =>
    by_cases hopen : c = '('
    · simp only [act, if_pos hopen]
      exact .close (by decide) (if_pos hopen)
    · by_cases hc : c = '>'
      · subst hc
        exact .close (by decide) rfl
      · simp only [act, if_neg hopen, hc, decide_false]
        exact .closeBefore (by decide) (by decide) (by simp [Stage.mode, Mode.move, hopen, hc])
  | less =>
    by_cases hc : c = '('
    · simp only [act, if_pos hc]
      exact .close (by decide) (if_pos hc)
    · simp only [act, if_neg hc]
      exact .reject rfl (if_neg hc)
  | pipe =>
    simp only [act]
    repeat' split
    · exact .close (by decide) (by simp_all [Stage.mode, Mode.move])
    · exact .close (by decide) (by simp_all [Stage.mode, Mode.move])
    · exact .closeBefore (by decide) (by decide) (by simp_all [Stage.mode, Mode.move])
  | symbol =>
    simp only [act]
    split
    · rename_i hc
      exact .closeBefore (by decide) (by decide) (if_pos hc)
    · rename_i hc
      exact .take (by decide) (by decide) (if_neg hc)
  | singleQuoted => exact .single rfl
  | bangDouble => exact .double rfl (by decide)
  | bangDoubleEscape => exact .double rfl (by decide)
  | doubleQuoted => exact .double rfl (by decide)
  | doubleQuotedEscape => exact .double rfl (by decide)

/-- What is held matters in comments only, so that every act fits something that can be held. -/
theorem Stage.exists_fits_act (s : Stage) (escaped : Bool) (c : Char) :
    ∃ held, (s.act escaped c).Fits s held c := by
  refine ⟨if escaped then ['\\'] else [], s.fits_act c fun _ => ?_⟩
  cases escaped with
  | false => rfl
  | true => rfl

/-- In double quotes a character completes the token, or leads to a stage that is in double quotes
too. -/
theorem Stage.doubleAct_cases {s : Stage} (hquoted : s.isQuoted = true)
    (hdouble : s ≠ .singleQuoted) (held : List Char) (c : Char) :
    (∃ kind, s.doubleAct c = .complete kind true ∧ kind ≠ .newline ∧
        (s.mode held).move c = .close kind) ∨
      ∃ next, s.doubleAct c = .go next true ∧ next.isQuoted = true ∧ next ≠ .singleQuoted ∧
        (s.mode held).move c = .take (next.mode (c :: held)) := by
  cases s with
  | bangDouble | doubleQuoted =>
    by_cases hquote : c = '"'
    · subst hquote
      exact .inl ⟨_, rfl, by decide, rfl⟩
    · by_cases hescape : c = '\\'
      · subst hescape
        exact .inr ⟨_, rfl, rfl, by decide, rfl⟩
      · refine .inr ⟨_, (if_neg hquote).trans (if_neg hescape), rfl, by decide, ?_⟩
        simp [Stage.mode, Mode.move, Mode.quotedMove, hquote, hescape]
  | bangDoubleEscape | doubleQuotedEscape => exact .inr ⟨_, rfl, rfl, by decide, rfl⟩
  | singleQuoted => exact absurd rfl hdouble
  | _ => cases hquoted

/-! ## Turns -/

namespace BufferedCall

/-- What a turn after a read of this text and status can be. -/
inductive Reads (p : BufferedCall) (text : List Char) : ReadStatus → Turn → Prop where
  | line {b : BufferedScanner} (hfill : p.fill text false = .ok b) :
      Reads p text .ok (.next { p with toBufferedScanner := b, retried := false } [.read])
  | interrupted : Reads p text .interrupted
      (.over (.ok (.control .interrupt p.line)) p.toBufferedScanner.reset [.read])
  | last {b : BufferedScanner} (hfill : p.fill text true = .ok b) :
      Reads p text .endOfStream (.next { p with toBufferedScanner := b } [.read])
  | unasked {b : BufferedScanner} {e : ReadError} (hreclaim : p.reclaim = none)
      (hfill : p.fill text true = .ok b) :
      Reads p text (.failed e) (.over (.error (.read e)) b [.read])
  | refused {q : BufferedCall} {b : BufferedScanner} {e : ReadError}
      (hreclaim : p.reclaim = some (false, q)) (hfill : q.fill text true = .ok b) :
      Reads p text (.failed e) (.over (.error (.read e)) b [.read, .reclaim false])
  | retry {q : BufferedCall} {e : ReadError} (hreclaim : p.reclaim = some (true, q)) :
      Reads p text (.failed e) (.next { q with retried := true } [.read, .reclaim true])

/-- What a turn can be. -/
inductive Turns (p : BufferedCall) : Turn → Prop where
  /-- a character is looked at -/
  | look {c : Char} {escaped : Bool} (hloop : p.loop = .call) (htoken : p.token = none)
      (hc : p.charAt p.cursor = .ok c) (hescaped : p.isEscaped = .ok escaped) :
      Turns p (p.perform (p.stage.act escaped c))
  | double {c : Char} (hloop : p.loop = .double) (hc : p.charAt p.cursor = .ok c) :
      Turns p (p.perform (p.stage.doubleAct c))
  | single {c : Char} (hloop : p.loop = .single) (hc : p.charAt p.cursor = .ok c) :
      Turns p (p.perform (Stage.singleAct c))
  /-- a loop through quoted text has come to the end of the buffer -/
  | leave (hloop : p.loop ≠ .call) (hend : p.buffer.length ≤ p.cursor) :
      Turns p (.next p.leave [])
  | give {kind : TokenKind} {text : List Char} (hloop : p.loop = .call)
      (htoken : p.token = some kind) (htext : p.slice p.start p.cursor = .ok text) :
      Turns p (p.give kind text)
  | finish (hloop : p.loop = .call) (htoken : p.token = none) (hend : p.buffer.length ≤ p.cursor)
      (hfinished : p.finished = true) : Turns p p.finish
  /-- a line is asked for -/
  | refill {t : Turn} (hloop : p.loop = .call) (htoken : p.token = none)
      (hend : p.buffer.length ≤ p.cursor) (hopen : p.finished = false) {read : Read}
      {reads : List Read} (hnext : Read.next p.reads = (read, reads))
      (hreads : Reads { p with reads } read.text read.status t) : Turns p t

variable {p : BufferedCall} {t : Turn}

theorem reads_of_afterRead {text : List Char} {status : ReadStatus}
    (h : p.afterRead text status = .ok t) : p.Reads text status t := by
  cases status with
  | ok =>
    obtain ⟨b, hfill, ht⟩ := exists_of_bind_eq_ok h
    cases ht
    exact .line hfill
  | interrupted =>
    cases h
    exact .interrupted
  | endOfStream =>
    obtain ⟨b, hfill, ht⟩ := exists_of_bind_eq_ok h
    cases ht
    exact .last hfill
  | failed e =>
    unfold afterRead at h
    cases hreclaim : p.reclaim with
    | none =>
      simp only [hreclaim] at h
      obtain ⟨b, hfill, ht⟩ := exists_of_bind_eq_ok h
      cases ht
      exact .unasked hreclaim hfill
    | some answer =>
      obtain ⟨taken, q⟩ := answer
      cases taken with
      | true =>
        simp only [hreclaim] at h
        cases h
        exact .retry hreclaim
      | false =>
        simp only [hreclaim] at h
        obtain ⟨b, hfill, ht⟩ := exists_of_bind_eq_ok h
        cases ht
        exact .refused hreclaim hfill

/-- A turn through quoted text looks at a character or leaves the loop. -/
theorem inside_cases {act : Char → Act} (h : p.inside act = .ok t) :
    (∃ c, p.charAt p.cursor = .ok c ∧ t = p.perform (act c)) ∨
      p.buffer.length ≤ p.cursor ∧ t = .next p.leave [] := by
  unfold inside at h
  split at h
  · obtain ⟨c, hc, ht⟩ := exists_of_bind_eq_ok h
    cases ht
    exact .inl ⟨c, hc, rfl⟩
  · cases h
    exact .inr ⟨by omega, rfl⟩

theorem turns_of_turn (h : p.turn = .ok t) : p.Turns t := by
  unfold turn at h
  cases hloop : p.loop with
  | double =>
    rw [hloop] at h
    obtain ⟨c, hc, rfl⟩ | ⟨hend, rfl⟩ := inside_cases h
    · exact .double hloop hc
    · exact .leave (by simp [hloop]) hend
  | single =>
    rw [hloop] at h
    obtain ⟨c, hc, rfl⟩ | ⟨hend, rfl⟩ := inside_cases h
    · exact .single hloop hc
    · exact .leave (by simp [hloop]) hend
  | call =>
    rw [hloop] at h
    cases htoken : p.token with
    | some kind =>
      rw [htoken] at h
      obtain ⟨text, htext, ht⟩ := exists_of_bind_eq_ok h
      cases ht
      exact .give hloop htoken htext
    | none =>
      rw [htoken] at h
      dsimp only at h
      split at h
      · obtain ⟨c, hc, hlook⟩ := exists_of_bind_eq_ok h
        obtain ⟨escaped, hescaped, ht⟩ := exists_of_bind_eq_ok hlook
        cases ht
        exact .look hloop htoken hc hescaped
      · split at h
        · rename_i hfinished
          cases h
          exact .finish hloop htoken (by omega) hfinished
        · rename_i hopen
          exact .refill hloop htoken (by omega) (by simpa using hopen) rfl (reads_of_afterRead h)

end BufferedCall

/-! ## Calls come to an end -/

/-- The character that was looked at is gone past. -/
def Act.uses : Act → Bool
  | .go _ used | .complete _ used => used
  | .enter _ | .reject => false

/-- How often a character can be looked at before it is gone past. -/
def Stage.patience : Stage → Nat
  | .symbol => 1
  | .start => 2
  | _ => 3

namespace Stage

theorem patience_pos (s : Stage) : 0 < s.patience := by
  cases s
  all_goals decide

theorem one_lt_patience_of_isQuoted {s : Stage} (h : s.isQuoted = true) : 1 < s.patience := by
  cases s
  all_goals first | decide | cases h

theorem uses_doubleAct (s : Stage) (c : Char) : (s.doubleAct c).uses = true := by
  unfold doubleAct
  repeat' split
  all_goals rfl

theorem uses_singleAct (c : Char) : (singleAct c).uses = true := by
  unfold singleAct
  split
  all_goals rfl

end Stage

namespace BufferedCall

/-- The reads that a call can still make. -/
def unread (p : BufferedCall) : Nat :=
  p.reads.length + if p.finished then 0 else 1

/-- The characters that a call has before it. -/
def ahead (p : BufferedCall) : Nat :=
  p.buffer.length - p.cursor

/-- The turns that a call can make without a read and without going past a character. -/
def patience (p : BufferedCall) : Nat :=
  if p.loop = .call then
    if p.token = none ∧ p.cursor < p.buffer.length then p.stage.patience else 0
  else 1

/-- The first call has less before it than the second. -/
def Precedes (q p : BufferedCall) : Prop :=
  Prod.Lex (· < ·) (Prod.Lex (· < ·) (· < ·)) (q.unread, q.ahead, q.patience)
    (p.unread, p.ahead, p.patience)

variable {p q : BufferedCall} {events : List Event}

theorem precedes_of_cursor (hreads : q.reads = p.reads) (hfinished : q.finished = p.finished)
    (hbuffer : q.buffer = p.buffer) (hcursor : q.cursor = p.cursor + 1)
    (h : p.cursor < p.buffer.length) : q.Precedes p := by
  have hunread : q.unread = p.unread := by simp only [unread, hreads, hfinished]
  have hahead : q.ahead < p.ahead := by
    simp only [ahead, hbuffer, hcursor]
    omega
  rw [Precedes, hunread]
  exact .right _ (.left _ _ hahead)

theorem precedes_of_patience (hreads : q.reads = p.reads) (hfinished : q.finished = p.finished)
    (hahead : q.ahead = p.ahead) (h : q.patience < p.patience) : q.Precedes p := by
  have hunread : q.unread = p.unread := by simp only [unread, hreads, hfinished]
  rw [Precedes, hunread, hahead]
  exact .right _ (.right _ h)

theorem precedes_of_uses {act : Act} (hact : act.uses = true) (hc : p.cursor < p.buffer.length)
    (h : p.perform act = .next q events) : q.Precedes p := by
  cases act with
  | go next used =>
    obtain rfl : used = true := hact
    cases h
    exact precedes_of_cursor rfl rfl rfl rfl hc
  | complete kind used =>
    obtain rfl : used = true := hact
    simp only [perform] at h
    split at h
    · cases h
      exact precedes_of_cursor rfl rfl rfl rfl hc
    · cases h
      exact precedes_of_cursor rfl rfl rfl rfl hc
  | enter loop => cases hact
  | reject => cases hact

/-- A character that is not gone past is looked at again in a stage with less patience. -/
theorem precedes_perform {held : List Char} {c : Char} {act : Act} (ha : act.Fits p.stage held c)
    (hloop : p.loop = .call) (htoken : p.token = none) (hc : p.cursor < p.buffer.length)
    (h : p.perform act = .next q events) : q.Precedes p := by
  have hpatience : p.patience = p.stage.patience := by
    rw [patience, if_pos hloop, if_pos ⟨htoken, hc⟩]
  cases ha with
  | skip | take | lineBreak | close => exact precedes_of_uses rfl hc h
  | reject => cases h
  | word hstage =>
    cases h
    refine precedes_of_patience rfl rfl rfl ?_
    rw [hpatience]
    obtain hbang | ⟨hstart, -⟩ := hstage
    · simp [patience, goPast, begun, hloop, htoken, hc, hbang, Stage.patience]
    · simp [patience, goPast, begun, hloop, htoken, hc, hstart, Stage.patience]
  | uncomment hstage =>
    cases h
    refine precedes_of_patience rfl rfl rfl ?_
    rw [hpatience]
    simp [patience, goPast, begun, hloop, htoken, hc, hstage, Stage.patience]
  | closeBefore hstage hkind =>
    simp only [perform, hkind, false_and, if_false] at h
    cases h
    refine precedes_of_patience rfl rfl rfl ?_
    rw [hpatience]
    simpa [patience] using p.stage.patience_pos
  | double hstage =>
    cases h
    refine precedes_of_patience rfl rfl rfl ?_
    rw [hpatience]
    simpa [patience] using Stage.one_lt_patience_of_isQuoted hstage
  | single hstage =>
    cases h
    refine precedes_of_patience rfl rfl rfl ?_
    rw [hpatience, hstage]
    simp [patience, Stage.patience]

theorem precedes_leave (hloop : p.loop ≠ .call) (hend : p.buffer.length ≤ p.cursor) :
    p.leave.Precedes p := by
  obtain ⟨hreads, hfinished, hahead, hpatience⟩ : p.leave.reads = p.reads ∧
      p.leave.finished = p.finished ∧ p.leave.ahead = p.ahead ∧ p.leave.patience = 0 := by
    simp only [leave, BufferedScanner.keepBreak]
    repeat' split
    all_goals
      refine ⟨rfl, rfl, ?_, ?_⟩
      · simp [ahead, hend]
      · simp [patience, Nat.not_lt.mpr hend]
  refine precedes_of_patience hreads hfinished hahead ?_
  rw [hpatience, patience, if_neg hloop]
  exact Nat.one_pos

/-- A line goes into the buffer, and the indices are counted anew. -/
theorem eq_of_fill {b b' : BufferedScanner} {text : List Char} {ended : Bool}
    (h : b.fill text ended = .ok b') : ∃ buffer cursor, b' = { b with
      buffer, start := 0, cursor, line := b.line + 1, finished := b.finished || ended } := by
  obtain ⟨kept, -, hb⟩ := exists_of_bind_eq_ok h
  cases hb
  exact ⟨_, _, rfl⟩

/-- Asking the collaborator changes nothing but its answers to come. -/
theorem eq_of_reclaim {taken : Bool} (h : p.reclaim = some (taken, q)) :
    ∃ foreground, q = { p with foreground } := by
  unfold reclaim at h
  split at h
  · cases h
  · obtain ⟨answers, -, hanswer⟩ := Option.map_eq_some_iff.mp h
    cases answers with
    | nil =>
      cases hanswer
      exact ⟨p.foreground, rfl⟩
    | cons answer answers =>
      cases hanswer
      exact ⟨some answers, rfl⟩

/-- A read changes nothing of the reads that are left. -/
theorem Reads.reads_eq {text : List Char} {status : ReadStatus}
    (h : p.Reads text status (.next q events)) : q.reads = p.reads := by
  cases h with
  | line hfill | last hfill =>
    obtain ⟨buffer, cursor, rfl⟩ := eq_of_fill hfill
    rfl
  | retry hreclaim =>
    obtain ⟨foreground, rfl⟩ := eq_of_reclaim hreclaim
    rfl

theorem precedes_of_reads {read : Read} {reads : List Read} (hopen : p.finished = false)
    (hnext : Read.next p.reads = (read, reads))
    (h : Reads { p with reads } read.text read.status (.next q events)) : q.Precedes p := by
  have hreads : q.reads = reads := h.reads_eq
  refine .left _ _ ?_
  simp only [unread, hreads, hopen, Bool.false_eq_true, if_false]
  cases hlist : p.reads with
  | nil =>
    -- A source that is used up gives the end of the stream, which is the last read of all.
    rw [hlist] at hnext
    cases hnext
    cases h with
    | last hfill =>
      obtain ⟨buffer, cursor, rfl⟩ := eq_of_fill hfill
      simp
  | cons first later =>
    rw [hlist] at hnext
    cases hnext
    rw [List.length_cons]
    split
    · omega
    · omega

/-- A turn that does not end the call leaves less before it. -/
theorem precedes_of_turn (h : p.turn = .ok (.next q events)) : q.Precedes p := by
  generalize ht : Turn.next q events = t at h
  cases turns_of_turn h with
  | @look c escaped hloop htoken hc hescaped =>
    obtain ⟨held, hfits⟩ := p.stage.exists_fits_act escaped c
    exact precedes_perform hfits hloop htoken (BufferedScanner.lt_of_charAt hc) ht.symm
  | double hloop hc =>
    have hlt := BufferedScanner.lt_of_charAt hc
    exact precedes_of_uses (p.stage.uses_doubleAct _) hlt ht.symm
  | single hloop hc =>
    have hlt := BufferedScanner.lt_of_charAt hc
    exact precedes_of_uses (Stage.uses_singleAct _) hlt ht.symm
  | leave hloop hend =>
    cases ht
    exact precedes_leave hloop hend
  | give => cases ht
  | finish =>
    unfold finish at ht
    split at ht
    · cases ht
    · cases ht
  | refill hloop htoken hend hopen hnext hreads =>
    subst ht
    exact precedes_of_reads hopen hnext hreads

end BufferedCall

/-! ## Whole calls -/

/-- A call at the head of one of its loops, and what the turn from there does to the
surroundings. -/
structure Visit extends BufferedCall where
  events : List Event

/-- The outcome of a call: the heads of loops that it came past, its result and the scanner after
it. -/
structure BufferedReply where
  visits : List Visit
  result : Except Fault Token
  scanner : BufferedScanner

/-- The same outcome, from one turn before. -/
def BufferedReply.from (r : BufferedReply) (v : Visit) : BufferedReply :=
  { r with visits := v :: r.visits }

/-- The outcome as it is without indices. -/
def BufferedReply.view (r : BufferedReply) : Reply :=
  ⟨r.result, r.scanner.view, r.visits.flatMap Visit.events⟩

/-- Goes on to the end of the call. -/
def BufferedCall.complete (p : BufferedCall) : Except OutOfRange BufferedReply :=
  match _h : p.turn with
  | .error e => .error e
  | .ok (.over result scanner events) => .ok ⟨[⟨p, events⟩], result, scanner⟩
  | .ok (.next q events) => do
    let r ← q.complete
    return r.from ⟨p, events⟩
termination_by (p.unread, p.ahead, p.patience)
decreasing_by exact precedes_of_turn _h

namespace BufferedCall

variable {p q : BufferedCall} {events : List Event}

theorem complete_of_over {result : Except Fault Token} {b : BufferedScanner}
    (h : p.turn = .ok (.over result b events)) :
    p.complete = .ok ⟨[⟨p, events⟩], result, b⟩ := by
  rw [complete]
  split
  · rename_i heq
    cases h.symm.trans heq
  · rename_i heq
    cases h.symm.trans heq
    rfl
  · rename_i heq
    cases h.symm.trans heq

theorem complete_of_next {r : BufferedReply} (h : p.turn = .ok (.next q events))
    (hcomplete : q.complete = .ok r) : p.complete = .ok (r.from ⟨p, events⟩) := by
  rw [complete]
  split
  · rename_i heq
    cases h.symm.trans heq
  · rename_i heq
    cases h.symm.trans heq
  · rename_i heq
    cases h.symm.trans heq
    rw [hcomplete]
    rfl

end BufferedCall

namespace BufferedScanner

/-- A call for the next token, at its beginning. -/
def call (b : BufferedScanner) : BufferedCall :=
  { b with loop := .call, retried := false }

/-- The next token or fault. -/
def nextToken (b : BufferedScanner) : Except OutOfRange BufferedReply :=
  b.call.complete

/-- The scanner after a call. -/
def after (b : BufferedScanner) (c : Call) : Except OutOfRange BufferedScanner :=
  match c with
  | .nextToken => do
    let r ← b.nextToken
    return r.scanner
  | .reset => return b.reset
  | .report _ => return b

/-- The scanner after a run of calls. -/
def afterAll (b : BufferedScanner) (calls : List Call) : Except OutOfRange BufferedScanner :=
  calls.foldlM after b

end BufferedScanner

end LispShell
