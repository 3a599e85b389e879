import LispShell.Proofs.Journal
import LispShell.Proofs.WholeText

set_option autoImplicit false

/-!
# The course of a scanner through its text

What a scanner has yet to come to is an end of the logical text of its source: `upcoming` is the
rest of that text after the characters that were gone past.

What it holds of them is a matter of the moves alone.  So a property of a mode, of the characters
held in it and of those gone past holds at all times if it holds between tokens and taking a
character preserves it.  `Mode.Invariant` asks for these two things.  What comes of them is shown
here once for all such properties and for calls of any kind: the property holds between calls, and
every token was completed by a move where it held.
-/

namespace LispShell

open ScanState Lexer

/-! ## The logical text of a source -/

/-- The logical text that reads bring to a scanner with this collaborator.  An interrupted read
brings nothing, nor does a failed one that is tried again; `retried` tells that the read before was
one.  Any other failure ends the text, as the end of the stream does. -/
def delivered (foreground : Option (List Bool)) (retried : Bool) : List Read → List Char
  | [] => ['\n']
  | ⟨text, status⟩ :: reads =>
    match status with
    | .ok => Line.logical text ++ delivered foreground false reads
    | .interrupted => delivered foreground false reads
    | .endOfStream => Line.logical text ++ ['\n']
    | .failed _ =>
      match retried, foreground with
      | false, some (true :: answers) => delivered (some answers) true reads
      | _, _ => Line.logical text ++ ['\n']

/-- The logical text that comes after the characters at hand, with these reads to come. -/
def ScanState.beyond (s : ScanState) (reads : List Read) : List Char :=
  if s.finished then [] else delivered s.foreground false reads

/-- The logical text that a scanner has yet to come to. -/
def Scanner.upcoming (s : Scanner) : List Char :=
  s.rest ++ s.beyond s.reads

section

variable {s t : ScanState} {retried : Bool} {text : List Char} {e : ReadError} {reads : List Read}

theorem delivered_of_unasked (h : retried = true ∨ s.reclaim = none) :
    delivered s.foreground retried (⟨text, .failed e⟩ :: reads) = Line.logical text ++ ['\n'] := by
  cases retried with
  | true => rfl
  | false =>
    have hnone : s.foreground = none := by simpa [reclaim] using h
    rw [hnone]
    rfl

theorem delivered_of_refused (h : s.reclaim = some (false, t)) :
    delivered s.foreground false (⟨text, .failed e⟩ :: reads) = Line.logical text ++ ['\n'] := by
  unfold reclaim at h
  cases hforeground : s.foreground with
  | none => rfl
  | some answers =>
    cases answers with
    | nil => rfl
    | cons taken answers =>
      rw [hforeground] at h
      cases h
      rfl

theorem delivered_of_retry (h : s.reclaim = some (true, t)) :
    delivered s.foreground false (⟨text, .failed e⟩ :: reads) =
      delivered t.foreground true reads := by
  unfold reclaim at h
  cases hforeground : s.foreground with
  | none =>
    rw [hforeground] at h
    cases h
  | some answers =>
    rw [hforeground] at h
    cases answers with
    | nil => cases h
    | cons taken answers =>
      cases h
      rfl

end

theorem delivered_of_lines (foreground : Option (List Bool)) (retried : Bool) {reads : List Read}
    (h : Lines reads) : delivered foreground retried reads = logicalOf reads ++ ['\n'] := by
  induction h generalizing retried with
  | nil => rfl
  | last => simp [delivered, logicalOf, Read.last]
  | line hbreak hreads ih => simp [delivered, logicalOf, ih]

/-- The source of a text delivers its logical text. -/
theorem delivered_ofText (foreground : Option (List Bool)) (text : List Char) :
    delivered foreground false (Read.ofText text) = logicalText text := by
  have hlines : Lines (Read.ofText text) := lines_linesFrom text [] List.not_mem_nil
  rw [delivered_of_lines foreground false hlines, logicalOf_ofText]

/-! ## What moves preserve -/

/-- This property of a mode, of the characters held in it, newest first, and of those gone past
holds between tokens, and taking a character preserves it. -/
structure Mode.Invariant (P : Mode → List Char → List Char → Prop) : Prop where
  start : ∀ passed, P .start [] passed
  take : ∀ {m next : Mode} {c : Char} {held passed : List Char}, P m held passed →
    m.move c = .take next → ∀ rest, P next (hold m c rest held) (passed ++ [c])

/-- A token of this kind and spelling is completed in the text, and `rest` comes next.  The property
holds of the mode that completes it. -/
inductive Completed (P : Mode → List Char → List Char → Prop) (text : List Char) :
    TokenKind → List Char → List Char → Prop where
  | lineBreak {m : Mode} {c : Char} {held passed rest : List Char} (h : P m held passed)
      (hmove : m.move c = .lineBreak) (htext : passed ++ c :: rest = text) :
      Completed P text .newline [c] rest
  | close {m : Mode} {c : Char} {kind : TokenKind} {held passed rest : List Char}
      (h : P m held passed) (hmove : m.move c = .close kind) (htext : passed ++ c :: rest = text) :
      Completed P text kind (c :: held).reverse rest
  | closeBefore {m : Mode} {c : Char} {kind : TokenKind} {held passed rest : List Char}
      (h : P m held passed) (hmove : m.move c = .closeBefore kind)
      (htext : passed ++ c :: rest = text) : Completed P text kind held.reverse (c :: rest)

section

variable {P Q : Mode → List Char → List Char → Prop} {text rest spelling : List Char}
  {kind : TokenKind}

theorem Completed.mono (h : Completed P text kind spelling rest)
    (hPQ : ∀ m held passed, P m held passed → Q m held passed) :
    Completed Q text kind spelling rest := by
  cases h with
  | lineBreak h hmove htext => exact .lineBreak (hPQ _ _ _ h) hmove htext
  | close h hmove htext => exact .close (hPQ _ _ _ h) hmove htext
  | closeBefore h hmove htext => exact .closeBefore (hPQ _ _ _ h) hmove htext

/-- More text may follow. -/
theorem Completed.append (h : Completed P text kind spelling rest) (more : List Char) :
    Completed P (text ++ more) kind spelling (rest ++ more) := by
  cases h with
  | lineBreak h hmove htext => exact .lineBreak h hmove (by rw [← htext]; simp)
  | close h hmove htext => exact .close h hmove (by rw [← htext]; simp)
  | closeBefore h hmove htext => exact .closeBefore h hmove (by rw [← htext]; simp)

theorem Completed.suffix (h : Completed P text kind spelling rest) : rest <:+ text := by
  cases h with
  | lineBreak _ _ htext => exact ⟨_, by rw [← htext, List.append_cons]⟩
  | close _ _ htext => exact ⟨_, by rw [← htext, List.append_cons]⟩
  | closeBefore _ _ htext => exact ⟨_, htext⟩

end

/-- What scanning up to the end of `text` has come to. -/
def ScanState.Progress.InCourse (P : Mode → List Char → List Char → Prop) (text : List Char) :
    Progress → Prop
  | .dry mode held => P mode held text
  | .complete kind spelling rest => Completed P text kind spelling rest
  | .rejected rest => rest <:+ text

/-- The scanner has come to its place in this text: what is upcoming is the end of it, and the
property holds of the characters before. -/
def Scanner.InCourse (P : Mode → List Char → List Char → Prop) (s : Scanner) (text : List Char) :
    Prop :=
  ∃ passed, passed ++ s.upcoming = text ∧ P s.mode s.held passed

/-- The token was completed in the text, and `rest` comes next; or it is a control token. -/
def Token.InCourse (P : Mode → List Char → List Char → Prop) (t : Token) (text rest : List Char) :
    Prop :=
  t = .control .interrupt t.line ∨ t = .control .endOfInput t.line ∨
    ∃ kind spelling, Completed P text kind spelling rest ∧ t.kind = refinedKind kind spelling ∧
      t.text = canonicalText kind spelling

/-- A call has left the scanner at its place in the text, and the token that it gave, if it gave
one, just before. -/
structure Reply.InCourse (P : Mode → List Char → List Char → Prop) (r : Reply) (text : List Char) :
    Prop where
  scanner : r.scanner.InCourse P text
  token : ∀ t, r.result = .ok t → t.InCourse P text r.scanner.upcoming

/-! ## One call -/

section

variable {P : Mode → List Char → List Char → Prop}

@[simp] theorem Reply.inCourse_after (r : Reply) (events : List Event) (text : List Char) :
    (r.after events).InCourse P text ↔ r.InCourse P text :=
  ⟨fun h => ⟨h.scanner, h.token⟩, fun h => ⟨h.scanner, h.token⟩⟩

namespace ScanState

theorem inCourse_scan (hP : Mode.Invariant P) (previous : Option TokenKind) (text : List Char) :
    ∀ {mode held passed}, P mode held passed →
      (scan previous mode held text).InCourse P (passed ++ text) := by
  -- A character that is scanned goes from the front of `text` to the end of `passed`.
  induction text with
  | nil =>
    intro mode held passed h
    rwa [List.append_nil]
  | cons c text ih =>
    intro mode held passed h
    have hcons : passed ++ c :: text = passed ++ [c] ++ text := by simp
    rw [scan]
    cases hmove : mode.move c with
    | take next =>
      rw [hcons]
      exact ih (hP.take h hmove text)
    | skip =>
      rw [hcons]
      exact ih (hP.start _)
    | lineBreak =>
      dsimp only
      split
      · rw [hcons]
        exact ih (hP.start _)
      · exact .lineBreak h hmove rfl
    | close kind => exact .close h hmove rfl
    | closeBefore kind => exact .closeBefore h hmove rfl
    | reject => exact List.suffix_append _ _

variable {s : ScanState} {passed : List Char}

/-- Scanning the characters at hand comes to their end, or to an answer in the text. -/
theorem inCourse_scanRest (hP : Mode.Invariant P) (h : P s.mode s.held passed)
    (reads : List Read) :
    match s.scanRest with
    | .inl t => P t.mode t.held (passed ++ s.rest)
    | .inr a => (a.toReply reads).InCourse P (passed ++ Scanner.upcoming { s with reads }) := by
  have hcourse := inCourse_scan hP s.previous s.rest h
  have hbeyond : passed ++ Scanner.upcoming { s with reads } =
      passed ++ s.rest ++ s.beyond reads := (List.append_assoc _ _ _).symm
  rw [hbeyond]
  unfold scanRest
  cases hprogress : scan s.previous s.mode s.held s.rest with
  | dry mode held =>
    rw [hprogress] at hcourse
    exact hcourse
  | complete kind spelling rest =>
    rw [hprogress] at hcourse
    have hcompleted := hcourse.append (s.beyond reads)
    obtain ⟨before, hbefore⟩ := hcompleted.suffix
    refine ⟨⟨before, hbefore, hP.start before⟩, ?_⟩
    intro t ht
    obtain rfl := Except.ok.inj ht
    exact .inr (.inr ⟨kind, spelling, hcompleted, rfl, rfl⟩)
  | rejected rest =>
    rw [hprogress] at hcourse
    obtain ⟨before, hbefore⟩ := hcourse
    refine ⟨⟨before, ?_, hP.start before⟩, fun t ht => by cases ht⟩
    change before ++ (rest ++ s.beyond reads) = _
    rw [← List.append_assoc, hbefore]

/-- Beginning anew drops the characters at hand and nothing else. -/
theorem inCourse_reset (hP : Mode.Invariant P) (s : ScanState) (passed : List Char)
    (reads : List Read) :
    Scanner.InCourse P { s.reset with reads } (passed ++ Scanner.upcoming { s with reads }) := by
  refine ⟨passed ++ s.rest, ?_, hP.start _⟩
  change passed ++ s.rest ++ ([] ++ s.beyond reads) = passed ++ (s.rest ++ s.beyond reads)
  rw [List.nil_append, List.append_assoc]

theorem inCourse_finish (hP : Mode.Invariant P) (hrest : s.rest = [])
    (hfinished : s.finished = true) (passed : List Char) (reads : List Read) :
    (s.finish.toReply reads).InCourse P passed := by
  unfold finish
  split
  · refine ⟨⟨passed, ?_, hP.start passed⟩, fun t ht => by cases ht⟩
    simp [Answer.toReply, Scanner.upcoming, beyond, reset, hfinished]
  · refine ⟨⟨passed, ?_, hP.start passed⟩, ?_⟩
    · simp [Answer.toReply, Scanner.upcoming, beyond, hrest, hfinished]
    · intro t ht
      obtain rfl := Except.ok.inj ht
      exact .inr (.inl rfl)

theorem inCourse_conclude (hP : Mode.Invariant P) (h : P s.mode s.held passed)
    (hfinished : s.finished = true) (reads : List Read) :
    (s.conclude reads).InCourse P (passed ++ s.rest) := by
  have hscanned := inCourse_scanRest hP h reads
  unfold conclude
  cases hscan : s.scanRest with
  | inl t =>
    obtain ⟨mode, held, rfl⟩ := eq_of_scanRest_inl hscan
    exact inCourse_finish (s := { s with mode, held, rest := [] }) hP rfl hfinished _ reads
  | inr a =>
    rwa [hscan, Scanner.upcoming, beyond, if_pos hfinished, List.append_nil] at hscanned

/-- A read that fails for good is the last, and all of its text is upcoming. -/
theorem inCourse_fail (h : P s.mode s.held passed) (text : List Char) (e : ReadError)
    (reads : List Read) :
    (s.fail text e reads).InCourse P (passed ++ (Line.logical text ++ ['\n'])) := by
  refine ⟨⟨passed, ?_, h⟩, fun t ht => by cases ht⟩
  simp [fail, Answer.toReply, Scanner.upcoming, beyond, fill]

/-- A call that reads goes on through the text that its lines deliver. -/
theorem Requests.inCourse (hP : Mode.Invariant P) {retried : Bool} {reads : List Read} {r : Reply}
    {made : List Entry} (h : Requests s retried reads r made) :
    ∀ {passed : List Char}, s.finished = false → P s.mode s.held passed →
      r.InCourse P (passed ++ delivered s.foreground retried reads) := by
  induction h with
  | @exhausted s retried =>
    intro passed _ h
    rw [Reply.inCourse_after]
    exact inCourse_conclude (s := s.fill [] true) hP h (by simp [fill]) []
  | @dry s t retried text reads r made hscan _ ih =>
    intro passed hopen h
    have hscanned := inCourse_scanRest (s := s.fill text false) hP h reads
    rw [hscan] at hscanned
    obtain ⟨mode, held, rfl⟩ := eq_of_scanRest_inl hscan
    have hcourse := ih (by simp [fill, hopen]) hscanned
    rw [Reply.inCourse_after]
    simpa [fill, delivered] using hcourse
  | @answer s retried text reads a hscan =>
    intro passed hopen h
    have hscanned := inCourse_scanRest (s := s.fill text false) hP h reads
    rw [hscan] at hscanned
    rw [Reply.inCourse_after]
    simpa [Scanner.upcoming, beyond, fill, hopen, delivered] using hscanned
  | @interrupted s retried text reads =>
    intro passed hopen h
    rw [Reply.inCourse_after]
    refine ⟨⟨passed, ?_, hP.start passed⟩, ?_⟩
    · simp [Answer.toReply, Scanner.upcoming, beyond, reset, delivered, hopen]
    · intro t ht
      obtain rfl := Except.ok.inj ht
      exact .inl rfl
  | @endOfStream s retried text reads =>
    intro passed _ h
    rw [Reply.inCourse_after]
    exact inCourse_conclude (s := s.fill text true) hP h (by simp [fill]) reads
  | @unasked s retried text reads e halone =>
    intro passed _ h
    rw [Reply.inCourse_after, delivered_of_unasked halone]
    exact inCourse_fail h text e reads
  | @refused s t text reads e hreclaim =>
    intro passed _ h
    rw [Reply.inCourse_after, Reply.inCourse_after, delivered_of_refused hreclaim]
    obtain ⟨foreground, rfl⟩ := eq_of_reclaim hreclaim
    exact inCourse_fail (s := { s with foreground }) h text e reads
  | @retry s t text reads e r made hreclaim _ ih =>
    intro passed hopen h
    rw [Reply.inCourse_after, Reply.inCourse_after, delivered_of_retry hreclaim]
    obtain ⟨foreground, rfl⟩ := eq_of_reclaim hreclaim
    exact ih hopen h

end ScanState

/-! ## Calls of any kind -/

namespace Scanner

/-- A call for the next token goes on through the text. -/
theorem InCourse.nextToken (hP : Mode.Invariant P) {s : Scanner} {text : List Char}
    (h : s.InCourse P text) : s.nextToken.InCourse P text := by
  obtain ⟨passed, rfl, hholds⟩ := h
  have hscanned := ScanState.inCourse_scanRest hP hholds s.reads
  unfold Scanner.nextToken
  cases hscan : s.toScanState.scanRest with
  | inr a =>
    rw [hscan] at hscanned
    exact hscanned
  | inl t =>
    rw [hscan] at hscanned
    obtain ⟨mode, held, rfl⟩ := ScanState.eq_of_scanRest_inl hscan
    dsimp only
    rw [upcoming, ScanState.beyond, ← List.append_assoc]
    by_cases hfinished : s.finished = true
    · rw [if_pos hfinished, if_pos hfinished, List.append_nil]
      exact ScanState.inCourse_finish (s := { s.toScanState with mode, held, rest := [] }) hP rfl
        hfinished _ s.reads
    · rw [if_neg hfinished, if_neg hfinished]
      exact (ScanState.requests s.reads _ false).inCourse hP (by simpa using hfinished) hscanned

theorem InCourse.after (hP : Mode.Invariant P) {s : Scanner} {text : List Char}
    (h : s.InCourse P text) (c : Call) : (s.after c).InCourse P text := by
  cases c with
  | nextToken => exact (h.nextToken hP).scanner
  | report message => exact h
  | reset =>
    obtain ⟨passed, rfl, -⟩ := h
    exact ScanState.inCourse_reset hP s.toScanState passed s.reads

/-- Calls of any kind keep the scanner in the same text. -/
theorem InCourse.afterAll (hP : Mode.Invariant P) {s : Scanner} {text : List Char}
    (h : s.InCourse P text) (calls : List Call) : (s.afterAll calls).InCourse P text := by
  induction calls generalizing s with
  | nil => exact h
  | cons c calls ih => exact ih (h.after hP c)

theorem inCourse_ofReads (hP : Mode.Invariant P) (name : String) (reads : List Read)
    (foreground : Option (List Bool)) :
    (ofReads name reads foreground).InCourse P (delivered foreground false reads) :=
  ⟨[], rfl, hP.start []⟩

/-- Every token of a run over any source was completed in its text, just before what is upcoming. -/
theorem inCourse_of_result (hP : Mode.Invariant P) (name : String) (reads : List Read)
    (foreground : Option (List Bool)) (calls : List Call) {t : Token}
    (h : ((ofReads name reads foreground).afterAll calls).nextToken.result = .ok t) :
    t.InCourse P (delivered foreground false reads)
      ((ofReads name reads foreground).afterAll calls).nextToken.scanner.upcoming :=
  (((inCourse_ofReads hP name reads foreground).afterAll hP calls).nextToken hP).token t h

end Scanner

end

end LispShell
