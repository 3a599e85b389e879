import LispShell.Proofs.FailedReads
import LispShell.Proofs.LineBreaks
import LispShell.Proofs.Reports

set_option autoImplicit false

/-!
# The end of the input

An input ends when its stream does, or with a read that fails for good.  The text that was read
before stays to be scanned, and the scanner gives the end of the input when nothing of it is left
that could be a token: all of it has been scanned, or was dropped where the scanner began anew.
From then on it gives the end again and again, with the same line number, and does nothing besides.

`EndLaw` says this of the calls that any run has led to.  A call that gives the end has gone through
blanks, line breaks and comments only, and this is shown backwards: scanning that ends between
tokens or in a comment was never in the middle of a token (`isIdle_of_scan_eq_dry`).  That it does
end so, or inside quotes, is the work of the line break that the last text has at its end.
-/

namespace LispShell

open ScanState

/-! ## Text without tokens -/

namespace Region

/-- In this region the character belongs to no token: it is a blank, a line break, or in a
comment. -/
def Idles : Region → Char → Prop
  | .plain, c => c = ' ' ∨ c = '\t' ∨ c = '\n' ∨ c = '#'
  | .comment _, _ => True
  | .single, _ | .double _, _ => False

/-- The text has no token: it is made of blanks, line breaks and comments. -/
def IsIdle : Region → List Char → Prop
  | _, [] => True
  | r, c :: text => r.Idles c ∧ (r.step c).IsIdle text

theorem IsIdle.append {text more : List Char} : ∀ {r : Region}, r.IsIdle text →
    (r.after text).IsIdle more → r.IsIdle (text ++ more) := by
  induction text with
  | nil => exact fun _ hmore => hmore
  | cons c text ih => exact fun h hmore => ⟨h.1, ih h.2 hmore⟩

end Region

namespace Mode

/-- Nothing that is held belongs to a token. -/
def isIdle : Mode → Bool
  | .start | .comment _ => true
  | _ => false

end Mode

/-- The move leads on without a token. -/
def Move.isIdle : Move → Bool
  | .skip | .lineBreak => true
  | .take next => next.isIdle
  | .close _ | .closeBefore _ | .reject => false

namespace Mode

/-- Only where no token was begun a move leads on without one. -/
theorem isIdle_of_move {m : Mode} {c : Char} (h : (m.move c).isIdle = true) :
    m.isIdle = true ∧ m.region.Idles c := by
  cases m with
  | start =>
    refine ⟨rfl, ?_⟩
    simp only [move] at h
    unfold firstMove at h
    split at h
    all_goals simp_all [Move.isIdle, isIdle, region, Region.Idles]
  | comment backslash => exact ⟨rfl, trivial⟩
  | _ =>
    simp only [move, symbolMove, quotedMove] at h
    split_ifs at h
    all_goals cases h

/-- After a line break there is no token but quoted text. -/
theorem isIdle_or_isQuoted_of_move {m next : Mode} (h : m.move '\n' = .take next) :
    next.isIdle = true ∨ next.isQuoted = true := by
  cases m with
  | bangDouble escaping =>
    cases escaping <;> cases h <;> exact .inr rfl
  | doubleQuoted escaping =>
    cases escaping <;> cases h <;> exact .inr rfl
  | comment backslash =>
    cases backslash <;> cases h
    exact .inl rfl
  | singleQuoted =>
    cases h
    exact .inr rfl
  | _ => cases h

end Mode

namespace ScanState

variable {previous : Option TokenKind} {mode next : Mode} {held held' text : List Char}

/-- Characters that leave the scanner without a token have come to it without one, and are idle. -/
theorem isIdle_of_scan_eq_dry (h : scan previous mode held text = .dry next held')
    (hnext : next.isIdle = true) : mode.isIdle = true ∧ mode.region.IsIdle text := by
  induction text generalizing mode held with
  | nil =>
    cases h
    exact ⟨hnext, trivial⟩
  | cons c text ih =>
    have habides := mode.abides_move c
    have hidle := Mode.isIdle_of_move (m := mode) (c := c)
    rw [scan] at h
    cases hmove : mode.move c with
    | take m =>
      rw [hmove] at h habides hidle
      obtain ⟨hm, htext⟩ := ih h
      obtain ⟨hmode, hc⟩ := hidle hm
      exact ⟨hmode, hc, habides.2 ▸ htext⟩
    | skip =>
      rw [hmove] at h habides hidle
      obtain ⟨hmode, hc⟩ := hidle rfl
      exact ⟨hmode, hc, habides.2 ▸ (ih h).2⟩
    | lineBreak =>
      rw [hmove] at h habides hidle
      obtain ⟨hmode, hc⟩ := hidle rfl
      dsimp only at h
      split at h
      · exact ⟨hmode, hc, habides.2 ▸ (ih h).2⟩
      · cases h
    | close kind =>
      rw [hmove] at h
      cases h
    | closeBefore kind =>
      rw [hmove] at h
      cases h
    | reject =>
      rw [hmove] at h
      cases h

/-- Characters that end in a line break leave the scanner without a token or inside quotes. -/
theorem isIdle_or_isQuoted_of_scan_eq_dry (hbreak : ['\n'] <:+ text)
    (h : scan previous mode held text = .dry next held') :
    next.isIdle = true ∨ next.isQuoted = true := by
  obtain ⟨front, rfl⟩ := hbreak
  induction front generalizing mode held with
  | nil =>
    rw [List.nil_append, scan] at h
    cases hmove : mode.move '\n' with
    | take m =>
      rw [hmove] at h
      cases h
      exact Mode.isIdle_or_isQuoted_of_move hmove
    | skip =>
      rw [hmove] at h
      cases h
      exact .inl rfl
    | lineBreak =>
      rw [hmove] at h
      dsimp only at h
      split at h
      · cases h
        exact .inl rfl
      · cases h
    | _ =>
      rw [hmove] at h
      cases h
  | cons c front ih =>
    rw [List.cons_append, scan] at h
    split at h
    · exact ih h
    · exact ih h
    · split at h
      · exact ih h
      · cases h
    · cases h
    · cases h
    · cases h

/-- No token at hand tells that the input has ended. -/
theorem isEnd_of_scanRest {s : ScanState} {a : Answer} (h : s.scanRest = .inr a)
    (reads : List Read) : (a.toReply reads).isEnd = false := by
  have habides : (scan s.previous s.mode s.held s.rest).Abides ⟨s.previous, s.mode.region⟩ s.rest :=
    abides_scan (p := ⟨s.previous, s.mode.region⟩) s.rest s.held rfl
  unfold scanRest at h
  split at h
  next => cases h
  next kind spelling rest hscan =>
    rw [hscan] at habides
    obtain ⟨-, -, -, -, hkind⟩ := habides
    obtain rfl := Sum.inr.inj h
    have hne : kind ≠ .endOfInput := by
      rintro rfl
      obtain hnewline | hordinary := hkind _ rfl
      · cases hnewline
      · cases hordinary
    exact beq_false_of_ne (refinedKind_ne_endOfInput hne spelling)
  next =>
    obtain rfl := Sum.inr.inj h
    rfl

end ScanState

/-! ## One call -/

/-- What is at hand of an input that has ended has a line break at its end, or it is used up and
nothing was begun. -/
def ScanState.Closed (s : ScanState) : Prop :=
  s.finished = true → s.rest = [] ∧ s.mode = .start ∨ ['\n'] <:+ s.rest

/-- The call gives the end of the input, and the text that it went through from this mode on had no
token. -/
structure Reply.Ending (r : Reply) (mode : Mode) (text : List Char) : Prop where
  result : r.result = .ok (.control .endOfInput r.scanner.line)
  finished : r.scanner.isFinished = true
  idle : mode.isIdle = true ∧ mode.region.IsIdle text

/-- What a call does that begins in this mode with this text to come, if it gives the end of the
input, and how it leaves the text of an input that has ended. -/
structure Reply.Ends (r : Reply) (mode : Mode) (text : List Char) : Prop where
  closed : r.scanner.Closed
  ending : r.isEnd = true → r.Ending mode text

theorem Reply.ends_of_open {r : Reply} {mode : Mode} {text : List Char} (hclosed : r.scanner.Closed)
    (h : r.isEnd = false) : r.Ends mode text :=
  ⟨hclosed, fun hend => absurd (h.symm.trans hend) Bool.false_ne_true⟩

theorem Reply.Ends.after {r : Reply} {mode : Mode} {text : List Char} (h : r.Ends mode text)
    (events : List Event) : (r.after events).Ends mode text := by
  refine ⟨h.closed, fun hend => ?_⟩
  obtain ⟨hresult, hfinished, hidle⟩ := h.ending hend
  exact ⟨hresult, hfinished, hidle⟩

namespace ScanState

variable {s t : ScanState}

theorem closed_of_open (h : s.finished = false) : s.Closed :=
  fun hfinished => absurd (h.symm.trans hfinished) Bool.false_ne_true

/-- The last text that is read has a line break at its end. -/
theorem closed_fill (s : ScanState) (text : List Char) : (s.fill text true).Closed :=
  fun _ => .inr ⟨Line.logical text, by simp [fill]⟩

/-- What is left after a token or a fault is an end of what was there. -/
theorem Closed.of_suffix (h : s.Closed) (hfinished : t.finished = s.finished)
    (hrest : t.rest <:+ s.rest) (hmode : t.mode = .start) : t.Closed := by
  intro hended
  obtain ⟨hnil, -⟩ | hbreak := h (hfinished ▸ hended)
  · rw [hnil] at hrest
    exact .inl ⟨List.suffix_nil.mp hrest, hmode⟩
  · obtain hsuffix | hsuffix := List.suffix_or_suffix_of_suffix hbreak hrest
    · exact .inr hsuffix
    · obtain heq | hnil := List.suffix_cons_iff.mp hsuffix
      · exact .inr (heq ▸ List.suffix_refl _)
      · exact .inl ⟨List.suffix_nil.mp hnil, hmode⟩

theorem ends_of_scanRest {a : Answer} (hclosed : s.Closed) (h : s.scanRest = .inr a)
    (reads : List Read) (mode : Mode) (text : List Char) : (a.toReply reads).Ends mode text := by
  refine Reply.ends_of_open ?_ (isEnd_of_scanRest h reads)
  have hsuffix := rest_scan_suffix s.previous s.mode s.held s.rest
  unfold scanRest at h
  split at h
  next => cases h
  next hscan =>
    rw [hscan] at hsuffix
    obtain rfl := Sum.inr.inj h
    exact hclosed.of_suffix rfl hsuffix rfl
  next hscan =>
    rw [hscan] at hsuffix
    obtain rfl := Sum.inr.inj h
    exact hclosed.of_suffix rfl hsuffix rfl

/-- The end of an input of which the characters at hand were the last. -/
theorem ends_finish (hclosed : s.Closed) (hfinished : s.finished = true)
    (h : s.scanRest = .inl t) (reads : List Read) :
    (t.finish.toReply reads).Ends s.mode s.rest := by
  unfold scanRest at h
  split at h
  next next held hscan =>
    obtain rfl := Sum.inl.inj h
    unfold finish
    split
    · exact Reply.ends_of_open (fun _ => .inl ⟨rfl, rfl⟩) rfl
    · rename_i hquoted
      have hnext : next.isIdle = true := by
        obtain ⟨hnil, hmode⟩ | hbreak := hclosed hfinished
        · rw [hnil, hmode] at hscan
          cases hscan
          rfl
        · exact (isIdle_or_isQuoted_of_scan_eq_dry hbreak hscan).resolve_right hquoted
      refine ⟨fun _ => .inl ⟨rfl, rfl⟩, fun _ => ⟨rfl, ?_, isIdle_of_scan_eq_dry hscan hnext⟩⟩
      simp [Answer.toReply, Scanner.isFinished, hfinished]
  next => cases h
  next => cases h

theorem ends_conclude (hclosed : s.Closed) (hfinished : s.finished = true) (reads : List Read) :
    (s.conclude reads).Ends s.mode s.rest := by
  unfold conclude
  cases hscan : s.scanRest with
  | inl t => exact ends_finish hclosed hfinished hscan reads
  | inr a => exact ends_of_scanRest hclosed hscan reads _ _

/-- Going on after a text that left no token. -/
theorem ends_of_dry {r : Reply} {more : List Char} (h : s.scanRest = .inl t)
    (hmore : r.Ends t.mode more) : r.Ends s.mode (s.rest ++ more) := by
  refine ⟨hmore.closed, fun hend => ?_⟩
  obtain ⟨hresult, hfinished, hmode, htext⟩ := hmore.ending hend
  have hscanned := abides_scanRest (p := ⟨s.previous, s.mode.region⟩) (s := s) rfl rfl []
  rw [h] at hscanned
  have hregion : t.mode.region = s.mode.region.after s.rest := hscanned.2.2
  rw [hregion] at htext
  unfold scanRest at h
  split at h
  next hscan =>
    obtain rfl := Sum.inl.inj h
    obtain ⟨hidle, hrest⟩ := isIdle_of_scan_eq_dry hscan hmode
    exact ⟨hresult, hfinished, hidle, hrest.append htext⟩
  next => cases h
  next => cases h

theorem ends_fail (s : ScanState) (text : List Char) (e : ReadError) (reads : List Read)
    (mode : Mode) (more : List Char) : (s.fail text e reads).Ends mode more :=
  Reply.ends_of_open (s.closed_fill text) rfl

/-- A call that reads gives the end of the input after lines without a token only. -/
theorem Requests.ends {retried : Bool} {reads : List Read} {r : Reply} {made : List Entry}
    (h : Requests s retried reads r made) (hopen : s.finished = false) :
    r.Ends s.mode (delivered s.foreground retried reads) := by
  induction h with
  | @exhausted s retried =>
    exact (ends_conclude (s.closed_fill []) (by simp [fill]) []).after [.read]
  | @dry s t retried text reads r made hscan _ ih =>
    obtain ⟨mode, held, rfl⟩ := eq_of_scanRest_inl hscan
    have hends := ends_of_dry hscan (ih (by simp [fill, hopen]))
    have hdelivered : (s.fill text false).rest ++ delivered s.foreground false reads =
        delivered s.foreground retried (⟨text, .ok⟩ :: reads) := by
      simp [fill, delivered]
    exact (hdelivered ▸ hends).after [.read]
  | @answer s retried text reads a hscan =>
    have hfilled : (s.fill text false).finished = false := by simp [fill, hopen]
    exact (ends_of_scanRest (closed_of_open hfilled) hscan reads _ _).after [.read]
  | @interrupted s retried text reads =>
    have hreset : s.reset.Closed := fun _ => .inl ⟨rfl, rfl⟩
    exact (Reply.ends_of_open hreset rfl).after [.read]
  | @endOfStream s retried text reads =>
    exact (ends_conclude (s.closed_fill text) (by simp [fill]) reads).after [.read]
  | @unasked s retried text reads e _ => exact (ends_fail s text e reads _ _).after [.read]
  | @refused s t text reads e _ =>
    exact ((ends_fail t text e reads _ _).after [.reclaim false]).after [.read]
  | @retry s t text reads e r made hreclaim _ ih =>
    rw [delivered_of_retry hreclaim]
    obtain ⟨foreground, rfl⟩ := eq_of_reclaim hreclaim
    exact ((ih hopen).after [.reclaim true]).after [.read]

end ScanState

namespace Scanner

variable {s : Scanner}

theorem ends_nextToken (h : s.Closed) : s.nextToken.Ends s.mode s.upcoming := by
  unfold nextToken
  cases hscan : s.toScanState.scanRest with
  | inr a => exact ends_of_scanRest h hscan s.reads _ _
  | inl t =>
    dsimp only
    split
    · rename_i hfinished
      obtain ⟨mode, held, rfl⟩ := eq_of_scanRest_inl hscan
      have hupcoming : s.upcoming = s.rest := by
        have hended : s.finished = true := hfinished
        simp [upcoming, beyond, hended]
      rw [hupcoming]
      exact ends_finish h hfinished hscan s.reads
    · rename_i hopen
      obtain ⟨mode, held, rfl⟩ := eq_of_scanRest_inl hscan
      have hopen' : s.finished = false := by simpa using hopen
      have hends := ends_of_dry hscan ((requests s.reads _ false).ends hopen')
      rwa [upcoming, beyond, if_neg (by simp [hopen'])]

theorem closed_after (h : s.Closed) (c : Call) : (s.after c).Closed := by
  cases c with
  | nextToken => exact (ends_nextToken h).closed
  | reset => exact fun _ => .inl ⟨rfl, rfl⟩
  | report message => exact h

theorem closed_afterAll (h : s.Closed) (calls : List Call) : (s.afterAll calls).Closed := by
  induction calls generalizing s with
  | nil => exact h
  | cons c calls ih => exact ih (closed_after h c)

/-! ## After the end -/

/-- The input of this name has ended at this line, and nothing is left of it. -/
structure AtEnd (s : Scanner) (name : String) (line : Nat) : Prop where
  name_eq : s.name = name
  line_eq : s.line = line
  finished : s.finished = true
  rest : s.rest = []
  mode : s.mode = .start

end Scanner

/-- What can be seen of a call when the input of this name has ended at this line: a call for the
next token gives the end, and nothing is done but what the grammar asks to report. -/
def Call.atEnd (name : String) (line : Nat) (c : Call) : Outcome where
  result :=
    match c with
    | .nextToken => some (.ok (.control .endOfInput line))
    | .reset | .report _ => none
  events :=
    match c with
    | .nextToken | .reset => []
    | .report message => [.report ⟨name, line, message⟩]
  line := line
  finished := true

namespace Scanner

variable {s : Scanner} {name : String} {line : Nat}

theorem isFinished_iff : s.isFinished = true ↔ s.finished = true ∧ s.rest = [] := by
  rw [isFinished, Bool.and_eq_true, List.isEmpty_iff]

theorem atEnd_of_isFinished (h : s.Closed) (hfinished : s.isFinished = true) :
    s.AtEnd s.name s.line := by
  obtain ⟨hended, hrest⟩ := isFinished_iff.mp hfinished
  obtain ⟨-, hmode⟩ | hbreak := h hended
  · exact ⟨rfl, rfl, hended, hrest, hmode⟩
  · rw [hrest] at hbreak
    exact absurd (List.suffix_nil.mp hbreak) (List.cons_ne_nil _ _)

theorem AtEnd.nextToken (h : s.AtEnd name line) :
    s.nextToken.result = .ok (.control .endOfInput line) ∧ s.nextToken.events = [] ∧
      s.nextToken.scanner.AtEnd name line := by
  obtain ⟨rfl, rfl, hfinished, hrest, hmode⟩ := h
  rw [Scanner.nextToken, scanRest_of_rest_eq_nil hrest]
  dsimp only
  rw [if_pos hfinished, finish, if_neg (by simp [hmode, Mode.isQuoted])]
  exact ⟨rfl, rfl, rfl, rfl, hfinished, rfl, rfl⟩

theorem AtEnd.after (h : s.AtEnd name line) (c : Call) : (s.after c).AtEnd name line := by
  cases c with
  | nextToken => exact h.nextToken.2.2
  | reset => exact ⟨h.name_eq, h.line_eq, h.finished, rfl, rfl⟩
  | report message => exact h

theorem AtEnd.outcome_eq (h : s.AtEnd name line) (c : Call) : s.outcome c = c.atEnd name line := by
  have hafter := h.after c
  have hfinished := isFinished_iff.mpr ⟨hafter.finished, hafter.rest⟩
  unfold outcome Call.atEnd
  rw [hafter.line_eq, hfinished]
  cases c with
  | nextToken =>
    obtain ⟨hresult, hevents, -⟩ := h.nextToken
    rw [hresult, hevents]
  | reset => rfl
  | report message =>
    obtain ⟨rfl, rfl, -⟩ := h
    rfl

/-- Where the input has ended it has ended for good. -/
theorem AtEnd.run_eq (h : s.AtEnd name line) (calls : List Call) :
    s.run calls = calls.map (Call.atEnd name line) := by
  induction calls generalizing s with
  | nil => rfl
  | cons c calls ih => rw [run, h.outcome_eq, ih (h.after c), List.map_cons]

end Scanner

/-! ## Why an input has ended -/

theorem Phase.Path.exists_endsInput {collaborator : Bool} {p q : Phase} {entries : List Entry}
    (h : p.Path collaborator entries q) (hp : p ≠ .ended) (hq : q = .ended) :
    ∃ entry ∈ entries, entry.EndsInput := by
  induction h with
  | nil => exact absurd hq hp
  | @cons p m q entry entries hstep hpath ih =>
    by_cases hm : m = .ended
    · subst hm
      cases hstep with
      | last _ hstatus => exact ⟨_, List.mem_cons_self, hstatus⟩
      | given => exact ⟨_, List.mem_cons_self, rfl⟩
      | ended _ => exact absurd rfl hp
    · obtain ⟨entry', hmem, hends⟩ := ih hm hq
      exact ⟨entry', List.mem_cons_of_mem entry hmem, hends⟩

/-! ## The law of the end -/

theorem Reply.isEnd_of_givenKind {r : Reply} (h : givenKind r.result = some .endOfInput) :
    r.isEnd = true := by
  unfold isEnd
  cases hresult : r.result with
  | ok t =>
    rw [hresult] at h
    exact beq_iff_eq.mpr (Option.some.inj h)
  | error fault =>
    rw [hresult] at h
    cases h

/-- The passages that give the end of the input have no token in their text. -/
def IdleEnds : Place → List Passage → Prop
  | _, [] => True
  | p, .gave text result :: passages =>
    (givenKind result = some .endOfInput → p.region.IsIdle text) ∧
      IdleEnds (p.after text result) passages
  | _, .dropped _ :: passages => IdleEnds .beginning passages

/-- What the end of the input means in a run of calls that begins with the first scanner, whose
source delivers this text. -/
structure EndLaw (first : Scanner) (text : List Char) (calls : List Call) : Prop where
  /-- a scanner that is finished gives the end at every call, and nothing is read or reported but
  what the grammar asks for -/
  finished : let s := first.afterAll calls
    s.isFinished = true → ∀ more, s.run more = more.map (Call.atEnd first.name s.line)
  /-- a call that gives the end gives it with the line at hand, and leaves the scanner finished;
  whatever comes after, the end is given with this line again -/
  given : let r := (first.afterAll calls).nextToken
    r.isEnd = true →
      r.result = .ok (.control .endOfInput r.scanner.line) ∧ r.scanner.isFinished = true ∧
        ∀ more, r.scanner.run more = more.map (Call.atEnd first.name r.scanner.line)
  /-- by then the stream has ended or a read has failed for good -/
  ended : (first.afterAll calls).nextToken.isEnd = true →
    ∃ entry ∈ first.journal (calls ++ [.nextToken]), entry.EndsInput
  /-- and the calls have gone through all of the text, but for what was dropped at a new
  beginning -/
  used : (first.afterAll calls).nextToken.isEnd = true →
    (first.passages (calls ++ [.nextToken])).flatMap Passage.text = text
  /-- what the last of them has gone through was no token -/
  idle : IdleEnds .beginning (first.passages calls)

namespace Scanner

variable {s : Scanner} {p : Place}

theorem afterAll_concat_nextToken (s : Scanner) (calls : List Call) :
    s.afterAll (calls ++ [.nextToken]) = (s.afterAll calls).nextToken.scanner :=
  List.foldl_append

theorem upcoming_of_isFinished (h : s.isFinished = true) : s.upcoming = [] := by
  obtain ⟨hfinished, hrest⟩ := isFinished_iff.mp h
  simp [upcoming, beyond, hfinished, hrest]

/-- A call that gives the end has gone through all that was left, and that was no token. -/
theorem Stands.isIdle_passed (h : s.Stands p) (hclosed : s.Closed)
    (hend : s.nextToken.isEnd = true) : p.region.IsIdle s.passed := by
  obtain ⟨-, hfinished, -, hidle⟩ := (ends_nextToken hclosed).ending hend
  have hpassed : s.passed = s.upcoming := by
    rw [passed, upcoming_of_isFinished hfinished, List.length_nil, Nat.sub_zero, List.take_length]
  rw [hpassed]
  obtain ⟨-, hregion⟩ | ⟨hended, hrest, -⟩ := h
  · rwa [← hregion]
  · rw [upcoming_of_isFinished (isFinished_iff.mpr ⟨hended, hrest⟩)]
    trivial

theorem Stands.idleEnds (h : s.Stands p) (hclosed : s.Closed) (calls : List Call) :
    IdleEnds p (s.passages calls) := by
  induction calls generalizing s p with
  | nil => trivial
  | cons c calls ih =>
    have hclosed' := closed_after hclosed c
    cases c with
    | nextToken =>
      obtain ⟨-, -, hstands⟩ := h.passed_append
      exact ⟨fun hgiven => h.isIdle_passed hclosed (Reply.isEnd_of_givenKind hgiven),
        ih hstands hclosed'⟩
    | reset => exact ih (.inl ⟨rfl, rfl⟩) hclosed'
    | report message => exact ih h hclosed'

/-- The end of the input comes after all of its text, and it stays, for every source and every run
of calls. -/
theorem endLaw_afterAll (name : String) (reads : List Read) (foreground : Option (List Bool))
    (calls : List Call) :
    EndLaw (ofReads name reads foreground) (delivered foreground false reads) calls := by
  have hfirst : (ofReads name reads foreground).Closed := closed_of_open rfl
  have hstands : (ofReads name reads foreground).Stands .beginning := .inl ⟨rfl, rfl⟩
  have hclosed := closed_afterAll hfirst calls
  have hname := (ofReads name reads foreground).name_afterAll calls
  constructor
  case finished =>
    intro s hfinished
    have hatEnd := (atEnd_of_isFinished hclosed hfinished).run_eq
    rwa [hname] at hatEnd
  case given =>
    intro r hend
    obtain ⟨hresult, hfinished, -⟩ := (ends_nextToken hclosed).ending hend
    have hatEnd := (atEnd_of_isFinished (ends_nextToken hclosed).closed hfinished).run_eq
    rw [← afterAll_concat_nextToken, name_afterAll] at hatEnd
    rw [afterAll_concat_nextToken] at hatEnd
    exact ⟨hresult, hfinished, hatEnd⟩
  case ended =>
    intro hend
    have hfinished := ((ends_nextToken hclosed).ending hend).finished
    rw [← afterAll_concat_nextToken] at hfinished
    have hpath := (ofReads name reads foreground).path_journal (calls ++ [.nextToken])
    refine hpath.exists_endsInput ?_ (phase_of_finished (isFinished_iff.mp hfinished).1)
    rw [phase_of_open rfl]
    exact Phase.noConfusion
  case used =>
    intro hend
    have hfinished := ((ends_nextToken hclosed).ending hend).finished
    rw [← afterAll_concat_nextToken] at hfinished
    have hpassages := hstands.flatMap_passages (calls ++ [.nextToken])
    rwa [upcoming_of_isFinished hfinished, List.append_nil] at hpassages
  case idle => exact hstands.idleEnds hfirst calls

end Scanner

end LispShell
