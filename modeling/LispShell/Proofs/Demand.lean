import LispShell.Proofs.LineBreaks
import LispShell.Proofs.UnretriedRead

set_option autoImplicit false

/-!
# Reading on demand

A scanner never reads ahead: it asks for a line only where it cannot do otherwise.  All characters
that were delivered are used up then, and neither a token nor a fault is determined by them.  So a
statement that is finished is answered before the line after it is asked for, and this is what makes
a scanner fit for a terminal.

That nothing is determined is shown by two texts to come that lead to different results.
`Mode.fork` has two of them for every mode in which the characters can be used up.

`Account` follows a run from outside, by its journal alone: which logical text was delivered, which
token was the last, and what was given since.  `Account.Permits` says in which states a line may be
asked for with that account, and `DemandLaw` says it of all reads of a journal.  The argument keeps
the account together with the state: `Account.Tracks` is preserved by every read and every result.
An interruption and a reset drop all text, so they begin a new account.
-/

namespace LispShell

open ScanState Lexer

/-! ## Text that ends in a line break -/

/-- The text ends in a line break outside quotes and comments. -/
def Region.EndsInBreak (r : Region) (text : List Char) : Prop :=
  ∃ front, text = front ++ ['\n'] ∧ (r.after front).Breaks '\n'

namespace Region.EndsInBreak

variable {r : Region} {c : Char} {gone text : List Char}

theorem ne_nil (h : r.EndsInBreak text) : text ≠ [] := by
  obtain ⟨front, rfl, -⟩ := h
  simp

theorem breaks (h : r.EndsInBreak [c]) : r.Breaks c := by
  obtain ⟨front, htext, hbreaks⟩ := h
  obtain ⟨rfl, hc⟩ := List.append_eq_singleton_iff.mp htext.symm |>.resolve_right (by simp)
  cases hc
  exact hbreaks

theorem of_append (hne : text ≠ []) (h : r.EndsInBreak (gone ++ text)) :
    (r.after gone).EndsInBreak text := by
  obtain ⟨front, htext, hbreaks⟩ := h
  obtain rfl | ⟨more, c, rfl⟩ := List.eq_nil_or_concat text
  · exact absurd rfl hne
  · rw [List.concat_eq_append, ← List.append_assoc] at htext
    obtain ⟨rfl, hc⟩ := List.append_inj' htext rfl
    cases hc
    rw [Region.after_append] at hbreaks
    exact ⟨more, by simp, hbreaks⟩

theorem of_cons (hne : text ≠ []) (h : r.EndsInBreak (c :: text)) :
    (r.step c).EndsInBreak text := by
  rw [← List.singleton_append] at h
  exact of_append hne h

end Region.EndsInBreak

namespace ScanState

/-- Scanning has given a line break, or it has used up all characters and `passed` holds. -/
def Progress.GivesBreak (passed : Prop) : Progress → Prop
  | .complete kind text _ => kind = .newline ∧ text = ['\n']
  | .dry _ _ => passed
  | .rejected _ => False

theorem Progress.GivesBreak.imp {p q : Prop} (h : p → q) {progress : Progress}
    (hgives : progress.GivesBreak p) : progress.GivesBreak q := by
  cases progress with
  | complete kind text rest => exact hgives
  | dry mode held => exact h hgives
  | rejected rest => exact hgives

/-- If a text ends in a line break and nothing is left of it, the line break is given, or it is
passed over after a token that continues the line. -/
theorem givesBreak_scan {previous : Option TokenKind} {text : List Char} :
    ∀ {mode : Mode} {held : List Char}, mode.region.EndsInBreak text →
      (scan previous mode held text).rest = [] →
        (scan previous mode held text).GivesBreak
          (previous.any TokenKind.continuesLine = true) := by
  induction text with
  | nil => exact fun h => absurd rfl h.ne_nil
  | cons c text ih =>
    intro mode held hends hrest
    have habides := mode.abides_move c
    -- The line break at the end is not this character, so it comes later.
    have hlater : ¬mode.region.Breaks c → text ≠ [] := by
      rintro hbreaks rfl
      exact hbreaks hends.breaks
    rw [scan] at hrest ⊢
    cases hmove : mode.move c with
    | take next =>
      simp only [hmove] at habides hrest ⊢
      obtain ⟨hbreaks, hnext⟩ := habides
      exact ih (hnext ▸ hends.of_cons (hlater hbreaks)) hrest
    | skip =>
      simp only [hmove] at habides hrest ⊢
      obtain ⟨hbreaks, hplain⟩ := habides
      have hmore := hends.of_cons (hlater hbreaks)
      rw [hplain] at hmore
      exact ih hmore hrest
    | lineBreak =>
      simp only [hmove] at habides hrest ⊢
      obtain ⟨rfl, hplain⟩ : mode.region.Breaks c := habides
      split at hrest
      · rename_i hcontinues
        rw [if_pos hcontinues]
        by_cases hne : text = []
        · subst hne
          exact hcontinues
        · have hmore := hends.of_cons hne
          rw [hplain] at hmore
          exact ih hmore hrest
      · rename_i hcontinues
        rw [if_neg hcontinues]
        exact ⟨rfl, rfl⟩
    | close kind =>
      simp only [hmove] at habides hrest
      exact absurd hrest (hlater habides.1)
    | closeBefore kind =>
      simp only [hmove] at hrest
      cases hrest
    | reject =>
      simp only [hmove] at hrest
      cases hrest

end ScanState

/-! ## What is determined -/

/-- Whatever text comes next, the next result is this one, the number of its line apart. -/
def ScanState.Determines (s : ScanState) (lexeme : Lexeme) : Prop :=
  ∀ text, (Scanner.nextToken { s with reads := Read.ofText text }).lexeme = lexeme

/-- What is given where a whole text was scanned. -/
def ScanState.Progress.lexeme : Progress → Lexeme
  | .dry mode _ => if mode.isQuoted then .unterminated else .token .endOfInput ""
  | .complete kind text _ => .token (refinedKind kind text) (canonicalText kind text)
  | .rejected _ => .unexpected

theorem Reply.Follows.lexeme_eq {r : Reply} {previous : Option TokenKind} {q : Progress}
    (h : r.Follows previous (ofProgress q)) : r.lexeme = q.lexeme := by
  cases q with
  | dry mode held =>
    rw [Progress.lexeme]
    rw [ofProgress] at h
    split at h
    · rename_i hquoted
      rw [if_pos hquoted]
      exact h.1
    · rename_i hquoted
      rw [if_neg hquoted]
      exact h
  | complete kind text rest => exact h.1
  | rejected rest => exact h.1

/-- Two texts that lead on to different results. -/
def Mode.fork : Mode → List Char × List Char
  | .start => (['('], [')'])
  | .ampersand => (['&'], ['('])
  | .bang | .symbol => (['('], ['a', '('])
  | .bangDouble _ | .doubleQuoted _ => (['a', '"'], ['a', 'a', '"'])
  | .bangGreater | .greater => (['>'], ['('])
  | .colon => ([':'], ['('])
  | .comment _ => (['x', '\n', '('], ['\\'])
  | .less => (['('], [' '])
  | .pipe => (['+'], ['|'])
  | .singleQuoted => (['\''], ['a', '\''])

theorem Mode.logicalText_fork (m : Mode) :
    logicalText m.fork.1 = m.fork.1 ++ ['\n'] ∧ logicalText m.fork.2 = m.fork.2 ++ ['\n'] := by
  cases m <;> exact ⟨rfl, rfl⟩

namespace ScanState

variable {s : ScanState} {lexeme : Lexeme}

theorem Determines.eq_lexeme (h : s.Determines lexeme) (hrest : s.rest = [])
    (hopen : s.finished = false) (text : List Char) :
    lexeme = (scanText s.previous s.mode s.held (logicalText text)).lexeme := by
  have hscan : s.scanRest = .inl s := by
    unfold scanRest
    rw [hrest]
    rw [scan, ← hrest]
  have hfollows := follows_request (lines_linesFrom text [] List.not_mem_nil) hopen
  have hreply := h text
  unfold Scanner.nextToken at hreply
  dsimp only at hreply
  rw [hscan] at hreply
  dsimp only at hreply
  rw [if_neg (by simp [hopen])] at hreply
  have hlogical := logicalOf_ofText text
  unfold Read.ofText at hlogical hreply
  rw [hlogical] at hfollows
  rw [← hreply]
  exact hfollows.lexeme_eq

theorem lexeme_ne_of_kind_ne {kind kind' : TokenKind} {chars chars' rest rest' : List Char}
    (h : refinedKind kind chars ≠ refinedKind kind' chars') :
    (Progress.complete kind chars rest).lexeme ≠ (Progress.complete kind' chars' rest').lexeme :=
  fun heq => h (Lexeme.token.inj heq).1

theorem lexeme_ne_of_length_ne {kind kind' : TokenKind} {chars chars' rest rest' : List Char}
    (hkind : kind.isOperator = false) (hkind' : kind'.isOperator = false)
    (h : chars.length ≠ chars'.length) :
    (Progress.complete kind chars rest).lexeme ≠
      (Progress.complete kind' chars' rest').lexeme := by
  intro heq
  have htext := (Lexeme.token.inj heq).2
  rw [canonicalText, canonicalText, hkind, hkind'] at htext
  exact h (congrArg List.length (String.ofList_injective htext))

/-- The two texts that `Mode.fork` has for a mode lead to different results. -/
theorem lexeme_fork_ne (previous : Option TokenKind) {held : List Char} {m : Mode}
    (hform : m.Form held) :
    (scanText previous m held (m.fork.1 ++ ['\n'])).lexeme ≠
      (scanText previous m held (m.fork.2 ++ ['\n'])).lexeme := by
  cases m with
  | start | ampersand | colon | greater | pipe => exact lexeme_ne_of_kind_ne (by simp [refinedKind])
  | bang | singleQuoted | symbol => exact lexeme_ne_of_length_ne rfl rfl (by simp [hold])
  | bangDouble escaping | doubleQuoted escaping =>
    cases escaping with
    | false | true => exact lexeme_ne_of_length_ne rfl rfl (by simp [hold])
  | bangGreater =>
    -- Both are redirections, and their canonical names differ.
    obtain rfl : held = ['>', '!'] := hform
    exact fun heq => absurd (Lexeme.token.inj heq).2 (by decide)
  | less => exact fun heq => by cases heq
  | comment backslash =>
    -- A line break ends the comment; a backslash keeps it open up to the end.
    have hbreak : scanText previous (.comment backslash) held ['x', '\n', '(', '\n'] =
        if previous.any TokenKind.continuesLine then .complete .leftParen ['('] ['\n']
        else .complete .newline ['\n'] ['(', '\n'] := rfl
    have hescaped : (scanText previous (.comment backslash) held ['\\', '\n']).lexeme =
        .token .endOfInput "" := rfl
    change (scanText previous (.comment backslash) held ['x', '\n', '(', '\n']).lexeme ≠
      (scanText previous (.comment backslash) held ['\\', '\n']).lexeme
    rw [hbreak, hescaped]
    split
    · exact fun heq => by cases heq
    · exact fun heq => by cases heq

/-- A state in which a line is asked for determines nothing. -/
theorem not_determines (hform : s.mode.Form s.held) (hrest : s.rest = [])
    (hopen : s.finished = false) (lexeme : Lexeme) : ¬s.Determines lexeme := by
  intro h
  have hfirst := h.eq_lexeme hrest hopen s.mode.fork.1
  have hsecond := h.eq_lexeme hrest hopen s.mode.fork.2
  obtain ⟨hlogical, hlogical'⟩ := s.mode.logicalText_fork
  rw [hlogical] at hfirst
  rw [hlogical'] at hsecond
  exact lexeme_fork_ne s.previous hform (hfirst.symm.trans hsecond)

end ScanState

/-! ## The account of a run -/

/-- What the entries of a journal tell of a run.  An interruption and a reset drop all text, and
the account begins anew. -/
structure Account where
  /-- the logical text that was delivered -/
  text : List Char
  /-- the kind of the last token -/
  last : Option TokenKind
  /-- the last result, if there was one since text was delivered last -/
  answer : Option Lexeme
  deriving DecidableEq, Repr, Inhabited

namespace Account

/-- The account before the first entry. -/
def beginning : Account := ⟨[], none, none⟩

/-- A line delivers its logical text, which is nothing if all of it is a continuation. -/
def deliver (a : Account) (text : List Char) : Account :=
  if text = [] then a else { a with text := a.text ++ text, answer := none }

/-- A call is over. -/
def give (a : Account) (result : Except Fault Token) : Account :=
  match result with
  | .ok t =>
    if t.kind = .interrupt ∨ t.kind = .endOfInput then beginning
    else { a with last := some t.kind, answer := some (.ofResult result) }
  | .error _ => { a with answer := some (.ofResult result) }

/-- The account after one more entry.  No read comes after the end of the stream, and a failed read
after which another one comes has delivered nothing. -/
def after (a : Account) : Entry → Account
  | .read _ ⟨text, .ok⟩ => a.deliver (Line.logical text)
  | .read _ ⟨_, .interrupted⟩ | .reset => beginning
  | .gave result => a.give result
  | .read _ ⟨_, .endOfStream⟩ | .read _ ⟨_, .failed _⟩ | .reclaim _ | .report _ => a

/-- The account after some more entries. -/
def afterAll (a : Account) (entries : List Entry) : Account :=
  entries.foldl after a

/-- The line break at the end of the text was given, as the last result, or it is passed over after
a token that continues the line. -/
def IsAnswered (a : Account) : Prop :=
  a.answer = some (.token .newline "\n") ∨ a.last.any TokenKind.continuesLine = true

/-- With this account a scanner may ask for a line in this state. -/
structure Permits (a : Account) (s : ScanState) : Prop where
  /-- all characters that were delivered are used up -/
  consumed : s.rest = []
  /-- no token and no fault is determined by them -/
  undetermined : ∀ lexeme, ¬s.Determines lexeme
  /-- if they end in a line break outside quotes and comments, it is not still to be given -/
  answered : Region.plain.EndsInBreak a.text → a.IsAnswered

/-- The account is that of a run which has come to this state.  Some of the text is gone through,
and the mode and the characters held are what it leaves; the rest is at hand. -/
structure Tracks (a : Account) (s : ScanState) : Prop where
  last_eq : s.previous = a.last
  place : ∃ gone, gone ++ s.rest = a.text ∧ s.mode.region = Region.plain.after gone ∧
    s.mode.Holds s.held gone
  answered : s.rest = [] → Region.plain.EndsInBreak a.text → a.IsAnswered

variable {a : Account} {s : ScanState}

theorem tracks_reset (s : ScanState) : beginning.Tracks s.reset where
  last_eq := rfl
  place := ⟨[], rfl, rfl, Mode.holds_start []⟩
  answered _ hends := absurd rfl hends.ne_nil

theorem Tracks.permits (h : a.Tracks s) (hrest : s.rest = []) (hopen : s.finished = false) :
    a.Permits s := by
  obtain ⟨gone, -, -, hholds⟩ := h.place
  exact ⟨hrest, ScanState.not_determines hholds.form hrest hopen, h.answered hrest⟩

theorem Tracks.fill (h : a.Tracks s) (hrest : s.rest = []) (text : List Char) :
    (a.deliver (Line.logical text)).Tracks (s.fill text false) := by
  obtain ⟨gone, hgone, hregion, hholds⟩ := h.place
  rw [hrest, List.append_nil] at hgone
  subst hgone
  have hfill : (s.fill text false).rest = Line.logical text := by simp [ScanState.fill]
  by_cases hempty : Line.logical text = []
  · rw [deliver, if_pos hempty]
    refine ⟨h.last_eq, ⟨a.text, ?_, hregion, hholds⟩, fun _ => h.answered hrest⟩
    rw [hfill, hempty, List.append_nil]
  · rw [deliver, if_neg hempty]
    refine ⟨h.last_eq, ⟨a.text, ?_, hregion, hholds⟩, fun hnone => ?_⟩
    · rw [hfill]
    · rw [hfill] at hnone
      exact absurd hnone hempty

theorem give_of_kind {t : Token} (h : t.kind = .newline ∨ t.kind.isOrdinary = true) :
    a.give (.ok t) = { a with last := some t.kind, answer := some (.token t.kind t.text) } := by
  have hgoes : ¬(t.kind = .interrupt ∨ t.kind = .endOfInput) := by
    rintro (hkind | hkind)
    · simp [hkind, TokenKind.isOrdinary] at h
    · simp [hkind, TokenKind.isOrdinary] at h
  exact if_neg hgoes

/-- If the text ends in a line break and scanning leaves nothing of it, the line break is given, or
it was given before or is passed over. -/
theorem Tracks.givesBreak (h : a.Tracks s) (hbreak : Region.plain.EndsInBreak a.text)
    (hnone : (scan s.previous s.mode s.held s.rest).rest = []) :
    (scan s.previous s.mode s.held s.rest).GivesBreak a.IsAnswered := by
  obtain ⟨gone, hgone, hregion, -⟩ := h.place
  by_cases hnil : s.rest = []
  · rw [hnil]
    exact h.answered hnil hbreak
  · rw [← hgone] at hbreak
    have hends := hbreak.of_append hnil
    rw [← hregion] at hends
    refine (givesBreak_scan hends hnone).imp fun hcontinues => .inr ?_
    rwa [← h.last_eq]

/-- Scanning the characters at hand goes with the account of its result. -/
theorem Tracks.scanRest (h : a.Tracks s) :
    match s.scanRest with
    | .inl t => a.Tracks t
    | .inr answer => (a.give answer.result).Tracks answer.state := by
  obtain ⟨gone, hgone, hregion, hholds⟩ := h.place
  have hwithin := inCourse_scan Mode.invariant_holds s.previous s.rest hholds
  obtain ⟨here, hhere, -, hend, hkind⟩ :=
    abides_scan s.rest (p := ⟨s.previous, s.mode.region⟩) s.held rfl
  have hplace : gone ++ here ++ (scan s.previous s.mode s.held s.rest).rest = a.text := by
    rw [List.append_assoc, hhere, hgone]
  have hgives := h.givesBreak
  rw [hregion, ← Region.after_append] at hend
  unfold ScanState.scanRest
  dsimp only at hend hkind
  cases hscan : scan s.previous s.mode s.held s.rest with
  | dry mode held =>
    rw [hscan] at hwithin hplace hend hgives
    rw [hgone] at hwithin
    have hall : gone ++ here = a.text := (List.append_nil _).symm.trans hplace
    rw [hall] at hend
    exact ⟨h.last_eq, ⟨a.text, List.append_nil _, hend, hwithin⟩, fun _ hbreak => hgives hbreak rfl⟩
  | complete kind chars rest =>
    rw [hscan] at hplace hend hgives hkind
    have hrefined : refinedKind kind chars = .newline ∨
        (refinedKind kind chars).isOrdinary = true := by
      obtain rfl | hordinary := hkind kind rfl
      · exact .inl rfl
      · exact .inr (isOrdinary_refinedKind hordinary chars)
    dsimp only
    rw [give_of_kind hrefined]
    refine ⟨rfl, ⟨gone ++ here, hplace, hend, Mode.holds_start _⟩, fun hnone hbreak => .inl ?_⟩
    obtain ⟨rfl, rfl⟩ := hgives hbreak hnone
    rfl
  | rejected rest =>
    rw [hscan] at hplace hend hgives
    exact ⟨h.last_eq, ⟨gone ++ here, hplace, hend, Mode.holds_start _⟩,
      fun hnone hbreak => (hgives hbreak hnone).elim⟩

/-- With this account the entry may come next. -/
def Allows (a : Account) : Entry → Prop
  | .read s _ => a.Permits s
  | _ => True

end Account

/-! ## Reads on demand -/

/-- With this account a journal has reads only where they are permitted. -/
def DemandLaw : Account → List Entry → Prop
  | _, [] => True
  | a, entry :: entries => a.Allows entry ∧ DemandLaw (a.after entry) entries

theorem DemandLaw.append {a : Account} {entries more : List Entry} (h : DemandLaw a entries)
    (hmore : DemandLaw (a.afterAll entries) more) : DemandLaw a (entries ++ more) := by
  induction entries generalizing a with
  | nil => exact hmore
  | cons entry entries ih => exact ⟨h.1, ih h.2 hmore⟩

theorem DemandLaw.permits {a : Account} {before after : List Entry} {s : ScanState} {read : Read}
    (h : DemandLaw a (before ++ .read s read :: after)) : (a.afterAll before).Permits s := by
  induction before generalizing a with
  | nil => exact h.1
  | cons entry before ih => exact ih h.2

/-- A call keeps to the law with these entries and those that close it, and unless the input has
ended the account goes on with the scanner. -/
structure Reply.Demands (r : Reply) (a : Account) (made : List Entry) : Prop where
  law : DemandLaw a (made ++ r.closing)
  goesOn : r.scanner.finished = true ∨
    (a.afterAll (made ++ r.closing)).Tracks r.scanner.toScanState

namespace Reply.Demands

variable {r : Reply} {a : Account} {made : List Entry}

/-- A call that closes without a read. -/
theorem closing (h : r.scanner.finished = true ∨ (a.give r.result).Tracks r.scanner.toScanState) :
    r.Demands a [] := by
  have hreports : ∀ reports : List Report,
      DemandLaw a (reports.map .report ++ [.gave r.result]) ∧
        a.afterAll (reports.map .report ++ [.gave r.result]) = a.give r.result := by
    intro reports
    induction reports with
    | nil => exact ⟨⟨trivial, trivial⟩, rfl⟩
    | cons report reports ih => exact ⟨⟨trivial, ih.1⟩, ih.2⟩
  obtain ⟨hlaw, haccount⟩ := hreports (r.events.filterMap Event.report?)
  refine ⟨hlaw, h.imp_right fun htracks => ?_⟩
  rw [List.nil_append, Reply.closing, haccount]
  exact htracks

theorem read {s : ScanState} {read : Read} (hpermits : a.Permits s)
    (h : r.Demands (a.after (.read s read)) made) :
    (r.after [.read]).Demands a (.read s read :: made) := by
  refine ⟨?_, ?_⟩
  · rw [closing_after_read]
    exact ⟨hpermits, h.law⟩
  · rw [closing_after_read]
    exact h.goesOn

theorem reclaim (taken : Bool) (h : r.Demands a made) :
    (r.after [.reclaim taken]).Demands a (.reclaim taken :: made) := by
  refine ⟨?_, ?_⟩
  · rw [closing_after_reclaim]
    exact ⟨trivial, h.law⟩
  · rw [closing_after_reclaim]
    exact h.goesOn

end Reply.Demands

namespace ScanState

theorem finished_conclude (s : ScanState) (reads : List Read) :
    (s.conclude reads).scanner.finished = s.finished := by
  unfold conclude
  cases hscan : s.scanRest with
  | inl t =>
    obtain ⟨mode, held, rfl⟩ := eq_of_scanRest_inl hscan
    exact (keeps_finish _).finished
  | inr a => exact (keeps_of_scanRest hscan).finished

/-- A call that reads asks for lines only where the account permits it. -/
theorem Requests.demands {s : ScanState} {retried : Bool} {reads : List Read} {r : Reply}
    {made : List Entry} (h : Requests s retried reads r made) :
    ∀ {a : Account}, s.finished = false → s.rest = [] → a.Tracks s → r.Demands a made := by
  induction h with
  | @exhausted s retried =>
    intro a hopen hrest htracks
    refine .read (htracks.permits hrest hopen) (.closing (.inl ?_))
    rw [finished_conclude]
    simp [fill]
  | @dry s t retried text reads r made hscan _ ih =>
    intro a hopen hrest htracks
    have hscanned := (htracks.fill hrest text).scanRest
    rw [hscan] at hscanned
    obtain ⟨mode, held, rfl⟩ := eq_of_scanRest_inl hscan
    exact .read (htracks.permits hrest hopen) (ih (by simp [fill, hopen]) rfl hscanned)
  | @answer s retried text reads answer hscan =>
    intro a hopen hrest htracks
    have hscanned := (htracks.fill hrest text).scanRest
    rw [hscan] at hscanned
    exact .read (htracks.permits hrest hopen) (.closing (.inr hscanned))
  | @interrupted s retried text reads =>
    intro a hopen hrest htracks
    exact .read (htracks.permits hrest hopen) (.closing (.inr (Account.tracks_reset s)))
  | @endOfStream s retried text reads =>
    intro a hopen hrest htracks
    refine .read (htracks.permits hrest hopen) (.closing (.inl ?_))
    rw [finished_conclude]
    simp [fill]
  | @unasked s retried text reads e halone =>
    intro a hopen hrest htracks
    refine .read (htracks.permits hrest hopen) (.closing (.inl ?_))
    simp [fail, Answer.toReply, fill]
  | @refused s t text reads e hreclaim =>
    intro a hopen hrest htracks
    refine .read (htracks.permits hrest hopen) (.reclaim false (.closing (.inl ?_)))
    simp [fail, Answer.toReply, fill]
  | @retry s t text reads e r made hreclaim _ ih =>
    intro a hopen hrest htracks
    obtain ⟨foreground, rfl⟩ := eq_of_reclaim hreclaim
    have htracks' : a.Tracks { s with foreground } :=
      ⟨htracks.last_eq, htracks.place, htracks.answered⟩
    exact .read (htracks.permits hrest hopen) (.reclaim true (ih hopen hrest htracks'))

end ScanState

namespace Scanner

variable {s : Scanner} {a : Account}

theorem inquiries_of_finished (h : s.finished = true) : s.inquiries = [] := by
  unfold inquiries
  cases hscan : s.toScanState.scanRest with
  | inr answer => rfl
  | inl t =>
    obtain ⟨mode, held, rfl⟩ := ScanState.eq_of_scanRest_inl hscan
    exact if_pos h

/-- A call for the next token asks for lines only where the account permits it. -/
theorem demands_nextToken (h : s.finished = true ∨ a.Tracks s.toScanState) :
    s.nextToken.Demands a s.inquiries := by
  by_cases hfinished : s.finished = true
  · rw [inquiries_of_finished hfinished]
    exact .closing (.inl (after_of_finished hfinished .nextToken).1)
  · have hopen : s.finished = false := by simpa using hfinished
    have hscanned := (h.resolve_left hfinished).scanRest
    unfold Scanner.nextToken inquiries
    cases hscan : s.toScanState.scanRest with
    | inr answer =>
      rw [hscan] at hscanned
      exact .closing (.inr hscanned)
    | inl t =>
      rw [hscan] at hscanned
      obtain ⟨mode, held, rfl⟩ := ScanState.eq_of_scanRest_inl hscan
      dsimp only
      rw [if_neg hfinished, if_neg hfinished]
      exact (ScanState.requests s.reads _ false).demands hopen rfl hscanned

/-- A run asks for lines only where the account permits it. -/
theorem demandLaw_journal (calls : List Call) (h : s.finished = true ∨ a.Tracks s.toScanState) :
    DemandLaw a (s.journal calls) := by
  induction calls generalizing s a with
  | nil => trivial
  | cons c calls ih =>
    rw [journal]
    cases c with
    | nextToken =>
      obtain ⟨hlaw, hgoesOn⟩ := demands_nextToken h
      exact hlaw.append (ih hgoesOn)
    | reset => exact ⟨trivial, ih (.inr (Account.tracks_reset s.toScanState))⟩
    | report message => exact ⟨trivial, ih h⟩

/-- For every source and every run of calls, a line is asked for only where all that was delivered
is used up and determines no token and no fault.  If it ends in a line break outside quotes and
comments, this line break was given last, or the last token continues the line. -/
theorem reads_on_demand (name : String) (reads : List Read) (foreground : Option (List Bool))
    (calls : List Call) {before after : List Entry} {state : ScanState} {read : Read}
    (hread : (ofReads name reads foreground).journal calls =
      before ++ .read state read :: after) :
    (Account.beginning.afterAll before).Permits state := by
  have hbegun : Account.beginning.Tracks (ofReads name reads foreground).toScanState :=
    Account.tracks_reset (ScanState.initial name foreground)
  have hlaw := demandLaw_journal calls (.inr hbegun)
  rw [hread] at hlaw
  exact hlaw.permits

/-- The second line is asked for after the line break of the first. -/
theorem reads_on_demand_secondLine :
    (ofReads "sh" (Read.ofText "a\nb".toList) none).journal (List.replicate 3 .nextToken) =
        [.read (ScanState.initial "sh" none) ⟨"a\n".toList, .ok⟩, .gave (.ok ⟨.symbol, "a", 1⟩),
          .gave (.ok ⟨.newline, "\n", 1⟩)] ++
        .read { ScanState.initial "sh" none with line := 1, previous := some .newline }
          ⟨"b".toList, .endOfStream⟩ :: [.gave (.ok ⟨.symbol, "b", 2⟩)] ∧
      Region.plain.EndsInBreak "a\n".toList ∧
      (Account.beginning.afterAll
        [.read (ScanState.initial "sh" none) ⟨"a\n".toList, .ok⟩, .gave (.ok ⟨.symbol, "a", 1⟩),
          .gave (.ok ⟨.newline, "\n", 1⟩)]).Permits
        { ScanState.initial "sh" none with line := 1, previous := some .newline } := by
  have hends : Region.plain.EndsInBreak "a\n".toList := ⟨['a'], rfl, by decide⟩
  exact ⟨rfl, hends, reads_on_demand "sh" (Read.ofText "a\nb".toList) none
    (List.replicate 3 .nextToken) rfl⟩

end Scanner

end LispShell
