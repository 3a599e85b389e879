import LispShell.Proofs.Encoding
import LispShell.Proofs.LogicalLine
import LispShell.Proofs.LookAhead

set_option autoImplicit false

/-!
# The scanner and the whole text

A scanner over a text gives what `Lexer.lexemes` finds in the logical text.

Between two tokens a scanner has some characters at hand and some lines to be read.  `toCome` is the
logical text of both together, and `Between` says what else can be relied on there.  A call then
does what scanning all of `toCome` would do, whether the characters are at hand or have to be read
first.  So the calls, one after the other, go through the logical text as `Lexer.lexemes` does.
-/

namespace LispShell

open ScanState Lexer

/-! ## The reads of a text -/

/-- Reads that give a text line by line. -/
inductive Lines : List Read → Prop where
  | nil : Lines []
  | last {text : List Char} (hbreak : '\n' ∉ text) : Lines [Read.last text]
  | line {text : List Char} {reads : List Read} (hbreak : '\n' ∉ text) (hreads : Lines reads) :
      Lines (⟨text ++ ['\n'], .ok⟩ :: reads)

/-- What reads add to the logical text. -/
def logicalOf (reads : List Read) : List Char :=
  reads.flatMap fun read => Line.logical read.text

theorem lines_linesFrom (text : List Char) :
    ∀ line, '\n' ∉ line → Lines (Read.linesFrom line text) := by
  induction text with
  | nil =>
    intro line hline
    cases line with
    | nil => exact .nil
    | cons c line => exact .last fun hmem => hline (List.mem_reverse.mp hmem)
  | cons c text ih =>
    intro line hline
    rw [Read.linesFrom]
    split
    · rename_i hbreak
      subst hbreak
      rw [List.reverse_cons]
      exact .line (fun hmem => hline (List.mem_reverse.mp hmem)) (ih [] List.not_mem_nil)
    · rename_i hbreak
      apply ih
      rw [List.mem_cons, not_or]
      exact ⟨Ne.symm hbreak, hline⟩

theorem joinLines_cons (line : List Char) {lines : List (List Char)} (h : lines ≠ []) :
    joinLines (line :: lines) = joinedLine line ++ joinLines lines := by
  cases lines with
  | nil => exact absurd rfl h
  | cons next lines => rfl

theorem logicalOf_linesFrom (text : List Char) :
    ∀ line, '\n' ∉ line → logicalOf (Read.linesFrom line text) ++ ['\n'] =
      joinLines (text.splitOnPPrepend (· == '\n') line) := by
  induction text with
  | nil =>
    intro line hline
    rw [List.splitOnPPrepend_nil, joinLines]
    cases line with
    | nil => rfl
    | cons c line =>
      have hlogical : Line.logical (c :: line).reverse = (c :: line).reverse :=
        Line.logical_of_not_mem fun hmem => hline (List.mem_reverse.mp hmem)
      change (Line.logical (c :: line).reverse ++ []) ++ ['\n'] = _
      rw [List.append_nil, hlogical]
  | cons c text ih =>
    intro line hline
    rw [Read.linesFrom, List.splitOnPPrepend_cons_eq_if]
    rcases eq_or_ne c '\n' with rfl | hbreak
    · rw [if_pos rfl, if_pos (by simp), ← List.splitOnPPrepend_nil_right,
        joinLines_cons _ (List.splitOnPPrepend_ne_nil _ _ _), ← ih [] List.not_mem_nil,
        ← Line.logical_line, ← List.reverse_cons]
      simp [logicalOf]
    · rw [if_neg hbreak, if_neg (by simpa using hbreak)]
      apply ih
      rw [List.mem_cons, not_or]
      exact ⟨Ne.symm hbreak, hline⟩

/-- The reads of a text add its logical text, but for the last line break. -/
theorem logicalOf_ofText (text : List Char) :
    logicalOf (Read.ofText text) ++ ['\n'] = logicalText text :=
  logicalOf_linesFrom text [] List.not_mem_nil

/-- The logical text of a line. -/
theorem logicalText_of_not_mem {text : List Char} (h : '\n' ∉ text) :
    logicalText text = text ++ ['\n'] := by
  rw [logicalText, List.splitOn_eq_singleton h]
  rfl

/-! ## Between tokens -/

theorem isLine_append_break {text : List Char} (h : '\n' ∉ text) : IsLine (text ++ ['\n']) := by
  unfold IsLine
  rwa [List.dropLast_concat]

theorem isLine_joinedLine {line : List Char} (h : '\n' ∉ line) : IsLine (joinedLine line) := by
  have hbody : '\n' ∉ (if line.getLast? = some '\r' then line.dropLast else line) := by
    split
    · exact fun hmem => h (List.dropLast_subset line hmem)
    · exact h
  unfold joinedLine
  dsimp only
  generalize (if line.getLast? = some '\r' then line.dropLast else line) = body at hbody ⊢
  split
  · exact fun hmem => hbody (List.dropLast_subset _ (List.dropLast_subset _ hmem))
  · exact isLine_append_break hbody

namespace Scanner

/-- The logical text that a scanner has yet to go through. -/
def toCome (s : Scanner) : List Char :=
  s.rest ++ if s.finished then [] else logicalOf s.reads ++ ['\n']

/-- A scanner between two tokens: the kind of the one before, and the text from the next one on. -/
structure Between (s : Scanner) (previous : Option TokenKind) (text : List Char) : Prop where
  mode_eq : s.mode = .start
  held_eq : s.held = []
  previous_eq : s.previous = previous
  isLine : IsLine s.rest
  lines : Lines s.reads
  toCome_eq : s.toCome = text

end Scanner

/-- A call gave what stands at the front, and the scanner is between that and what comes next. -/
def Reply.Follows (r : Reply) (previous : Option TokenKind) : Front → Prop
  | .nothing => r.lexeme = .token .endOfInput ""
  | .skipped _ | .lineBreak _ => False
  | .token kind text rest => r.lexeme = .token kind text ∧ r.scanner.Between (some kind) rest
  | .unexpected rest => r.lexeme = .unexpected ∧ r.scanner.Between previous rest
  | .unterminated => r.lexeme = .unterminated ∧ r.scanner.Between none []

/-! ## One call -/

section

variable {s : ScanState} {reads : List Read}

theorem scanText_of_scanRest_inl {t : ScanState} (h : s.scanRest = .inl t) (hline : IsLine s.rest)
    (more : List Char) :
    scanText s.previous s.mode s.held (s.rest ++ more) =
        scanText t.previous t.mode t.held more ∧
      t.rest = [] ∧ t.finished = s.finished ∧ t.previous = s.previous := by
  have hscan := scan_eq_scanText s.previous s.mode s.held hline
  unfold scanRest at h
  rw [scanText_append, ← hscan]
  cases hprogress : scan s.previous s.mode s.held s.rest with
  | dry mode held =>
    rw [hprogress] at h
    obtain rfl := Sum.inl.inj h
    exact ⟨rfl, rfl, rfl, rfl⟩
  | complete kind text rest =>
    rw [hprogress] at h
    cases h
  | rejected rest =>
    rw [hprogress] at h
    cases h

/-- An answer from the characters at hand is what scanning all text to come would find. -/
theorem follows_of_scanRest_inr {a : Answer} (h : s.scanRest = .inr a) (hline : IsLine s.rest)
    (hreads : Lines reads) :
    (a.toReply reads).Follows s.previous
      (ofProgress (scanText s.previous s.mode s.held (Scanner.toCome { s with reads }))) := by
  have hscan := scan_eq_scanText s.previous s.mode s.held hline
  have hsuffix := rest_scanText_suffix s.previous s.rest s.mode s.held
  unfold scanRest at h
  rw [Scanner.toCome, scanText_append]
  rw [hscan] at h
  cases hprogress : scanText s.previous s.mode s.held s.rest with
  | dry mode held =>
    rw [hprogress] at h
    cases h
  | complete kind text rest =>
    rw [hprogress] at h hsuffix
    obtain rfl := Sum.inr.inj h
    exact ⟨rfl, rfl, rfl, rfl, hline.of_suffix hsuffix, hreads, rfl⟩
  | rejected rest =>
    rw [hprogress] at h hsuffix
    obtain rfl := Sum.inr.inj h
    exact ⟨rfl, rfl, rfl, rfl, hline.of_suffix hsuffix, hreads, rfl⟩

theorem follows_finish (hfinished : s.finished = true)
    (hreads : Lines reads) :
    (s.finish.toReply reads).Follows s.previous (ofProgress (.dry s.mode s.held)) := by
  unfold finish
  rw [ofProgress]
  by_cases hquoted : s.mode.isQuoted = true
  · rw [if_pos hquoted, if_pos hquoted]
    refine ⟨rfl, rfl, rfl, rfl, ?_, hreads, ?_⟩
    · exact List.not_mem_nil
    · simp [Scanner.toCome, Answer.toReply, reset, hfinished]
  · rw [if_neg hquoted, if_neg hquoted]
    rfl

/-- After the last read all text to come is at hand. -/
theorem follows_conclude (hfinished : s.finished = true) (hline : IsLine s.rest)
    (hreads : Lines reads) :
    (s.conclude reads).Follows s.previous
      (ofProgress (scanText s.previous s.mode s.held s.rest)) := by
  unfold conclude
  cases hscan : s.scanRest with
  | inl t =>
    obtain ⟨hprogress, -, hended, hprevious⟩ := scanText_of_scanRest_inl hscan hline []
    rw [List.append_nil] at hprogress
    rw [hprogress, ← hprevious]
    exact follows_finish (hended.trans hfinished) hreads
  | inr a =>
    have hfollows := follows_of_scanRest_inr hscan hline hreads
    rwa [Scanner.toCome, if_pos hfinished, List.append_nil] at hfollows

/-- Reading lines goes on with the scanning where the characters at hand ended. -/
theorem follows_request (hreads : Lines reads) :
    ∀ {s : ScanState}, s.finished = false →
      (s.request false reads).Follows s.previous
        (ofProgress (scanText s.previous s.mode s.held (logicalOf reads ++ ['\n']))) := by
  induction hreads with
  | nil =>
    intro s _
    have hended : (s.fill [] true).finished = true := by simp [fill]
    exact follows_conclude hended (isLine_append_break List.not_mem_nil) .nil
  | @last text hbreak =>
    intro s _
    have hended : (s.fill text true).finished = true := by simp [fill]
    have hrest : (s.fill text true).rest = text ++ ['\n'] := by
      rw [fill, Line.logical_of_not_mem hbreak]
      rfl
    have hlogical : logicalOf [Read.last text] ++ ['\n'] = (s.fill text true).rest := by
      rw [hrest, logicalOf, List.flatMap_singleton, Read.last, Line.logical_of_not_mem hbreak]
    rw [hlogical]
    refine follows_conclude hended ?_ .nil
    rw [hrest]
    exact isLine_append_break hbreak
  | @line text reads hbreak hreads ih =>
    intro s hopen
    obtain ⟨filled, hfilled⟩ : ∃ t, t = s.fill (text ++ ['\n']) false := ⟨_, rfl⟩
    have hfinished : filled.finished = false := by simp [hfilled, fill, hopen]
    have hrest : filled.rest = joinedLine text := by simp [hfilled, fill, Line.logical_line]
    have hstate : filled.previous = s.previous ∧ filled.mode = s.mode ∧ filled.held = s.held := by
      simp [hfilled, fill]
    have hline : IsLine filled.rest := by
      rw [hrest]
      exact isLine_joinedLine hbreak
    have hlogical : logicalOf (⟨text ++ ['\n'], .ok⟩ :: reads) ++ ['\n'] =
        filled.rest ++ (logicalOf reads ++ ['\n']) := by
      rw [hrest, ← Line.logical_line]
      simp [logicalOf]
    obtain ⟨hprevious, hmode, hheld⟩ := hstate
    rw [hlogical, ← hprevious, ← hmode, ← hheld]
    simp only [request, ← hfilled]
    cases hscan : filled.scanRest with
    | inl t =>
      obtain ⟨hprogress, -, hended, hkept⟩ :=
        scanText_of_scanRest_inl hscan hline (logicalOf reads ++ ['\n'])
      have hfollows := ih (hended.trans hfinished)
      rw [← hprogress, hkept] at hfollows
      exact hfollows
    | inr a =>
      have hfollows := follows_of_scanRest_inr hscan hline hreads
      rw [Scanner.toCome, if_neg (by simpa using hfinished)] at hfollows
      exact hfollows

end

/-- A call between two tokens finds what scanning all text to come finds first. -/
theorem Scanner.Between.follows_nextToken {s : Scanner} {previous : Option TokenKind}
    {text : List Char} (h : s.Between previous text) :
    s.nextToken.Follows previous (ofProgress (scanText previous .start [] text)) := by
  obtain ⟨hmode, hheld, rfl, hline, hreads, rfl⟩ := h
  rw [← hmode, ← hheld]
  unfold Scanner.nextToken
  cases hscan : s.toScanState.scanRest with
  | inr a => exact follows_of_scanRest_inr hscan hline hreads
  | inl t =>
    obtain ⟨hprogress, -, hended, hprevious⟩ := scanText_of_scanRest_inl hscan hline
      (if s.finished then [] else logicalOf s.reads ++ ['\n'])
    rw [Scanner.toCome, hprogress, ← hprevious, ← hended]
    dsimp only
    by_cases hfinished : t.finished = true
    · rw [if_pos hfinished, if_pos hfinished]
      exact follows_finish hfinished hreads
    · rw [if_neg hfinished, if_neg hfinished]
      exact follows_request hreads (by simpa using hfinished)

/-! ## All calls -/

/-- The end of the input. -/
def Lexeme.isEnd : Lexeme → Bool
  | .token kind _ => kind == .endOfInput
  | _ => false

theorem Reply.isEnd_eq (r : Reply) : r.isEnd = r.lexeme.isEnd := by
  unfold Reply.isEnd Reply.lexeme
  cases r.result with
  | ok t => rfl
  | error fault => cases fault <;> rfl

theorem Mode.kind_ne_endOfInput {m : Mode} {c : Char} {kind : TokenKind}
    (h : m.move c = .close kind ∨ m.move c = .closeBefore kind) : kind ≠ .endOfInput := by
  rintro rfl
  revert h
  cases m <;> simp only [Mode.move, Mode.symbolMove, Mode.quotedMove]
  case start => unfold Mode.firstMove; split <;> simp
  all_goals repeat' split
  all_goals simp

/-- Scanning comes to no token that stands for the end of the input. -/
theorem kind_ne_endOfInput_of_scanText {previous : Option TokenKind} {kind : TokenKind}
    {chars rest : List Char} {text : List Char} :
    ∀ {mode held}, scanText previous mode held text = .complete kind chars rest →
      kind ≠ .endOfInput := by
  induction text with
  | nil => intro mode held h; cases h
  | cons c text ih =>
    intro mode held h
    rw [scanText] at h
    cases hmove : mode.move c with
    | take next =>
      rw [hmove] at h
      exact ih h
    | skip =>
      rw [hmove] at h
      exact ih h
    | lineBreak =>
      simp only [hmove] at h
      split at h
      · exact ih h
      · obtain ⟨rfl, -, -⟩ := Progress.complete.inj h
        decide
    | close kind' =>
      rw [hmove] at h
      obtain ⟨rfl, -, -⟩ := Progress.complete.inj h
      exact Mode.kind_ne_endOfInput (.inl hmove)
    | closeBefore kind' =>
      rw [hmove] at h
      obtain ⟨rfl, -, -⟩ := Progress.complete.inj h
      exact Mode.kind_ne_endOfInput (.inr hmove)
    | reject =>
      rw [hmove] at h
      cases h

theorem refinedKind_ne_endOfInput {kind : TokenKind} (h : kind ≠ .endOfInput)
    (chars : List Char) : refinedKind kind chars ≠ .endOfInput := by
  unfold refinedKind
  split
  · split_ifs <;> decide
  · exact h

/-- All calls of a scanner between tokens give the tokens and faults of the text to come. -/
theorem Scanner.Between.lexemes_drain {s : Scanner} {previous : Option TokenKind}
    {text : List Char} (h : s.Between previous text) (hended : IsEnded text) :
    s.drain.map Reply.lexeme = lexemes previous text := by
  induction hwork : s.work using Nat.strong_induction_on generalizing s previous text with
  | _ n ih =>
  subst hwork
  -- A call that does not give the end of the input leaves less work.
  have hnext : ∀ {previous' : Option TokenKind} {rest : List Char},
      s.nextToken.lexeme.isEnd = false → s.nextToken.scanner.Between previous' rest →
      IsEnded rest →
        s.drain.map Reply.lexeme = s.nextToken.lexeme :: lexemes previous' rest := by
    intro previous' rest hopen hbetween hrest
    rw [← Reply.isEnd_eq] at hopen
    rw [Scanner.drain, dif_neg (by simp [hopen]), List.map_cons,
      ih _ (s.lessens_nextToken hopen) hbetween hrest rfl]
  have hfollows := h.follows_nextToken
  have hsuffix := rest_scanText_suffix previous text .start []
  rw [← lexemes_scanText previous hended]
  cases hprogress : scanText previous .start [] text with
  | dry mode held =>
    rw [hprogress, ofProgress] at hfollows
    rw [ofProgress]
    split at hfollows
    · rename_i hquoted
      obtain ⟨hlexeme, hbetween⟩ := hfollows
      rw [if_pos hquoted, hnext (by rw [hlexeme]; rfl) hbetween (by simp [IsEnded]), hlexeme,
        lexemes_nil]
      rfl
    · rename_i hquoted
      have hend : s.nextToken.isEnd = true := by
        rw [Reply.isEnd_eq, hfollows]
        rfl
      rw [if_neg hquoted, Scanner.drain, dif_pos hend, List.map_singleton, hfollows]
      rfl
  | complete kind chars rest =>
    rw [hprogress, ofProgress] at hfollows
    rw [hprogress] at hsuffix
    obtain ⟨hlexeme, hbetween⟩ := hfollows
    have hkind := refinedKind_ne_endOfInput (kind_ne_endOfInput_of_scanText hprogress) chars
    rw [hnext (by rw [hlexeme]; simpa [Lexeme.isEnd] using hkind) hbetween
      (hended.of_suffix hsuffix), hlexeme]
    rfl
  | rejected rest =>
    rw [hprogress, ofProgress] at hfollows
    rw [hprogress] at hsuffix
    obtain ⟨hlexeme, hbetween⟩ := hfollows
    rw [hnext (by rw [hlexeme]; rfl) hbetween (hended.of_suffix hsuffix), hlexeme]
    rfl

/-! ## From the beginning -/

theorem isEnded_logicalText (text : List Char) : IsEnded (logicalText text) := by
  intro c hc
  rw [← logicalOf_ofText, List.getLast?_concat] at hc
  exact (Option.some.inj hc).symm

/-- Before the first token. -/
theorem Scanner.between_ofReads (name : String) (foreground : Option (List Bool))
    (text : List Char) :
    (Scanner.ofReads name (Read.ofText text) foreground).Between none (logicalText text) where
  mode_eq := rfl
  held_eq := rfl
  previous_eq := rfl
  isLine := List.not_mem_nil
  lines := lines_linesFrom text [] List.not_mem_nil
  toCome_eq := logicalOf_ofText text

theorem Scanner.lexemes_drain_ofReads (name : String) (foreground : Option (List Bool))
    (text : List Char) :
    (Scanner.ofReads name (Read.ofText text) foreground).drain.map Reply.lexeme =
      lexemes none (logicalText text) :=
  (between_ofReads name foreground text).lexemes_drain (isEnded_logicalText text)

theorem mapM_result_of_lexemes {replies : List Reply} :
    ∀ {spellings : List (TokenKind × String)},
      replies.map Reply.lexeme = spellings.map (fun s => .token s.1 s.2) →
      ∃ tokens, replies.mapM Reply.result = .ok tokens ∧
        tokens.map (fun t => (t.kind, t.text)) = spellings := by
  induction replies with
  | nil =>
    intro spellings h
    obtain rfl : spellings = [] := List.map_eq_nil_iff.mp h.symm
    exact ⟨[], rfl, rfl⟩
  | cons r replies ih =>
    intro spellings h
    cases spellings with
    | nil => cases h
    | cons s spellings =>
      obtain ⟨hfirst, hrest⟩ := List.cons.inj h
      obtain ⟨tokens, htokens, hspellings⟩ := ih hrest
      obtain ⟨t, ht⟩ : ∃ t, r.result = .ok t := by
        unfold Reply.lexeme at hfirst
        cases hresult : r.result with
        | ok t => exact ⟨t, rfl⟩
        | error fault =>
          rw [hresult] at hfirst
          cases fault <;> cases hfirst
      rw [Reply.lexeme, ht] at hfirst
      obtain ⟨hkind, htext⟩ := Lexeme.token.inj hfirst
      refine ⟨t :: tokens, ?_, ?_⟩
      · rw [List.mapM_cons, ht, htokens]
        rfl
      · rw [List.map_cons, hkind, htext, hspellings]

/-- A text without faults is tokenized to the tokens of its logical text. -/
theorem tokenize_of_lexemes {text : List Char} {spellings : List (TokenKind × String)}
    (h : lexemes none (logicalText text) = spellings.map fun s => .token s.1 s.2) :
    ∃ tokens, tokenize text = .ok tokens ∧
      tokens.map (fun t => (t.kind, t.text)) = spellings :=
  mapM_result_of_lexemes ((Scanner.lexemes_drain_ofReads "<string>" none text).trans h)

/-- The results of a scanner over the bytes of a text, up to the end and past all faults, are the
tokens and faults that the logical text has without a scanner. -/
theorem Scanner.lexemes_of_text (name : String) (foreground : Option (List Bool)) (text : String) :
    (Scanner.ofReads name (ByteStream.ofBytes text.toUTF8.data.toList).lines foreground).drain.map
        Reply.lexeme =
      lexemes none (logicalText text.toList) := by
  rw [ByteStream.lines_ofBytes_utf8]
  exact Scanner.lexemes_drain_ofReads name foreground text.toList

end LispShell
