import LispShell.Proofs.LineBreaks
import LispShell.Proofs.Places

set_option autoImplicit false

/-!
# Counting lines

A scanner counts the lines that it reads, and a token has the number of lines read up to then.  As a
scanner reads on demand, that is the line of the character that ended the token: it is in the line
read last.

Some tokens end with a character of their own.  Others are ended by the character after them, since
they could have gone on: words, and operators with which a longer one begins (`takesLookAhead`).
The character after a token may be in a later line, behind continuations, and the number of the
token is then that of the later line.

`Scanner.numbers` has the line of each character of the text to come, as it will be counted.  A call
goes through characters of one line after another, and the number of its token is that of the
character which ended it (`Scanner.counts_nextToken`).  For a text these numbers are those of the
lines that its characters stand in (`Scanner.numbers_ofText`).
-/

namespace LispShell

open ScanState Lexer

/-! ## Tokens that look ahead -/

/-- Whether a token is ended by the character after it.  A word, and so a single `{`, goes on up to
a character that it cannot have, and quoted text has its closing quote.  Any other token could only
have gone on as a longer spelling.  Most of them have none and are complete in themselves, but there
is one for operators such as `|`, and for the colon. -/
def takesLookAhead (kind : TokenKind) (text : String) : Bool :=
  match kind with
  | .symbol | .braceExpansion | .leftBrace => true
  | .singleQuoted | .doubleQuoted | .bangDouble => false
  | _ => spellings.any fun o => (spellingOf text).isPrefixOf o.1 && spellingOf text != o.1

/-- Of all that is looked for, these are ended by the character after them. -/
theorem takesLookAhead_eq : ∀ o ∈ spellings, takesLookAhead o.2 (nameOf o.1) =
    decide (o.1 ∈ [['&'], ['|'], ['!', '|'], ['>'], ['!', '>'], [':']]) := by
  decide

/-- Whether the token that is given for these characters is ended by the one after them. -/
def looksAhead (kind : TokenKind) (chars : List Char) : Bool :=
  takesLookAhead (refinedKind kind chars) (canonicalText kind chars)

/-- The item that ends a token, of items one for each character: the first of those after the token
if it looks ahead, and else the one before them. -/
def IsDecider {α : Type} (looks : Bool) (item : α) (items after : List α) : Prop :=
  if looks then after.head? = some item ∧ after <:+ items else item :: after <:+ items

namespace IsDecider

variable {α : Type} {looks : Bool} {item : α} {items items' after : List α}

theorem mono (h : IsDecider looks item items after) (hsuffix : items <:+ items') :
    IsDecider looks item items' after := by
  cases looks with
  | false => exact List.IsSuffix.trans h hsuffix
  | true => exact ⟨h.1, h.2.trans hsuffix⟩

theorem suffix (h : IsDecider looks item items after) : after <:+ items := by
  cases looks with
  | false => exact (List.suffix_cons _ _).trans h
  | true => exact h.2

theorem mem (h : IsDecider looks item items after) : item ∈ items := by
  cases looks with
  | false => exact List.IsSuffix.subset h List.mem_cons_self
  | true => exact h.2.subset (List.mem_of_mem_head? h.1)

/-- If numbers are in order, the one that ends a token is none greater than those after it. -/
theorem le {number : Nat} {numbers after : List Nat} (h : IsDecider looks number numbers after)
    (hordered : numbers.Pairwise (· ≤ ·)) : ∀ later ∈ after, number ≤ later := by
  cases looks with
  | false => exact (List.pairwise_cons.mp (hordered.sublist (List.IsSuffix.sublist h))).1
  | true =>
    obtain ⟨later, rfl⟩ := List.head?_eq_some_iff.mp h.1
    have hafter := hordered.sublist h.2.sublist
    exact List.forall_mem_cons.mpr ⟨Nat.le_refl _, (List.pairwise_cons.mp hafter).1⟩

/-- Of items in one line each has the number of the line, and so has the one that ends the token. -/
theorem replicate (h : IsDecider looks item items after) (line : Nat) (more : List Nat) :
    IsDecider looks line (List.replicate items.length line ++ more)
      (List.replicate after.length line ++ more) := by
  have hreplicate {n : Nat} (hn : n ≤ items.length) :
      List.replicate n line ++ more <:+ List.replicate items.length line ++ more := by
    refine List.suffix_append_self_iff.mpr ⟨List.replicate (items.length - n) line, ?_⟩
    rw [List.replicate_append_replicate, Nat.sub_add_cancel hn]
  cases looks with
  | false => exact hreplicate (List.IsSuffix.length_le h)
  | true =>
    obtain ⟨later, rfl⟩ := List.head?_eq_some_iff.mp h.1
    exact ⟨rfl, hreplicate h.2.length_le⟩

end IsDecider

/-- Besides what `Mode.Form` says, a colon is held alone and a word does not begin with the brace
that stands alone. -/
structure Mode.Spells (m : Mode) (held : List Char) : Prop where
  form : m.Form held
  colon : m = .colon → held = [':']
  word : m = .symbol → ∃ first, held.getLast? = some first ∧ first ≠ '}'

namespace Mode

variable {m next : Mode} {c : Char} {held : List Char} {kind : TokenKind}

theorem spells_start : Mode.start.Spells [] where
  form := rfl
  colon := fun h => by cases h
  word := fun h => by cases h

theorem eq_of_move_colon (h : m.move c = .take .colon) : m = .start ∧ c = ':' := by
  cases m with
  | start =>
    refine ⟨rfl, ?_⟩
    simp only [move] at h
    unfold firstMove at h
    split at h
    all_goals first
      | rfl
      | cases h
  | _ =>
    simp only [move, symbolMove, quotedMove] at h
    repeat' split at h
    all_goals cases h

theorem eq_of_move_symbol (h : m.move c = .take .symbol) :
    m = .start ∧ c ≠ '}' ∨ m = .bang ∨ m = .symbol := by
  cases m with
  | start =>
    refine .inl ⟨rfl, ?_⟩
    rintro rfl
    cases h
  | bang => exact .inr (.inl rfl)
  | symbol => exact .inr (.inr rfl)
  | _ =>
    simp only [move, quotedMove] at h
    split_ifs at h
    all_goals cases h

/-- Taking a character preserves what a mode holds. -/
theorem Spells.take (h : m.Spells held) (hmove : m.move c = .take next) (rest : List Char) :
    next.Spells (hold m c rest held) := by
  by_cases hsingle : m = .singleQuoted
  · subst hsingle
    obtain rfl := eq_of_singleQuoted_move hmove
    exact ⟨trivial, (by cases ·), (by cases ·)⟩
  have hhold : hold m c rest held = c :: held := by simp [hold, hsingle]
  rw [hhold]
  refine ⟨h.form.take hmove, ?_, ?_⟩
  · rintro rfl
    obtain ⟨rfl, rfl⟩ := eq_of_move_colon hmove
    obtain rfl : held = [] := h.form
    rfl
  · rintro rfl
    obtain ⟨rfl, hc⟩ | rfl | rfl := eq_of_move_symbol hmove
    · obtain rfl : held = [] := h.form
      exact ⟨c, rfl, hc⟩
    · obtain rfl : held = ['!'] := h.form
      exact ⟨'!', rfl, by decide⟩
    · obtain ⟨first, hfirst, hne⟩ := h.word rfl
      exact ⟨first, by rw [List.getLast?_cons, hfirst]; rfl, hne⟩

theorem looksAhead_of_firstMove (h : firstMove c = .close kind) :
    looksAhead kind [c] = false := by
  unfold firstMove at h
  split at h
  all_goals first
    | cases h; decide
    | cases h

theorem looksAhead_of_lineBreak (h : m.move c = .lineBreak) : looksAhead .newline [c] = false := by
  have habides := m.abides_move c
  rw [h] at habides
  rw [habides.1]
  decide

/-- A token that ends with a character of its own does not look ahead. -/
theorem Spells.looksAhead_close (h : m.Spells held) (hmove : m.move c = .close kind) :
    looksAhead kind (c :: held).reverse = false := by
  cases m with
  | start =>
    obtain rfl : held = [] := h.form
    exact looksAhead_of_firstMove hmove
  | bangDouble escaping | doubleQuoted escaping =>
    simp only [move, quotedMove] at hmove
    split_ifs at hmove
    cases hmove
    rfl
  | singleQuoted =>
    simp only [move] at hmove
    split_ifs at hmove
    cases hmove
    rfl
  | ampersand | bangGreater | greater | less =>
    obtain rfl : held = _ := h.form
    simp only [move] at hmove
    split_ifs at hmove
    all_goals
      cases hmove
      subst_vars
      decide
  | pipe =>
    simp only [move] at hmove
    obtain rfl | rfl := h.form
    all_goals
      split_ifs at hmove
      all_goals
        cases hmove
        subst_vars
        decide
  | colon =>
    obtain rfl := h.colon rfl
    simp only [move] at hmove
    split_ifs at hmove with hc
    cases hmove
    rw [hc]
    decide
  | _ =>
    simp only [move, symbolMove] at hmove
    split_ifs at hmove

theorem looksAhead_symbol {first : Char} (hfirst : held.getLast? = some first)
    (hne : first ≠ '}') : looksAhead .symbol held.reverse = true := by
  have hbrace : held.reverse ≠ ['}'] := by
    intro heq
    rw [← List.head?_reverse, heq] at hfirst
    exact hne (Option.some.inj hfirst).symm
  unfold looksAhead refinedKind
  rw [if_neg hbrace]
  split_ifs
  all_goals rfl

/-- A token that ends before a character looks ahead. -/
theorem Spells.looksAhead_closeBefore (h : m.Spells held) (hmove : m.move c = .closeBefore kind) :
    looksAhead kind held.reverse = true := by
  cases m with
  | start => exact absurd hmove ((firstMove_consumes c).1 kind)
  | symbol =>
    simp only [move, symbolMove] at hmove
    split_ifs at hmove
    cases hmove
    obtain ⟨first, hfirst, hne⟩ := h.word rfl
    exact looksAhead_symbol hfirst hne
  | bang | ampersand | bangGreater | greater =>
    obtain rfl : held = _ := h.form
    simp only [move, symbolMove] at hmove
    split_ifs at hmove
    cases hmove
    decide
  | pipe =>
    simp only [move] at hmove
    split_ifs at hmove
    cases hmove
    obtain rfl | rfl := h.form
    all_goals decide
  | colon =>
    obtain rfl := h.colon rfl
    simp only [move] at hmove
    split_ifs at hmove
    cases hmove
    decide
  | _ =>
    simp only [move, quotedMove] at hmove
    split_ifs at hmove

end Mode

/-! ## Scanning -/

namespace ScanState

/-- What scanning a text has come to.  A token is ended by a character of the text. -/
def Progress.Decides (text : List Char) : Progress → Prop
  | .dry mode held => mode.Spells held
  | .complete kind chars rest =>
    kind ≠ .endOfInput ∧ ∃ c, IsDecider (looksAhead kind chars) c text rest
  | .rejected rest => rest <:+ text

theorem Progress.Decides.cons {text : List Char} {p : Progress} (h : p.Decides text) (c : Char) :
    p.Decides (c :: text) := by
  have hcons := List.suffix_cons c text
  cases p with
  | dry mode held => exact h
  | rejected rest => exact h.trans hcons
  | complete kind chars rest =>
    obtain ⟨hkind, last, hlast⟩ := h
    exact ⟨hkind, last, hlast.mono hcons⟩

theorem decides_scan (previous : Option TokenKind) (text : List Char) :
    ∀ {mode held}, mode.Spells held → (scan previous mode held text).Decides text := by
  induction text with
  | nil => exact fun h => h
  | cons c text ih =>
    intro mode held h
    rw [scan]
    cases hmove : mode.move c with
    | take next => exact (ih (h.take hmove text)).cons c
    | skip => exact (ih Mode.spells_start).cons c
    | lineBreak =>
      dsimp only
      split
      · exact (ih Mode.spells_start).cons c
      · refine ⟨by decide, c, ?_⟩
        rw [Mode.looksAhead_of_lineBreak hmove]
        exact List.suffix_refl _
    | close kind =>
      refine ⟨Mode.kind_ne_endOfInput (.inl hmove), c, ?_⟩
      rw [h.looksAhead_close hmove]
      exact List.suffix_refl _
    | closeBefore kind =>
      refine ⟨Mode.kind_ne_endOfInput (.inr hmove), c, ?_⟩
      rw [h.looksAhead_closeBefore hmove]
      exact ⟨rfl, List.suffix_refl _⟩
    | reject => exact List.suffix_refl _

end ScanState

/-! ## The lines of the text to come -/

/-- The lines of the characters that reads give, and of the line break after the last, once `line`
lines have been read. -/
def Read.numbers (line : Nat) : List Read → List Nat
  | [] => [line + 1]
  | ⟨text, status⟩ :: reads =>
    match status with
    | .endOfStream => List.replicate ((Line.logical text).length + 1) (line + 1)
    | _ => List.replicate (Line.logical text).length (line + 1) ++ numbers (line + 1) reads

/-- The number of the last line, once `line` lines have been read. -/
def Read.lastLine (line : Nat) : List Read → Nat
  | [] => line + 1
  | ⟨_, status⟩ :: reads =>
    match status with
    | .endOfStream => line + 1
    | _ => lastLine (line + 1) reads

/-- The lines of the characters that a scanner has yet to go through. -/
def Scanner.numbers (s : Scanner) : List Nat :=
  List.replicate s.rest.length s.line ++ if s.finished then [] else Read.numbers s.line s.reads

/-- The number of the last line, when all has been read. -/
def Scanner.lastLine (s : Scanner) : Nat :=
  if s.finished then s.line else Read.lastLine s.line s.reads

/-- A token has the number of the character that ended it.  `numbers` are the lines of a text with
the token in it, and `after` those of the text after the token. -/
def Token.Counted (t : Token) (numbers after : List Nat) : Prop :=
  IsDecider (takesLookAhead t.kind t.text) t.line numbers after

/-- A call has given a token with the number of the character that ended it, or the end of the input
with that of the last line. -/
structure Reply.Counts (r : Reply) (numbers : List Nat) (last : Nat) : Prop where
  lastLine : r.scanner.lastLine = last
  token : ∀ t, r.result = .ok t →
    if t.kind = .endOfInput then t.line = last else t.Counted numbers r.scanner.numbers

section

variable {numbers numbers' : List Nat} {last : Nat}

theorem Reply.Counts.mono {r : Reply} (h : r.Counts numbers last)
    (hsuffix : numbers <:+ numbers') : r.Counts numbers' last where
  lastLine := h.lastLine
  token := by
    intro t ht
    have htoken := h.token t ht
    split
    · rename_i hend
      rwa [if_pos hend] at htoken
    · rename_i hend
      rw [if_neg hend] at htoken
      exact htoken.mono hsuffix

theorem Reply.Counts.after {r : Reply} (h : r.Counts numbers last) (events : List Event) :
    (r.after events).Counts numbers last :=
  ⟨h.lastLine, h.token⟩

end

/-! ## One call -/

namespace ScanState

variable {s : ScanState} {reads : List Read}

/-- Characters at hand are in the line that was read last. -/
theorem counts_of_scanRest_inr {a : Answer} (h : s.scanRest = .inr a)
    (hspells : s.mode.Spells s.held) (reads : List Read) :
    (a.toReply reads).Counts (Scanner.numbers { s with reads })
      (Scanner.lastLine { s with reads }) := by
  have hdecides := decides_scan s.previous s.rest hspells
  unfold scanRest at h
  cases hprogress : scan s.previous s.mode s.held s.rest with
  | dry mode held =>
    rw [hprogress] at h
    cases h
  | rejected rest =>
    rw [hprogress] at h
    cases h
    exact ⟨rfl, fun t ht => by cases ht⟩
  | complete kind chars rest =>
    rw [hprogress] at h hdecides
    cases h
    obtain ⟨hkind, c, hdecides⟩ := hdecides
    refine ⟨rfl, fun t ht => ?_⟩
    cases ht
    rw [if_neg (refinedKind_ne_endOfInput hkind chars)]
    exact hdecides.replicate s.line _

theorem spells_of_scanRest_inl {t : ScanState} (h : s.scanRest = .inl t)
    (hspells : s.mode.Spells s.held) :
    t.mode.Spells t.held ∧ t.rest = [] ∧ t.line = s.line ∧ t.finished = s.finished := by
  have hdecides := decides_scan s.previous s.rest hspells
  unfold scanRest at h
  cases hprogress : scan s.previous s.mode s.held s.rest with
  | dry mode held =>
    rw [hprogress] at h hdecides
    cases h
    exact ⟨hdecides, rfl, rfl, rfl⟩
  | complete kind chars rest =>
    rw [hprogress] at h
    cases h
  | rejected rest =>
    rw [hprogress] at h
    cases h

/-- The end of the input is in the last line. -/
theorem counts_finish (hfinished : s.finished = true) (numbers : List Nat) (reads : List Read) :
    (s.finish.toReply reads).Counts numbers s.line := by
  unfold finish
  split
  · exact ⟨if_pos hfinished, fun t ht => by cases ht⟩
  · refine ⟨if_pos hfinished, fun t ht => ?_⟩
    cases ht
    rfl

/-- After the last read all characters to come are at hand. -/
theorem counts_conclude (hfinished : s.finished = true) (hspells : s.mode.Spells s.held)
    (reads : List Read) :
    (s.conclude reads).Counts (List.replicate s.rest.length s.line) s.line := by
  unfold conclude
  cases hscan : s.scanRest with
  | inl t =>
    obtain ⟨-, -, hline, hended⟩ := spells_of_scanRest_inl hscan hspells
    rw [← hline]
    exact counts_finish (hended.trans hfinished) _ reads
  | inr a =>
    have hcounts := counts_of_scanRest_inr hscan hspells reads
    rwa [Scanner.numbers, Scanner.lastLine, if_pos hfinished, if_pos hfinished,
      List.append_nil] at hcounts

/-- Each line that is read adds one to the number, and the characters that it leaves have it. -/
theorem counts_request (hreads : Lines reads) :
    ∀ {s : ScanState}, s.finished = false → s.mode.Spells s.held →
      (s.request false reads).Counts (Read.numbers s.line reads) (Read.lastLine s.line reads) := by
  induction hreads with
  | nil =>
    intro s _ hspells
    have hended : (s.fill [] true).finished = true := by simp [fill]
    exact (counts_conclude (s := s.fill [] true) hended hspells []).after [.read]
  | @last text hbreak =>
    intro s _ hspells
    have hended : (s.fill text true).finished = true := by simp [fill]
    have hcounts := counts_conclude (s := s.fill text true) hended hspells []
    rw [fill, List.length_append] at hcounts
    exact hcounts.after [.read]
  | @line text reads hbreak hreads ih =>
    intro s hopen hspells
    obtain ⟨filled, hfilled⟩ : ∃ t, t = s.fill (text ++ ['\n']) false := ⟨_, rfl⟩
    have hfinished : filled.finished = false := by simp [hfilled, fill, hopen]
    have hkept : filled.mode.Spells filled.held := by simpa [hfilled, fill] using hspells
    have hline : filled.line = s.line + 1 := by rw [hfilled, fill]
    have hnumbers : Read.numbers s.line (⟨text ++ ['\n'], .ok⟩ :: reads) =
        List.replicate filled.rest.length filled.line ++ Read.numbers filled.line reads := by
      simp [hfilled, fill, Read.numbers]
    have hlast : Read.lastLine s.line (⟨text ++ ['\n'], .ok⟩ :: reads) =
        Read.lastLine filled.line reads := by
      rw [hline]
      rfl
    rw [hnumbers, hlast]
    simp only [request, ← hfilled]
    refine Reply.Counts.after ?_ [.read]
    -- The line ends the token, or it is used up and the call goes on to the next number.
    cases hscan : filled.scanRest with
    | inl t =>
      obtain ⟨hspells', -, hline', hended⟩ := spells_of_scanRest_inl hscan hkept
      have hcounts := ih (hended.trans hfinished) hspells'
      rw [hline'] at hcounts
      exact hcounts.mono (List.suffix_append _ _)
    | inr a =>
      have hcounts := counts_of_scanRest_inr hscan hkept reads
      rwa [Scanner.numbers, Scanner.lastLine, if_neg (by simpa using hfinished),
        if_neg (by simpa using hfinished)] at hcounts

end ScanState

/-- A call gives a token the number of the character that ended it. -/
theorem Scanner.counts_nextToken {s : Scanner} (hspells : s.mode.Spells s.held)
    (hreads : Lines s.reads) : s.nextToken.Counts s.numbers s.lastLine := by
  unfold Scanner.nextToken
  cases hscan : s.toScanState.scanRest with
  | inr a => exact ScanState.counts_of_scanRest_inr hscan hspells s.reads
  | inl t =>
    obtain ⟨hspells', -, hline, hended⟩ := ScanState.spells_of_scanRest_inl hscan hspells
    dsimp only
    rw [numbers, lastLine, ← hended, ← hline]
    by_cases hfinished : t.finished = true
    · rw [if_pos hfinished, if_pos hfinished, if_pos hfinished]
      exact ScanState.counts_finish hfinished _ s.reads
    · rw [if_neg hfinished, if_neg hfinished, if_neg hfinished]
      have hcounts := ScanState.counts_request hreads (by simpa using hfinished) hspells'
      exact hcounts.mono (List.suffix_append _ _)

/-! ## The lines of a text -/

theorem numbers_linesFrom (text : List Char) : ∀ (before : List Char) {line : List Char},
    '\n' ∉ line → Read.numbers (before.count '\n') (Read.linesFrom line text) =
      (placesFrom before.length (text.splitOnPPrepend (· == '\n') line)).map
        (lineAt (before ++ line.reverse ++ text)) := by
  -- `line` holds the part of a line that has been gone through, last character first.
  induction text with
  | nil =>
    intro before line hline
    have hmem : '\n' ∉ line.reverse := fun hmem => hline (List.mem_reverse.mp hmem)
    rw [List.splitOnPPrepend_nil, placesFrom, List.append_nil, map_lineAt_range' hmem]
    cases line with
    | nil => rfl
    | cons c line =>
      change List.replicate ((Line.logical (c :: line).reverse).length + 1) _ = _
      rw [Line.logical_of_not_mem hmem]
  | cons c text ih =>
    intro before line hline
    rw [Read.linesFrom, List.splitOnPPrepend_cons_eq_if]
    rcases eq_or_ne c '\n' with rfl | hbreak
    · have hmem : '\n' ∉ line.reverse := fun hmem => hline (List.mem_reverse.mp hmem)
      have hnext := ih (before ++ line.reverse ++ ['\n']) List.not_mem_nil
      have hcount : (before ++ line.reverse ++ ['\n']).count '\n' = before.count '\n' + 1 := by
        simp [List.count_eq_zero.mpr hline]
      have hlength : (before ++ line.reverse ++ ['\n']).length =
          before.length + line.reverse.length + 1 := by simp [Nat.add_assoc]
      have htext : before ++ line.reverse ++ ['\n'] ++ [].reverse ++ text =
          before ++ line.reverse ++ '\n' :: text := by simp
      rw [hcount, hlength, htext] at hnext
      rw [if_pos rfl, if_pos (by simp), ← List.splitOnPPrepend_nil_right,
        placesFrom_cons _ _ (List.splitOnPPrepend_ne_nil _ _ _), List.map_append, ← hnext,
        map_lineAt_linePlaces hmem, ← Line.logical_line, ← List.reverse_cons]
      rfl
    · have hline : '\n' ∉ c :: line := by simp [Ne.symm hbreak, hline]
      have hnext := ih before hline
      rw [if_neg hbreak, if_neg (by simpa using hbreak), hnext]
      simp

theorem lastLine_linesFrom (text : List Char) : ∀ (n : Nat) (line : List Char),
    Read.lastLine n (Read.linesFrom line text) = 1 + (n + text.count '\n') := by
  induction text with
  | nil =>
    intro n line
    cases line with
    | nil => exact Nat.add_comm n 1
    | cons c line => exact Nat.add_comm n 1
  | cons c text ih =>
    intro n line
    rw [Read.linesFrom]
    split
    · rename_i hbreak
      change Read.lastLine (n + 1) (Read.linesFrom [] text) = _
      rw [ih, hbreak, List.count_cons_self]
      omega
    · rename_i hbreak
      rw [ih, List.count_cons_of_ne (by simpa using hbreak)]

/-- The numbers that the characters of a text will have are those of their lines. -/
theorem Scanner.numbers_ofText (name : String) (text : List Char) :
    (ofText name text).numbers = lineNumbers text := by
  have hnumbers := numbers_linesFrom text [] List.not_mem_nil
  exact hnumbers

theorem Scanner.lastLine_ofText (name : String) (text : List Char) :
    (ofText name text).lastLine = 1 + text.count '\n' := by
  have hlast := lastLine_linesFrom text 0 []
  rwa [Nat.zero_add] at hlast

end LispShell
