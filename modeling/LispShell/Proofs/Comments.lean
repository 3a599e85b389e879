import LispShell.Proofs.Segments

set_option autoImplicit false

/-!
# The lines of a comment

A comment goes on to the next line if a backslash stands directly before the line break.  Two
mechanisms decide about this.  The first takes an odd backslash at the end of a physical line away,
with the line break, before a comment is looked for.  The second looks in the logical text for a
backslash before the line break.

For a line with a character of its own the two come to the same, whatever the number of its
backslashes.  An empty line has nothing before its line break but what the lines before it have
left, and these leave a backslash if they end in three backslashes, or five, and so on.  The comment
then goes on past the empty line, though no backslash stands there.  `EscapesBreak` says when it
goes on, and `Scanner.comment_lines` that this is so for every comment of every text.
-/

namespace LispShell

/-- The kind of a token. -/
def Lexeme.kind? : Lexeme → Option TokenKind
  | .token kind _ => some kind
  | _ => none

namespace Lexer

variable {previous last last' : Option TokenKind} {text rest rest' body : List Char}
  {given given' : List Lexeme}

/-! ## Going through a text -/

/-- Past a front: what it gives, the kind of the last token then, and the text that comes next.
Nothing comes past the end of a text or past a quote that is never closed. -/
def Front.past? (previous : Option TokenKind) :
    Front → Option (List Lexeme × Option TokenKind × List Char)
  | .nothing | .unterminated => none
  | .skipped rest => some ([], previous, rest)
  | .lineBreak rest =>
    if previous.any TokenKind.continuesLine then some ([], previous, rest)
    else some ([.token .newline "\n"], some .newline, rest)
  | .token kind spelling rest => some ([.token kind spelling], some kind, rest)
  | .unexpected rest => some ([.unexpected], previous, rest)

/-- Going through a text, after a token of kind `previous`, comes to `rest` between two fronts.  Up
to there these tokens and faults are given, and `last` is the kind of the last token. -/
inductive Leads :
    Option TokenKind → List Char → List Lexeme → Option TokenKind → List Char → Prop where
  | refl {previous : Option TokenKind} {text : List Char} : Leads previous text [] previous text
  | past {previous last last' : Option TokenKind} {text rest rest' : List Char}
      {given given' : List Lexeme} (hpast : (front text).past? previous = some (given, last, rest))
      (hnext : Leads last rest given' last' rest') :
      Leads previous text (given ++ given') last' rest'

/-- What is past a front is its rest, the last token is the last of those given there, or the one
before the front, and what the front gives comes before all that the rest gives. -/
theorem Front.of_past? {f : Front} (h : f.past? previous = some (given, last, rest)) :
    f.rest = rest ∧ last = (given.filterMap Lexeme.kind?).getLast?.or previous ∧
      f.lexemes previous = given ++ Lexer.lexemes last rest := by
  cases f with
  | nothing => cases h
  | unterminated => cases h
  | lineBreak rest =>
    rw [past?] at h
    rw [Front.lexemes]
    split at h
    · rename_i hcontinues
      cases h
      rw [if_pos hcontinues]
      exact ⟨rfl, rfl, rfl⟩
    · rename_i hcontinues
      cases h
      rw [if_neg hcontinues]
      exact ⟨rfl, rfl, rfl⟩
  | _ =>
    cases h
    exact ⟨rfl, rfl, rfl⟩

/-- The tokens and faults of a text are those up to a place and those from there on. -/
theorem Leads.lexemes_eq (h : Leads previous text given last rest) :
    lexemes previous text = given ++ lexemes last rest := by
  induction h with
  | refl => rfl
  | past hpast _ ih => rw [Lexer.lexemes_eq, (Front.of_past? hpast).2.2, ih, List.append_assoc]

/-- At a place the last token is the last of those given up to there, or the one before them all. -/
theorem Leads.last_eq (h : Leads previous text given last rest) :
    last = (given.filterMap Lexeme.kind?).getLast?.or previous := by
  induction h with
  | refl => rfl
  | past hpast _ ih =>
    rw [ih, (Front.of_past? hpast).2.1, List.filterMap_append, List.getLast?_append,
      Option.or_assoc]

theorem rest_front_suffix (text : List Char) : (front text).rest <:+ text := by
  have hbegins := begins_front text
  cases hfront : front text with
  | nothing => exact List.nil_suffix
  | unterminated => exact List.nil_suffix
  | skipped rest =>
    rw [hfront] at hbegins
    obtain ⟨c, -, rfl⟩ | ⟨chars, -, rfl⟩ := hbegins
    · exact List.suffix_cons c rest
    · exact List.suffix_append chars rest
  | lineBreak rest =>
    rw [hfront] at hbegins
    exact ⟨['\n'], hbegins.symm⟩
  | token kind name rest =>
    rw [hfront] at hbegins
    obtain ⟨spelling, -, -, rfl⟩ := hbegins
    exact List.suffix_append spelling rest
  | unexpected rest =>
    rw [hfront] at hbegins
    exact ⟨['<'], hbegins.symm⟩

theorem Leads.suffix (h : Leads previous text given last rest) : rest <:+ text := by
  induction h with
  | refl => exact List.suffix_refl _
  | past hpast _ ih =>
    rw [← (Front.of_past? hpast).1] at ih
    exact ih.trans (rest_front_suffix _)

theorem Leads.trans (h : Leads previous text given last rest)
    (h' : Leads last rest given' last' rest') :
    Leads previous text (given ++ given') last' rest' := by
  induction h with
  | refl => exact h'
  | past hpast _ ih =>
    rw [List.append_assoc]
    exact .past hpast (ih h')

/-! ## The place of a comment -/

/-- A line without the carriage return at its end. -/
def lineBody (line : List Char) : List Char :=
  if line.getLast? = some '\r' then line.dropLast else line

theorem lineBody_prefix_self (line : List Char) : lineBody line <+: line := by
  unfold lineBody
  split
  · exact List.dropLast_prefix line
  · exact List.prefix_refl line

/-- If the backslashes at the end of a line are odd in number, the last goes with the line break,
and else all characters stay. -/
theorem joinedLine_cases (line : List Char) :
    ((lineBody line).getLast? = some '\\' ∧ joinedLine line = (lineBody line).dropLast) ∨
      joinedLine line = lineBody line ++ ['\n'] := by
  have hjoined : joinedLine line =
      if ((lineBody line).reverse.takeWhile (· == '\\')).length % 2 = 1 then
        (lineBody line).dropLast else lineBody line ++ ['\n'] := rfl
  rw [hjoined]
  split
  · rename_i hodd
    refine .inl ⟨?_, rfl⟩
    rw [← List.head?_reverse]
    cases hreverse : (lineBody line).reverse with
    | nil => simp [hreverse] at hodd
    | cons c reversed =>
      rw [hreverse, List.takeWhile_cons] at hodd
      split at hodd
      · rename_i hc
        simpa using hc
      · cases hodd
  · exact .inr rfl

/-- What comes before a number sign in a line goes over as it is. -/
theorem joinedLine_append_sign {front : List Char} (h : '\n' ∉ front) (line : List Char) :
    joinedLine (front ++ '#' :: line) = front ++ '#' :: joinedLine line := by
  have hsplit := @Line.logical_append (front ++ ['#']) (line ++ ['\n']) (by simpa using h) (by simp)
    (by simp)
  rw [Line.logical_line, ← List.append_assoc, Line.logical_line] at hsplit
  simpa using hsplit

/-- A number sign that a line leaves stands in the line. -/
theorem exists_place_in_line {line front tail : List Char} (hline : '\n' ∉ line)
    (h : joinedLine line = front ++ '#' :: tail) :
    ∃ after, line = front ++ '#' :: after ∧ tail = joinedLine after := by
  have hprefix : front ++ ['#'] <+: line := by
    have hjoined : front ++ ['#'] <+: joinedLine line := ⟨tail, by simp [h]⟩
    obtain ⟨-, hdropped⟩ | hkept := joinedLine_cases line
    · rw [hdropped] at hjoined
      exact hjoined.trans ((List.dropLast_prefix _).trans (lineBody_prefix_self line))
    · rw [hkept, List.prefix_concat_iff] at hjoined
      obtain hall | hbody := hjoined
      · exact absurd (List.append_inj_right' hall rfl) (by decide)
      · exact hbody.trans (lineBody_prefix_self line)
  obtain ⟨after, rfl⟩ := hprefix
  rw [List.append_assoc, List.singleton_append] at h hline ⊢
  refine ⟨after, rfl, ?_⟩
  have hfront : '\n' ∉ front := fun hmem => hline (List.mem_append_left _ hmem)
  rw [joinedLine_append_sign hfront, List.append_cancel_left_eq, List.cons.injEq] at h
  exact h.2.symm

theorem not_mem_of_mem_splitOn {a : Char} {text : List Char} :
    ∀ line ∈ text.splitOn a, a ∉ line := by
  induction text with
  | nil => simp
  | cons c text ih =>
    rw [List.splitOn_cons_eq_if_modifyHead]
    split
    · simpa using ih
    · rename_i hc
      cases hlines : text.splitOn a with
      | nil => simp
      | cons line lines =>
        rw [hlines] at ih
        rw [List.modifyHead_cons, List.forall_mem_cons, List.mem_cons, not_or]
        obtain ⟨hline, hrest⟩ := List.forall_mem_cons.mp ih
        exact ⟨⟨fun h => hc (by simp [h]), hline⟩, hrest⟩

theorem logicalText_intercalate {lines : List (List Char)} (hlines : ∀ line ∈ lines, '\n' ∉ line)
    (hne : lines ≠ []) : logicalText (['\n'].intercalate lines) = joinLines lines := by
  rw [logicalText, List.splitOn_intercalate '\n' hlines hne]

/-- A number sign in the logical text stands in the text, and what comes after it in the logical
text is what the text after it leaves. -/
theorem exists_place_of_suffix {lines : List (List Char)} (hlines : ∀ line ∈ lines, '\n' ∉ line)
    (h : '#' :: body <:+ joinLines lines) :
    ∃ before after, ['\n'].intercalate lines = before ++ '#' :: after ∧
      body = logicalText after := by
  induction lines with
  | nil =>
    obtain ⟨front, hfront⟩ := h
    simp [joinLines] at hfront
  | cons line lines ih =>
    obtain ⟨hline, hrest⟩ := List.forall_mem_cons.mp hlines
    by_cases hne : lines = []
    · -- The last line is followed by the line break that is added.
      subst hne
      obtain ⟨front, hfront⟩ := h
      have hprefix : front ++ ['#'] <+: line ++ ['\n'] := ⟨body, by simpa [joinLines] using hfront⟩
      rw [List.prefix_concat_iff] at hprefix
      obtain hall | ⟨after, rfl⟩ := hprefix
      · exact absurd (List.append_inj_right' hall rfl) (by decide)
      · rw [joinLines, List.append_assoc, List.append_assoc, List.append_cancel_left_eq] at hfront
        have hafter : '\n' ∉ after := fun hmem => hline (List.mem_append_right _ hmem)
        refine ⟨front, after, by simp, ?_⟩
        rw [logicalText_of_not_mem hafter]
        exact (List.cons.inj hfront).2
    · rw [List.intercalate_cons_of_ne_nil hne]
      by_cases hlater : '#' :: body <:+ joinLines lines
      · obtain ⟨before, after, htext, hbody⟩ := ih hrest hlater
        exact ⟨line ++ ['\n'] ++ before, after, by simp [htext], hbody⟩
      · obtain ⟨front, hfront⟩ := h
        rw [joinLines_cons line hne, List.append_eq_append_iff] at hfront
        obtain ⟨here, hjoined, hbody⟩ | ⟨front', -, hfront'⟩ := hfront
        · cases here with
          | nil => exact absurd (hbody ▸ List.suffix_refl _) hlater
          | cons c tail =>
            rw [List.cons_append, List.cons.injEq] at hbody
            obtain ⟨rfl, rfl⟩ := hbody
            obtain ⟨after, rfl, rfl⟩ := exists_place_in_line hline hjoined
            refine ⟨front, after ++ ['\n'] ++ ['\n'].intercalate lines, by simp, ?_⟩
            have hafter : '\n' ∉ after := fun hmem => hline (by simp [hmem])
            rw [← List.intercalate_cons_of_ne_nil hne, logicalText_intercalate
              (List.forall_mem_cons.mpr ⟨hafter, hrest⟩) (List.cons_ne_nil _ _),
              joinLines_cons after hne]
        · exact absurd ⟨front', hfront'.symm⟩ hlater

/-! ## Where a comment ends -/

/-- In a comment that went on past the lines `earlier`, the line break after this content does not
end it: the content ends in a backslash, or it is empty and what the lines before it leave ends in
one. -/
def EscapesBreak (earlier : List (List Char)) (content : List Char) : Prop :=
  content.getLast? = some '\\' ∨
    content = [] ∧ (earlier.flatMap joinedLine).getLast? = some '\\'

/-- A comment that went on past the lines `earlier` goes on past all these lines. -/
def GoesPast : List (List Char) → List (List Char) → Prop
  | _, [] => True
  | earlier, line :: lines =>
    EscapesBreak earlier (lineBody line) ∧ GoesPast (earlier ++ [line]) lines

/-- Inside of a line a comment does not end. -/
theorem afterComment_append {chars : List Char} (h : '\n' ∉ chars) (text : List Char) :
    ∀ before, afterComment before (chars ++ text) = afterComment (chars.getLastD before) text := by
  induction chars with
  | nil => exact fun _ => rfl
  | cons c chars ih =>
    intro before
    obtain ⟨hc, hchars⟩ := not_or.mp (mt List.mem_cons.mpr h)
    rw [List.cons_append, afterComment, if_neg (fun hbreak => hc hbreak.1.symm), ih hchars,
      List.getLastD_cons]

theorem afterComment_break (before : Char) (text : List Char) :
    afterComment before ('\n' :: text) =
      if before = '\\' then afterComment '\n' text else '\n' :: text := by
  rw [afterComment]
  split_ifs <;> simp_all

theorem escapesBreak_iff (earlier : List (List Char)) (content : List Char) :
    EscapesBreak earlier content ↔
      content.getLastD ((earlier.flatMap joinedLine).getLastD '#') = '\\' := by
  rw [EscapesBreak, List.getLastD_eq_getLast?, List.getLastD_eq_getLast?]
  cases content with
  | nil => cases (earlier.flatMap joinedLine).getLast? <;> simp
  | cons c content => simp [List.getLast?_cons]

instance (earlier : List (List Char)) (content : List Char) :
    Decidable (EscapesBreak earlier content) :=
  decidable_of_iff' _ (escapesBreak_iff earlier content)

/-- A comment that went on past the lines `earlier` goes through the next line as well, or the line
break that this line leaves ends it. -/
theorem afterComment_joinedLine (earlier : List (List Char)) {line : List Char} (h : '\n' ∉ line)
    (text : List Char) :
    afterComment ((earlier.flatMap joinedLine).getLastD '#') (joinedLine line ++ text) =
      if EscapesBreak earlier (lineBody line) then
        afterComment (((earlier ++ [line]).flatMap joinedLine).getLastD '#') text
      else '\n' :: text := by
  have hbody : '\n' ∉ lineBody line := fun hmem => h ((lineBody_prefix_self line).subset hmem)
  have hlast : ((earlier ++ [line]).flatMap joinedLine).getLastD '#' =
      (joinedLine line).getLastD ((earlier.flatMap joinedLine).getLastD '#') := by
    simp [List.getLastD_eq_getLast?, List.getLast?_append, Option.getD_or]
  rw [hlast]
  simp only [escapesBreak_iff]
  obtain ⟨hslash, hdropped⟩ | hkept := joinedLine_cases line
  · have hdrop : '\n' ∉ joinedLine line := by
      rw [hdropped]
      exact fun hmem => hbody ((List.dropLast_prefix _).subset hmem)
    rw [if_pos (by rw [List.getLastD_eq_getLast?, hslash, Option.getD_some]),
      afterComment_append hdrop]
  · rw [hkept, List.append_assoc, afterComment_append hbody, List.singleton_append,
      afterComment_break, List.getLastD_concat]

/-- A comment that went on past the lines `earlier` goes on past some lines more.  The break of the
next line ends it, or that line is the last, and its text ends with the comment or with the line
break that is added. -/
theorem exists_line_of_comment {lines : List (List Char)} (hlines : ∀ line ∈ lines, '\n' ∉ line)
    (hne : lines ≠ []) (earlier : List (List Char)) :
    ∃ covered line rest, lines = covered ++ line :: rest ∧ GoesPast earlier covered ∧
      (rest ≠ [] → ¬EscapesBreak (earlier ++ covered) (lineBody line) ∧
        afterComment ((earlier.flatMap joinedLine).getLastD '#') (joinLines lines) =
          '\n' :: joinLines rest) ∧
      (rest = [] → afterComment ((earlier.flatMap joinedLine).getLastD '#') (joinLines lines) =
        if EscapesBreak (earlier ++ covered) line then [] else ['\n']) := by
  induction lines generalizing earlier with
  | nil => exact absurd rfl hne
  | cons line lines ih =>
    obtain ⟨hline, hrest⟩ := List.forall_mem_cons.mp hlines
    by_cases hlast : lines = []
    · subst hlast
      refine ⟨[], line, [], rfl, trivial, fun h => absurd rfl h, fun _ => ?_⟩
      rw [joinLines, afterComment_append hline, afterComment_break, List.append_nil]
      simp only [escapesBreak_iff, afterComment]
    · have hstep := afterComment_joinedLine earlier hline (joinLines lines)
      rw [← joinLines_cons line hlast] at hstep
      by_cases hescapes : EscapesBreak earlier (lineBody line)
      · rw [if_pos hescapes] at hstep
        obtain ⟨covered, next, rest, rfl, hcovered, hends, hlastLine⟩ :=
          ih hrest hlast (earlier ++ [line])
        rw [List.append_assoc, List.singleton_append] at hends hlastLine
        rw [hstep]
        exact ⟨line :: covered, next, rest, rfl, ⟨hescapes, hcovered⟩, hends, hlastLine⟩
      · rw [if_neg hescapes] at hstep
        refine ⟨[], line, lines, rfl, trivial, fun _ => ⟨?_, hstep⟩, fun h => absurd h hlast⟩
        rwa [List.append_nil]

end Lexer

open Lexer

/-- Where scanning a text comes to a number sign, this opens a comment.  In the text the comment
begins at some number sign.  From there it goes on past the lines whose line break is escaped and
stops in front of the first other line break; scanning goes on with this line break and the lines
after it.  If there is no other, the comment ends at the end of the text, and the line break added
there may itself be escaped. -/
theorem Scanner.comment_lines (name : String) (foreground : Option (List Bool)) (text : String)
    {given : List Lexeme} {last : Option TokenKind} {body : List Char}
    (hopens : Leads none (logicalText text.toList) given last ('#' :: body)) :
    ∃ before after covered line rest left, text.toList = before ++ '#' :: after ∧
      body = logicalText after ∧ after.splitOn '\n' = covered ++ line :: rest ∧
      GoesPast [] covered ∧
      (rest ≠ [] → ¬EscapesBreak covered (lineBody line) ∧ left = '\n' :: joinLines rest) ∧
      (rest = [] → left = if EscapesBreak covered line then [] else ['\n']) ∧
      (Scanner.ofReads name (ByteStream.ofBytes text.toUTF8.data.toList).lines
          foreground).drain.map Reply.lexeme =
        given ++ lexemes last left := by
  obtain ⟨before, after, htext, rfl⟩ := exists_place_of_suffix not_mem_of_mem_splitOn hopens.suffix
  rw [List.intercalate_splitOn] at htext
  obtain ⟨covered, line, rest, hlines, hcovered, hends, hlastLine⟩ :=
    exists_line_of_comment not_mem_of_mem_splitOn (List.splitOn_ne_nil '\n' after) []
  refine ⟨before, after, covered, line, rest, _, htext, rfl, hlines, hcovered, hends, hlastLine, ?_⟩
  rw [ByteStream.lines_ofBytes_utf8, Scanner.lexemes_drain_ofReads, hopens.lexemes_eq,
    lexemes_eq last ('#' :: _)]
  rfl

theorem Scanner.comment_lines_continued :
    Leads none (logicalText "a # b\\\nc\n".toList) [.token .symbol "a"] (some .symbol)
        "# bc\n\n".toList ∧
      ∃ before after covered line rest left, "a # b\\\nc\n".toList = before ++ '#' :: after ∧
        " bc\n\n".toList = logicalText after ∧ after.splitOn '\n' = covered ++ line :: rest ∧
        GoesPast [] covered ∧
        (rest ≠ [] → ¬EscapesBreak covered (lineBody line) ∧ left = '\n' :: joinLines rest) ∧
        (rest = [] → left = if EscapesBreak covered line then [] else ['\n']) ∧
        (Scanner.ofReads "<string>" (ByteStream.ofBytes "a # b\\\nc\n".toUTF8.data.toList).lines
            none).drain.map Reply.lexeme =
          [.token .symbol "a"] ++ lexemes (some .symbol) left := by
  have hsymbol : (front (logicalText "a # b\\\nc\n".toList)).past? none =
      some ([.token .symbol "a"], some .symbol, " # bc\n\n".toList) := by
    decide
  have hblank : (front " # bc\n\n".toList).past? (some .symbol) =
      some ([], some .symbol, "# bc\n\n".toList) := by
    decide
  have hopens := Leads.past hsymbol (.past hblank .refl)
  exact ⟨hopens, Scanner.comment_lines "<string>" none "a # b\\\nc\n" hopens⟩

/-- An empty line has no backslash before its line break, and yet a comment goes on past it after a
line that ends in three. -/
theorem Scanner.comment_covers_emptyLine :
    logicalText "# a\\\\\\\n\nb\n".toList = '#' :: logicalText " a\\\\\\\n\nb\n".toList ∧
      " a\\\\\\\n\nb\n".toList.splitOn '\n' = [" a\\\\\\".toList, [], ['b'], []] ∧
      (lineBody []).getLast? ≠ some '\\' ∧
      (Scanner.ofReads "<string>" (ByteStream.ofBytes
          "# a\\\\\\\n\nb\n".toUTF8.data.toList).lines none).drain.map Reply.lexeme ≠
        lexemes none ('\n' :: joinLines [['b'], []]) := by
  have hgiven : lexemes none (logicalText "# a\\\\\\\n\nb\n".toList) =
      [.token .newline "\n", .token .newline "\n", .token .endOfInput ""] := by
    cbv
  have hasWritten : lexemes none ('\n' :: joinLines [['b'], []]) =
      [.token .newline "\n", .token .symbol "b", .token .newline "\n", .token .newline "\n",
        .token .endOfInput ""] := by
    cbv
  refine ⟨by decide, by decide, by decide, ?_⟩
  rw [ByteStream.lines_ofBytes_utf8, Scanner.lexemes_drain_ofReads, hgiven, hasWritten]
  decide

end LispShell
