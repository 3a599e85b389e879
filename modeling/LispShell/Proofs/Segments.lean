import LispShell.Proofs.WholeText

set_option autoImplicit false

/-!
# The segments of a text

Scanning a text loses nothing of it and uses nothing twice: the logical text falls into segments
that follow one another without a gap.  A token has its spelling for a segment and a `<` that begins
nothing has itself.  Between them stands what is passed over: blanks, comments, and line breaks
after a token that continues the line.  A quote that is never closed takes all that is left.

`Segmentation` says which segments may stand in which order.  It knows nothing of scanning: only the
spelling of a token, its kind and text, and the kind of the token before.
-/

namespace LispShell

open Lexer

/-! ## Segments -/

/-- A stretch of a logical text, and what is made of it. -/
inductive Segment where
  /-- a token and the characters that it stands for -/
  | token (kind : TokenKind) (text : String) (spelling : List Char)
  /-- a `<` that begins nothing -/
  | unexpected
  | blanks (chars : List Char)
  | comment (chars : List Char)
  /-- a line break after a token that continues the line -/
  | lineBreak
  /-- a quote that is never closed, and all after it -/
  | unterminated (chars : List Char)
  deriving DecidableEq, Repr, Inhabited

namespace Segment

/-- The characters of a segment. -/
def chars : Segment → List Char
  | .token _ _ spelling => spelling
  | .unexpected => ['<']
  | .blanks chars | .comment chars | .unterminated chars => chars
  | .lineBreak => ['\n']

/-- The token or the fault that a segment gives, if it is not passed over. -/
def lexeme? : Segment → Option Lexeme
  | .token kind text _ => some (.token kind text)
  | .unexpected => some .unexpected
  | .unterminated _ => some .unterminated
  | .blanks _ | .comment _ | .lineBreak => none

end Segment

/-! ## What a segment may be -/

/-- The spelling that has this canonical name; any other text is its own spelling. -/
def spellingOf (name : String) : List Char :=
  (((operators.find? fun o => o.2 = name).map (·.1)).getD name).toList

/-- The characters that a token stands for.  They are its text, but the text of an operator is the
canonical name, and the text of a single-quoted token has a backslash and an `n` for each line
break. -/
inductive IsSpelling : TokenKind → String → List Char → Prop where
  | operator {kind : TokenKind} (text : String) (hkind : kind.isOperator = true) :
      IsSpelling kind text (spellingOf text)
  | singleQuoted (chars : List Char) :
      IsSpelling .singleQuoted (String.ofList (chars.flatMap escapeBreak)) chars
  | verbatim {kind : TokenKind} (chars : List Char) (hkind : kind.isOperator = false)
      (hquoted : kind ≠ .singleQuoted) : IsSpelling kind (String.ofList chars) chars

/-- The blanks that may stand between tokens. -/
def isGap (c : Char) : Bool :=
  c == ' ' || c == '\t'

/-- A comment with this text after it: it goes to the first line break that does not come directly
after a backslash, or to the end. -/
structure IsComment (chars rest : List Char) : Prop where
  opening : chars.head? = some '#'
  escaped : chars.IsChain fun before c => c = '\n' → before = '\\'
  ending : rest = [] ∨ rest.head? = some '\n' ∧ chars.getLast? ≠ some '\\'

/-- A quote that is never closed, with all after it, and with an exclamation mark before it or
without. -/
inductive IsUnclosed : List Char → Prop where
  | single {body : List Char} (hopen : '\'' ∉ body) : IsUnclosed ('\'' :: body)
  | double {body : List Char} (hopen : splitQuoted? body = none) : IsUnclosed ('"' :: body)
  | bangDouble {body : List Char} (hopen : splitQuoted? body = none) :
      IsUnclosed ('!' :: '"' :: body)

/-- Segments that follow one another in a text, after a token of kind `previous`. -/
inductive Segmentation : Option TokenKind → List Segment → Prop where
  | nil {previous : Option TokenKind} : Segmentation previous []
  | token {previous : Option TokenKind} {kind : TokenKind} {text : String} {spelling : List Char}
      {segments : List Segment} (hne : spelling ≠ []) (hspelling : IsSpelling kind text spelling)
      (hnext : Segmentation (some kind) segments) :
      Segmentation previous (.token kind text spelling :: segments)
  | unexpected {previous : Option TokenKind} {segments : List Segment}
      (hnext : Segmentation previous segments) : Segmentation previous (.unexpected :: segments)
  | blanks {previous : Option TokenKind} {chars : List Char} {segments : List Segment}
      (hne : chars ≠ []) (hgap : ∀ c ∈ chars, isGap c = true)
      (hlongest : ∀ c ∈ (segments.flatMap Segment.chars).head?, isGap c = false)
      (hnext : Segmentation previous segments) : Segmentation previous (.blanks chars :: segments)
  | comment {previous : Option TokenKind} {chars : List Char} {segments : List Segment}
      (hcomment : IsComment chars (segments.flatMap Segment.chars))
      (hnext : Segmentation previous segments) : Segmentation previous (.comment chars :: segments)
  | lineBreak {kind : TokenKind} {segments : List Segment} (hcontinues : kind.continuesLine = true)
      (hnext : Segmentation (some kind) segments) :
      Segmentation (some kind) (.lineBreak :: segments)
  | unterminated {previous : Option TokenKind} {chars : List Char} (hopen : IsUnclosed chars) :
      Segmentation previous [.unterminated chars]

/-! ## The segment at the front -/

namespace Lexer

/-- What stands at the front of the text is a segment with the rest of the text after it. -/
def Front.Begins (text : List Char) : Front → Prop
  | .nothing => text = []
  | .skipped rest =>
    (∃ c, isGap c = true ∧ text = c :: rest) ∨ ∃ chars, IsComment chars rest ∧ text = chars ++ rest
  | .lineBreak rest => text = '\n' :: rest
  | .token kind name rest =>
    ∃ spelling, spelling ≠ [] ∧ IsSpelling kind name spelling ∧ text = spelling ++ rest
  | .unexpected rest => text = '<' :: rest
  | .unterminated => IsUnclosed text

theorem exists_append_afterComment (text : List Char) :
    ∀ before, ∃ body, text = body ++ afterComment before text ∧
      (before :: body).IsChain (fun before c => c = '\n' → before = '\\') ∧
      (afterComment before text = [] ∨
        (afterComment before text).head? = some '\n' ∧
          (before :: body).getLast? ≠ some '\\') := by
  induction text with
  | nil =>
    intro before
    exact ⟨[], rfl, .singleton before, .inl rfl⟩
  | cons c text ih =>
    intro before
    rw [afterComment]
    split
    · rename_i hend
      obtain ⟨rfl, hbefore⟩ := hend
      exact ⟨[], rfl, .singleton before, .inr ⟨rfl, by simpa using hbefore⟩⟩
    · rename_i hgoes
      obtain ⟨body, htext, hchain, hending⟩ := ih c
      have hescaped : c = '\n' → before = '\\' := by
        intro hc
        by_contra hbefore
        exact hgoes ⟨hc, hbefore⟩
      refine ⟨c :: body, congrArg (c :: ·) htext, List.isChain_cons_cons.mpr ⟨hescaped, hchain⟩, ?_⟩
      rwa [List.getLast?_cons_cons]

theorem eq_append_of_splitQuoted? {text body rest : List Char}
    (h : splitQuoted? text = some (body, rest)) : text = body ++ '"' :: rest := by
  induction text using splitQuoted?.induct generalizing body with
  | case1 => simp [splitQuoted?] at h
  | case2 => simp [splitQuoted?] at h
  | case3 c text ih =>
    simp only [splitQuoted?_escape, Option.map_eq_some_iff, Prod.mk.injEq, Prod.exists] at h
    obtain ⟨inner, rest, hinner, rfl, rfl⟩ := h
    rw [ih hinner]
    rfl
  | case4 text =>
    simp only [splitQuoted?_quote, Option.some.injEq, Prod.mk.injEq] at h
    obtain ⟨rfl, rfl⟩ := h
    rfl
  | case5 c text hlast hescape hquote ih =>
    rw [splitQuoted?.eq_4 c text hlast hescape, if_neg hquote] at h
    simp only [Option.map_eq_some_iff, Prod.mk.injEq, Prod.exists] at h
    obtain ⟨inner, rest, hinner, rfl, rfl⟩ := h
    rw [ih hinner]
    rfl

theorem begins_singleQuoted (text : List Char) :
    (singleQuoted text).Begins ('\'' :: text) := by
  have hsplit := List.takeWhile_append_dropWhile (p := (· != '\'')) (l := text)
  unfold singleQuoted
  split
  · rename_i hnil
    rw [List.dropWhile_eq_nil_iff] at hnil
    refine .single fun hmem => ?_
    simpa using hnil _ hmem
  · rename_i c rest hrest
    have hc : c = '\'' := by
      have hhead := List.head?_dropWhile_not (· != '\'') text
      rw [hrest] at hhead
      simpa using hhead
    subst hc
    rw [hrest] at hsplit
    refine ⟨'\'' :: text.takeWhile (· != '\'') ++ ['\''], List.cons_ne_nil _ _, ?_, ?_⟩
    · have hspelling := IsSpelling.singleQuoted ('\'' :: text.takeWhile (· != '\'') ++ ['\''])
      simpa [escapeBreak] using hspelling
    · simpa using hsplit.symm

theorem begins_doubleQuoted {kind : TokenKind} (hkind : kind.isOperator = false)
    (hquoted : kind ≠ .singleQuoted) (opening : List Char) (hne : opening ≠ [])
    (text : List Char) (hopen : splitQuoted? text = none → IsUnclosed (opening ++ text)) :
    (doubleQuoted kind opening text).Begins (opening ++ text) := by
  unfold doubleQuoted
  split
  · rename_i hnone
    exact hopen hnone
  · rename_i body rest hsome
    refine ⟨opening ++ body ++ ['"'], by simp [hne], .verbatim _ hkind hquoted, ?_⟩
    rw [eq_append_of_splitQuoted? hsome]
    simp

theorem isSpelling_nameOf : ∀ o ∈ spellings, IsSpelling o.2 (nameOf o.1) o.1 := by
  have hnames : ∀ o ∈ spellings,
      if o.2.isOperator then spellingOf (nameOf o.1) = o.1
      else nameOf o.1 = String.ofList o.1 ∧ o.2 ≠ .singleQuoted := by
    decide
  intro o ho
  have hname := hnames o ho
  split at hname
  · rename_i hkind
    have hspelling := IsSpelling.operator (nameOf o.1) hkind
    rwa [hname] at hspelling
  · rename_i hkind
    rw [hname.1]
    exact .verbatim _ (by simpa using hkind) hname.2

theorem isSpelling_standalone {c : Char} {kind : TokenKind} (h : standalone? c = some kind) :
    IsSpelling kind (String.singleton c) [c] := by
  have hkind : kind.isOperator = false ∧ kind ≠ .singleQuoted := by
    unfold standalone? at h
    split at h
    all_goals cases h
    all_goals exact ⟨rfl, by decide⟩
  exact .verbatim [c] hkind.1 hkind.2

theorem isSpelling_word (word : List Char) :
    IsSpelling (wordKind word) (String.ofList word) word := by
  have hkind : (wordKind word).isOperator = false ∧ wordKind word ≠ .singleQuoted := by
    unfold wordKind
    split_ifs <;> decide
  exact .verbatim word hkind.1 hkind.2

theorem begins_unquoted (c : Char) (text : List Char) : (unquoted c text).Begins (c :: text) := by
  unfold unquoted
  split
  · rename_i kind hstandalone
    exact ⟨[c], List.cons_ne_nil c [], isSpelling_standalone hstandalone, rfl⟩
  · split
    · rename_i spelling kind hoperator
      have hpos := length_pos_of_operator? hoperator
      have hbegins : spelling <+: c :: text :=
        List.isPrefixOf_iff_prefix.mp (List.find?_eq_some_iff_append.mp hoperator).1
      exact ⟨spelling, List.length_pos_iff.mp hpos,
        isSpelling_nameOf _ (List.mem_of_find?_eq_some hoperator),
        (List.prefix_iff_eq_append.mp hbegins).symm⟩
    · split
      · rename_i hless
        rw [hless]
        rfl
      · refine ⟨_, List.cons_ne_nil _ _, isSpelling_word _, ?_⟩
        rw [List.cons_append, List.takeWhile_append_dropWhile]

theorem begins_front (text : List Char) : (front text).Begins text := by
  cases text with
  | nil => rfl
  | cons c text =>
    rw [front]
    split_ifs with hblank hcomment hbreak hsingle hdouble hbangDouble
    · exact .inl ⟨c, by simpa [isGap] using hblank, rfl⟩
    · subst hcomment
      obtain ⟨body, htext, hescaped, hending⟩ := exists_append_afterComment text '#'
      exact .inr ⟨'#' :: body, ⟨rfl, hescaped, hending⟩, congrArg ('#' :: ·) htext⟩
    · exact congrArg (· :: text) hbreak
    · rw [hsingle]
      exact begins_singleQuoted text
    · rw [hdouble]
      exact begins_doubleQuoted rfl (by decide) ['"'] (List.cons_ne_nil _ _) text .double
    · obtain ⟨rfl, hquote⟩ := hbangDouble
      obtain ⟨more, rfl⟩ : ∃ more, text = '"' :: more := List.head?_eq_some_iff.mp hquote
      exact begins_doubleQuoted rfl (by decide) ['!', '"'] (List.cons_ne_nil _ _) more
        .bangDouble
    · exact begins_unquoted c text

/-! ## The segments of a text -/

theorem lexemes_gap (previous : Option TokenKind) {c : Char} (h : isGap c = true)
    (text : List Char) : lexemes previous (c :: text) = lexemes previous text := by
  rw [lexemes_eq, front, if_pos (by simpa [isGap] using h)]
  rfl

theorem lexemes_dropWhile_isGap (previous : Option TokenKind) (text : List Char) :
    lexemes previous (text.dropWhile isGap) = lexemes previous text := by
  induction text with
  | nil => rfl
  | cons c text ih =>
    rw [List.dropWhile_cons]
    split
    · rename_i hgap
      rw [ih, lexemes_gap previous hgap]
    · rfl

/-- Every text falls into segments, and these give its tokens and faults. -/
theorem exists_segmentation (previous : Option TokenKind) (text : List Char) :
    ∃ segments, Segmentation previous segments ∧ segments.flatMap Segment.chars = text ∧
      lexemes previous text = segments.filterMap Segment.lexeme? ++ [.token .endOfInput ""] := by
  induction hlength : text.length using Nat.strong_induction_on generalizing previous text with
  | _ n ih =>
  subst hlength
  have hbegins := begins_front text
  rw [lexemes_eq]
  cases hfront : front text with
  | nothing =>
    rw [hfront] at hbegins
    obtain rfl : text = [] := hbegins
    exact ⟨[], .nil, rfl, rfl⟩
  | skipped rest =>
    rw [hfront] at hbegins
    obtain ⟨c, hgap, rfl⟩ | ⟨chars, hcomment, rfl⟩ := hbegins
    · -- The longest run of blanks is one segment; the front was its first character only.
      have hlt : (rest.dropWhile isGap).length < (c :: rest).length :=
        Nat.lt_succ_of_le (List.dropWhile_suffix _).length_le
      obtain ⟨segments, hsegments, hchars, hlexemes⟩ := ih _ hlt previous _ rfl
      refine ⟨.blanks (c :: rest.takeWhile isGap) :: segments, .blanks (List.cons_ne_nil _ _) ?_ ?_
        hsegments, ?_, ?_⟩
      · rw [List.forall_mem_cons]
        exact ⟨hgap, fun d hd => List.mem_takeWhile_imp hd⟩
      · rw [hchars]
        intro d hd
        have hhead := List.head?_dropWhile_not isGap rest
        rw [Option.mem_def.mp hd] at hhead
        simpa using hhead
      · rw [List.flatMap_cons, hchars, Segment.chars, List.cons_append,
          List.takeWhile_append_dropWhile]
      · rw [lexemes_dropWhile_isGap] at hlexemes
        exact hlexemes
    · have hlt : rest.length < (chars ++ rest).length := by
        have hne : chars ≠ [] := by
          rintro rfl
          cases hcomment.opening
        have hpos := List.length_pos_iff.mpr hne
        rw [List.length_append]
        omega
      obtain ⟨segments, hsegments, hchars, hlexemes⟩ := ih _ hlt previous rest rfl
      rw [← hchars] at hcomment
      exact ⟨.comment chars :: segments, .comment hcomment hsegments,
        by simp [Segment.chars, hchars], hlexemes⟩
  | lineBreak rest =>
    rw [hfront] at hbegins
    obtain rfl : text = '\n' :: rest := hbegins
    rw [Front.lexemes]
    split
    · rename_i hcontinues
      obtain ⟨segments, hsegments, hchars, hlexemes⟩ :=
        ih _ (Nat.lt_succ_self _) previous rest rfl
      cases previous with
      | none => simp at hcontinues
      | some kind =>
        exact ⟨.lineBreak :: segments, .lineBreak hcontinues hsegments,
          congrArg ('\n' :: ·) hchars, hlexemes⟩
    · obtain ⟨segments, hsegments, hchars, hlexemes⟩ :=
        ih _ (Nat.lt_succ_self _) (some .newline) rest rfl
      have hspelling : IsSpelling .newline "\n" ['\n'] := .verbatim ['\n'] rfl (by decide)
      exact ⟨.token .newline "\n" ['\n'] :: segments,
        .token (List.cons_ne_nil _ _) hspelling hsegments, congrArg ('\n' :: ·) hchars,
        congrArg (_ :: ·) hlexemes⟩
  | token kind name rest =>
    rw [hfront] at hbegins
    obtain ⟨spelling, hne, hspelling, rfl⟩ := hbegins
    have hlt : rest.length < (spelling ++ rest).length := by
      have hpos := List.length_pos_iff.mpr hne
      rw [List.length_append]
      omega
    obtain ⟨segments, hsegments, hchars, hlexemes⟩ := ih _ hlt (some kind) rest rfl
    exact ⟨.token kind name spelling :: segments, .token hne hspelling hsegments,
      by simp [Segment.chars, hchars], congrArg (_ :: ·) hlexemes⟩
  | unexpected rest =>
    rw [hfront] at hbegins
    obtain rfl : text = '<' :: rest := hbegins
    obtain ⟨segments, hsegments, hchars, hlexemes⟩ := ih _ (Nat.lt_succ_self _) previous rest rfl
    exact ⟨.unexpected :: segments, .unexpected hsegments, congrArg ('<' :: ·) hchars,
      congrArg (_ :: ·) hlexemes⟩
  | unterminated =>
    rw [hfront] at hbegins
    exact ⟨[.unterminated text], .unterminated hbegins, by simp [Segment.chars], rfl⟩

end Lexer

/-- The logical text of a text falls into segments without a gap, and the tokens and faults that a
scanner gives up to the end of the input, past all faults, are those of the segments in order. -/
theorem Scanner.segments_of_text (name : String) (foreground : Option (List Bool)) (text : String) :
    ∃ segments, Segmentation none segments ∧
      segments.flatMap Segment.chars = logicalText text.toList ∧
      (Scanner.ofReads name (ByteStream.ofBytes text.toUTF8.data.toList).lines
          foreground).drain.map Reply.lexeme =
        segments.filterMap Segment.lexeme? ++ [.token .endOfInput ""] := by
  rw [ByteStream.lines_ofBytes_utf8, Scanner.lexemes_drain_ofReads]
  exact exists_segmentation none (logicalText text.toList)

end LispShell
