import LispShell.Proofs.Comments
import LispShell.Proofs.PhysicalLines
import LispShell.Proofs.PrintedForm

set_option autoImplicit false

/-!
# Scanning the text of a token again

The text of a symbol, a brace or a quoted token is a text in its own right.  It is scanned to the
same token, with the line break that is added after it and the end of the input.

There are two parts to this.  With a line break after it the text has the token at its front: of a
quoted token because its quotes close where they closed before, of a symbol because a line break
ends symbols and begins no operator.  And the text is its own logical text, but for the line break
that is added.  This has to be shown for text in double quotes only, which may have line breaks of
its own.  These come from the logical text that the token stands in, and none of them can be taken
for a continuation: before a line break that stays in the logical text of a text there is an even
number of backslashes, also where the lines in front were joined.  `Settled` says so.
-/

namespace LispShell

open Lexer

/-- The token is a symbol, possibly one of braces, or it is quoted. -/
def TokenKind.isWordOrQuoted : TokenKind → Bool
  | .symbol | .braceExpansion | .leftBrace | .singleQuoted | .doubleQuoted | .bangDouble => true
  | _ => false

theorem TokenKind.continuesLine_of_isWordOrQuoted {kind : TokenKind}
    (h : kind.isWordOrQuoted = true) : kind.continuesLine = false := by
  cases kind <;> simp_all [isWordOrQuoted, continuesLine]

namespace Lexer

variable {kind : TokenKind} {name : String} {c : Char} {text rest body : List Char}

/-! ## The token at the front of its text -/

/-- With a line break after it the text of the token has the token at its front. -/
def ComesAgain (kind : TokenKind) (name : String) : Prop :=
  front (name.toList ++ ['\n']) = .token kind name ['\n']

/-- The text is in double quotes, with an exclamation mark before them or without, and it stands at
the beginning of the other. -/
structure IsDoubleQuoted (quoted text : List Char) : Prop where
  standing : quoted <+: text
  opening : quoted.head? = some '"' ∨ quoted.head? = some '!'
  closing : quoted.getLast? = some '"'

theorem flatMap_escapeBreak_of_not_mem (h : '\n' ∉ text) : text.flatMap escapeBreak = text := by
  induction text with
  | nil => rfl
  | cons c text ih =>
    obtain ⟨hc, htext⟩ := not_or.mp (mt List.mem_cons.mpr h)
    rw [List.flatMap_cons, escapeBreak, if_neg (Ne.symm hc), ih htext, List.singleton_append]

theorem not_mem_flatMap_escapeBreak (text : List Char) : '\n' ∉ text.flatMap escapeBreak := by
  rw [List.mem_flatMap]
  rintro ⟨c, -, hc⟩
  unfold escapeBreak at hc
  split at hc
  · simp at hc
  · rename_i hbreak
    exact hbreak (List.mem_singleton.mp hc).symm

theorem quote_not_mem_flatMap_escapeBreak (h : '\'' ∉ text) :
    '\'' ∉ text.flatMap escapeBreak := by
  rw [List.mem_flatMap]
  rintro ⟨c, hc, hquote⟩
  unfold escapeBreak at hquote
  split at hquote
  · simp at hquote
  · rw [List.mem_singleton] at hquote
    exact h (hquote ▸ hc)

/-- Single quotes are closed by the first single quote. -/
theorem singleQuoted_append (hquote : '\'' ∉ body) (hbreak : '\n' ∉ body) (rest : List Char) :
    singleQuoted (body ++ '\'' :: rest) =
      .token .singleQuoted (String.ofList ('\'' :: body ++ ['\''])) rest := by
  have hinside : ∀ c ∈ body, (c != '\'') = true := by
    intro c hc
    rw [bne_iff_ne]
    rintro rfl
    exact hquote hc
  have htake : (body ++ '\'' :: rest).takeWhile (· != '\'') = body := by
    rw [List.takeWhile_append_of_pos hinside]
    simp
  have hdrop : (body ++ '\'' :: rest).dropWhile (· != '\'') = '\'' :: rest := by
    rw [List.dropWhile_append_of_pos hinside]
    simp
  rw [singleQuoted, hdrop]
  dsimp only
  rw [htake, flatMap_escapeBreak_of_not_mem hbreak]

theorem comesAgain_singleQuoted (h : singleQuoted text = .token kind name rest) :
    ComesAgain kind name ∧ '\n' ∉ name.toList := by
  unfold singleQuoted at h
  split at h
  · cases h
  · cases h
    have hquote : '\'' ∉ text.takeWhile (· != '\'') := by
      intro hmem
      simpa using List.mem_takeWhile_imp hmem
    generalize text.takeWhile (· != '\'') = body at hquote ⊢
    have hbreak := not_mem_flatMap_escapeBreak body
    have halone := singleQuoted_append (quote_not_mem_flatMap_escapeBreak hquote) hbreak ['\n']
    refine ⟨?_, by simp [hbreak]⟩
    rw [ComesAgain, String.toList_ofList, List.cons_append, List.cons_append, List.append_assoc]
    exact halone

/-- Double quotes are closed where they were closed before, whatever follows. -/
theorem splitQuoted?_append (h : splitQuoted? text = some (body, rest)) (more : List Char) :
    splitQuoted? (body ++ '"' :: more) = some (body, more) := by
  induction text using splitQuoted?.induct generalizing body with
  | case1 => simp [splitQuoted?] at h
  | case2 => simp [splitQuoted?] at h
  | case3 c text ih =>
    simp only [splitQuoted?_escape, Option.map_eq_some_iff, Prod.mk.injEq, Prod.exists] at h
    obtain ⟨inner, rest, hinner, rfl, rfl⟩ := h
    rw [List.cons_append, List.cons_append, splitQuoted?_escape, ih hinner]
    rfl
  | case4 text =>
    simp only [splitQuoted?_quote, Option.some.injEq, Prod.mk.injEq] at h
    obtain ⟨rfl, rfl⟩ := h
    rfl
  | case5 c text hlast hescape hquote ih =>
    rw [splitQuoted?.eq_4 c text hlast hescape, if_neg hquote] at h
    simp only [Option.map_eq_some_iff, Prod.mk.injEq, Prod.exists] at h
    obtain ⟨inner, rest, hinner, rfl, rfl⟩ := h
    have hslash : c ≠ '\\' := by
      rintro rfl
      cases text with
      | nil => exact hlast rfl rfl
      | cons d text => exact hescape d text rfl rfl
    rw [List.cons_append, splitQuoted?_cons hquote hslash, ih hinner]
    rfl

theorem doubleQuoted_append {quote : TokenKind} {opening : List Char}
    (h : doubleQuoted quote opening text = .token kind name rest) (more : List Char) :
    ∃ body, name.toList = opening ++ body ++ ['"'] ∧ text = body ++ '"' :: rest ∧
      doubleQuoted quote opening (body ++ '"' :: more) = .token kind name more := by
  unfold doubleQuoted at h
  split at h
  · cases h
  · rename_i body rest hsplit
    cases h
    refine ⟨body, String.toList_ofList, eq_append_of_splitQuoted? hsplit, ?_⟩
    rw [doubleQuoted, splitQuoted?_append hsplit]

/-- A line break begins no operator and is inside of none. -/
theorem operator?_append_break (h : operator? text = none) (hbody : body <+: text) :
    operator? (body ++ ['\n']) = none := by
  have hbreaks : ∀ o ∈ spellings, '\n' ∉ o.1 := by decide
  unfold operator? at h ⊢
  rw [List.find?_eq_none] at h ⊢
  intro o ho hbegins
  rw [List.isPrefixOf_iff_prefix, List.prefix_concat_iff] at hbegins
  obtain hall | hbegins := hbegins
  · exact hbreaks o ho (by simp [hall])
  · exact h o ho (List.isPrefixOf_iff_prefix.mpr (hbegins.trans hbody))

/-- A symbol is all of a text in which no character but the first could end it. -/
theorem word_append_break (c : Char) (h : ∀ d ∈ text, endsSymbol d = false) :
    word c (text ++ ['\n']) =
      .token (wordKind (c :: text)) (String.ofList (c :: text)) ['\n'] := by
  have hinside : ∀ d ∈ text, (!endsSymbol d) = true := by
    intro d hd
    rw [h d hd]
    rfl
  have hends : endsSymbol '\n' = true := by decide
  rw [word, List.takeWhile_append_of_pos hinside, List.dropWhile_append_of_pos hinside]
  simp [hends]

theorem unquoted_append_break (h : unquoted c text = .token kind name rest)
    (hkind : kind.isWordOrQuoted = true) :
    ∃ more, name.toList = c :: more ∧ (∀ d ∈ more, endsSymbol d = false) ∧
      unquoted c (more ++ ['\n']) = .token kind name ['\n'] := by
  unfold unquoted at h
  split at h
  · rename_i alone halone
    cases h
    unfold standalone? at halone
    split at halone
    all_goals cases halone
    all_goals cases hkind
  · rename_i halone
    split at h
    · rename_i spelling operator hoperator
      cases h
      have hkinds : ∀ o ∈ spellings, o.2.isWordOrQuoted = false := by decide
      rw [hkinds _ (List.mem_of_find?_eq_some hoperator)] at hkind
      cases hkind
    · rename_i hoperator
      split at h
      · cases h
      · rename_i hless
        cases h
        have hends : ∀ d ∈ text.takeWhile (!endsSymbol ·), endsSymbol d = false := by
          intro d hd
          simpa using List.mem_takeWhile_imp hd
        have hprefix : c :: text.takeWhile (!endsSymbol ·) <+: c :: text :=
          List.cons_prefix_cons.mpr ⟨rfl, List.takeWhile_prefix _⟩
        refine ⟨_, String.toList_ofList, hends, ?_⟩
        have hnone := operator?_append_break hoperator hprefix
        rw [List.cons_append] at hnone
        rw [unquoted, halone, hnone]
        dsimp only
        rw [if_neg hless, word_append_break c hends]

/-- The text of a symbol, a brace or a quoted token has the token at its front.  It is one line, or
it stands in the source as it is and is in double quotes. -/
theorem comesAgain_of_front (h : front text = .token kind name rest)
    (hkind : kind.isWordOrQuoted = true) :
    ComesAgain kind name ∧ ('\n' ∉ name.toList ∨ IsDoubleQuoted name.toList text) := by
  cases text with
  | nil => cases h
  | cons c text =>
    rw [front] at h
    split_ifs at h with hblank hcomment hbreak hsingle hdouble hbangDouble
    · obtain ⟨hagain, hline⟩ := comesAgain_singleQuoted h
      exact ⟨hagain, .inl hline⟩
    · subst hdouble
      obtain ⟨body, hname, rfl, hagain⟩ := doubleQuoted_append h ['\n']
      refine ⟨?_, .inr ⟨by simp [hname], by simp [hname], ?_⟩⟩
      · rw [ComesAgain, hname]
        simpa [front] using hagain
      · rw [hname, List.getLast?_concat]
    · obtain ⟨rfl, hquote⟩ := hbangDouble
      obtain ⟨more, rfl⟩ : ∃ more, text = '"' :: more := List.head?_eq_some_iff.mp hquote
      obtain ⟨body, hname, hmore, hagain⟩ := doubleQuoted_append h ['\n']
      rw [List.tail_cons] at hmore
      subst hmore
      refine ⟨?_, .inr ⟨by simp [hname], by simp [hname], ?_⟩⟩
      · rw [ComesAgain, hname]
        simpa [front] using hagain
      · rw [hname, List.getLast?_concat]
    · obtain ⟨more, hname, hends, hagain⟩ := unquoted_append_break h hkind
      have hmore : ∀ d, endsSymbol d = true → d ∉ more := by
        intro d hd hmem
        rw [hends d hmem] at hd
        cases hd
      have hbang : ¬(c = '!' ∧ (more ++ ['\n']).head? = some '"') := by
        rintro ⟨-, hquote⟩
        cases more with
        | nil => simp at hquote
        | cons d more =>
          rw [List.cons_append, List.head?_cons, Option.some.injEq] at hquote
          exact hmore '"' (by decide) (by simp [hquote])
      refine ⟨?_, .inl ?_⟩
      · rw [ComesAgain, hname, List.cons_append, front, if_neg hblank, if_neg hcomment,
          if_neg hbreak, if_neg hsingle, if_neg hdouble, if_neg hbang, hagain]
      · rw [hname, List.mem_cons, not_or]
        exact ⟨Ne.symm hbreak, hmore '\n' (by decide)⟩

/-! ## Where tokens stand -/

/-- A token that is neither a line break nor the end stands at the front of an end of the text. -/
theorem exists_front_of_mem_lexemes (hkind : kind.isWordOrQuoted = true)
    {previous : Option TokenKind} (h : .token kind name ∈ lexemes previous text) :
    ∃ suffix rest, suffix <:+ text ∧ front suffix = .token kind name rest := by
  induction hlength : text.length using Nat.strong_induction_on generalizing text previous with
  | _ n ih =>
  subst hlength
  cases text with
  | nil =>
    rw [lexemes_nil, List.mem_singleton] at h
    cases h
    cases hkind
  | cons c text =>
    have hlt := length_rest_front_lt c text
    have hsuffix := rest_front_suffix (c :: text)
    have hlater : ∀ {last : Option TokenKind},
        .token kind name ∈ lexemes last (front (c :: text)).rest →
          ∃ suffix rest, suffix <:+ c :: text ∧ front suffix = .token kind name rest := by
      intro last hmem
      obtain ⟨suffix, rest, hrest, hfront⟩ := ih _ hlt hmem rfl
      exact ⟨suffix, rest, hrest.trans hsuffix, hfront⟩
    rw [lexemes_eq] at h
    cases hfront : front (c :: text) with
    | nothing =>
      rw [hfront, Front.lexemes, List.mem_singleton] at h
      cases h
      cases hkind
    | skipped rest =>
      rw [hfront] at h hlater
      exact hlater h
    | lineBreak rest =>
      rw [hfront] at h hlater
      rw [Front.lexemes] at h
      split at h
      · exact hlater h
      · rcases List.mem_cons.mp h with h | h
        · cases h
          cases hkind
        · exact hlater h
    | token kind' name' rest =>
      rw [hfront] at h hlater
      rcases List.mem_cons.mp h with h | h
      · cases h
        exact ⟨c :: text, rest, List.suffix_refl _, hfront⟩
      · exact hlater h
    | unexpected rest =>
      rw [hfront] at h hlater
      rcases List.mem_cons.mp h with h | h
      · cases h
      · exact hlater h
    | unterminated =>
      rw [hfront, Front.lexemes] at h
      simp only [List.mem_cons, List.not_mem_nil, or_false, reduceCtorEq, false_or] at h
      cases h
      cases hkind

end Lexer

/-! ## Line breaks that stay -/

/-- Every line break in the text, but for one at its end, comes after an even number of backslashes.
The characters before the text count as well, and they are given backwards. -/
def Settled (before : List Char) : List Char → Prop
  | [] => True
  | c :: text =>
    (c = '\n' → text ≠ [] → Line.isContinued before = false) ∧ Settled (c :: before) text

namespace Settled

variable {before before' text more : List Char}

theorem of_append_left : ∀ {before}, Settled before (text ++ more) → Settled before text := by
  induction text with
  | nil => exact fun _ => trivial
  | cons c text ih =>
    intro before h
    exact ⟨fun hc hne => h.1 hc (by simp [hne]), ih h.2⟩

theorem of_append_right : ∀ {before}, Settled before (text ++ more) →
    Settled (text.reverse ++ before) more := by
  induction text with
  | nil => exact fun h => h
  | cons c text ih =>
    intro before h
    rw [List.reverse_cons, List.append_assoc]
    exact ih h.2

theorem append (hbreak : '\n' ∉ text) : ∀ {before}, Settled (text.reverse ++ before) more →
    Settled before (text ++ more) := by
  induction text with
  | nil => exact fun h => h
  | cons c text ih =>
    intro before h
    obtain ⟨hc, htext⟩ := not_or.mp (mt List.mem_cons.mpr hbreak)
    rw [List.reverse_cons, List.append_assoc] at h
    exact ⟨fun hc' => absurd hc'.symm hc, ih htext h⟩

/-- What comes before an even number of backslashes does not matter. -/
theorem congr (hbefore : Line.isContinued before = false)
    (hbefore' : Line.isContinued before' = false) :
    ∀ since, Settled (since ++ before) text → Settled (since ++ before') text := by
  induction text with
  | nil => exact fun _ _ => trivial
  | cons c text ih =>
    intro since h
    refine ⟨fun hc hne => ?_, ih (c :: since) h.2⟩
    rw [Line.isContinued_append hbefore', ← Line.isContinued_append hbefore]
    exact h.1 hc hne

theorem of_opening {c : Char} (hslash : c ≠ '\\') (hbreak : c ≠ '\n')
    (h : Settled before (c :: text)) : Settled [] (c :: text) := by
  have heven : ∀ reversed, Line.isContinued (c :: reversed) = false := fun reversed =>
    Line.isContinued_of_head?_ne (by simpa using hslash)
  exact ⟨fun hc => absurd hc hbreak, congr (heven before) (heven []) [] h.2⟩

end Settled

section

variable {line before text : List Char} {c : Char}

theorem head?_ne_of_not_mem (h : c ∉ text) : text.head? ≠ some c :=
  fun hhead => h (List.mem_of_mem_head? hhead)

theorem mem_of_mem_logicalText (h : c ∈ logicalText text) : c ∈ text ∨ c = '\n' := by
  rw [← logicalOf_ofText, List.mem_append, List.mem_singleton] at h
  refine h.imp_left fun hmem => ?_
  obtain ⟨read, hread, hc⟩ := List.mem_flatMap.mp hmem
  rw [← Read.flatMap_text_ofText text]
  exact List.mem_flatMap.mpr ⟨read, hread, Line.mem_of_mem_logical hc⟩

/-- What the lines of a text leave is settled.  After `before` the line that is broken off at the
end of `line` goes on with the text. -/
theorem settled_logicalOf_linesFrom (htext : '\r' ∉ text) :
    ∀ {line before}, '\n' ∉ line → '\r' ∉ line → Line.isContinued before = false →
      Settled before (logicalOf (Read.linesFrom line text) ++ ['\n']) := by
  induction text with
  | nil =>
    intro line before hbreak _ _
    rw [logicalOf_linesFrom_nil hbreak]
    exact .append (by simpa using hbreak) ⟨fun _ hne => absurd rfl hne, trivial⟩
  | cons c text ih =>
    intro line before hbreak hreturn hbefore
    obtain ⟨hc, hrest⟩ := not_or.mp (mt List.mem_cons.mpr htext)
    rw [Read.linesFrom]
    split
    · rename_i hc'
      subst hc'
      rw [logicalOf, List.flatMap_cons, ← logicalOf, Line.logical_break (head?_ne_of_not_mem hreturn), List.append_assoc]
      unfold Line.splice
      split
      · -- The line is continued, and an even number of backslashes stays of it.
        rename_i hcontinued
        cases line with
        | nil => cases hcontinued
        | cons d line =>
          rw [Line.isContinued_cons, Bool.and_eq_true, Bool.not_eq_true'] at hcontinued
          rw [List.tail_cons]
          have hline : '\n' ∉ line := fun hmem => hbreak (List.mem_cons_of_mem _ hmem)
          refine .append (by simpa using hline) (ih hrest List.not_mem_nil List.not_mem_nil ?_)
          rw [List.reverse_reverse, Line.isContinued_append hbefore]
          exact hcontinued.2
      · rename_i hcontinued
        rw [List.reverse_cons, List.append_assoc]
        refine .append (by simpa using hbreak) ⟨fun _ _ => ?_, ih hrest List.not_mem_nil
          List.not_mem_nil (Line.isContinued_of_head?_ne (by simp))⟩
        rw [List.reverse_reverse, Line.isContinued_append hbefore]
        simpa using hcontinued
    · rename_i hc'
      exact ih hrest (by simp [Ne.symm hc', hbreak]) (by simp [hc, hreturn]) hbefore

/-- In the logical text of a text no line break but the last can be taken for a continuation. -/
theorem settled_logicalText (htext : '\r' ∉ text) : Settled [] (logicalText text) := by
  rw [← logicalOf_ofText]
  exact settled_logicalOf_linesFrom htext List.not_mem_nil List.not_mem_nil rfl

theorem logicalOf_linesFrom_of_settled (hreturn : '\r' ∉ text) :
    ∀ {line}, '\n' ∉ line → '\r' ∉ line → text.getLast? ≠ some '\n' → Settled line text →
      logicalOf (Read.linesFrom line text) = line.reverse ++ text := by
  induction text with
  | nil =>
    intro line hbreak _ _ _
    rw [logicalOf_linesFrom_nil hbreak, List.append_nil]
  | cons c text ih =>
    intro line hbreak hline hlast hsettled
    obtain ⟨hc, hrest⟩ := not_or.mp (mt List.mem_cons.mpr hreturn)
    rw [Read.linesFrom]
    split
    · rename_i hc'
      subst hc'
      have hne : text ≠ [] := by
        rintro rfl
        exact hlast rfl
      have heven := hsettled.1 rfl hne
      have hlast' : text.getLast? ≠ some '\n' := by
        rwa [List.getLast?_cons_of_ne_nil hne] at hlast
      have hbeginning : Settled [] text :=
        .congr (Line.isContinued_of_head?_ne (by simp)) rfl [] hsettled.2
      rw [logicalOf, List.flatMap_cons, ← logicalOf, Line.logical_break (head?_ne_of_not_mem hline), Line.splice, heven,
        ih hrest List.not_mem_nil List.not_mem_nil hlast' hbeginning]
      simp
    · rename_i hc'
      have hlast' : text.getLast? ≠ some '\n' := by
        rintro htext
        exact hlast (by rw [List.getLast?_cons, htext]; rfl)
      rw [ih hrest (by simp [Ne.symm hc', hbreak]) (by simp [hc, hline]) hlast' hsettled.2]
      simp

/-- A settled text without a line break at its end is its own logical text, but for the line break
that is added. -/
theorem logicalText_of_settled (hreturn : '\r' ∉ text) (hlast : text.getLast? ≠ some '\n')
    (h : Settled [] text) : logicalText text = text ++ ['\n'] := by
  rw [← logicalOf_ofText]
  exact congrArg (· ++ ['\n'])
    (logicalOf_linesFrom_of_settled hreturn List.not_mem_nil List.not_mem_nil hlast h)

end

/-! ## Scanning again -/

section

variable {kind : TokenKind} {name : String} {text suffix rest : List Char}

theorem lexemes_of_comesAgain (h : ComesAgain kind name) (hkind : kind.isWordOrQuoted = true) :
    lexemes none (name.toList ++ ['\n']) =
      [.token kind name, .token .newline "\n", .token .endOfInput ""] := by
  rw [lexemes_of_front h (TokenKind.continuesLine_of_isWordOrQuoted hkind), lexemes_break]

theorem settled_of_isDoubleQuoted (htext : '\r' ∉ text) (hsuffix : suffix <:+ logicalText text)
    (h : IsDoubleQuoted name.toList suffix) : Settled [] name.toList := by
  obtain ⟨front, hfront⟩ := hsuffix
  obtain ⟨more, rfl⟩ := h.standing
  have hsettled := settled_logicalText htext
  rw [← hfront] at hsettled
  have hname := hsettled.of_append_right.of_append_left
  obtain ⟨c, body, hbody⟩ : ∃ c body, name.toList = c :: body := by
    cases hchars : name.toList with
    | nil =>
      have hopening := h.opening
      rw [hchars] at hopening
      simp at hopening
    | cons c body => exact ⟨c, body, rfl⟩
  have hopening := h.opening
  rw [hbody, List.head?_cons, Option.some.injEq, Option.some.injEq] at hopening
  rw [hbody] at hname ⊢
  rcases hopening with rfl | rfl
  · exact hname.of_opening (by decide) (by decide)
  · exact hname.of_opening (by decide) (by decide)

/-- The text of a token is its own logical text, but for the line break that is added. -/
theorem logicalText_of_front (htext : '\r' ∉ text) (hsuffix : suffix <:+ logicalText text)
    (hfront : front suffix = .token kind name rest) (hkind : kind.isWordOrQuoted = true) :
    logicalText name.toList = name.toList ++ ['\n'] := by
  obtain hline | hquoted := (comesAgain_of_front hfront hkind).2
  · exact logicalText_of_not_mem hline
  · have hreturn : '\r' ∉ name.toList := by
      intro hmem
      rcases mem_of_mem_logicalText (hsuffix.subset (hquoted.standing.subset hmem)) with hmem | hc
      · exact htext hmem
      · cases hc
    have hlast : name.toList.getLast? ≠ some '\n' := by
      rw [hquoted.closing]
      decide
    exact logicalText_of_settled hreturn hlast (settled_of_isDoubleQuoted htext hsuffix hquoted)

end

/-- Every symbol, brace or quoted token of a text without carriage returns has a text that is
tokenized to the same token, a line break and the end. -/
theorem Scanner.tokenize_text_of_token (name : String) (foreground : Option (List Bool))
    {text : String} (hreturn : '\r' ∉ text.toList) {t : Token}
    (hgiven : .ok t ∈ (Scanner.ofReads name (ByteStream.ofBytes text.toUTF8.data.toList).lines
      foreground).drain.map Reply.result)
    (hkind : t.kind.isWordOrQuoted = true) :
    ∃ tokens, tokenize t.text.toList = .ok tokens ∧
      tokens.map (fun u => (u.kind, u.text)) =
        [(t.kind, t.text), (.newline, "\n"), (.endOfInput, "")] := by
  have hlexeme : .token t.kind t.text ∈ lexemes none (logicalText text.toList) := by
    rw [← Scanner.lexemes_drain_ofReads name foreground, ← ByteStream.lines_ofBytes_utf8]
    obtain ⟨r, hr, hresult⟩ := List.mem_map.mp hgiven
    refine List.mem_map.mpr ⟨r, hr, ?_⟩
    rw [Reply.lexeme, hresult]
    rfl
  obtain ⟨suffix, rest, hsuffix, hfront⟩ := exists_front_of_mem_lexemes hkind hlexeme
  apply tokenize_of_lexemes
  rw [logicalText_of_front hreturn hsuffix hfront hkind,
    lexemes_of_comesAgain (comesAgain_of_front hfront hkind).1 hkind]
  rfl

/-- A token in double quotes, of a text in which one of its two line breaks is continued. -/
theorem Scanner.tokenize_text_of_token_quoted :
    '\r' ∉ "\"a\\\\\nb\\\nc\\\"\" d".toList ∧
      .ok ⟨.doubleQuoted, "\"a\\\\\nbc\\\"\"", 3⟩ ∈ (Scanner.ofReads "sh" (ByteStream.ofBytes
        "\"a\\\\\nb\\\nc\\\"\" d".toUTF8.data.toList).lines none).drain.map Reply.result ∧
      TokenKind.doubleQuoted.isWordOrQuoted = true ∧
      ∃ tokens, tokenize "\"a\\\\\nbc\\\"\"".toList = .ok tokens ∧
        tokens.map (fun u => (u.kind, u.text)) =
          [(.doubleQuoted, "\"a\\\\\nbc\\\"\""), (.newline, "\n"), (.endOfInput, "")] := by
  have hreturn : '\r' ∉ "\"a\\\\\nb\\\nc\\\"\" d".toList := by decide
  have hgiven : .ok ⟨.doubleQuoted, "\"a\\\\\nbc\\\"\"", 3⟩ ∈ (Scanner.ofReads "sh"
      (ByteStream.ofBytes "\"a\\\\\nb\\\nc\\\"\" d".toUTF8.data.toList).lines
        none).drain.map Reply.result := by
    rw [ByteStream.lines_ofBytes_utf8, Scanner.drain, dif_neg (by decide), List.map_cons]
    exact List.mem_cons.mpr (.inl rfl)
  exact ⟨hreturn, hgiven, rfl, Scanner.tokenize_text_of_token "sh" none hreturn hgiven rfl⟩

end LispShell
