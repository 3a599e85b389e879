import LispShell.Proofs.Comments

set_option autoImplicit false

/-!
# The end of the last statement

After the last line of a text a line break is added, so that the last statement ends as every other
one does.  The tokens of a text without faults then end with a line break, or with a token after
which a line break is dropped.

One thing can come in between.  A comment takes in every line break that stands directly after a
backslash, and the one that is added is no exception.  If the text ends in such a comment, no token
comes of the line break, and the last token is the one before the comment.

The argument goes from one front of the logical text to the next, as `Lexer.Leads` does.  The
logical text ends in a line break and no token but a line break does, so what comes last is a line
break, a comment that takes it in, or a quote that is never closed.
-/

namespace LispShell

/-- A line break is a token of this kind, or it is dropped after one. -/
def TokenKind.EndsLine (kind : TokenKind) : Prop :=
  kind = .newline ∨ kind.continuesLine = true

namespace Lexer

variable {previous last last' : Option TokenKind} {text rest body : List Char}
  {given : List Lexeme} {kind : TokenKind} {name : String}

/-! ## Comments that are open at the end -/

theorem afterComment_of_isChain {before : Char}
    (h : (before :: body).IsChain fun before c => c = '\n' → before = '\\') :
    afterComment before body = [] := by
  induction body generalizing before with
  | nil => rfl
  | cons c body ih =>
    obtain ⟨hescaped, hbody⟩ := List.isChain_cons_cons.mp h
    rw [afterComment, if_neg (fun hends => hends.2 (hescaped hends.1)), ih hbody]

/-- Nothing comes of a comment that goes on up to the end. -/
theorem lexemes_of_isComment (h : IsComment text []) (last : Option TokenKind) :
    lexemes last text = [.token .endOfInput ""] := by
  obtain ⟨body, rfl⟩ : ∃ body, text = '#' :: body := List.head?_eq_some_iff.mp h.opening
  have hfront : front ('#' :: body) = .skipped (afterComment '#' body) := rfl
  rw [lexemes_eq, hfront, Front.lexemes, afterComment_of_isChain h.escaped, lexemes_nil]

/-! ## How a text ends -/

/-- What comes last in a text that ends in a line break. -/
inductive Ends (previous : Option TokenKind) (text : List Char) : Prop where
  | lineBreak {given : List Lexeme} {kind : TokenKind}
      (hleads : Leads previous text given (some kind) []) (hkind : kind.EndsLine)
  | comment {given : List Lexeme} {last : Option TokenKind} {comment : List Char}
      (hleads : Leads previous text given last comment) (hcomment : IsComment comment [])
  | quote (hopen : .unterminated ∈ lexemes previous text)

theorem Ends.past (hpast : (front text).past? previous = some (given, last, rest))
    (hrest : Ends last rest) : Ends previous text := by
  cases hrest with
  | lineBreak hleads hkind => exact .lineBreak (.past hpast hleads) hkind
  | comment hleads hcomment => exact .comment (.past hpast hleads) hcomment
  | quote hopen =>
    apply Ends.quote
    rw [lexemes_eq, (Front.of_past? hpast).2.2]
    exact List.mem_append_right _ hopen

theorem exists_last_singleQuoted (h : singleQuoted text = .token kind name rest) :
    ∃ c, c ≠ '\n' ∧ c :: rest <:+ text := by
  have hsuffix := List.dropWhile_suffix (l := text) (· != '\'')
  have hhead := List.head?_dropWhile_not (· != '\'') text
  unfold singleQuoted at h
  split at h
  · cases h
  · rename_i c rest hrest
    cases h
    rw [hrest] at hsuffix hhead
    have hc : c = '\'' := by simpa using hhead
    exact ⟨c, by simp [hc], hsuffix⟩

theorem exists_last_doubleQuoted {opening : List Char} {quote : TokenKind}
    (h : doubleQuoted quote opening text = .token kind name rest) :
    ∃ c, c ≠ '\n' ∧ c :: rest <:+ text := by
  unfold doubleQuoted at h
  split at h
  · cases h
  · rename_i body rest hsplit
    cases h
    exact ⟨'"', by decide, body, (eq_append_of_splitQuoted? hsplit).symm⟩

theorem exists_last_of_not_mem {spelling : List Char} (hne : spelling ≠ [])
    (hbreak : '\n' ∉ spelling) (rest : List Char) :
    ∃ c, c ≠ '\n' ∧ c :: rest <:+ spelling ++ rest := by
  obtain rfl | ⟨front, c, rfl⟩ := List.eq_nil_or_concat spelling
  · exact absurd rfl hne
  · exact ⟨c, fun hc => hbreak (by simp [hc]), front, by simp⟩

theorem exists_last_unquoted {c : Char} (hc : c ≠ '\n')
    (h : unquoted c text = .token kind name rest) :
    ∃ d, d ≠ '\n' ∧ d :: rest <:+ c :: text := by
  unfold unquoted at h
  split at h
  · cases h
    exact ⟨c, hc, List.suffix_refl _⟩
  · split at h
    · rename_i spelling operatorKind hoperator
      cases h
      have hbegins : spelling <+: c :: text :=
        List.isPrefixOf_iff_prefix.mp (List.find?_eq_some_iff_append.mp hoperator).1
      have hne : spelling ≠ [] := List.length_pos_iff.mp (length_pos_of_operator? hoperator)
      have hbreaks : ∀ o ∈ spellings, '\n' ∉ o.1 := by decide
      have hlast := exists_last_of_not_mem hne (hbreaks _ (List.mem_of_find?_eq_some hoperator))
        ((c :: text).drop spelling.length)
      rwa [List.prefix_iff_eq_append.mp hbegins] at hlast
    · split at h
      · cases h
      · cases h
        have hbreak : '\n' ∉ c :: text.takeWhile (!endsSymbol ·) := by
          rw [List.mem_cons, not_or]
          refine ⟨hc.symm, fun hmem => ?_⟩
          exact absurd (List.mem_takeWhile_imp hmem) (by decide)
        have hlast := exists_last_of_not_mem (List.cons_ne_nil _ _) hbreak
          (text.dropWhile (!endsSymbol ·))
        rwa [List.cons_append, List.takeWhile_append_dropWhile] at hlast

/-- The last character of a token that is no line break is no line break either. -/
theorem exists_last_of_token (h : front text = .token kind name rest) :
    ∃ c, c ≠ '\n' ∧ c :: rest <:+ text := by
  cases text with
  | nil => cases h
  | cons c text =>
    rw [front] at h
    split_ifs at h with hblank hcomment hbreak hsingle hdouble hbangDouble
    · obtain ⟨d, hd, hrest⟩ := exists_last_singleQuoted h
      exact ⟨d, hd, hrest.trans (List.suffix_cons c text)⟩
    · obtain ⟨d, hd, hrest⟩ := exists_last_doubleQuoted h
      exact ⟨d, hd, hrest.trans (List.suffix_cons c text)⟩
    · obtain ⟨d, hd, hrest⟩ := exists_last_doubleQuoted h
      exact ⟨d, hd, (hrest.trans (List.tail_suffix text)).trans (List.suffix_cons c text)⟩
    · exact exists_last_unquoted hbreak h

/-- Past a line break the last token is a line break, or one that continues the line. -/
theorem exists_past?_lineBreak (previous : Option TokenKind) (rest : List Char) :
    ∃ given kind, (Front.lineBreak rest).past? previous = some (given, some kind, rest) ∧
      kind.EndsLine := by
  rw [Front.past?]
  split
  · rename_i hcontinues
    obtain ⟨kind, rfl, hkind⟩ := (Option.any_eq_true _ _).mp hcontinues
    exact ⟨[], kind, rfl, .inr hkind⟩
  · exact ⟨[.token .newline "\n"], .newline, rfl, .inl rfl⟩

/-- A text that ends in a line break ends in one of three ways. -/
theorem ends_of_isEnded (hended : IsEnded text) (hne : text ≠ [])
    (previous : Option TokenKind) : Ends previous text := by
  induction hlength : text.length using Nat.strong_induction_on generalizing previous text with
  | _ n ih =>
  subst hlength
  -- Unless nothing is left past the front, the way goes on there.
  have hnext {given : List Lexeme} {last : Option TokenKind} {rest : List Char}
      (hpast : (front text).past? previous = some (given, last, rest)) (hrest : rest ≠ []) :
      Ends previous text := by
    have hlt : rest.length < text.length := by
      rw [← (Front.of_past? hpast).1]
      obtain ⟨c, text, rfl⟩ := List.exists_cons_of_ne_nil hne
      exact length_rest_front_lt c text
    have hsuffix : rest <:+ text := (Leads.past hpast .refl).suffix
    exact .past hpast (ih rest.length hlt (hended.of_suffix hsuffix) hrest last rfl)
  have hbegins := begins_front text
  cases hfront : front text with
  | nothing =>
    rw [hfront] at hbegins
    exact absurd hbegins hne
  | unterminated =>
    apply Ends.quote
    rw [lexemes_eq, hfront]
    exact List.mem_cons_self
  | skipped rest =>
    by_cases hrest : rest = []
    · subst hrest
      rw [hfront] at hbegins
      obtain ⟨c, hgap, rfl⟩ | ⟨chars, hcomment, rfl⟩ := hbegins
      · obtain rfl : c = '\n' := hended c rfl
        exact absurd hgap (by decide)
      · rw [List.append_nil]
        exact .comment .refl hcomment
    · exact hnext (congrArg _ hfront) hrest
  | lineBreak rest =>
    obtain ⟨given, kind, hpast, hkind⟩ := exists_past?_lineBreak previous rest
    rw [← hfront] at hpast
    by_cases hrest : rest = []
    · subst hrest
      exact .lineBreak (.past hpast .refl) hkind
    · exact hnext hpast hrest
  | token kind name rest =>
    obtain ⟨c, hc, hsuffix⟩ := exists_last_of_token hfront
    obtain ⟨d, more, rfl⟩ := (hended.of_suffix hsuffix).exists_cons hc
    exact hnext (congrArg _ hfront) (List.cons_ne_nil d more)
  | unexpected rest =>
    rw [hfront] at hbegins
    obtain rfl : text = '<' :: rest := hbegins
    obtain ⟨d, more, rfl⟩ := hended.exists_cons (by decide)
    exact hnext (congrArg _ hfront) (List.cons_ne_nil d more)

end Lexer

open Lexer

/-! ## How the tokens of a text end -/

/-- The last token before the end of the input is a line break, or one after which a line break is
dropped. -/
def IsTerminated (kinds : List TokenKind) : Prop :=
  ∃ front last, kinds = front ++ [last, .endOfInput] ∧ last.EndsLine

/-- A comment is open at the end of the logical text: in what is left every line break stands
directly after a backslash.  The last token before the comment is of kind `last`. -/
def EndsInComment (text : List Char) (last : Option TokenKind) : Prop :=
  ∃ given comment, Leads none (logicalText text) given last comment ∧ IsComment comment []

theorem map_lexeme_of_mapM_result {replies : List Reply} :
    ∀ {tokens : List Token}, replies.mapM Reply.result = .ok tokens →
      replies.map Reply.lexeme = tokens.map fun t => .token t.kind t.text := by
  induction replies with
  | nil =>
    intro tokens h
    cases h
    rfl
  | cons r replies ih =>
    intro tokens h
    rw [List.mapM_cons] at h
    cases hresult : r.result with
    | error fault =>
      rw [hresult] at h
      cases h
    | ok t =>
      cases hrest : replies.mapM Reply.result with
      | error fault =>
        rw [hresult, hrest] at h
        cases h
      | ok rest =>
        rw [hresult, hrest] at h
        cases h
        rw [List.map_cons, List.map_cons, ih hrest, Reply.lexeme, hresult]
        rfl

theorem lexemes_of_tokenize {text : List Char} {tokens : List Token}
    (h : tokenize text = .ok tokens) :
    lexemes none (logicalText text) = tokens.map fun t => .token t.kind t.text :=
  (Scanner.lexemes_drain_ofReads "<string>" none text).symm.trans (map_lexeme_of_mapM_result h)

theorem logicalText_ne_nil (text : List Char) : logicalText text ≠ [] := by
  rw [← logicalOf_ofText]
  exact List.append_ne_nil_of_right_ne_nil _ (List.cons_ne_nil _ _)

/-- If nothing comes of what is left at a place, the last token before it decides. -/
theorem isTerminated_iff_of_leads {text rest : List Char} {given : List Lexeme}
    {last : Option TokenKind} (hleads : Leads none text given last rest)
    (hrest : lexemes last rest = [.token .endOfInput ""]) :
    IsTerminated ((lexemes none text).filterMap Lexeme.kind?) ↔ ∃ kind ∈ last, kind.EndsLine := by
  have hlast : last = (given.filterMap Lexeme.kind?).getLast? := by
    rw [hleads.last_eq, Option.or_none]
  have hkinds : (lexemes none text).filterMap Lexeme.kind? =
      given.filterMap Lexeme.kind? ++ [.endOfInput] := by
    rw [hleads.lexemes_eq, hrest, List.filterMap_append]
    rfl
  rw [hkinds, hlast]
  constructor
  · rintro ⟨front, kind, hsplit, hkind⟩
    refine ⟨kind, ?_, hkind⟩
    rw [List.append_cons front, List.append_cancel_right_eq] at hsplit
    rw [hsplit, Option.mem_def, List.getLast?_concat]
  · rintro ⟨kind, hmem, hkind⟩
    obtain ⟨front, hfront⟩ := List.getLast?_eq_some_iff.mp hmem
    refine ⟨front, kind, ?_, hkind⟩
    rw [hfront, List.append_assoc, List.singleton_append]

/-- The tokens of a text without faults end with a line break, or with a token after which the line
break is dropped, and then the end of the input, unless the text ends in a comment that takes the
added line break in.  The tokens then end so only if the last one before the comment is such a
token. -/
theorem isTerminated_tokenize_iff {text : List Char} {tokens : List Token}
    (h : tokenize text = .ok tokens) :
    IsTerminated (tokens.map Token.kind) ↔
      ∀ last, EndsInComment text last → ∃ kind ∈ last, kind.EndsLine := by
  have hlexemes := lexemes_of_tokenize h
  have hkinds : tokens.map Token.kind =
      (lexemes none (logicalText text)).filterMap Lexeme.kind? := by
    rw [hlexemes, List.filterMap_map]
    exact (congrFun List.filterMap_eq_map tokens).symm
  rw [hkinds]
  constructor
  · rintro hterminated last ⟨given, comment, hleads, hcomment⟩
    exact (isTerminated_iff_of_leads hleads (lexemes_of_isComment hcomment last)).mp hterminated
  · intro hcomments
    cases ends_of_isEnded (isEnded_logicalText text) (logicalText_ne_nil text) none with
    | lineBreak hleads hkind =>
      exact (isTerminated_iff_of_leads hleads (lexemes_nil _)).mpr ⟨_, rfl, hkind⟩
    | comment hleads hcomment =>
      exact (isTerminated_iff_of_leads hleads (lexemes_of_isComment hcomment _)).mpr
        (hcomments _ ⟨_, _, hleads, hcomment⟩)
    | quote hopen =>
      rw [hlexemes] at hopen
      obtain ⟨t, -, ht⟩ := List.mem_map.mp hopen
      cases ht

theorem isTerminated_tokenize_iff_afterComment :
    ∃ tokens, tokenize "a # b".toList = .ok tokens ∧
      (IsTerminated (tokens.map Token.kind) ↔
        ∀ last, EndsInComment "a # b".toList last → ∃ kind ∈ last, kind.EndsLine) := by
  have hlexemes : lexemes none (logicalText "a # b".toList) =
      [(.symbol, "a"), (.newline, "\n"), (.endOfInput, "")].map fun s => .token s.1 s.2 := by
    simp only [List.map_cons, List.map_nil]
    cbv
  obtain ⟨tokens, htokens, -⟩ := tokenize_of_lexemes hlexemes
  exact ⟨tokens, htokens, isTerminated_tokenize_iff htokens⟩

/-- A backslash at the end of a comment that ends the text leaves the last statement open. -/
theorem not_isTerminated_openComment :
    ∃ tokens, tokenize "a # b\\".toList = .ok tokens ∧
      tokens.map Token.kind = [.symbol, .endOfInput] ∧ ¬IsTerminated (tokens.map Token.kind) := by
  have hlexemes : lexemes none (logicalText "a # b\\".toList) =
      [(.symbol, "a"), (.endOfInput, "")].map fun s => .token s.1 s.2 := by
    simp only [List.map_cons, List.map_nil]
    cbv
  obtain ⟨tokens, htokens, hspellings⟩ := tokenize_of_lexemes hlexemes
  have hkinds : tokens.map Token.kind = [.symbol, .endOfInput] := by
    have hfirst := congrArg (List.map Prod.fst) hspellings
    rwa [List.map_map] at hfirst
  refine ⟨tokens, htokens, hkinds, ?_⟩
  rintro ⟨front, last, hsplit, hlast⟩
  have hsplit' : [] ++ [TokenKind.symbol, .endOfInput] = front ++ [last, .endOfInput] :=
    hkinds.symm.trans hsplit
  cases List.append_inj_right' hsplit' rfl
  obtain hnewline | hcontinues := hlast
  · cases hnewline
  · cases hcontinues

end LispShell
