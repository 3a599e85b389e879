import LispShell.Proofs.Lexer
import LispShell.Proofs.Scan
import Mathlib.Data.List.TakeWhile

set_option autoImplicit false

/-!
# Scanning and looking ahead

Scanning a whole text character by character finds the same at its front as the look-ahead of
`Lexer.front`, as long as the text ends in a line break: then no mode runs out of characters in the
middle of an operator or a symbol.

Scanning passes over blanks and comments on its way to a token, where `Lexer.front` stops at each.
So the two are compared by the tokens that follow, in `Lexer.lexemes_scanText`.
-/

namespace LispShell

open ScanState

/-! ## Texts that end in a line break -/

/-- The text is empty or ends in a line break. -/
def IsEnded (text : List Char) : Prop :=
  ∀ c ∈ text.getLast?, c = '\n'

namespace IsEnded

theorem of_suffix {text rest : List Char} (h : IsEnded text) (hrest : rest <:+ text) :
    IsEnded rest := by
  obtain ⟨front, rfl⟩ := hrest
  intro c hc
  apply h
  rw [List.getLast?_append, Option.mem_def.mp hc]
  rfl

theorem tail {c : Char} {text : List Char} (h : IsEnded (c :: text)) : IsEnded text :=
  h.of_suffix (List.suffix_cons c text)

theorem exists_cons {c : Char} {text : List Char} (h : IsEnded (c :: text)) (hc : c ≠ '\n') :
    ∃ d more, text = d :: more := by
  cases text with
  | nil => exact absurd (h c rfl) hc
  | cons d more => exact ⟨d, more, rfl⟩

/-- A line break ends every symbol. -/
theorem dropWhile_ne_nil {text : List Char} (h : IsEnded text) (hne : text ≠ []) :
    text.dropWhile (!endsSymbol ·) ≠ [] := by
  intro hnil
  rw [List.dropWhile_eq_nil_iff] at hnil
  have hmem := List.getLast_mem hne
  have hlast : text.getLast hne = '\n' := h _ (List.getLast?_eq_some_getLast hne)
  rw [hlast] at hmem
  exact absurd (hnil _ hmem) (by decide)

end IsEnded

/-! ## Scanning as looking ahead -/

namespace Lexer

variable (previous : Option TokenKind)

/-- What scanning a whole text has found at its front. -/
def ofProgress : Progress → Front
  | .dry mode _ => if mode.isQuoted then .unterminated else .nothing
  | .complete kind text rest => .token (refinedKind kind text) (canonicalText kind text) rest
  | .rejected rest => .unexpected rest

theorem scanText_symbol {text : List Char} :
    ∀ held, text.dropWhile (!endsSymbol ·) ≠ [] →
      scanText previous .symbol held text =
        .complete .symbol (held.reverse ++ text.takeWhile (!endsSymbol ·))
          (text.dropWhile (!endsSymbol ·)) := by
  induction text with
  | nil => intro held h; exact absurd rfl h
  | cons c text ih =>
    intro held h
    cases hc : endsSymbol c with
    | true => simp [scanText, Mode.move, Mode.symbolMove, hc]
    | false =>
      simp only [List.dropWhile_cons, hc, Bool.not_false, if_true] at h ⊢
      simp only [scanText, Mode.move, Mode.symbolMove, hc, Bool.false_eq_true, if_false]
      rw [ih _ h]
      simp [hold, hc]

theorem ofProgress_scanText_singleQuoted {text : List Char} :
    ∀ held, ofProgress (scanText previous .singleQuoted held text) =
      match text.dropWhile (· != '\'') with
      | [] => .unterminated
      | _ :: rest => .token .singleQuoted (String.ofList (held.reverse ++
          (text.takeWhile (· != '\'')).flatMap escapeBreak ++ ['\''])) rest := by
  induction text with
  | nil => intro held; rfl
  | cons c text ih =>
    intro held
    rcases eq_or_ne c '\'' with rfl | hc
    · simp [scanText, Mode.move, ofProgress, refinedKind, canonicalText, TokenKind.isOperator]
    · have hbne : (c != '\'') = true := by simpa using hc
      simp only [scanText, Mode.move, if_neg hc, ih, List.dropWhile_cons, hbne, if_true,
        List.takeWhile_cons, List.flatMap_cons]
      split
      · rfl
      · by_cases hbreak : c = '\n'
        · simp [hold, escapeBreak, hbreak]
        · simp [hold, escapeBreak, hbreak]

/-- Scanning between double quotes; `inside` is the mode there, and whether the next character is
escaped. -/
theorem ofProgress_scanText_doubleQuoted (kind : TokenKind) (inside : Bool → Mode)
    (hmove : ∀ escaping c, (inside escaping).move c = Mode.quotedMove kind inside escaping c)
    (hquoted : ∀ escaping, (inside escaping).isQuoted = true)
    (hsingle : ∀ escaping, inside escaping ≠ .singleQuoted)
    (hliteral : ∀ text, refinedKind kind text = kind ∧
      canonicalText kind text = String.ofList text) (text : List Char) :
    ∀ held, ofProgress (scanText previous (inside false) held text) =
      doubleQuoted kind held.reverse text := by
  have hhold : ∀ escaping c held, hold (inside escaping) c [] held = c :: held := by
    intro escaping c held
    simp [hold, hsingle escaping]
  have hescaped : ∀ c, (inside true).move c = .take (inside false) := fun c => hmove true c
  have hslash : (inside false).move '\\' = .take (inside true) := hmove false '\\'
  have hquote : (inside false).move '"' = .close kind := hmove false '"'
  have hplain : ∀ c, c ≠ '"' → c ≠ '\\' → (inside false).move c = .take (inside false) := by
    intro c h₁ h₂
    simp [hmove, Mode.quotedMove, h₁, h₂]
  unfold doubleQuoted
  induction text using splitQuoted?.induct with
  | case1 =>
    intro held
    simp [scanText, ofProgress, hquoted, splitQuoted?]
  | case2 =>
    intro held
    simp [scanText, hslash, ofProgress, hquoted, splitQuoted?]
  | case3 c text ih =>
    intro held
    simp only [scanText, hslash, hescaped, hhold, splitQuoted?_escape, ih]
    cases splitQuoted? text with
    | none => rfl
    | some split => simp only [List.reverse_cons, List.append_assoc, List.cons_append,
        List.nil_append, Option.map_some]
  | case4 text =>
    intro held
    simp [scanText, hquote, ofProgress, hliteral]
  | case5 c text hlast hescape hne ih =>
    intro held
    have hc : c ≠ '\\' := by
      intro hc
      cases text with
      | nil => exact hlast hc rfl
      | cons d text => exact hescape d text hc rfl
    simp only [scanText, hplain c hne hc, hhold, splitQuoted?_cons hne hc, ih]
    cases splitQuoted? text with
    | none => rfl
    | some split => simp only [List.reverse_cons, List.append_assoc, List.cons_append,
        List.nil_append, Option.map_some]

/-- Scanning in a comment after the character `before`: at its end the comment is forgotten. -/
theorem scanText_comment (text : List Char) :
    ∀ before held, match afterComment before text with
      | [] => ∃ mode held', mode.isQuoted = false ∧
          scanText previous (.comment (before = '\\')) held text = .dry mode held'
      | c :: rest => scanText previous (.comment (before = '\\')) held text =
          scanText previous .start [] (c :: rest) := by
  induction text with
  | nil =>
    intro before held
    exact ⟨_, held, rfl, rfl⟩
  | cons c text ih =>
    intro before held
    rw [afterComment]
    by_cases hend : c = '\n' ∧ before ≠ '\\'
    · obtain ⟨rfl, hbefore⟩ := hend
      simp [scanText, Mode.move, Mode.firstMove, hbefore]
    · rw [if_neg hend]
      have hmove : (Mode.comment (before = '\\')).move c = .take (.comment (c = '\\')) := by
        simp only [Mode.move]
        rw [if_neg]
        simpa using hend
      simp only [scanText, hmove]
      exact ih c _

/-! ### Operators

Scanning finds the spelling that is looked up.  For each character that begins an operator there are
the characters after it that make a longer one, and any other, before which it ends. -/

/-- An operator of the list is given with its kind and by its name. -/
theorem ofProgress_complete_operator (rest : List Char) : ∀ o ∈ spellings,
    ofProgress (.complete o.2 o.1 rest) = .token o.2 (nameOf o.1) rest := by
  have hnames : ∀ o ∈ spellings,
      refinedKind o.2 o.1 = o.2 ∧ canonicalText o.2 o.1 = nameOf o.1 := by decide
  intro o ho
  obtain ⟨hkind, hname⟩ := hnames o ho
  simp only [ofProgress, hkind, hname]

theorem ofProgress_eq_unquoted {c : Char} {text spelling rest : List Char} {kind : TokenKind}
    (hscan : scanText previous .start [] (c :: text) = .complete kind spelling rest)
    (hsplit : c :: text = spelling ++ rest) (hstandalone : standalone? c = none)
    (hlookup : operator? (c :: text) = some (spelling, kind)) :
    ofProgress (scanText previous .start [] (c :: text)) = unquoted c text := by
  have hmem := List.mem_of_find?_eq_some hlookup
  simp only [unquoted, hstandalone, hlookup]
  rw [hscan, ofProgress_complete_operator rest _ hmem, hsplit, List.drop_left]

theorem ofProgress_colon (d : Char) (more : List Char) :
    ofProgress (scanText previous .start [] (':' :: d :: more)) =
      unquoted ':' (d :: more) := by
  rcases eq_or_ne ':' d with rfl | hcolon
  · rfl
  have hscan : scanText previous .start [] (':' :: d :: more) =
      .complete .colon [':'] (d :: more) := by
    simp [scanText, Mode.move, Mode.firstMove, hold, Ne.symm hcolon]
  have hlookup : operator? (':' :: d :: more) = some ([':'], .colon) := by
    simp [operator?, spellings, List.isPrefixOf, hcolon]
  exact ofProgress_eq_unquoted previous hscan rfl rfl hlookup

theorem ofProgress_ampersand (d : Char) (more : List Char) :
    ofProgress (scanText previous .start [] ('&' :: d :: more)) =
      unquoted '&' (d :: more) := by
  rcases eq_or_ne '&' d with rfl | hampersand
  · rfl
  have hscan : scanText previous .start [] ('&' :: d :: more) =
      .complete .background ['&'] (d :: more) := by
    simp [scanText, Mode.move, Mode.firstMove, hold, Ne.symm hampersand]
  have hlookup : operator? ('&' :: d :: more) = some (['&'], .background) := by
    simp [operator?, spellings, List.isPrefixOf, hampersand]
  exact ofProgress_eq_unquoted previous hscan rfl rfl hlookup

theorem ofProgress_pipe (d : Char) (more : List Char) :
    ofProgress (scanText previous .start [] ('|' :: d :: more)) =
      unquoted '|' (d :: more) := by
  rcases eq_or_ne '+' d with rfl | hplus
  · rfl
  rcases eq_or_ne '|' d with rfl | hpipe
  · rfl
  have hscan : scanText previous .start [] ('|' :: d :: more) =
      .complete .pipe ['|'] (d :: more) := by
    simp [scanText, Mode.move, Mode.firstMove, hold, Ne.symm hplus, Ne.symm hpipe]
  have hlookup : operator? ('|' :: d :: more) = some (['|'], .pipe) := by
    simp [operator?, spellings, List.isPrefixOf, hplus, hpipe]
  exact ofProgress_eq_unquoted previous hscan rfl rfl hlookup

theorem ofProgress_greater (d : Char) (more : List Char) :
    ofProgress (scanText previous .start [] ('>' :: d :: more)) =
      unquoted '>' (d :: more) := by
  rcases eq_or_ne '(' d with rfl | hparen
  · rfl
  rcases eq_or_ne '>' d with rfl | hgreater
  · rfl
  have hscan : scanText previous .start [] ('>' :: d :: more) =
      .complete .redirect ['>'] (d :: more) := by
    simp [scanText, Mode.move, Mode.firstMove, hold, Ne.symm hparen, Ne.symm hgreater]
  have hlookup : operator? ('>' :: d :: more) = some (['>'], .redirect) := by
    simp [operator?, spellings, List.isPrefixOf, hparen, hgreater]
  exact ofProgress_eq_unquoted previous hscan rfl rfl hlookup

theorem ofProgress_bang_pipe (d : Char) (more : List Char) :
    ofProgress (scanText previous .start [] ('!' :: '|' :: d :: more)) =
      unquoted '!' ('|' :: d :: more) := by
  rcases eq_or_ne '+' d with rfl | hplus
  · rfl
  rcases eq_or_ne '|' d with rfl | hpipe
  · rfl
  have hscan : scanText previous .start [] ('!' :: '|' :: d :: more) =
      .complete .pipe ['!', '|'] (d :: more) := by
    simp [scanText, Mode.move, Mode.firstMove, hold, Ne.symm hplus, Ne.symm hpipe]
  have hlookup : operator? ('!' :: '|' :: d :: more) = some (['!', '|'], .pipe) := by
    simp [operator?, spellings, List.isPrefixOf, hplus, hpipe]
  exact ofProgress_eq_unquoted previous hscan rfl rfl hlookup

theorem ofProgress_bang_greater (d : Char) (more : List Char) :
    ofProgress (scanText previous .start [] ('!' :: '>' :: d :: more)) =
      unquoted '!' ('>' :: d :: more) := by
  rcases eq_or_ne '>' d with rfl | hgreater
  · rfl
  have hscan : scanText previous .start [] ('!' :: '>' :: d :: more) =
      .complete .redirect ['!', '>'] (d :: more) := by
    simp [scanText, Mode.move, Mode.firstMove, hold, Ne.symm hgreater]
  have hlookup : operator? ('!' :: '>' :: d :: more) = some (['!', '>'], .redirect) := by
    simp [operator?, spellings, List.isPrefixOf, hgreater]
  exact ofProgress_eq_unquoted previous hscan rfl rfl hlookup

/-- A `<` is half of an operator and nothing by itself. -/
theorem ofProgress_less (d : Char) (more : List Char) :
    ofProgress (scanText previous .start [] ('<' :: d :: more)) = unquoted '<' (d :: more) := by
  rcases eq_or_ne '(' d with rfl | hparen
  · rfl
  have hscan : scanText previous .start [] ('<' :: d :: more) = .rejected (d :: more) := by
    simp [scanText, Mode.move, Mode.firstMove, Ne.symm hparen]
  have hlookup : operator? ('<' :: d :: more) = none := by
    simp [operator?, spellings, List.isPrefixOf, hparen]
  rw [hscan, unquoted, hlookup]
  rfl

/-! ### Symbols -/

/-- A symbol is refined to what its characters make it. -/
theorem ofProgress_complete_symbol {c : Char} (hc : c ≠ '}') (chars rest : List Char) :
    ofProgress (.complete .symbol (c :: chars) rest) =
      .token (wordKind (c :: chars)) (String.ofList (c :: chars)) rest := by
  have hbrace : c :: chars ≠ ['}'] := by
    intro h
    exact hc (List.cons.inj h).1
  have hkind : refinedKind .symbol (c :: chars) = wordKind (c :: chars) := by
    simp only [refinedKind, wordKind, List.contains_iff_mem, if_neg hbrace, true_and]
    by_cases hleft : c :: chars = ['{']
    · simp [hleft]
    · simp only [if_neg hleft]
  simp only [ofProgress, hkind]
  rfl

theorem ofProgress_scanText_word {c : Char} (hc : c ≠ '}') {text : List Char}
    (hended : text.dropWhile (!endsSymbol ·) ≠ []) :
    ofProgress (scanText previous .symbol [c] text) = word c text := by
  rw [scanText_symbol previous [c] hended]
  exact ofProgress_complete_symbol hc _ _

theorem operator?_eq_none {c : Char} (hcolon : c ≠ ':') (hampersand : c ≠ '&') (hpipe : c ≠ '|')
    (hgreater : c ≠ '>') (hless : c ≠ '<') (hbang : c ≠ '!') (text : List Char) :
    operator? (c :: text) = none := by
  simp [operator?, spellings, List.isPrefixOf, Ne.symm hcolon, Ne.symm hampersand, Ne.symm hpipe,
    Ne.symm hgreater, Ne.symm hless, Ne.symm hbang]

theorem operator?_bang_eq_none {d : Char} (hpipe : d ≠ '|') (hgreater : d ≠ '>')
    (more : List Char) : operator? ('!' :: d :: more) = none := by
  simp [operator?, spellings, List.isPrefixOf, Ne.symm hpipe, Ne.symm hgreater]

/-- An exclamation mark that begins neither an operator nor a quote begins a symbol. -/
theorem ofProgress_bang {d : Char} (hquote : d ≠ '"') (hpipe : d ≠ '|') (hgreater : d ≠ '>')
    {more : List Char} (hended : IsEnded (d :: more)) :
    ofProgress (scanText previous .start [] ('!' :: d :: more)) = unquoted '!' (d :: more) := by
  have hmove : Mode.bang.move d = Mode.symbol.move d := by
    simp [Mode.move, hquote, hpipe, hgreater]
  have hscan : scanText previous .start [] ('!' :: d :: more) =
      scanText previous .symbol ['!'] (d :: more) := by
    have hfirst : Mode.start.move '!' = .take .bang := rfl
    simp only [scanText, hfirst, hmove]
    rfl
  rw [hscan, ofProgress_scanText_word previous (by decide)
    (hended.dropWhile_ne_nil (List.cons_ne_nil d more)), unquoted,
    operator?_bang_eq_none hpipe hgreater]
  rfl

/-- Scanning text that begins with none of a blank, a comment, a line break and a quote. -/
theorem ofProgress_scanText_unquoted {c : Char} {text : List Char} (hended : IsEnded (c :: text))
    (hblank : ¬(c = ' ' ∨ c = '\t')) (hcomment : c ≠ '#') (hbreak : c ≠ '\n') (hsingle : c ≠ '\'')
    (hdouble : c ≠ '"') (hbangDouble : ¬(c = '!' ∧ text.head? = some '"')) :
    ofProgress (scanText previous .start [] (c :: text)) = unquoted c text := by
  obtain ⟨d, more, rfl⟩ := hended.exists_cons hbreak
  rcases eq_or_ne c ':' with rfl | hcolon
  · exact ofProgress_colon previous d more
  rcases eq_or_ne c '&' with rfl | hampersand
  · exact ofProgress_ampersand previous d more
  rcases eq_or_ne c '|' with rfl | hpipe
  · exact ofProgress_pipe previous d more
  rcases eq_or_ne c '>' with rfl | hgreater
  · exact ofProgress_greater previous d more
  rcases eq_or_ne c '<' with rfl | hless
  · exact ofProgress_less previous d more
  rcases eq_or_ne c '!' with rfl | hbang
  · have hquote : d ≠ '"' := by simpa using hbangDouble
    rcases eq_or_ne d '|' with rfl | hpipe
    · obtain ⟨e, more, rfl⟩ := hended.tail.exists_cons (by decide)
      exact ofProgress_bang_pipe previous e more
    rcases eq_or_ne d '>' with rfl | hgreater
    · obtain ⟨e, more, rfl⟩ := hended.tail.exists_cons (by decide)
      exact ofProgress_bang_greater previous e more
    exact ofProgress_bang previous hquote hpipe hgreater hended.tail
  have hlookup := operator?_eq_none hcolon hampersand hpipe hgreater hless hbang (d :: more)
  cases hstandalone : standalone? c with
  | some kind =>
    unfold standalone? at hstandalone
    split at hstandalone
    all_goals first | rfl | exact absurd hstandalone (by simp)
  | none =>
    have hmove : Mode.start.move c = .take .symbol := by
      change Mode.firstMove c = .take .symbol
      unfold Mode.firstMove
      split <;> simp_all [standalone?]
    have hbrace : c ≠ '}' := by
      rintro rfl
      exact absurd hstandalone (by simp [standalone?])
    have hscan : scanText previous .start [] (c :: d :: more) =
        scanText previous .symbol [c] (d :: more) := by
      simp only [scanText, hmove]
      rfl
    rw [hscan, ofProgress_scanText_word previous hbrace
      (hended.tail.dropWhile_ne_nil (List.cons_ne_nil d more)), unquoted, hstandalone, hlookup]
    simp only [if_neg hless]

/-! ## All fronts -/

theorem ofProgress_scanText_plain (text : List Char) :
    ofProgress (scanText previous .start [] ('"' :: text)) =
      doubleQuoted .doubleQuoted ['"'] text := by
  have hsingle : ∀ escaping, Mode.doubleQuoted escaping ≠ .singleQuoted := by
    intro escaping h
    cases h
  exact ofProgress_scanText_doubleQuoted previous .doubleQuoted .doubleQuoted (fun _ _ => rfl)
    (fun _ => rfl) hsingle (fun _ => ⟨rfl, rfl⟩) text ['"']

theorem ofProgress_scanText_bangDouble {c : Char} {text : List Char}
    (h : c = '!' ∧ text.head? = some '"') :
    ofProgress (scanText previous .start [] (c :: text)) =
      doubleQuoted .bangDouble [c, '"'] text.tail := by
  obtain ⟨rfl, hhead⟩ := h
  have hsingle : ∀ escaping, Mode.bangDouble escaping ≠ .singleQuoted := by
    intro escaping h
    cases h
  cases text with
  | nil => cases hhead
  | cons d more =>
    obtain rfl : d = '"' := by simpa using hhead
    exact ofProgress_scanText_doubleQuoted previous .bangDouble .bangDouble (fun _ _ => rfl)
      (fun _ => rfl) hsingle (fun _ => ⟨rfl, rfl⟩) more ['"', '!']

/-- What scanning finds first stands past a front that gives nothing, or it is the line break or
the token at the front. -/
theorem ofProgress_scanText_cons {c : Char} {text : List Char} (hended : IsEnded (c :: text)) :
    (∃ rest, rest <:+ text ∧
        (front (c :: text) = .skipped rest ∨
          front (c :: text) = .lineBreak rest ∧ previous.any TokenKind.continuesLine = true) ∧
        ofProgress (scanText previous .start [] (c :: text)) =
          ofProgress (scanText previous .start [] rest)) ∨
      (front (c :: text) = .lineBreak text ∧ ¬previous.any TokenKind.continuesLine = true ∧
        ofProgress (scanText previous .start [] (c :: text)) = .token .newline "\n" text) ∨
      ofProgress (scanText previous .start [] (c :: text)) = front (c :: text) := by
  rw [front]
  split_ifs with hblank hcomment hbreak hsingle hdouble hbangDouble
  · refine .inl ⟨text, List.suffix_refl _, .inl rfl, ?_⟩
    rcases hblank with rfl | rfl
    · rfl
    · rfl
  · subst hcomment
    refine .inl ⟨afterComment '#' text, afterComment_suffix text '#', .inl rfl, ?_⟩
    have hscan := scanText_comment previous text '#' ['#']
    have hstart : scanText previous .start [] ('#' :: text) =
        scanText previous (.comment ('#' = '\\')) ['#'] text := rfl
    rw [hstart]
    cases hafter : afterComment '#' text with
    | nil =>
      rw [hafter] at hscan
      obtain ⟨mode, held, hmode, hdry⟩ := hscan
      rw [hdry, ofProgress, hmode]
      rfl
    | cons d rest =>
      rw [hafter] at hscan
      rw [hscan]
  · subst hbreak
    have hstart : scanText previous .start [] ('\n' :: text) =
        if previous.any TokenKind.continuesLine then scanText previous .start [] text
        else .complete .newline ['\n'] text := rfl
    rw [hstart]
    split
    · rename_i hcontinues
      exact .inl ⟨text, List.suffix_refl _, .inr ⟨rfl, hcontinues⟩, rfl⟩
    · rename_i hcontinues
      exact .inr (.inl ⟨rfl, hcontinues, rfl⟩)
  · subst hsingle
    exact .inr (.inr (ofProgress_scanText_singleQuoted previous ['\'']))
  · subst hdouble
    exact .inr (.inr (ofProgress_scanText_plain previous text))
  · exact .inr (.inr (ofProgress_scanText_bangDouble previous hbangDouble))
  · exact .inr (.inr (ofProgress_scanText_unquoted previous hended hblank hcomment hbreak hsingle
      hdouble hbangDouble))

/-- What scanning finds first and the tokens after it are the tokens of the text. -/
theorem lexemes_scanText {text : List Char} (hended : IsEnded text) :
    (ofProgress (scanText previous .start [] text)).lexemes previous = lexemes previous text := by
  induction hlength : text.length using Nat.strong_induction_on generalizing text with
  | _ n ih =>
  subst hlength
  cases text with
  | nil => rw [lexemes_nil]; rfl
  | cons c text =>
    rw [lexemes_eq]
    obtain ⟨rest, hsuffix, hfront, hprogress⟩ | ⟨hfront, hcontinues, hprogress⟩ | hprogress :=
      ofProgress_scanText_cons previous hended
    · have hnext :=
        ih _ (Nat.lt_succ_of_le hsuffix.length_le) (hended.tail.of_suffix hsuffix) rfl
      rw [hprogress, hnext]
      obtain hfront | ⟨hfront, hcontinues⟩ := hfront
      · rw [hfront, Front.lexemes]
      · rw [hfront, Front.lexemes, if_pos hcontinues]
    · rw [hprogress, hfront, Front.lexemes, Front.lexemes, if_neg hcontinues]
    · rw [hprogress]

end Lexer

end LispShell
