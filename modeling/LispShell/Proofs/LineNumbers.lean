import LispShell.Proofs.LineCount

set_option autoImplicit false

/-!
# The line numbers of tokens

In a text without faults each token has the number of the line that the character stands in which
ended the token: its own last character, or the first one after it if it takes look-ahead.  The end
of the input has the number of the last line, and the numbers never decrease.

The calls of a scanner go through the logical text from one token to the next, and each token is
counted by a character there (`Numbered`).  What is said of the numbers of the tokens then follows
from the order of the characters (`lineNumbers_of_tokenize`).
-/

namespace LispShell

open ScanState Lexer

/-! ## Going through a text -/

namespace Lexer

/-- What scanning finds first stands at a front, past what is passed over. -/
theorem exists_leads_of_scanText {previous : Option TokenKind} {text rest : List Char}
    {kind : TokenKind} {name : String} (hended : IsEnded text)
    (h : ofProgress (scanText previous .start [] text) = .token kind name rest) :
    ∃ here, Leads previous text [] previous here ∧
      (front here).past? previous = some ([.token kind name], some kind, rest) := by
  -- A comment is passed over as a whole, so the induction is on the length.
  induction hlength : text.length using Nat.strong_induction_on generalizing text with
  | _ n ih =>
  subst hlength
  cases text with
  | nil => cases h
  | cons c text =>
    obtain ⟨after, hsuffix, hfront, hprogress⟩ | ⟨hfront, hcontinues, hprogress⟩ | hprogress :=
      ofProgress_scanText_cons previous hended
    · rw [hprogress] at h
      obtain ⟨here, hleads, hhere⟩ :=
        ih _ (Nat.lt_succ_of_le hsuffix.length_le) (hended.tail.of_suffix hsuffix) h rfl
      have hpast : (front (c :: text)).past? previous = some ([], previous, after) := by
        obtain hfront | ⟨hfront, hcontinues⟩ := hfront
        · rw [hfront, Front.past?]
        · rw [hfront, Front.past?, if_pos hcontinues]
      exact ⟨here, .past hpast hleads, hhere⟩
    · rw [hprogress] at h
      cases h
      refine ⟨_, .refl, ?_⟩
      rw [hfront, Front.past?, if_neg hcontinues]
    · refine ⟨_, .refl, ?_⟩
      rw [← hprogress, h, Front.past?]

end Lexer

/-! ## All calls -/

/-- The tokens of a text whose characters have these line numbers, after a token of kind `previous`;
`last` is the number of the last line.  Each token stands past the ones before it, and is counted by
the character that ended it. -/
inductive Numbered (last : Nat) :
    Option TokenKind → List Char → List Nat → List Token → Prop where
  | finish {previous : Option TokenKind} {text : List Char} {numbers : List Nat} :
      Numbered last previous text numbers [⟨.endOfInput, "", last⟩]
  | token {previous : Option TokenKind} {text here rest : List Char} {numbers after : List Nat}
      {t : Token} {tokens : List Token} (hleads : Leads previous text [] previous here)
      (hhere : (front here).past? previous = some ([.token t.kind t.text], some t.kind, rest))
      (hlength : after.length = rest.length) (hcounted : t.Counted numbers after)
      (hnext : Numbered last (some t.kind) rest after tokens) :
      Numbered last previous text numbers (t :: tokens)

namespace Scanner

variable {s : Scanner} {previous : Option TokenKind} {text : List Char} {tokens : List Token}

theorem length_numbers_of_lines {reads : List Read} (h : Lines reads) :
    ∀ line, (Read.numbers line reads).length = (logicalOf reads ++ ['\n']).length := by
  induction h with
  | nil => exact fun _ => rfl
  | last => exact fun line => by simp [Read.numbers, Read.last, logicalOf]
  | line _ _ ih =>
    intro line
    simp only [Read.numbers, List.length_append, List.length_replicate, ih, logicalOf,
      List.flatMap_cons]
    omega

theorem Between.length_numbers (h : s.Between previous text) : s.numbers.length = text.length := by
  rw [← h.toCome_eq, numbers, toCome, List.length_append, List.length_append, List.length_replicate]
  split
  · rfl
  · rw [length_numbers_of_lines h.lines]

theorem Between.counts_nextToken (h : s.Between previous text) :
    s.nextToken.Counts s.numbers s.lastLine := by
  refine Scanner.counts_nextToken ?_ h.lines
  rw [h.mode_eq, h.held_eq]
  exact Mode.spells_start

/-- A token that a call gives is the end of the input, or the one that scanning finds first. -/
theorem Between.eq_end_or_exists_rest (h : s.Between previous text) {t : Token}
    (ht : s.nextToken.result = .ok t) :
    (t.kind = .endOfInput ∧ t.text = "") ∨ t.kind ≠ .endOfInput ∧
      ∃ rest, ofProgress (scanText previous .start [] text) = .token t.kind t.text rest ∧
        rest <:+ text ∧ s.nextToken.scanner.Between (some t.kind) rest := by
  have hlexeme : s.nextToken.lexeme = .token t.kind t.text := by
    rw [Reply.lexeme, ht]
    rfl
  have hfollows := h.follows_nextToken
  have hsuffix := rest_scanText_suffix previous text .start []
  cases hprogress : scanText previous .start [] text with
  | dry mode held =>
    rw [hprogress, ofProgress] at hfollows
    split at hfollows
    · cases hlexeme.symm.trans hfollows.1
    · obtain ⟨hkind, htext⟩ := Lexeme.token.inj (hlexeme.symm.trans hfollows)
      exact .inl ⟨hkind, htext⟩
  | complete kind chars rest =>
    rw [hprogress] at hfollows hsuffix
    obtain ⟨hgiven, hbetween⟩ := hfollows
    obtain ⟨hkind, htext⟩ := Lexeme.token.inj (hlexeme.symm.trans hgiven)
    rw [hkind, htext]
    have hne := refinedKind_ne_endOfInput (kind_ne_endOfInput_of_scanText hprogress) chars
    exact .inr ⟨hne, rest, rfl, hsuffix, hbetween⟩
  | rejected rest =>
    rw [hprogress] at hfollows
    cases hlexeme.symm.trans hfollows.1

/-- The calls up to the end, if they give tokens only. -/
theorem exists_of_mapM_drain (h : s.drain.mapM Reply.result = .ok tokens) :
    ∃ t, s.nextToken.result = .ok t ∧
      (t.kind = .endOfInput ∧ tokens = [t] ∨
        t.kind ≠ .endOfInput ∧ ∃ later, tokens = t :: later ∧
          s.nextToken.scanner.drain.mapM Reply.result = .ok later) := by
  rw [drain] at h
  cases hresult : s.nextToken.result with
  | error e =>
    have hopen : s.nextToken.isEnd = false := by rw [Reply.isEnd, hresult]
    rw [dif_neg (by simp [hopen]), List.mapM_cons, hresult] at h
    cases h
  | ok t =>
    refine ⟨t, rfl, ?_⟩
    have hisEnd : s.nextToken.isEnd = (t.kind == .endOfInput) := by rw [Reply.isEnd, hresult]
    by_cases hend : t.kind = .endOfInput
    · rw [dif_pos (by simp [hisEnd, hend]), List.mapM_cons, hresult] at h
      cases h
      exact .inl ⟨hend, rfl⟩
    · rw [dif_neg (by simp [hisEnd, hend]), List.mapM_cons, hresult] at h
      cases hlater : s.nextToken.scanner.drain.mapM Reply.result with
      | error e =>
        rw [hlater] at h
        cases h
      | ok later =>
        rw [hlater] at h
        cases h
        exact .inr ⟨hend, later, rfl, rfl⟩

/-- All calls of a scanner between tokens number the tokens of the text to come. -/
theorem Between.numbered (h : s.Between previous text) (hended : IsEnded text)
    (htokens : s.drain.mapM Reply.result = .ok tokens) :
    Numbered s.lastLine previous text s.numbers tokens := by
  induction tokens generalizing s previous text with
  | nil =>
    obtain ⟨t, -, ⟨-, hnil⟩ | ⟨-, later, hnil, -⟩⟩ := exists_of_mapM_drain htokens
    · cases hnil
    · cases hnil
  | cons t later ih =>
    obtain ⟨t', ht, hrest⟩ := exists_of_mapM_drain htokens
    have hcounts := h.counts_nextToken
    have htoken := hcounts.token t' ht
    obtain ⟨hkind, htext⟩ | ⟨hkind, rest, hprogress, hsuffix, hbetween⟩ :=
      h.eq_end_or_exists_rest ht
    · rw [if_pos hkind] at htoken
      obtain ⟨-, heq⟩ | ⟨hne, -⟩ := hrest
      · cases heq
        obtain ⟨kind, name, line⟩ := t
        cases hkind
        cases htext
        cases htoken
        exact .finish
      · exact absurd hkind hne
    · rw [if_neg hkind] at htoken
      obtain ⟨hend, -⟩ | ⟨-, later', heq, hlater⟩ := hrest
      · exact absurd hend hkind
      · cases heq
        obtain ⟨here, hleads, hhere⟩ := exists_leads_of_scanText hended hprogress
        have hnext := ih hbetween (hended.of_suffix hsuffix) hlater
        rw [hcounts.lastLine] at hnext
        exact .token hleads hhere hbetween.length_numbers htoken hnext

end Scanner

/-! ## The numbers of the tokens -/

section

variable {last : Nat} {previous : Option TokenKind} {text : List Char} {numbers : List Nat}
  {tokens : List Token}

namespace Numbered

theorem getLast?_eq (h : Numbered last previous text numbers tokens) :
    tokens.getLast? = some ⟨.endOfInput, "", last⟩ := by
  induction h with
  | finish => rfl
  | token _ _ _ _ _ ih => rw [List.getLast?_cons, ih]; rfl

theorem line_mem (h : Numbered last previous text numbers tokens) :
    ∀ t ∈ tokens, t.line ∈ numbers ∨ t.line = last := by
  induction h with
  | finish =>
    intro t ht
    rw [List.mem_singleton] at ht
    exact .inr (congrArg Token.line ht)
  | token _ _ _ hcounted _ ih =>
    refine List.forall_mem_cons.mpr ⟨.inl hcounted.mem, fun t ht => ?_⟩
    exact (ih t ht).imp_left (hcounted.suffix.subset ·)

/-- If the characters come in the order of their lines, so do the tokens. -/
theorem ordered (h : Numbered last previous text numbers tokens)
    (hordered : numbers.Pairwise (· ≤ ·)) (hlast : ∀ number ∈ numbers, number ≤ last) :
    (tokens.map Token.line).Pairwise (· ≤ ·) := by
  induction h with
  | finish => exact List.pairwise_singleton _ _
  | token _ _ _ hcounted hnext ih =>
    have hsuffix := hcounted.suffix
    refine List.pairwise_cons.mpr ⟨?_, ih (hordered.sublist hsuffix.sublist)
      fun number hnumber => hlast number (hsuffix.subset hnumber)⟩
    rw [List.forall_mem_map]
    intro t ht
    obtain hmem | heq := hnext.line_mem t ht
    · exact hcounted.le hordered _ hmem
    · rw [heq]
      exact hlast _ hcounted.mem

/-- The tokens before one lead to where it stands, and it is counted there. -/
theorem exists_leads (h : Numbered last previous text numbers tokens) :
    ∀ {n : Nat} {t : Token}, tokens[n]? = some t → n + 1 < tokens.length →
      ∃ kind here rest after,
        Leads previous text ((tokens.take n).map fun t => .token t.kind t.text) kind here ∧
          (front here).past? kind = some ([.token t.kind t.text], some t.kind, rest) ∧
          after.length = rest.length ∧ t.Counted numbers after := by
  induction h with
  | finish =>
    intro n t _ hn
    rw [List.length_singleton] at hn
    omega
  | @token previous text here rest numbers after t tokens hleads hhere hlength hcounted _ ih =>
    intro n u hu hn
    cases n with
    | zero =>
      cases hu
      exact ⟨previous, here, rest, after, hleads, hhere, hlength, hcounted⟩
    | succ n =>
      obtain ⟨kind, here', rest', after', hleads', hhere', hlength', hcounted'⟩ :=
        ih hu (by simpa using hn)
      exact ⟨kind, here', rest', after', hleads.trans (.past hhere hleads'), hhere', hlength',
        hcounted'.mono hcounted.suffix⟩

end Numbered

end

/-- The token stands in a logical text: its spelling comes after `before`, which gives these tokens
and faults, and before `rest`. -/
structure Token.StandsIn (t : Token) (text : List Char) (given : List Lexeme)
    (before spelling rest : List Char) : Prop where
  text_eq : text = before ++ spelling ++ rest
  ne_nil : spelling ≠ []
  isSpelling : IsSpelling t.kind t.text spelling
  leads : ∃ last, Leads none text given last (spelling ++ rest) ∧
    (front (spelling ++ rest)).past? last = some ([.token t.kind t.text], some t.kind, rest)

/-- Which character of the logical text ends a token: its own last one, or else the first after
it. -/
def Token.decider (t : Token) (before spelling : List Char) : Nat :=
  if takesLookAhead t.kind t.text then before.length + spelling.length
  else before.length + spelling.length - 1

/-- The line numbers of the tokens of a text. -/
structure LineNumbers (text : List Char) (tokens : List Token) : Prop where
  /-- a token has the line of the character that ends it -/
  token : ∀ n t, tokens[n]? = some t → n + 1 < tokens.length →
    ∃ before spelling rest place,
      t.StandsIn (logicalText text) ((tokens.take n).map fun t => .token t.kind t.text)
          before spelling rest ∧
        (places text)[t.decider before spelling]? = some place ∧
        t.line = 1 + (text.take place).count '\n'
  /-- the end of the input has the last line -/
  finish : tokens.getLast? = some ⟨.endOfInput, "", 1 + text.count '\n'⟩
  ordered : (tokens.map Token.line).Pairwise (· ≤ ·)

/-- A token that stands at a front is spelled by the characters up to the rest. -/
theorem exists_spelling_of_past? {previous : Option TokenKind} {here rest : List Char}
    {kind : TokenKind} {name : String}
    (h : (front here).past? previous = some ([.token kind name], some kind, rest)) :
    ∃ spelling, spelling ≠ [] ∧ IsSpelling kind name spelling ∧ here = spelling ++ rest := by
  have hbegins := begins_front here
  cases hfront : front here with
  | token kind' name' rest' =>
    rw [hfront] at h hbegins
    cases h
    exact hbegins
  | lineBreak rest' =>
    rw [hfront] at h hbegins
    rw [Front.past?] at h
    split at h
    · cases h
    · cases h
      exact ⟨['\n'], List.cons_ne_nil _ _, .verbatim ['\n'] rfl (by decide), hbegins⟩
  | _ =>
    rw [hfront] at h
    cases h

theorem getElem?_of_suffix {α : Type} {after numbers : List α} (h : after <:+ numbers) :
    numbers[numbers.length - after.length]? = after.head? := by
  obtain ⟨before, rfl⟩ := h
  rw [List.length_append, Nat.add_sub_cancel, List.getElem?_append_right (Nat.le_refl _),
    Nat.sub_self, List.head?_eq_getElem?]

/-- The character that decides has the number of the token. -/
theorem Token.Counted.getElem?_decider {t : Token} {numbers after : List Nat}
    {before spelling : List Char} (h : t.Counted numbers after) (hne : spelling ≠ [])
    (hlength : numbers.length = before.length + spelling.length + after.length) :
    numbers[t.decider before spelling]? = some t.line := by
  have hpos := List.length_pos_iff.mpr hne
  unfold Counted IsDecider at h
  unfold decider
  split at h
  · rename_i hlooks
    have hindex : before.length + spelling.length = numbers.length - after.length := by omega
    rw [if_pos hlooks, hindex, getElem?_of_suffix h.2, h.1]
  · rename_i hlooks
    have hindex : before.length + spelling.length - 1 =
        numbers.length - (t.line :: after).length := by
      rw [List.length_cons]
      omega
    rw [if_neg hlooks, hindex, getElem?_of_suffix h, List.head?_cons]

/-- The tokens of a text without faults have the lines of the characters that end them. -/
theorem lineNumbers_of_tokenize {text : List Char} {tokens : List Token}
    (h : tokenize text = .ok tokens) : LineNumbers text tokens := by
  have hnumbers := Scanner.numbers_ofText "<string>" text
  have hlast := Scanner.lastLine_ofText "<string>" text
  have hnumbered := (Scanner.between_ofReads "<string>" none text).numbered
    (isEnded_logicalText text) h
  rw [← Scanner.ofText, hnumbers, hlast] at hnumbered
  refine ⟨?_, hnumbered.getLast?_eq,
    hnumbered.ordered (pairwise_lineNumbers text) fun _ => le_of_mem_lineNumbers⟩
  intro n t ht hn
  obtain ⟨last, here, rest, after, hleads, hhere, hlength, hcounted⟩ := hnumbered.exists_leads ht hn
  obtain ⟨spelling, hne, hspelling, rfl⟩ := exists_spelling_of_past? hhere
  obtain ⟨before, hbefore⟩ := hleads.suffix
  have hdecider : (lineNumbers text)[t.decider before spelling]? = some t.line := by
    refine hcounted.getElem?_decider hne ?_
    rw [length_lineNumbers, ← hbefore, List.length_append, List.length_append, hlength,
      Nat.add_assoc]
  rw [lineNumbers, List.getElem?_map, Option.map_eq_some_iff] at hdecider
  obtain ⟨place, hplace, hline⟩ := hdecider
  exact ⟨before, spelling, rest, place,
    ⟨by rw [← hbefore, List.append_assoc], hne, hspelling, last, hleads, hhere⟩, hplace, hline.symm⟩

/-- An operator that is ended in the next line, quoted text over two lines, and the line break that
is added. -/
theorem lineNumbers_of_tokenize_pipe :
    tokenize "a |\\\n b 'c\nd'".toList = .ok
        [⟨.symbol, "a", 1⟩, ⟨.pipe, "pipe-stdout", 2⟩, ⟨.symbol, "b", 2⟩,
          ⟨.singleQuoted, "'c\\nd'", 3⟩, ⟨.newline, "\n", 3⟩, ⟨.endOfInput, "", 3⟩] ∧
      LineNumbers "a |\\\n b 'c\nd'".toList
        [⟨.symbol, "a", 1⟩, ⟨.pipe, "pipe-stdout", 2⟩, ⟨.symbol, "b", 2⟩,
          ⟨.singleQuoted, "'c\\nd'", 3⟩, ⟨.newline, "\n", 3⟩, ⟨.endOfInput, "", 3⟩] := by
  have htokens : tokenize "a |\\\n b 'c\nd'".toList = .ok
      [⟨.symbol, "a", 1⟩, ⟨.pipe, "pipe-stdout", 2⟩, ⟨.symbol, "b", 2⟩,
        ⟨.singleQuoted, "'c\\nd'", 3⟩, ⟨.newline, "\n", 3⟩, ⟨.endOfInput, "", 3⟩] := by
    rw [tokenize]
    iterate 5 rw [Scanner.drain, dif_neg (by decide)]
    rw [Scanner.drain, dif_pos (by decide)]
    rfl
  exact ⟨htokens, lineNumbers_of_tokenize htokens⟩

/-- A brace that stands alone and a colon are single characters of punctuation, and yet each has the
line of the character after it and not its own. -/
theorem not_lineAt_of_punctuation :
    let text := "\x7b\\\n :\\\na".toList
    tokenize text = .ok [⟨.leftBrace, "\x7b", 2⟩, ⟨.colon, ":", 3⟩, ⟨.symbol, "a", 3⟩,
        ⟨.newline, "\n", 3⟩, ⟨.endOfInput, "", 3⟩] ∧
      (text[0]? = some '\x7b' ∧ lineAt text 0 = 1) ∧ text[4]? = some ':' ∧ lineAt text 4 = 2 := by
  intro text
  refine ⟨?_, by decide, by decide⟩
  rw [tokenize]
  iterate 4 rw [Scanner.drain, dif_neg (by decide)]
  rw [Scanner.drain, dif_pos (by decide)]
  rfl

end LispShell
