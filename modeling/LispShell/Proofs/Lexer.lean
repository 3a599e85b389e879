import LispShell.Proofs.Run
import Mathlib.Tactic.SplitIfs

set_option autoImplicit false

/-!
# The tokens of a whole text

This module says which tokens a text has without a scanner: no buffer, no refills and nothing that
is remembered between two tokens but the kind of the last one.  The whole text is at hand.

First the lines of the text are joined into its logical text.  Then `front` tells what stands at the
front of the logical text, and `lexemes` goes through it from one front to the next.

Quoted text, comments and symbols are found by looking ahead for what ends them, and an operator is
looked up in a list of all spellings, in which a longer one comes before a shorter one.
-/

namespace LispShell.Lexer

/-! ## The logical text -/

/-- What a line leaves when its line break was taken off. -/
def joinedLine (line : List Char) : List Char :=
  let body := if line.getLast? = some '\r' then line.dropLast else line
  if (body.reverse.takeWhile (· == '\\')).length % 2 = 1 then body.dropLast else body ++ ['\n']

/-- The lines of a text put together; after the last there was no line break, and one is added. -/
def joinLines : List (List Char) → List Char
  | [] => []
  | [last] => last ++ ['\n']
  | line :: lines => joinedLine line ++ joinLines lines

/-- The logical text of a text. -/
def logicalText (text : List Char) : List Char :=
  joinLines (text.splitOn '\n')

/-! ## What stands at the front of a text -/

/-- What a text begins with, and the text after it. -/
inductive Front where
  | nothing
  /-- a blank or a comment -/
  | skipped (rest : List Char)
  | lineBreak (rest : List Char)
  | token (kind : TokenKind) (text : String) (rest : List Char)
  /-- a `<` that begins nothing -/
  | unexpected (rest : List Char)
  /-- a quote that is never closed -/
  | unterminated
  deriving DecidableEq, Repr, Inhabited

/-- The text after a comment: from the first line break on that does not come directly after a
backslash.  `before` is the character before the text. -/
def afterComment (before : Char) : List Char → List Char
  | [] => []
  | c :: text => if c = '\n' ∧ before ≠ '\\' then c :: text else afterComment c text

/-- A line break between single quotes is written as a backslash and an `n`. -/
def escapeBreak (c : Char) : List Char :=
  if c = '\n' then ['\\', 'n'] else [c]

/-- Text after a single quote. -/
def singleQuoted (text : List Char) : Front :=
  match text.dropWhile (· != '\'') with
  | [] => .unterminated
  | _ :: rest =>
    let body := text.takeWhile (· != '\'')
    .token .singleQuoted (String.ofList ('\'' :: body.flatMap escapeBreak ++ ['\''])) rest

/-- The text before the first double quote that no backslash escapes, and the text after it. -/
def splitQuoted? : List Char → Option (List Char × List Char)
  | [] => none
  | ['\\'] => none
  | '\\' :: c :: text => (splitQuoted? text).map fun (body, rest) => ('\\' :: c :: body, rest)
  | c :: text =>
    if c = '"' then some ([], text)
    else (splitQuoted? text).map fun (body, rest) => (c :: body, rest)

/-- Text after an opening double quote. -/
def doubleQuoted (kind : TokenKind) (opening text : List Char) : Front :=
  match splitQuoted? text with
  | none => .unterminated
  | some (body, rest) => .token kind (String.ofList (opening ++ body ++ ['"'])) rest

/-- The characters that are a token by themselves. -/
def standalone? : Char → Option TokenKind
  | '%' => some .percent
  | '(' => some .leftParen
  | ')' => some .rightParen
  | ';' => some .semicolon
  | '@' => some .atSign
  | '\x60' => some .backtick
  | '}' => some .rightBrace
  | _ => none

/-- The spellings that are looked for, the longest first, and the kinds of their tokens. -/
def spellings : List (List Char × TokenKind) :=
  [(['!', '|', '+'], .pipe),
    (['!', '|', '|'], .orElse),
    (['!', '>', '>'], .redirect),
    ([':', ':'], .cons),
    (['&', '&'], .andThen),
    (['|', '+'], .pipe),
    (['|', '|'], .orElse),
    (['!', '|'], .pipe),
    (['>', '>'], .redirect),
    (['>', '('], .substitute),
    (['!', '>'], .redirect),
    (['<', '('], .substitute),
    ([':'], .colon),
    (['&'], .background),
    (['|'], .pipe),
    (['>'], .redirect)]

/-- The longest spelling that the text begins with. -/
def operator? (text : List Char) : Option (List Char × TokenKind) :=
  spellings.find? fun o => o.1.isPrefixOf text

/-- The canonical name of an operator, and of any other spelling the spelling itself. -/
def nameOf (spelling : List Char) : String :=
  (operatorName? (String.ofList spelling)).getD (String.ofList spelling)

/-- The kind of a symbol with these characters. -/
def wordKind (word : List Char) : TokenKind :=
  if word = ['{'] then .leftBrace
  else if '{' ∈ word ∨ '}' ∈ word then .braceExpansion
  else .symbol

/-- A symbol: its first character and all up to the first that ends it. -/
def word (c : Char) (text : List Char) : Front :=
  let chars := c :: text.takeWhile (!endsSymbol ·)
  .token (wordKind chars) (String.ofList chars) (text.dropWhile (!endsSymbol ·))

/-- Text that begins with none of a blank, a comment, a line break and a quote. -/
def unquoted (c : Char) (text : List Char) : Front :=
  match standalone? c with
  | some kind => .token kind (String.singleton c) text
  | none =>
    match operator? (c :: text) with
    | some (spelling, kind) => .token kind (nameOf spelling) ((c :: text).drop spelling.length)
    | none => if c = '<' then .unexpected text else word c text

/-- What stands at the front of a text. -/
def front : List Char → Front
  | [] => .nothing
  | c :: text =>
    if c = ' ' ∨ c = '\t' then .skipped text
    else if c = '#' then .skipped (afterComment c text)
    else if c = '\n' then .lineBreak text
    else if c = '\'' then singleQuoted text
    else if c = '"' then doubleQuoted .doubleQuoted [c] text
    else if c = '!' ∧ text.head? = some '"' then doubleQuoted .bangDouble [c, '"'] text.tail
    else unquoted c text

/-! ## Going through a text -/

/-- The text after the front. -/
def Front.rest : Front → List Char
  | .nothing => []
  | .skipped rest => rest
  | .lineBreak rest => rest
  | .token _ _ rest => rest
  | .unexpected rest => rest
  | .unterminated => []

theorem afterComment_suffix (text : List Char) : ∀ before, afterComment before text <:+ text := by
  induction text with
  | nil => intro before; exact List.nil_suffix
  | cons c text ih =>
    intro before
    rw [afterComment]
    split
    · exact List.suffix_refl _
    · exact (ih c).trans (List.suffix_cons c text)

@[simp] theorem splitQuoted?_quote (text : List Char) :
    splitQuoted? ('"' :: text) = some ([], text) := rfl

@[simp] theorem splitQuoted?_escape (c : Char) (text : List Char) :
    splitQuoted? ('\\' :: c :: text) =
      (splitQuoted? text).map fun (body, rest) => ('\\' :: c :: body, rest) := rfl

theorem splitQuoted?_cons {c : Char} (hquote : c ≠ '"') (hslash : c ≠ '\\') (text : List Char) :
    splitQuoted? (c :: text) =
      (splitQuoted? text).map fun (body, rest) => (c :: body, rest) := by
  rw [splitQuoted?.eq_4 c text (fun h => absurd h hslash) (fun _ _ h => absurd h hslash),
    if_neg hquote]

theorem length_of_splitQuoted? {text body rest : List Char}
    (h : splitQuoted? text = some (body, rest)) : rest.length < text.length := by
  induction text using splitQuoted?.induct generalizing body with
  | case1 => simp [splitQuoted?] at h
  | case2 => simp [splitQuoted?] at h
  | case3 c text ih =>
    simp only [splitQuoted?_escape, Option.map_eq_some_iff, Prod.mk.injEq, Prod.exists] at h
    obtain ⟨inner, rest, hinner, -, rfl⟩ := h
    exact Nat.lt_succ_of_lt (Nat.lt_succ_of_lt (ih hinner))
  | case4 text =>
    simp only [splitQuoted?_quote, Option.some.injEq, Prod.mk.injEq] at h
    obtain ⟨-, rfl⟩ := h
    exact Nat.lt_succ_self _
  | case5 c text hlast hescape hquote ih =>
    rw [splitQuoted?.eq_4 c text hlast hescape, if_neg hquote] at h
    simp only [Option.map_eq_some_iff, Prod.mk.injEq, Prod.exists] at h
    obtain ⟨inner, rest, hinner, -, rfl⟩ := h
    exact Nat.lt_succ_of_lt (ih hinner)

theorem length_rest_singleQuoted_le (text : List Char) :
    (singleQuoted text).rest.length ≤ text.length := by
  have hle := (List.dropWhile_suffix (l := text) (· != '\'')).length_le
  unfold singleQuoted
  split
  · exact Nat.zero_le _
  · rename_i heq
    rw [heq] at hle
    exact Nat.le_of_succ_le hle

theorem length_rest_doubleQuoted_le (kind : TokenKind) (opening text : List Char) :
    (doubleQuoted kind opening text).rest.length ≤ text.length := by
  unfold doubleQuoted
  split
  · exact Nat.zero_le _
  · rename_i heq
    exact Nat.le_of_lt (length_of_splitQuoted? heq)

/-- No spelling that the text begins with is longer than the one that is found. -/
theorem length_le_of_operator? {text spelling : List Char} {kind : TokenKind}
    (h : operator? text = some (spelling, kind)) :
    ∀ o ∈ spellings, o.1.isPrefixOf text = true → o.1.length ≤ spelling.length := by
  have hsorted : spellings.Pairwise fun first second => second.1.length ≤ first.1.length := by
    decide
  obtain ⟨-, before, after, hsplit, hbefore⟩ := List.find?_eq_some_iff_append.mp h
  rw [hsplit] at hsorted ⊢
  intro o ho hbegins
  rcases List.mem_append.mp ho with ho | ho
  · have hnone := hbefore o ho
    rw [hbegins] at hnone
    cases hnone
  · rcases List.mem_cons.mp ho with rfl | ho
    · exact Nat.le_refl _
    · exact (List.pairwise_cons.mp (List.pairwise_append.mp hsorted).2.1).1 o ho

theorem length_pos_of_operator? {text spelling : List Char} {kind : TokenKind}
    (h : operator? text = some (spelling, kind)) : 0 < spelling.length := by
  have hall : ∀ o ∈ spellings, 0 < o.1.length := by decide
  exact hall _ (List.mem_of_find?_eq_some h)

theorem length_rest_unquoted_le (c : Char) (text : List Char) :
    (unquoted c text).rest.length ≤ text.length := by
  unfold unquoted
  split
  · exact Nat.le_refl _
  · split
    · rename_i spelling kind hoperator
      have hpos := length_pos_of_operator? hoperator
      simp only [Front.rest, List.length_drop, List.length_cons]
      omega
    · split
      · exact Nat.le_refl _
      · exact (List.dropWhile_suffix _).length_le

/-- The text after the front is shorter than the text. -/
theorem length_rest_front_lt (c : Char) (text : List Char) :
    (front (c :: text)).rest.length < (c :: text).length := by
  rw [List.length_cons, Nat.lt_succ_iff, front]
  split_ifs
  · exact Nat.le_refl _
  · exact (afterComment_suffix text c).length_le
  · exact Nat.le_refl _
  · exact length_rest_singleQuoted_le text
  · exact length_rest_doubleQuoted_le _ _ text
  · have hle := length_rest_doubleQuoted_le .bangDouble [c, '"'] text.tail
    have htail := text.length_tail
    omega
  · exact length_rest_unquoted_le c text

/-- The tokens and faults of a text, up to the end; `previous` is the kind of the token given last.
A line break is a token unless it comes after one that continues the line. -/
def lexemes (previous : Option TokenKind) (text : List Char) : List Lexeme :=
  match _h : front text with
  | .nothing => [.token .endOfInput ""]
  | .skipped rest => lexemes previous rest
  | .lineBreak rest =>
    if previous.any TokenKind.continuesLine then lexemes previous rest
    else .token .newline "\n" :: lexemes (some .newline) rest
  | .token kind spelling rest => .token kind spelling :: lexemes (some kind) rest
  | .unexpected rest => .unexpected :: lexemes previous rest
  | .unterminated => [.unterminated, .token .endOfInput ""]
termination_by text.length
decreasing_by
  all_goals
    obtain ⟨c, text, rfl⟩ : ∃ c text', text = c :: text' := by
      cases text with
      | nil => simp [front] at _h
      | cons c text => exact ⟨c, text, rfl⟩
    have hlt := length_rest_front_lt c text
    rw [_h] at hlt
    exact hlt

/-- The tokens and faults of a text with this front. -/
def Front.lexemes (previous : Option TokenKind) : Front → List Lexeme
  | .nothing => [.token .endOfInput ""]
  | .skipped rest => Lexer.lexemes previous rest
  | .lineBreak rest =>
    if previous.any TokenKind.continuesLine then Lexer.lexemes previous rest
    else .token .newline "\n" :: Lexer.lexemes (some .newline) rest
  | .token kind spelling rest => .token kind spelling :: Lexer.lexemes (some kind) rest
  | .unexpected rest => .unexpected :: Lexer.lexemes previous rest
  | .unterminated => [.unterminated, .token .endOfInput ""]

theorem lexemes_eq (previous : Option TokenKind) (text : List Char) :
    lexemes previous text = (front text).lexemes previous := by
  rw [lexemes]
  split
  all_goals
    rename_i hfront
    rw [hfront]
    rfl

@[simp] theorem lexemes_nil (previous : Option TokenKind) :
    lexemes previous [] = [.token .endOfInput ""] := by
  rw [lexemes_eq]
  rfl

end LispShell.Lexer
