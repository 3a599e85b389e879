import LispShell.Proofs.WholeText
import LispShell.Proofs.Word

set_option autoImplicit false

/-!
# Scanning a printed value

The text of a value without references and with ordinary symbols is scanned without a fault, and its
tokens show the structure of the value.

`Value.parts` lists that structure from the value alone: parentheses, `::`, words and strings.  It
is compared with the text by `Lexer.lexemes_chars_append`, an induction on the value in which a
value stands in front of any text that closes a symbol.
-/

namespace LispShell

/-! ## Parts of a value -/

/-- A piece of a printed value. -/
inductive Part where
  | leftParen
  | rightParen
  | cons
  | symbol (text : String)
  | string (contents : String)
  deriving DecidableEq, Repr, Inhabited

namespace Part

/-- The kind and the text of the token for a part. -/
def spelling : Part → TokenKind × String
  | .leftParen => (.leftParen, "(")
  | .rightParen => (.rightParen, ")")
  | .cons => (.cons, "::")
  | .symbol text => (.symbol, text)
  | .string contents => (.doubleQuoted, String.ofList (Text.quote contents.toList))

/-- The value that the token for a part denotes. -/
def literal? : Part → Option Literal
  | .symbol text => some (.symbol text)
  | .string contents => some (.string contents)
  | _ => none

/-- The token for a part. -/
def lexeme (p : Part) : Lexeme :=
  .token p.spelling.1 p.spelling.2

end Part

namespace Value

/-- The value holds no reference, and its symbols are words. -/
def IsPlain : Value → Prop
  | .symbol _ text => IsWord text.toList
  | .pair _ head tail => head.IsPlain ∧ tail.IsPlain
  | .var _ | .const _ _ => False
  | _ => True

/-- Inside a list the value is one in parentheses: the empty list, or a pair that another pair or
the empty list follows. -/
def isEnclosed : Value → Bool
  | .null | .pair _ _ .null | .pair _ _ (.pair _ _ _) => true
  | _ => false

/-- The parts of a value. -/
def parts : Value → List Part
  | .null => []
  | .string _ text => [.string text]
  | .pair _ head tail =>
    let item := if head.isEnclosed then .leftParen :: head.parts ++ [.rightParen] else head.parts
    item ++ if tail.isList then tail.parts else .cons :: tail.parts
  | atom => [.symbol atom.render]

theorem isEnclosed_eq (a : Value) : a.isEnclosed = a.needsParens := by
  cases a with
  | pair label head tail => cases tail <;> rfl
  | _ => rfl

end Value

/-! ## Tokens in front of a text -/

namespace Lexer

/-- The kind of the token before matters only if it continues the line. -/
theorem lexemes_eq_none {previous : Option TokenKind}
    (h : previous.any TokenKind.continuesLine = false) (text : List Char) :
    lexemes previous text = lexemes none text := by
  induction hlength : text.length using Nat.strong_induction_on generalizing text with
  | _ n ih =>
  subst hlength
  cases text with
  | nil => rw [lexemes_nil, lexemes_nil]
  | cons c text =>
    have hlt := length_rest_front_lt c text
    rw [lexemes_eq, lexemes_eq none]
    cases hfront : front (c :: text) with
    | nothing => rfl
    | skipped rest =>
      rw [hfront] at hlt
      exact ih _ hlt rest rfl
    | lineBreak rest =>
      rw [Front.lexemes, Front.lexemes, h]
      rfl
    | token kind spelling rest => rfl
    | unexpected rest =>
      rw [hfront] at hlt
      exact congrArg _ (ih _ hlt rest rfl)
    | unterminated => rfl

theorem lexemes_of_front {text rest : List Char} {kind : TokenKind} {spelling : String}
    (h : front text = .token kind spelling rest) (hkind : kind.continuesLine = false) :
    lexemes none text = .token kind spelling :: lexemes none rest := by
  have hcalm : (some kind).any TokenKind.continuesLine = false := hkind
  rw [lexemes_eq, h, Front.lexemes, lexemes_eq_none hcalm]

theorem lexemes_space (text : List Char) : lexemes none (' ' :: text) = lexemes none text := by
  rw [lexemes_eq]
  rfl

theorem lexemes_break : lexemes none ['\n'] = [.token .newline "\n", .token .endOfInput ""] := by
  have hfront : front ['\n'] = .lineBreak [] := rfl
  rw [lexemes_eq, hfront, Front.lexemes, if_neg (by decide), lexemes_nil]

theorem lexemes_leftParen (text : List Char) :
    lexemes none ('(' :: text) = .token .leftParen "(" :: lexemes none text :=
  lexemes_of_front rfl rfl

theorem lexemes_rightParen (text : List Char) :
    lexemes none (')' :: text) = .token .rightParen ")" :: lexemes none text :=
  lexemes_of_front rfl rfl

theorem lexemes_cons (text : List Char) :
    lexemes none (':' :: ':' :: text) = .token .cons "::" :: lexemes none text :=
  lexemes_of_front rfl rfl

/-! ### Words -/

/-- The text begins with what can follow a value and closes a symbol. -/
def Closes (text : List Char) : Prop :=
  ∃ c more, text = c :: more ∧ c ∈ [' ', ':', ')', '\n']

theorem ne_of_isWordChar {c d : Char} (hc : isWordChar c = true) (hd : isWordChar d = false) :
    c ≠ d := by
  rintro rfl
  rw [hc] at hd
  cases hd

theorem endsSymbol_of_isWordChar {c : Char} (hc : isWordChar c = true) : endsSymbol c = false := by
  simp only [isWordChar, Bool.and_eq_true, Bool.not_eq_true'] at hc
  exact hc.1.1

theorem standalone?_of_isWordChar {c : Char} (hc : isWordChar c = true) : standalone? c = none := by
  unfold standalone?
  split
  case h_8 => rfl
  all_goals exact absurd hc (by decide)

/-- What comes after the first character of a word makes it neither an operator nor a quote. -/
theorem front_eq_word {c d : Char} (hc : isWordChar c = true)
    (hd : isWordChar d = true ∨ d ∈ [' ', ':', ')', '\n']) (more : List Char) :
    front (c :: d :: more) = word c (d :: more) := by
  have hne : ∀ e, isWordChar e = false → c ≠ e := fun e => ne_of_isWordChar hc
  have hnext : d ≠ '"' ∧ d ≠ '|' ∧ d ≠ '>' := by
    rcases hd with hd | hd
    · exact ⟨ne_of_isWordChar hd rfl, ne_of_isWordChar hd rfl, ne_of_isWordChar hd rfl⟩
    · refine ⟨?_, ?_, ?_⟩
      all_goals
        rintro rfl
        exact absurd hd (by decide)
  obtain ⟨hquote, hpipe, hgreater⟩ := hnext
  have hoperator : operator? (c :: d :: more) = none := by
    rcases eq_or_ne c '!' with rfl | hbang
    · exact operator?_bang_eq_none hpipe hgreater more
    · exact operator?_eq_none (hne _ rfl) (hne _ rfl) (hne _ rfl) (hne _ rfl) (hne _ rfl) hbang _
  rw [front, if_neg (not_or.mpr ⟨hne _ rfl, hne _ rfl⟩), if_neg (hne _ rfl), if_neg (hne _ rfl),
    if_neg (hne _ rfl), if_neg (hne _ rfl), if_neg (by simp [hquote]), unquoted,
    standalone?_of_isWordChar hc, hoperator]
  dsimp only
  rw [if_neg (hne _ rfl)]

theorem wordKind_of_isWord {text : List Char} (h : IsWord text) : wordKind text = .symbol := by
  have hleft : '{' ∉ text := fun hmem => absurd (h.forall_mem _ hmem) (by decide)
  have hright : '}' ∉ text := fun hmem => absurd (h.forall_mem _ hmem) (by decide)
  have hne : text ≠ ['{'] := by
    rintro rfl
    exact hleft (List.mem_singleton_self _)
  rw [wordKind, if_neg hne, if_neg (not_or.mpr ⟨hleft, hright⟩)]

/-- A word in front of what closes it. -/
theorem lexemes_word {text rest : List Char} (h : IsWord text) (hrest : Closes rest) :
    lexemes none (text ++ rest) = .token .symbol (String.ofList text) :: lexemes none rest := by
  obtain ⟨e, more, rfl, he⟩ := hrest
  have hall : [' ', ':', ')', '\n'].all endsSymbol = true := rfl
  have hends : endsSymbol e = true := List.all_eq_true.mp hall e he
  cases text with
  | nil => exact absurd rfl h.ne_nil
  | cons c text =>
    obtain ⟨hc, htext⟩ := List.forall_mem_cons.mp h.forall_mem
    have hinside : ∀ d ∈ text, (!endsSymbol d) = true := by
      intro d hd
      rw [endsSymbol_of_isWordChar (htext d hd)]
      rfl
    have hfront : front (c :: (text ++ e :: more)) = word c (text ++ e :: more) := by
      cases text with
      | nil => exact front_eq_word hc (.inr he) more
      | cons d text =>
        exact front_eq_word hc (.inl (htext d List.mem_cons_self)) (text ++ e :: more)
    have hword : word c (text ++ e :: more) =
        .token .symbol (String.ofList (c :: text)) (e :: more) := by
      rw [word, List.takeWhile_append_of_pos hinside, List.dropWhile_append_of_pos hinside]
      simp only [List.takeWhile_cons, List.dropWhile_cons, hends, Bool.not_true,
        Bool.false_eq_true, if_false, List.append_nil]
      rw [wordKind_of_isWord h]
    exact lexemes_of_front (hfront.trans hword) rfl

/-! ### Strings -/

theorem splitQuoted?_escapeChar (c : Char) (text : List Char) :
    splitQuoted? (Text.escapeChar c ++ text) =
      (splitQuoted? text).map fun (body, rest) => (Text.escapeChar c ++ body, rest) := by
  unfold Text.escapeChar
  split
  case h_6 hslash hquote => exact splitQuoted?_cons hquote hslash text
  all_goals rfl

theorem splitQuoted?_escape_append (contents rest : List Char) :
    splitQuoted? (Text.escape contents ++ '"' :: rest) = some (Text.escape contents, rest) := by
  unfold Text.escape
  induction contents with
  | nil => rfl
  | cons c contents ih =>
    rw [List.flatMap_cons, List.append_assoc, splitQuoted?_escapeChar, ih]
    rfl

/-- A written string, whatever follows. -/
theorem lexemes_quote (contents rest : List Char) :
    lexemes none (Text.quote contents ++ rest) =
      .token .doubleQuoted (String.ofList (Text.quote contents)) :: lexemes none rest := by
  have htext : Text.quote contents ++ rest = '"' :: (Text.escape contents ++ '"' :: rest) := by
    simp [Text.quote]
  have hfront : front (Text.quote contents ++ rest) =
      .token .doubleQuoted (String.ofList (Text.quote contents)) rest := by
    rw [htext]
    change doubleQuoted .doubleQuoted ['"'] _ = _
    rw [doubleQuoted, splitQuoted?_escape_append]
    rfl
  exact lexemes_of_front hfront rfl

/-! ## Values -/

/-- What comes after an item: what is written between it and the tail, and the tail. -/
theorem lexemes_joint {tail : Value} {rest : List Char} (hrest : Closes rest)
    (htail : lexemes none (tail.chars ++ rest) =
      tail.parts.map Part.lexeme ++ lexemes none rest) :
    Closes (tail.joint ++ (tail.chars ++ rest)) ∧
      lexemes none (tail.joint ++ (tail.chars ++ rest)) =
        (if tail.isList then tail.parts else .cons :: tail.parts).map Part.lexeme ++
          lexemes none rest := by
  have hcases : tail = .null ∨ tail.joint = [' '] ∧ tail.isList = true ∨
      tail.joint = [':', ':'] ∧ tail.isList = false := by
    cases tail <;> simp [Value.joint, Value.isList, Value.kind]
  rcases hcases with rfl | ⟨hjoint, hlist⟩ | ⟨hjoint, hlist⟩
  · exact ⟨hrest, htail⟩
  · rw [hjoint, if_pos hlist, ← htail]
    exact ⟨⟨' ', _, rfl, by decide⟩, lexemes_space _⟩
  · have hcons := lexemes_cons (tail.chars ++ rest)
    rw [htail] at hcons
    rw [hjoint, if_neg (by simp [hlist])]
    exact ⟨⟨':', _, rfl, by decide⟩, hcons⟩

/-- A plain value in front of what closes a symbol: its parts, and then what follows. -/
theorem lexemes_chars_append (v : Value) :
    ∀ {rest}, v.IsPlain → Closes rest → lexemes none (v.chars ++ rest) =
      v.parts.map Part.lexeme ++ lexemes none rest := by
  induction v with
  | null => intro rest _ _; rfl
  | boolean b =>
    intro rest _ hrest
    have hword : IsWord (Value.booleanText b) := by
      cases b with
      | false => exact .of_all (List.cons_ne_nil _ _) rfl
      | true => exact .of_all (List.cons_ne_nil _ _) rfl
    exact lexemes_word hword hrest
  | integer label n => intro rest _ hrest; exact lexemes_word (isWord_decimalText n.toInt) hrest
  | float x => intro rest _ hrest; exact lexemes_word (Binary64.isWord_text x) hrest
  | rational label r => intro rest _ hrest; exact lexemes_word (isWord_exactText r) hrest
  | string label text => intro rest _ _; exact lexemes_quote text.toList rest
  | symbol label text => intro rest hplain hrest; exact lexemes_word hplain hrest
  | var place => intro rest hplain; exact absurd hplain id
  | const label value => intro rest hplain; exact absurd hplain id
  | pair label head tail ihHead ihTail =>
    intro rest hplain hrest
    obtain ⟨hhead, htail⟩ := hplain
    obtain ⟨hcloses, hjoint⟩ := lexemes_joint hrest (ihTail htail hrest)
    rw [Value.chars, Value.parts, Value.isEnclosed_eq, List.append_assoc, List.append_assoc,
      List.map_append, List.append_assoc, ← hjoint]
    by_cases hparens : head.needsParens = true
    · rw [if_pos hparens, if_pos hparens]
      have hclosed := ihHead hhead ⟨')', tail.joint ++ (tail.chars ++ rest), rfl, by decide⟩
      have htext : '(' :: head.chars ++ [')'] ++ (tail.joint ++ (tail.chars ++ rest)) =
          '(' :: (head.chars ++ ')' :: (tail.joint ++ (tail.chars ++ rest))) := by
        simp
      rw [htext, lexemes_leftParen, hclosed, lexemes_rightParen]
      simp [Part.lexeme, Part.spelling]
    · rw [if_neg hparens, if_neg hparens]
      exact ihHead hhead hcloses

end Lexer

/-! ## The whole text of a value -/

theorem break_not_mem_of_isWord {text : List Char} (h : IsWord text) : '\n' ∉ text := by
  intro hmem
  exact absurd (h.forall_mem _ hmem) (by decide)

theorem break_not_mem_quote (contents : List Char) : '\n' ∉ Text.quote contents := by
  have hchar : ∀ c, '\n' ∉ Text.escapeChar c := by
    intro c
    unfold Text.escapeChar
    split
    case h_6 hbreak _ _ _ _ => exact fun hmem => hbreak (List.mem_singleton.mp hmem).symm
    all_goals decide
  intro hmem
  rcases List.mem_append.mp hmem with hmem | hmem
  · rcases List.mem_cons.mp hmem with hmem | hmem
    · exact absurd hmem (by decide)
    · obtain ⟨c, -, hc⟩ := List.mem_flatMap.mp hmem
      exact hchar c hc
  · exact absurd hmem (by decide)

namespace Value

/-- The text of a plain value is one line. -/
theorem break_not_mem_chars {v : Value} (h : v.IsPlain) : '\n' ∉ v.chars := by
  induction v with
  | null => exact List.not_mem_nil
  | boolean b => cases b <;> decide
  | integer label n => exact break_not_mem_of_isWord (isWord_decimalText n.toInt)
  | float x => exact break_not_mem_of_isWord (Binary64.isWord_text x)
  | rational label r => exact break_not_mem_of_isWord (isWord_exactText r)
  | string label text => exact break_not_mem_quote text.toList
  | symbol label text => exact break_not_mem_of_isWord h
  | var place => exact absurd h id
  | const label value => exact absurd h id
  | pair label head tail ihHead ihTail =>
    obtain ⟨hhead, htail⟩ := h
    have hjoint : '\n' ∉ tail.joint := by
      cases tail <;> simp [joint]
    rw [chars]
    split
    · simp [ihHead hhead, ihTail htail, hjoint]
    · simp [ihHead hhead, ihTail htail, hjoint]

theorem lexemes_logicalText_chars {v : Value} (h : v.IsPlain) :
    Lexer.lexemes none (Lexer.logicalText v.chars) =
      v.parts.map Part.lexeme ++ [.token .newline "\n", .token .endOfInput ""] := by
  rw [logicalText_of_not_mem (break_not_mem_chars h),
    Lexer.lexemes_chars_append v h ⟨'\n', [], rfl, by decide⟩, Lexer.lexemes_break]

end Value

/-! ## Literals of tokens -/

namespace Text

theorem takeBytes?_append (text more : List Char) :
    takeBytes? (byteLength text) (text ++ more) = some text := by
  induction text with
  | nil => cases more <;> rfl
  | cons c text ih =>
    obtain ⟨n, hn⟩ : ∃ n, byteLength (c :: text) = n + 1 :=
      ⟨_, (Nat.succ_pred_eq_of_pos (Nat.add_pos_left c.utf8Size_pos _)).symm⟩
    have hlength : n + 1 - c.utf8Size = byteLength text := by
      rw [← hn, byteLength, Nat.add_sub_cancel_left]
    have hle : c.utf8Size ≤ n + 1 := by
      rw [← hn]
      exact Nat.le_add_right _ _
    rw [hn, List.cons_append, takeBytes?, if_pos hle, hlength, ih]
    rfl

theorem byteLength_append (text more : List Char) :
    byteLength (text ++ more) = byteLength text + byteLength more := by
  induction text with
  | nil => exact (Nat.zero_add _).symm
  | cons c text ih => rw [List.cons_append, byteLength, byteLength, ih, Nat.add_assoc]

theorem dropBytes?_append (text more : List Char) :
    dropBytes? (byteLength text) (text ++ more) = some more := by
  induction text with
  | nil => cases more <;> rfl
  | cons c text ih =>
    obtain ⟨n, hn⟩ : ∃ n, byteLength (c :: text) = n + 1 :=
      ⟨_, (Nat.succ_pred_eq_of_pos (Nat.add_pos_left c.utf8Size_pos _)).symm⟩
    have hlength : n + 1 - c.utf8Size = byteLength text := by
      rw [← hn, byteLength, Nat.add_sub_cancel_left]
    have hle : c.utf8Size ≤ n + 1 := by
      rw [← hn]
      exact Nat.le_add_right _ _
    rw [hn, List.cons_append, dropBytes?, if_pos hle, hlength, ih]

/-- Without its quotes a quoted text is what stands between them. -/
theorem cut_quoted (opening body : List Char) :
    Token.cut (byteLength opening) (byteLength (opening ++ body ++ ['"']) - 1)
      (opening ++ body ++ ['"']) = body := by
  have hlength : byteLength (opening ++ body ++ ['"']) - 1 =
      byteLength opening + byteLength body := by
    rw [byteLength_append, byteLength_append]
    exact Nat.add_sub_cancel _ _
  rw [Token.cut, sliceBytes?, hlength, if_pos (Nat.le_add_right _ _), List.append_assoc,
    dropBytes?_append, Nat.add_sub_cancel_left, Option.bind_some, takeBytes?_append,
    Option.getD_some]

end Text

/-- The token for a part denotes what the part holds. -/
theorem Part.literal?_token (p : Part) (line : Nat) :
    Token.literal? ⟨p.spelling.1, p.spelling.2, line⟩ = p.literal? := by
  cases p with
  | string contents =>
    have hraw : Token.raw ⟨.doubleQuoted, String.ofList (Text.quote contents.toList), line⟩ =
        String.ofList (Text.escape contents.toList) := by
      rw [Token.raw, String.toList_ofList]
      exact congrArg String.ofList (Text.cut_quoted ['"'] (Text.escape contents.toList))
    rw [spelling, Token.literal?]
    dsimp only
    rw [hraw, String.toList_ofList, Text.unescape_escape, String.ofList_toList]
    rfl
  | _ => rfl

/-- The text of a plain value is tokenized to its parts, a line break and the end, and the tokens
for its strings and words denote these. -/
theorem Value.tokenize_render {v : Value} (h : v.IsPlain) :
    ∃ tokens, tokenize v.render.toList = .ok tokens ∧
      tokens.map (fun t => (t.kind, t.text)) =
        v.parts.map Part.spelling ++ [(.newline, "\n"), (.endOfInput, "")] ∧
      tokens.map Token.literal? = v.parts.map Part.literal? ++ [none, none] := by
  have hlexemes : Lexer.lexemes none (Lexer.logicalText v.render.toList) =
      (v.parts.map Part.spelling ++
        [(TokenKind.newline, "\n"), (TokenKind.endOfInput, "")]).map fun s => .token s.1 s.2 := by
    rw [render, String.toList_ofList, lexemes_logicalText_chars h, List.map_append, List.map_map]
    rfl
  obtain ⟨tokens, htokens, hspellings⟩ := tokenize_of_lexemes hlexemes
  refine ⟨tokens, htokens, hspellings, ?_⟩
  -- What a token denotes does not depend on its line.
  have hliterals : tokens.map Token.literal? = (tokens.map fun t => (t.kind, t.text)).map
      fun s => Token.literal? ⟨s.1, s.2, 0⟩ := by
    rw [List.map_map]
    rfl
  rw [hliterals, hspellings, List.map_append, List.map_map]
  refine congrArg₂ _ (List.map_congr_left ?_) rfl
  intro p _
  exact p.literal?_token 0

/-- A list and a string, with a word as the last tail. -/
def Value.nested : Value :=
  .pair 0 (.pair 1 (.symbol 2 "a") .null) (.pair 3 (.string 4 "\"\n") (.boolean true))

theorem Value.tokenize_render_nested :
    nested.IsPlain ∧ ∃ tokens, tokenize nested.render.toList = .ok tokens ∧
      tokens.map (fun t => (t.kind, t.text)) =
        [(.leftParen, "("), (.symbol, "a"), (.rightParen, ")"),
          (.doubleQuoted, String.ofList ['"', '\\', '"', '\\', 'n', '"']), (.cons, "::"),
          (.symbol, "true"), (.newline, "\n"), (.endOfInput, "")] ∧
      tokens.map Token.literal? =
        [none, some (.symbol "a"), none, some (.string "\"\n"), none, some (.symbol "true"), none,
          none] := by
  have hplain : nested.IsPlain := ⟨⟨.of_all (by decide) (by decide), trivial⟩, trivial, trivial⟩
  exact ⟨hplain, tokenize_render hplain⟩

end LispShell
