import LispShell.Proofs.Operators
import LispShell.Proofs.PrintedForm

set_option autoImplicit false

/-!
# Text in double quotes

Escapes are counted twice: by the modes of the scanner, which tell the closing quote from one that a
backslash escapes, and by `Text.unescape`, which decodes the finished text from its front.  The two
agree on where the escapes are, over every source and every run.

Between its delimiters the text of a token is made of units: a character that is neither a backslash
nor a double quote, or a backslash and the character that it escapes.  `Mode.Quotes` is the
invariant of scanning: in quotes, what is held is the opening delimiter and units, and a backslash
if it escapes the next character.  Where the lines of the source were read, spliced or tried again
plays no part in it.
-/

namespace LispShell

open ScanState

/-! ## Units -/

/-- A unit of text in double quotes. -/
inductive QuotedUnit where
  /-- a character by itself -/
  | plain (c : Char) (hquote : c ≠ '"') (hslash : c ≠ '\\')
  /-- a backslash and the character that it escapes -/
  | escape (c : Char)

namespace QuotedUnit

/-- The unit as it is written. -/
def chars : QuotedUnit → List Char
  | plain c _ _ => [c]
  | escape c => ['\\', c]

/-- The text that the unit denotes.  An escape that is not known stays as it is. -/
def value : QuotedUnit → List Char
  | plain c _ _ => [c]
  | escape c => ((Text.escapeValue? c).map fun d => [d]).getD ['\\', c]

/-- Decoding goes unit by unit. -/
theorem unescape_flatMap_chars (units : List QuotedUnit) :
    Text.unescape (units.flatMap chars) = units.flatMap value := by
  induction units with
  | nil => rfl
  | cons u units ih =>
    cases u with
    | plain c hquote hslash =>
      rw [List.flatMap_cons, List.flatMap_cons, ← ih]
      exact Text.unescape_cons_of_ne hslash _
    | escape c =>
      rw [List.flatMap_cons, List.flatMap_cons, ← ih, chars, value]
      change Text.unescape ('\\' :: c :: units.flatMap chars) = _
      rw [Text.unescape]
      cases Text.escapeValue? c <;> rfl

/-- A text falls into units in one way only. -/
theorem eq_of_flatMap_chars_eq {units others : List QuotedUnit}
    (h : others.flatMap chars = units.flatMap chars) : others = units := by
  induction units generalizing others with
  | nil =>
    cases others with
    | nil => rfl
    | cons u others => cases u <;> cases h
  | cons u units ih =>
    cases others with
    | nil => cases u <;> cases h
    | cons v others =>
      -- The first character tells of which kind the first unit is.
      cases u with
      | plain c hquote hslash =>
        cases v with
        | plain d hquote' hslash' =>
          obtain ⟨rfl, htail⟩ := List.cons.inj h
          rw [ih htail]
        | escape d => exact absurd (List.cons.inj h).1.symm hslash
      | escape c =>
        cases v with
        | plain d hquote' hslash' => exact absurd (List.cons.inj h).1 hslash'
        | escape d =>
          obtain ⟨rfl, htail⟩ := List.cons.inj (List.cons.inj h).2
          rw [ih htail]

/-! ## Backslashes in front of a quote -/

theorem isContinued_reverse_chars (u : QuotedUnit) : Line.isContinued u.chars.reverse = false := by
  cases u with
  | plain c hquote hslash => exact Line.isContinued_of_head?_ne (by simpa [chars] using hslash)
  | escape c =>
    change Line.isContinued [c, '\\'] = false
    rw [Line.isContinued_cons]
    exact Bool.and_false _

/-- Units end in an even number of backslashes, none included. -/
theorem isContinued_reverse_flatMap_chars (units : List QuotedUnit) :
    Line.isContinued (units.flatMap chars).reverse = false := by
  induction units with
  | nil => rfl
  | cons u units ih =>
    rw [List.flatMap_cons, List.reverse_append,
      Line.isContinued_append u.isContinued_reverse_chars, ih]

/-- A quote among units comes after an odd number of backslashes. -/
theorem isContinued_of_quote_inside {units : List QuotedUnit} {before after : List Char}
    (h : units.flatMap chars = before ++ '"' :: after) :
    Line.isContinued before.reverse = true := by
  induction units generalizing before with
  | nil => simp at h
  | cons u units ih =>
    -- If it does not belong to the first unit, it is among the units after it.
    have hlater : ∀ later, before = u.chars ++ later → Line.isContinued before.reverse = true := by
      rintro later rfl
      rw [List.flatMap_cons, List.append_assoc, List.append_cancel_left_eq] at h
      rw [List.reverse_append, Line.isContinued_append u.isContinued_reverse_chars, ih h]
    cases u with
    | plain c hquote hslash =>
      cases before with
      | nil => exact absurd (List.cons.inj h).1 hquote
      | cons b before =>
        obtain ⟨rfl, -⟩ := List.cons.inj h
        exact hlater before rfl
    | escape c =>
      match before, h with
      | [], h => cases (List.cons.inj h).1
      | [b], h =>
        obtain ⟨rfl, -⟩ := List.cons.inj h
        rfl
      | b :: d :: before, h =>
        obtain ⟨rfl, htail⟩ := List.cons.inj h
        obtain ⟨rfl, -⟩ := List.cons.inj htail
        exact hlater before rfl

/-- Of the quotes in and after the units, the last is the one that no backslash escapes. -/
theorem eq_nil_iff_isContinued {units : List QuotedUnit} {before after : List Char}
    (h : units.flatMap chars ++ ['"'] = before ++ '"' :: after) :
    after = [] ↔ Line.isContinued before.reverse = false := by
  rcases List.eq_nil_or_concat after with rfl | ⟨front, c, rfl⟩
  · obtain ⟨rfl, -⟩ := List.append_inj' h rfl
    simp [isContinued_reverse_flatMap_chars]
  · rw [List.concat_eq_append, ← List.cons_append, ← List.append_assoc] at h
    obtain ⟨hunits, -⟩ := List.append_inj' h rfl
    simp [isContinued_of_quote_inside hunits]

end QuotedUnit

/-! ## Decoding -/

/-- Decoding the text from its front comes to this end of it: an escape is decoded as a whole, and
any other character by itself. -/
inductive Text.Visits : List Char → List Char → Prop where
  | here {text : List Char} : Visits text text
  | escape {c : Char} {text rest : List Char} (h : Visits text rest) :
      Visits ('\\' :: c :: text) rest
  | plain {c : Char} {text rest : List Char} (hslash : c ≠ '\\') (h : Visits text rest) :
      Visits (c :: text) rest

/-- Decoding units comes to the beginnings of units only. -/
theorem Text.Visits.exists_units {units : List QuotedUnit} {text rest : List Char}
    (h : Text.Visits text rest) (htext : text = units.flatMap QuotedUnit.chars) :
    ∃ later : List QuotedUnit, rest = later.flatMap QuotedUnit.chars := by
  induction h generalizing units with
  | here => exact ⟨units, htext⟩
  | escape _ ih =>
    cases units with
    | nil => cases htext
    | cons u units =>
      cases u with
      | plain c hquote hslash => exact absurd (List.cons.inj htext).1.symm hslash
      | escape c => exact ih (List.cons.inj (List.cons.inj htext).2).2
  | plain hslash _ ih =>
    cases units with
    | nil => cases htext
    | cons u units =>
      cases u with
      | plain c hquote hslash => exact ih (List.cons.inj htext).2
      | escape c => exact absurd (List.cons.inj htext).1 hslash

/-- Decoding units never comes to a backslash that nothing follows. -/
theorem Text.not_visits_backslash (units : List QuotedUnit) :
    ¬ Text.Visits (units.flatMap QuotedUnit.chars) ['\\'] := by
  intro h
  obtain ⟨later, hlater⟩ := h.exists_units rfl
  cases later with
  | nil => cases hlater
  | cons u later =>
    cases u with
    | plain c hquote hslash => exact hslash (List.cons.inj hlater).1.symm
    | escape c => cases (List.cons.inj hlater).2

/-! ## The invariant of scanning -/

/-- The characters, newest first, that are held in quotes with this opening delimiter: it and units,
and a backslash if it escapes the next character. -/
def Opened (opening held : List Char) (escaping : Bool) : Prop :=
  ∃ units : List QuotedUnit, held.reverse =
    opening ++ units.flatMap QuotedUnit.chars ++ if escaping then ['\\'] else []

/-- What is held in double quotes. -/
def Mode.Quotes (held : List Char) : Mode → Prop
  | .doubleQuoted escaping => Opened ['"'] held escaping
  | .bangDouble escaping => Opened ['!', '"'] held escaping
  | _ => True

section

variable {opening held : List Char} {c : Char}

theorem Opened.escape (h : Opened opening held true) (c : Char) :
    Opened opening (c :: held) false := by
  obtain ⟨units, hunits⟩ := h
  exact ⟨units ++ [.escape c], by simp [hunits, QuotedUnit.chars]⟩

theorem Opened.backslash (h : Opened opening held false) : Opened opening ('\\' :: held) true := by
  obtain ⟨units, hunits⟩ := h
  exact ⟨units, by simp [hunits]⟩

theorem Opened.plain (h : Opened opening held false) (hquote : c ≠ '"') (hslash : c ≠ '\\') :
    Opened opening (c :: held) false := by
  obtain ⟨units, hunits⟩ := h
  exact ⟨units ++ [.plain c hquote hslash], by simp [hunits, QuotedUnit.chars]⟩

/-- Taking a character in double quotes begins a unit, ends one, or is one. -/
theorem Opened.take {kind : TokenKind} {inside : Bool → Mode} {escaping : Bool} {next : Mode}
    (h : Opened opening held escaping)
    (hmove : Mode.quotedMove kind inside escaping c = .take next) :
    ∃ escaping, next = inside escaping ∧ Opened opening (c :: held) escaping := by
  unfold Mode.quotedMove at hmove
  split_ifs at hmove with hescaping hquote
  · subst hescaping
    cases hmove
    exact ⟨false, rfl, h.escape c⟩
  · obtain rfl : escaping = false := by simpa using hescaping
    cases hmove
    by_cases hslash : c = '\\'
    · subst hslash
      exact ⟨true, rfl, h.backslash⟩
    · exact ⟨false, by simp [hslash], h.plain hquote hslash⟩

end

namespace Mode

variable {m next : Mode} {c : Char} {held passed : List Char}

theorem quotes_firstMove (h : firstMove c = .take next) : next.Quotes [c] := by
  unfold firstMove at h
  split at h
  all_goals first
    | cases h; exact ⟨[], rfl⟩
    | cases h; trivial
    | cases h

theorem Holds.quotes_take (h : m.Holds held passed) (hquotes : m.Quotes held)
    (hmove : m.move c = .take next) : next.Quotes (c :: held) := by
  cases m with
  | start =>
    obtain rfl : held = [] := h.form
    exact quotes_firstMove hmove
  | bang =>
    obtain rfl : held = ['!'] := h.form
    simp only [move, symbolMove] at hmove
    split_ifs at hmove with hquote
    · cases hmove
      exact ⟨[], by simp [hquote]⟩
    all_goals
      cases hmove
      trivial
  | doubleQuoted escaping =>
    obtain ⟨escaping, rfl, hopened⟩ := Opened.take hquotes hmove
    exact hopened
  | bangDouble escaping =>
    obtain ⟨escaping, rfl, hopened⟩ := Opened.take hquotes hmove
    exact hopened
  | _ =>
    simp only [move, symbolMove] at hmove
    split_ifs at hmove
    all_goals
      cases hmove
      trivial

/-- What is held in double quotes is a matter of the moves alone, together with what other modes
hold. -/
theorem invariant_quotes :
    Mode.Invariant fun m held passed => m.Holds held passed ∧ m.Quotes held where
  start passed := ⟨holds_start passed, trivial⟩
  take {m next c held passed} h hmove rest := by
    refine ⟨h.1.take hmove rest, ?_⟩
    by_cases hsingle : m = .singleQuoted
    · subst hsingle
      obtain rfl := eq_of_singleQuoted_move hmove
      trivial
    · rw [hold_eq_cons hsingle]
      exact h.1.quotes_take h.2 hmove

end Mode

/-! ## Tokens in double quotes -/

/-- The delimiter that opens a token of this kind, if it is in double quotes. -/
def TokenKind.openingQuote? : TokenKind → Option (List Char)
  | .doubleQuoted => some ['"']
  | .bangDouble => some ['!', '"']
  | _ => none

theorem openingQuote?_of_firstMove {c : Char} {kind : TokenKind}
    (h : Mode.firstMove c = .close kind) : kind.openingQuote? = none := by
  unfold Mode.firstMove at h
  split at h
  all_goals first
    | cases h; rfl
    | cases h

section

variable {kind : TokenKind} {opening text rest spelling : List Char}

/-- A token in double quotes is closed in its mode, by a quote that no backslash escapes. -/
theorem Mode.opened_of_move {m : Mode} {c : Char} {held : List Char} (hquotes : m.Quotes held)
    (hmove : m.move c = .close kind) (hopening : kind.openingQuote? = some opening) :
    c = '"' ∧ Opened opening held false := by
  cases m with
  | start =>
    rw [openingQuote?_of_firstMove hmove] at hopening
    cases hopening
  | doubleQuoted escaping =>
    simp only [move, quotedMove] at hmove
    split_ifs at hmove with hescaping hquote
    cases hmove
    cases hopening
    obtain rfl : escaping = false := by simpa using hescaping
    exact ⟨hquote, hquotes⟩
  | bangDouble escaping =>
    simp only [move, quotedMove] at hmove
    split_ifs at hmove with hescaping hquote
    cases hmove
    cases hopening
    obtain rfl : escaping = false := by simpa using hescaping
    exact ⟨hquote, hquotes⟩
  | _ =>
    simp only [move, symbolMove] at hmove
    split_ifs at hmove
    all_goals
      cases hmove
      cases hopening

theorem Mode.openingQuote?_of_closeBefore {m : Mode} {c : Char}
    (hmove : m.move c = .closeBefore kind) : kind.openingQuote? = none := by
  cases m with
  | start => exact absurd hmove ((firstMove_consumes c).1 kind)
  | _ =>
    simp only [move, symbolMove, quotedMove] at hmove
    split_ifs at hmove
    all_goals
      cases hmove
      rfl

/-- A completed token in double quotes is made of its delimiters with units between them. -/
theorem Completed.exists_units
    (h : Completed (fun m held passed => m.Holds held passed ∧ m.Quotes held) text kind spelling
      rest)
    (hopening : kind.openingQuote? = some opening) :
    ∃ units : List QuotedUnit,
      spelling = opening ++ units.flatMap QuotedUnit.chars ++ ['"'] := by
  cases h with
  | lineBreak _ _ _ => cases hopening
  | close h hmove _ =>
    obtain ⟨rfl, units, hunits⟩ := Mode.opened_of_move h.2 hmove hopening
    exact ⟨units, by simp [hunits]⟩
  | closeBefore _ hmove _ =>
    rw [Mode.openingQuote?_of_closeBefore hmove] at hopening
    cases hopening

/-- A refined kind is in double quotes only if nothing was refined. -/
theorem refinedKind_eq_of_openingQuote?
    (h : (refinedKind kind spelling).openingQuote? = some opening) :
    refinedKind kind spelling = kind := by
  unfold refinedKind at h ⊢
  split_ifs at h ⊢
  all_goals first
    | rfl
    | cases h

end

/-- The text of the token is made of these units between its delimiters, and of no others.  Its
closing quote is the only one after the opening delimiter that no backslash escapes, and what it
denotes is decoded unit by unit. -/
structure Token.IsQuotation (t : Token) (opening : List Char) (units : List QuotedUnit) :
    Prop where
  text : t.text.toList = opening ++ t.raw.toList ++ ['"']
  raw : t.raw.toList = units.flatMap QuotedUnit.chars
  unique : ∀ others : List QuotedUnit, t.raw.toList = others.flatMap QuotedUnit.chars →
    others = units
  closing : ∀ before after, t.raw.toList ++ ['"'] = before ++ '"' :: after →
    (after = [] ↔ Line.isContinued before.reverse = false)
  literal : t.literal? = some (.string (String.ofList (units.flatMap QuotedUnit.value)))
  complete : ¬ Text.Visits t.raw.toList ['\\']

/-- A token with its delimiters around units. -/
theorem Token.isQuotation_of_text {t : Token} {opening : List Char} {units : List QuotedUnit}
    (hopening : t.kind.openingQuote? = some opening)
    (htext : t.text.toList = opening ++ units.flatMap QuotedUnit.chars ++ ['"']) :
    t.IsQuotation opening units := by
  have hraw : t.raw = String.ofList (units.flatMap QuotedUnit.chars) := by
    obtain ⟨kind, text, line⟩ := t
    cases kind with
    | doubleQuoted =>
      cases hopening
      simp only [Token.raw, htext]
      exact congrArg String.ofList (Text.cut_quoted ['"'] _)
    | bangDouble =>
      cases hopening
      simp only [Token.raw, htext]
      exact congrArg String.ofList (Text.cut_quoted ['!', '"'] _)
    | _ => cases hopening
  have hchars : t.raw.toList = units.flatMap QuotedUnit.chars := by
    rw [hraw, String.toList_ofList]
  exact {
    text := by rw [hchars, htext]
    raw := hchars
    unique := fun others hothers =>
      QuotedUnit.eq_of_flatMap_chars_eq (hothers.symm.trans hchars)
    closing := fun before after h => QuotedUnit.eq_nil_iff_isContinued (hchars ▸ h)
    literal := by
      have hdecoded := QuotedUnit.unescape_flatMap_chars units
      rw [← hchars] at hdecoded
      obtain ⟨kind, text, line⟩ := t
      cases kind with
      | doubleQuoted => rw [← hdecoded]; rfl
      | bangDouble => rw [← hdecoded]; rfl
      | _ => cases hopening
    complete := by
      rw [hchars]
      exact Text.not_visits_backslash units }

namespace Scanner

/-- Every token in double quotes, over every source and after any calls, is made of units between
its delimiters, and stands in the logical text of the source as it is. -/
theorem isQuotation_of_result (name : String) (reads : List Read)
    (foreground : Option (List Bool)) (calls : List Call) {t : Token} {opening : List Char}
    (hresult : ((ofReads name reads foreground).afterAll calls).nextToken.result = .ok t)
    (hopening : t.kind.openingQuote? = some opening) :
    (∃ units, t.IsQuotation opening units) ∧
      t.text.toList ++
          ((ofReads name reads foreground).afterAll calls).nextToken.scanner.upcoming <:+
        delivered foreground false reads := by
  have hcourse := inCourse_of_result Mode.invariant_quotes name reads foreground calls hresult
  obtain hcontrol | hcontrol | ⟨kind, spelling, hcompleted, hrefined, htext⟩ := hcourse
  · rw [hcontrol] at hopening
    cases hopening
  · rw [hcontrol] at hopening
    cases hopening
  · have hkind : t.kind = kind := by
      rw [hrefined] at hopening ⊢
      exact refinedKind_eq_of_openingQuote? hopening
    rw [hkind] at hopening
    have hordinary : kind.isOperator = false ∧ kind ≠ .singleQuoted := by
      cases kind with
      | doubleQuoted => exact ⟨rfl, by decide⟩
      | bangDouble => exact ⟨rfl, by decide⟩
      | _ => cases hopening
    have hchars : t.text.toList = spelling := by
      rw [htext, canonicalText, if_neg (by simp [hordinary.1]), String.toList_ofList]
    obtain ⟨units, hunits⟩ := hcompleted.exists_units hopening
    refine ⟨⟨units, Token.isQuotation_of_text (hkind ▸ hopening) (hchars.trans hunits)⟩, ?_⟩
    rw [hchars]
    exact (hcompleted.mono fun _ _ _ h => h.1).standing hordinary.2

/-- A quote over two lines, of which the first is continued behind a backslash that is escaped, and
a read that fails and is tried again. -/
theorem isQuotation_of_result_continued :
    ((ofReads "tty" [.line "echo \"a\\\\\\".toList, .fail .timedOut, .line "\\\"b\"".toList]
        (some [true])).afterAll [.nextToken]).nextToken.result =
          .ok ⟨.doubleQuoted, "\"a\\\\\\\"b\"", 2⟩ ∧
      TokenKind.doubleQuoted.openingQuote? = some ['"'] ∧
      (∃ units, Token.IsQuotation ⟨.doubleQuoted, "\"a\\\\\\\"b\"", 2⟩ ['"'] units) ∧
      "\"a\\\\\\\"b\"".toList ++
          ((ofReads "tty" [.line "echo \"a\\\\\\".toList, .fail .timedOut,
            .line "\\\"b\"".toList] (some [true])).afterAll
              [.nextToken]).nextToken.scanner.upcoming <:+
        delivered (some [true]) false
          [.line "echo \"a\\\\\\".toList, .fail .timedOut, .line "\\\"b\"".toList] := by
  have hresult : ((ofReads "tty" [.line "echo \"a\\\\\\".toList, .fail .timedOut,
      .line "\\\"b\"".toList] (some [true])).afterAll [.nextToken]).nextToken.result =
        .ok ⟨.doubleQuoted, "\"a\\\\\\\"b\"", 2⟩ := by rfl
  exact ⟨hresult, rfl, isQuotation_of_result "tty" _ (some [true]) [.nextToken] hresult rfl⟩

end Scanner

end LispShell
