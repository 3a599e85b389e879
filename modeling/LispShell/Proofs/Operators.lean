import LispShell.Proofs.Course

set_option autoImplicit false

/-!
# The operators of a run

Operators are recognized by modes, of which `|` and `!|` share one, and named by a table.  This
module compares the two, for every run over every source: a token of an operator covers the longest
spelling in the table that the logical text goes on with, and goes by its name.

There is one exception.  After `!|` the mode takes a second `|` as after `|`, and gives `!||`, which
is no spelling in the table: the token covers three characters where the longest spelling has two,
and as there is no name for it, it goes by what it covers.

The argument follows a scanner through the logical text of its source.  `Scanner.Within` says that
what it has yet to come to is an end of that text, and that the characters it holds are those just
before, as the mode has it.  Moves preserve this (`Mode.invariant_holds`), and so do calls of any
kind.
-/

namespace LispShell

open ScanState Lexer

/-! ## What modes hold -/

/-- The characters, newest first, that are held in a mode which can come to an operator. -/
def Mode.Form (held : List Char) : Mode → Prop
  | .start => held = []
  | .ampersand => held = ['&']
  | .bang => held = ['!']
  | .bangGreater => held = ['>', '!']
  | .greater => held = ['>']
  | .less => held = ['<']
  | .pipe => held = ['|'] ∨ held = ['|', '!']
  | _ => True

/-- After the characters `passed` these may be held in this mode.  Single quotes are apart, since
there a line break may be held as an escape. -/
structure Mode.Holds (m : Mode) (held passed : List Char) : Prop where
  form : m.Form held
  suffix : m ≠ .singleQuoted → held.reverse <:+ passed

theorem Mode.holds_start (passed : List Char) : Mode.start.Holds [] passed :=
  ⟨rfl, fun _ => List.nil_suffix⟩

namespace Mode

variable {m next : Mode} {c : Char} {held passed : List Char} {kind : TokenKind}

theorem form_firstMove (h : firstMove c = .take next) : next.Form [c] := by
  unfold firstMove at h
  split at h
  all_goals first
    | cases h; exact rfl
    | cases h; exact .inl rfl
    | cases h; trivial
    | cases h

/-- Taking a character leads from the form of one mode to that of the next. -/
theorem Form.take (hform : m.Form held) (hmove : m.move c = .take next) :
    next.Form (c :: held) := by
  cases m with
  | start =>
    obtain rfl : held = [] := hform
    exact form_firstMove hmove
  | bang =>
    obtain rfl : held = ['!'] := hform
    simp only [move, symbolMove] at hmove
    split_ifs at hmove with hquote hgreater hpipe hends
    · cases hmove
      trivial
    · cases hmove
      rw [hgreater]
      rfl
    · cases hmove
      rw [hpipe]
      exact .inr rfl
    · cases hmove
      trivial
  | _ =>
    simp only [move, symbolMove, quotedMove] at hmove
    repeat' split at hmove
    all_goals first
      | cases hmove; trivial
      | cases hmove

theorem isOperator_of_firstMove (h : firstMove c = .close kind) : kind.isOperator = false := by
  unfold firstMove at h
  split at h
  all_goals first
    | cases h; rfl
    | cases h

/-- A character that ends an operator ends the longest spelling. -/
theorem Form.operator?_close (hform : m.Form held) (hmove : m.move c = .close kind)
    (hkind : kind.isOperator = true) (more : List Char) :
    operator? ((c :: held).reverse ++ more) = some ((c :: held).reverse, kind) := by
  cases m with
  | ampersand =>
    obtain rfl : held = ['&'] := hform
    simp only [move] at hmove
    split_ifs at hmove with hc
    cases hmove
    rw [hc]
    rfl
  | bangGreater =>
    obtain rfl : held = ['>', '!'] := hform
    simp only [move] at hmove
    split_ifs at hmove with hc
    cases hmove
    rw [hc]
    rfl
  | greater =>
    obtain rfl : held = ['>'] := hform
    simp only [move] at hmove
    split_ifs at hmove with hparen hgreater
    · cases hmove
      rw [hparen]
      rfl
    · cases hmove
      rw [hgreater]
      rfl
  | less =>
    obtain rfl : held = ['<'] := hform
    simp only [move] at hmove
    split_ifs at hmove with hc
    cases hmove
    rw [hc]
    rfl
  | pipe =>
    simp only [move] at hmove
    obtain rfl | rfl := hform
    all_goals
      split_ifs at hmove with hplus hpipe
      · cases hmove
        rw [hplus]
        rfl
      · cases hmove
        rw [hpipe]
        rfl
  | start => exact absurd (isOperator_of_firstMove hmove) (by simp [hkind])
  | _ =>
    simp only [move, symbolMove, quotedMove] at hmove
    split_ifs at hmove
    all_goals
      cases hmove
      cases hkind

/-- A character that does not belong to an operator comes after the longest spelling. -/
theorem Form.operator?_closeBefore (hform : m.Form held) (hmove : m.move c = .closeBefore kind)
    (hkind : kind.isOperator = true) (more : List Char) :
    operator? (held.reverse ++ c :: more) = some (held.reverse, kind) := by
  cases m with
  | ampersand =>
    obtain rfl : held = ['&'] := hform
    simp only [move] at hmove
    split_ifs at hmove with hc
    cases hmove
    simp [operator?, spellings, List.isPrefixOf, Ne.symm hc]
  | bangGreater =>
    obtain rfl : held = ['>', '!'] := hform
    simp only [move] at hmove
    split_ifs at hmove with hc
    cases hmove
    simp [operator?, spellings, List.isPrefixOf, Ne.symm hc]
  | greater =>
    obtain rfl : held = ['>'] := hform
    simp only [move] at hmove
    split_ifs at hmove with hparen hgreater
    cases hmove
    simp [operator?, spellings, List.isPrefixOf, Ne.symm hparen, Ne.symm hgreater]
  | pipe =>
    simp only [move] at hmove
    split_ifs at hmove with hplus hpipe
    cases hmove
    obtain rfl | rfl := hform
    · simp [operator?, spellings, List.isPrefixOf, Ne.symm hplus, Ne.symm hpipe]
    · simp [operator?, spellings, List.isPrefixOf, Ne.symm hplus, Ne.symm hpipe]
  | start => exact absurd hmove ((firstMove_consumes c).1 kind)
  | _ =>
    simp only [move, symbolMove, quotedMove] at hmove
    split_ifs at hmove
    all_goals
      cases hmove
      cases hkind

/-- Taking a character never leads out of single quotes. -/
theorem eq_of_singleQuoted_move (h : singleQuoted.move c = .take next) : next = .singleQuoted := by
  simp only [move] at h
  split_ifs at h
  cases h
  rfl

/-- Single quotes lead to no other token. -/
theorem ne_singleQuoted_of_move (h : m.move c = .close kind ∨ m.move c = .closeBefore kind)
    (hkind : kind ≠ .singleQuoted) : m ≠ .singleQuoted := by
  rintro rfl
  simp only [move] at h
  rcases h with h | h
  · split_ifs at h
    cases h
    exact hkind rfl
  · split_ifs at h

theorem hold_eq_cons (h : m ≠ .singleQuoted) (rest : List Char) :
    hold m c rest held = c :: held := by
  simp [hold, h]

/-- Taking a character preserves what a mode holds. -/
theorem Holds.take (h : m.Holds held passed) (hmove : m.move c = .take next) (rest : List Char) :
    next.Holds (hold m c rest held) (passed ++ [c]) := by
  by_cases hsingle : m = .singleQuoted
  · -- What is held may be an escape, but from here no operator comes.
    subst hsingle
    obtain rfl := eq_of_singleQuoted_move hmove
    exact ⟨trivial, fun hne => absurd rfl hne⟩
  · rw [hold_eq_cons hsingle]
    refine ⟨h.form.take hmove, fun _ => ?_⟩
    rw [List.reverse_cons]
    exact List.suffix_append_self_iff.mpr (h.suffix hsingle)

/-- What modes hold is a matter of the moves alone. -/
theorem invariant_holds : Mode.Invariant Holds where
  start := holds_start
  take h hmove rest := h.take hmove rest

end Mode

/-! ## Completed operators -/

section

variable {text rest spelling : List Char} {kind : TokenKind}

/-- A completed token stands in the text as it is spelled, unless it is in single quotes. -/
theorem Completed.standing (h : Completed Mode.Holds text kind spelling rest)
    (hkind : kind ≠ .singleQuoted) : spelling ++ rest <:+ text := by
  cases h with
  | lineBreak _ _ htext => exact ⟨_, htext⟩
  | @close m c _ held passed rest hholds hmove htext =>
    have hsuffix := hholds.suffix (Mode.ne_singleQuoted_of_move (.inl hmove) hkind)
    rw [List.reverse_cons, ← htext, List.append_assoc]
    exact List.suffix_append_self_iff.mpr hsuffix
  | closeBefore hholds hmove htext =>
    have hsuffix := hholds.suffix (Mode.ne_singleQuoted_of_move (.inr hmove) hkind)
    rw [← htext]
    exact List.suffix_append_self_iff.mpr hsuffix

/-- A completed operator is the longest spelling where it stands. -/
theorem Completed.operator? (h : Completed Mode.Holds text kind spelling rest)
    (hkind : kind.isOperator = true) :
    Lexer.operator? (spelling ++ rest) = some (spelling, kind) := by
  cases h with
  | lineBreak _ _ _ => cases hkind
  | close hholds hmove _ => exact hholds.form.operator?_close hmove hkind _
  | closeBefore hholds hmove _ => exact hholds.form.operator?_closeBefore hmove hkind _

end

/-- A refined kind is that of an operator only if nothing was refined. -/
theorem ScanState.refinedKind_eq_of_isOperator {kind : TokenKind} {spelling : List Char}
    (h : (refinedKind kind spelling).isOperator = true) : refinedKind kind spelling = kind := by
  unfold refinedKind at h ⊢
  split_ifs at h ⊢
  all_goals first
    | rfl
    | cases h

/-- The scanner has come to its place in this text: what is upcoming is the end of it, and before
that stand the characters that are held. -/
def Scanner.Within (s : Scanner) (text : List Char) : Prop :=
  ∃ passed, passed ++ s.upcoming = text ∧ s.mode.Holds s.held passed

/-- If a call has given an operator, it is the longest spelling where it stands in this text, and
the scanner has come to the characters after it. -/
structure Reply.Within (r : Reply) (text : List Char) : Prop where
  scanner : r.scanner.Within text
  operator : ∀ t, r.result = .ok t → t.kind.isOperator = true →
    ∃ spelling, spelling ++ r.scanner.upcoming <:+ text ∧
      operator? (spelling ++ r.scanner.upcoming) = some (spelling, t.kind) ∧
      t.text = nameOf spelling

theorem Reply.InCourse.within {r : Reply} {text : List Char} (h : r.InCourse Mode.Holds text) :
    r.Within text := by
  refine ⟨h.scanner, fun t ht hkind => ?_⟩
  obtain hcontrol | hcontrol | ⟨kind, spelling, hcompleted, hrefined, htext⟩ := h.token t ht
  · rw [hcontrol] at hkind
    cases hkind
  · rw [hcontrol] at hkind
    cases hkind
  · rw [hrefined] at hkind ⊢
    have hsame := refinedKind_eq_of_isOperator hkind
    rw [hsame] at hkind ⊢
    refine ⟨spelling, hcompleted.standing ?_, hcompleted.operator? hkind, ?_⟩
    · rintro rfl
      cases hkind
    · rw [htext, canonicalText, if_pos hkind, nameOf]

namespace Scanner

/-- A call for the next token goes on through the text, and an operator that it gives is the longest
where it stands. -/
theorem Within.nextToken {s : Scanner} {text : List Char} (h : s.Within text) :
    s.nextToken.Within text :=
  (InCourse.nextToken Mode.invariant_holds h).within

theorem Within.afterAll {s : Scanner} {text : List Char} (h : s.Within text) (calls : List Call) :
    (s.afterAll calls).Within text :=
  InCourse.afterAll Mode.invariant_holds h calls

theorem within_ofReads (name : String) (reads : List Read) (foreground : Option (List Bool)) :
    (ofReads name reads foreground).Within (delivered foreground false reads) :=
  inCourse_ofReads Mode.invariant_holds name reads foreground

end Scanner

/-! ## The table of operators -/

/-- The spellings in the table of operators. -/
def operatorSpellings : List (List Char) :=
  operators.map (·.1.toList)

/-- Of the spellings in the table that the text begins with, this is the longest. -/
structure IsLongestOperator (spelling text : List Char) : Prop where
  mem : spelling ∈ operatorSpellings
  isPrefix : spelling <+: text
  longest : ∀ other ∈ operatorSpellings, other <+: text → other.length ≤ spelling.length

/-- All that is looked for is in the table and has a name there, but for one spelling. -/
theorem mem_operatorSpellings : ∀ o ∈ spellings, o.2.isOperator = true →
    (o.1 ∈ operatorSpellings ∧ operatorName? (String.ofList o.1) = some (nameOf o.1)) ∨
      o = (['!', '|', '|'], .orElse) := by
  decide

/-- All that is in the table is looked for, but for a `<` by itself. -/
theorem mem_spellings : ∀ spelling ∈ operatorSpellings,
    spelling ∈ spellings.map Prod.fst ∨ spelling = ['<'] := by
  decide

/-- The longest spelling that is looked for is the longest in the table. -/
theorem isLongestOperator_of_operator? {text spelling : List Char} {kind : TokenKind}
    (h : operator? text = some (spelling, kind)) (hmem : spelling ∈ operatorSpellings) :
    IsLongestOperator spelling text where
  mem := hmem
  isPrefix := by
    have hbegins := List.find?_some h
    exact List.isPrefixOf_iff_prefix.mp hbegins
  longest := by
    intro other hother hprefix
    rcases mem_spellings other hother with hlooked | rfl
    · obtain ⟨o, ho, rfl⟩ := List.mem_map.mp hlooked
      exact length_le_of_operator? h o ho (List.isPrefixOf_iff_prefix.mpr hprefix)
    · exact length_pos_of_operator? h

namespace Scanner

/-- Every token of an operator, over every source and after any calls, covers the longest spelling
in the table that the logical text goes on with, and goes by its name; or it covers `!||`, and goes
by that. -/
theorem operator_covers (name : String) (reads : List Read) (foreground : Option (List Bool))
    (calls : List Call) {t : Token}
    (hresult : ((ofReads name reads foreground).afterAll calls).nextToken.result = .ok t)
    (hkind : t.kind.isOperator = true) :
    ∃ spelling rest,
      rest = ((ofReads name reads foreground).afterAll calls).nextToken.scanner.upcoming ∧
        spelling ++ rest <:+ delivered foreground false reads ∧
        (IsLongestOperator spelling (spelling ++ rest) ∧
            operatorName? (String.ofList spelling) = some t.text ∨
          spelling = ['!', '|', '|'] ∧ t.kind = .orElse ∧ t.text = "!||") := by
  have hwithin := ((within_ofReads name reads foreground).afterAll calls).nextToken
  obtain ⟨spelling, hsuffix, hfound, htext⟩ := hwithin.operator t hresult hkind
  refine ⟨spelling, _, rfl, hsuffix, ?_⟩
  have hlisted := List.mem_of_find?_eq_some hfound
  rcases mem_operatorSpellings _ hlisted hkind with ⟨hmem, hname⟩ | hexception
  · exact .inl ⟨isLongestOperator_of_operator? hfound hmem, hname.trans (congrArg some htext.symm)⟩
  · obtain ⟨rfl, hor⟩ := Prod.mk.inj hexception
    exact .inr ⟨rfl, hor, htext⟩

/-- An operator in two reads, with one between them that fails and is tried again. -/
theorem operator_covers_split :
    ((ofReads "tty" [⟨['a', '&'], .ok⟩, .fail .timedOut, .line ['&']] (some [true])).afterAll
        [.nextToken]).nextToken.result = .ok ⟨.andThen, "and", 2⟩ ∧
      TokenKind.andThen.isOperator = true ∧
      ∃ spelling rest,
        rest = ((ofReads "tty" [⟨['a', '&'], .ok⟩, .fail .timedOut, .line ['&']]
            (some [true])).afterAll [.nextToken]).nextToken.scanner.upcoming ∧
          spelling ++ rest <:+ delivered (some [true]) false
            [⟨['a', '&'], .ok⟩, .fail .timedOut, .line ['&']] ∧
          (IsLongestOperator spelling (spelling ++ rest) ∧
              operatorName? (String.ofList spelling) = some "and" ∨
            spelling = ['!', '|', '|'] ∧ TokenKind.andThen = .orElse ∧ "and" = "!||") :=
  ⟨rfl, rfl, operator_covers "tty" [⟨['a', '&'], .ok⟩, .fail .timedOut, .line ['&']] (some [true])
    [.nextToken] rfl rfl⟩

/-- The text of the operator in `a !|| b` is the name of no spelling. -/
theorem bangOr_unnamed :
    ∃ t, ((ofText "<string>" ['a', ' ', '!', '|', '|', ' ', 'b']).afterAll
        [.nextToken]).nextToken.result = .ok t ∧ t.kind.isOperator = true ∧
      ∀ spelling ∈ operatorSpellings, operatorName? (String.ofList spelling) ≠ some t.text :=
  ⟨⟨.orElse, "!||", 1⟩, rfl, rfl, by decide⟩

end Scanner

end LispShell
