import LispShell.Proofs.WholeText

set_option autoImplicit false

/-!
# Ways to write the same lines

A text may be written in several ways: a line may be broken after a backslash and continued in the
next one, and a carriage return may stand before a line break.  A scanner gives the same for all of
them.

A continuation leaves no trace in the logical text, provided that its backslash is the odd one: the
text before it ends in an even number of backslashes, which may be none.  Those of the two lines
that it joins are then counted as if they had been in one line from the start.

A carriage return before a line break changes the text of a read, and neither what the read adds to
the logical text nor its status.  `Read.effect` has these two.  Scanners whose sources give reads of
the same effects cannot be told apart, in any run and with all line numbers.
-/

namespace LispShell

open Lexer

/-! ## Continuations -/

section

variable {line : List Char}

theorem logicalOf_linesFrom_nil (h : '\n' ∉ line) :
    logicalOf (Read.linesFrom line []) = line.reverse := by
  cases line with
  | nil => rfl
  | cons c line =>
    have hlogical : Line.logical (c :: line).reverse = (c :: line).reverse :=
      Line.logical_of_not_mem fun hmem => h (List.mem_reverse.mp hmem)
    simpa [Read.linesFrom, logicalOf, Read.last] using hlogical

/-- The beginning of a line goes over as it is, if the backslashes at its end are even in number. -/
theorem logicalOf_linesFrom_append (hbreak : '\n' ∉ line) (heven : Line.isContinued line = false)
    (hreturn : line.head? ≠ some '\r') (text : List Char) :
    ∀ {later : List Char}, '\n' ∉ later → logicalOf (Read.linesFrom (later ++ line) text) =
      line.reverse ++ logicalOf (Read.linesFrom later text) := by
  induction text with
  | nil =>
    intro later hlater
    rw [logicalOf_linesFrom_nil (by simp [hlater, hbreak]), logicalOf_linesFrom_nil hlater,
      List.reverse_append]
  | cons c text ih =>
    intro later hlater
    rw [Read.linesFrom, Read.linesFrom, ← List.cons_append]
    split
    · have hlogical : Line.logical (c :: later ++ line).reverse =
          line.reverse ++ Line.logical (c :: later).reverse := by
        rw [List.reverse_append]
        exact Line.logical_append_of_even (by simpa using hbreak) (by simpa using heven)
          (by simpa using hreturn)
      simp only [logicalOf, List.flatMap_cons, hlogical, List.append_assoc]
    · rename_i hc
      exact ih (by simp [Ne.symm hc, hlater])

/-- A continuation in a text, of which `line` has been read since the last line break. -/
theorem logicalOf_linesFrom_continuation (y : List Char) {x : List Char} (hbreak : '\n' ∉ line)
    (heven : Line.isContinued (x.reverse ++ line) = false)
    (hreturn : (x.reverse ++ line).head? ≠ some '\r') :
    logicalOf (Read.linesFrom line (x ++ '\\' :: '\n' :: y)) =
      logicalOf (Read.linesFrom line (x ++ y)) := by
  induction x generalizing line with
  | nil =>
    -- The line that is broken leaves what it leaves without its backslash and line break.
    have hbroken : Line.logical ('\n' :: '\\' :: line).reverse = line.reverse := by
      have hlogical : Line.logical (line.reverse ++ ['\\', '\n']) = line.reverse ++ [] :=
        Line.logical_append_of_even (by simpa using hbreak) (by simpa using heven)
          (by simpa using hreturn)
      simpa using hlogical
    have hjoined := logicalOf_linesFrom_append hbreak heven hreturn y List.not_mem_nil
    rw [List.nil_append] at hjoined
    rw [List.nil_append, List.nil_append, hjoined, ← hbroken]
    rfl
  | cons c x ih =>
    rw [List.reverse_cons, List.append_assoc, List.singleton_append] at heven hreturn
    rw [List.cons_append, List.cons_append, Read.linesFrom, Read.linesFrom]
    split
    · rename_i hc
      subst hc
      have heven' : Line.isContinued (x.reverse ++ []) = false := by
        have hbreak' : Line.isContinued ('\n' :: line) = false :=
          Line.isContinued_of_head?_ne (by simp)
        rw [List.append_nil, ← heven, Line.isContinued_append hbreak']
      have hreturn' : (x.reverse ++ []).head? ≠ some '\r' := by
        rw [List.append_nil]
        intro hhead
        exact hreturn (by rw [List.head?_append, hhead]; rfl)
      exact congrArg (Line.logical _ ++ ·) (ih List.not_mem_nil heven' hreturn')
    · rename_i hc
      exact ih (by simp [Ne.symm hc, hbreak]) heven hreturn

end

/-- A continuation leaves no trace in the logical text. -/
theorem logicalText_continuation (y : List Char) {x : List Char}
    (heven : Line.isContinued x.reverse = false) (hreturn : x.getLast? ≠ some '\r') :
    logicalText (x ++ '\\' :: '\n' :: y) = logicalText (x ++ y) := by
  rw [← logicalOf_ofText, ← logicalOf_ofText]
  refine congrArg (· ++ ['\n']) (logicalOf_linesFrom_continuation y List.not_mem_nil ?_ ?_)
  · rwa [List.append_nil]
  · rwa [List.append_nil, List.head?_reverse]

/-- A text that is broken after a backslash, behind an even number of backslashes and no carriage
return, gives the same tokens and faults as without the backslash and the line break. -/
theorem Scanner.lexemes_continuation (name : String) (foreground : Option (List Bool)) {x : String}
    (y : String) (heven : Line.isContinued x.toList.reverse = false)
    (hreturn : x.toList.getLast? ≠ some '\r') :
    (Scanner.ofReads name (ByteStream.ofBytes (x ++ "\\\n" ++ y).toUTF8.data.toList).lines
        foreground).drain.map Reply.lexeme =
      (Scanner.ofReads name (ByteStream.ofBytes (x ++ y).toUTF8.data.toList).lines
        foreground).drain.map Reply.lexeme := by
  have hbroken : (x ++ "\\\n" ++ y).toList = x.toList ++ '\\' :: '\n' :: y.toList := by simp
  rw [ByteStream.lines_ofBytes_utf8, ByteStream.lines_ofBytes_utf8,
    Scanner.lexemes_drain_ofReads, Scanner.lexemes_drain_ofReads, hbroken, String.toList_append,
    logicalText_continuation y.toList heven hreturn]

/-- Between a backslash that escapes another one and a double quote, in quotes. -/
theorem Scanner.lexemes_continuation_quoted :
    Line.isContinued "\"a\\\\".toList.reverse = false ∧ "\"a\\\\".toList.getLast? ≠ some '\r' ∧
      (Scanner.ofReads "sh" (ByteStream.ofBytes
          ("\"a\\\\" ++ "\\\n" ++ "\\\"b\" c").toUTF8.data.toList).lines none).drain.map
            Reply.lexeme =
        (Scanner.ofReads "sh" (ByteStream.ofBytes
          ("\"a\\\\" ++ "\\\"b\" c").toUTF8.data.toList).lines none).drain.map Reply.lexeme := by
  have heven : Line.isContinued "\"a\\\\".toList.reverse = false := by decide
  have hreturn : "\"a\\\\".toList.getLast? ≠ some '\r' := by decide
  exact ⟨heven, hreturn, Scanner.lexemes_continuation "sh" none "\\\"b\" c" heven hreturn⟩

/-! ## Reads of the same effect -/

/-- What a read does to a scanner: the characters that it adds to the logical text, and its
status. -/
def Read.effect (r : Read) : List Char × ReadStatus :=
  (Line.logical r.text, r.status)

/-- The scanners differ in nothing but the texts of reads that have the same effects. -/
structure Scanner.Alike (s t : Scanner) : Prop where
  state : s.toScanState = t.toScanState
  effects : s.reads.map Read.effect = t.reads.map Read.effect

/-- The replies give and do the same, and leave scanners that are alike. -/
structure Reply.Alike (r r' : Reply) : Prop where
  result : r.result = r'.result
  events : r.events = r'.events
  scanner : r.scanner.Alike r'.scanner

section

variable {reads reads' : List Read}

theorem Answer.alike_toReply (a : Answer) (h : reads.map Read.effect = reads'.map Read.effect) :
    (a.toReply reads).Alike (a.toReply reads') :=
  ⟨rfl, rfl, rfl, h⟩

theorem Reply.Alike.after {r r' : Reply} (h : r.Alike r') (events : List Event) :
    (r.after events).Alike (r'.after events) :=
  ⟨h.result, congrArg (events ++ ·) h.events, h.scanner⟩

namespace ScanState

theorem fill_congr {text text' : List Char} (h : Line.logical text = Line.logical text')
    (s : ScanState) (ended : Bool) : s.fill text ended = s.fill text' ended := by
  rw [fill, fill, h]

theorem alike_conclude (s : ScanState) (h : reads.map Read.effect = reads'.map Read.effect) :
    (s.conclude reads).Alike (s.conclude reads') := by
  unfold conclude
  split
  · exact Answer.alike_toReply _ h
  · exact Answer.alike_toReply _ h

/-- A call that reads does the same with reads of the same effects. -/
theorem alike_request (reads : List Read) : ∀ {reads' : List Read},
    reads.map Read.effect = reads'.map Read.effect → ∀ (s : ScanState) (retried : Bool),
      (s.request retried reads).Alike (s.request retried reads') := by
  induction reads with
  | nil =>
    intro reads' h s retried
    obtain rfl : reads' = [] := List.map_eq_nil_iff.mp h.symm
    exact ⟨rfl, rfl, rfl, rfl⟩
  | cons read reads ih =>
    intro reads' h s retried
    cases reads' with
    | nil => cases h
    | cons read' reads' =>
      obtain ⟨text, status⟩ := read
      obtain ⟨text', status'⟩ := read'
      obtain ⟨heffect, hreads⟩ := List.cons.inj h
      obtain ⟨hlogical, rfl⟩ := Prod.mk.inj heffect
      have hfail (t : ScanState) (e : ReadError) :
          (t.fail text e reads).Alike (t.fail text' e reads') := by
        unfold fail
        rw [fill_congr hlogical]
        exact Answer.alike_toReply _ hreads
      refine Reply.Alike.after ?_ [.read]
      cases status with
      | ok =>
        dsimp only
        rw [fill_congr hlogical]
        cases (s.fill text' false).scanRest with
        | inl t => exact ih hreads t false
        | inr a => exact Answer.alike_toReply a hreads
      | interrupted => exact Answer.alike_toReply _ hreads
      | endOfStream =>
        dsimp only
        rw [fill_congr hlogical]
        exact alike_conclude _ hreads
      | failed e =>
        dsimp only
        split
        · exact hfail s e
        · split
          · exact hfail s e
          · refine Reply.Alike.after ?_ [.reclaim _]
            split
            · exact ih hreads _ true
            · exact hfail _ e

end ScanState

end

namespace Scanner

variable {s t : Scanner}

theorem Alike.nextToken (h : s.Alike t) : s.nextToken.Alike t.nextToken := by
  unfold Scanner.nextToken
  rw [← h.state]
  split
  · exact Answer.alike_toReply _ h.effects
  · split
    · exact Answer.alike_toReply _ h.effects
    · exact ScanState.alike_request s.reads h.effects _ false

theorem Alike.after (h : s.Alike t) (c : Call) : (s.after c).Alike (t.after c) := by
  cases c with
  | nextToken => exact h.nextToken.scanner
  | reset => exact ⟨congrArg ScanState.reset h.state, h.effects⟩
  | report message => exact h

theorem Alike.outcome_eq (h : s.Alike t) (c : Call) : s.outcome c = t.outcome c := by
  have hafter := (h.after c).state
  unfold outcome isFinished
  rw [hafter]
  cases c with
  | nextToken => simp only [h.nextToken.result, h.nextToken.events]
  | reset => rfl
  | report message => simp only [report, h.state]

/-- Scanners that are alike cannot be told apart. -/
theorem Alike.run_eq (h : s.Alike t) (calls : List Call) : s.run calls = t.run calls := by
  induction calls generalizing s t with
  | nil => rfl
  | cons c calls ih => rw [run, run, h.outcome_eq, ih (h.after c)]

end Scanner

/-! ## Carriage returns -/

/-- The text with a carriage return before each line break. -/
def withReturns (text : List Char) : List Char :=
  text.flatMap fun c => if c = '\n' then ['\r', '\n'] else [c]

theorem logical_return {line : List Char} (h : '\r' ∉ line) :
    Line.logical ('\n' :: '\r' :: line).reverse = Line.logical ('\n' :: line).reverse := by
  rw [Line.logical_break fun hhead => h (List.mem_of_mem_head? hhead)]
  unfold Line.logical
  rw [List.reverse_reverse]
  rfl

/-- A line has the same effect with a carriage return before its line break. -/
theorem effect_linesFrom_withReturns {text : List Char} (htext : '\r' ∉ text) :
    ∀ {line : List Char}, '\r' ∉ line →
      (Read.linesFrom line (withReturns text)).map Read.effect =
        (Read.linesFrom line text).map Read.effect := by
  induction text with
  | nil => exact fun _ => rfl
  | cons c text ih =>
    intro line hline
    obtain ⟨hc, hrest⟩ := not_or.mp (mt List.mem_cons.mpr htext)
    rw [withReturns, List.flatMap_cons, ← withReturns, Read.linesFrom]
    split
    · rename_i hbreak
      subst hbreak
      have hreads : Read.linesFrom line (['\r', '\n'] ++ withReturns text) =
          ⟨('\n' :: '\r' :: line).reverse, .ok⟩ :: Read.linesFrom [] (withReturns text) := rfl
      rw [hreads, List.map_cons, List.map_cons, ih hrest List.not_mem_nil, Read.effect, Read.effect,
        logical_return hline]
    · rename_i hbreak
      rw [List.singleton_append, Read.linesFrom, if_neg hbreak]
      exact ih hrest (by simp [hc, hline])

/-- For a text without carriage returns it makes no difference to any run of calls whether its lines
end in a line break or in a carriage return and a line break. -/
theorem Scanner.run_withReturns (name : String) (foreground : Option (List Bool)) {text : String}
    (h : '\r' ∉ text.toList) (calls : List Call) :
    (Scanner.ofReads name (ByteStream.ofBytes
        (String.ofList (withReturns text.toList)).toUTF8.data.toList).lines foreground).run calls =
      (Scanner.ofReads name (ByteStream.ofBytes text.toUTF8.data.toList).lines
        foreground).run calls := by
  rw [ByteStream.lines_ofBytes_utf8, ByteStream.lines_ofBytes_utf8, String.toList_ofList]
  have hreads := effect_linesFrom_withReturns h List.not_mem_nil
  have halike : (Scanner.ofReads name (Read.ofText (withReturns text.toList)) foreground).Alike
      (Scanner.ofReads name (Read.ofText text.toList) foreground) := ⟨rfl, hreads⟩
  exact halike.run_eq calls

/-- With a continuation, a line break in single quotes, a comment and a `<` that begins nothing. -/
theorem Scanner.run_withReturns_quoted :
    '\r' ∉ "a\\\nb 'c\nd' # e\\\n\n< f\n".toList ∧
      (Scanner.ofReads "sh" (ByteStream.ofBytes (String.ofList
          (withReturns "a\\\nb 'c\nd' # e\\\n\n< f\n".toList)).toUTF8.data.toList).lines
            none).run (List.replicate 9 .nextToken) =
        (Scanner.ofReads "sh" (ByteStream.ofBytes
          "a\\\nb 'c\nd' # e\\\n\n< f\n".toUTF8.data.toList).lines none).run
            (List.replicate 9 .nextToken) := by
  have hreturn : '\r' ∉ "a\\\nb 'c\nd' # e\\\n\n< f\n".toList := by decide
  exact ⟨hreturn, Scanner.run_withReturns "sh" none hreturn (List.replicate 9 .nextToken)⟩

end LispShell
