import LispShell.Proofs.Operators

set_option autoImplicit false

/-!
# The line breaks of a run

Outside quotes and comments a line break is a token, but for one that comes after a token which
continues the line: that is passed over.  This module says so of every run over every source.
Faults, interruptions, new beginnings and failed reads may come in between, and a token may begin in
one read and end in another.

A run is cut into passages, one for each call.  A passage has the part of the logical text that its
call went through, and the result.  `Place` follows the run from outside: whether the text is in
quotes or in a comment, which the characters alone decide, and the last token, which the results
tell.  `LineLaw` says what each passage may give where it stands.

The argument compares the place with the mode and the memory of the scanner.  One call keeps the two
together, and so do all calls.
-/

namespace LispShell

open ScanState

/-! ## Quotes and comments -/

/-- What a place in a text is inside of. -/
inductive Region where
  /-- outside quotes and comments -/
  | plain
  | single
  /-- inside double quotes; `escaping` tells that the character before escapes the next one -/
  | double (escaping : Bool)
  /-- inside a comment; `backslash` tells that the character before was a backslash -/
  | comment (backslash : Bool)
  deriving DecidableEq, Repr, Inhabited

namespace Region

/-- The region after one more character. -/
def step : Region → Char → Region
  | .plain, c =>
    if c = '\'' then .single else if c = '"' then .double false
    else if c = '#' then .comment false else .plain
  | .single, c => if c = '\'' then .plain else .single
  | .double escaping, c =>
    if escaping then .double false else if c = '"' then .plain else .double (c = '\\')
  | .comment backslash, c => if c = '\n' && !backslash then .plain else .comment (c = '\\')

/-- The region after a text. -/
def after (r : Region) (text : List Char) : Region :=
  text.foldl step r

/-- The character is a line break outside quotes and comments.  A comment ends in front of its line
break. -/
def Breaks (r : Region) (c : Char) : Prop :=
  c = '\n' ∧ r.step c = .plain

instance (r : Region) (c : Char) : Decidable (r.Breaks c) :=
  inferInstanceAs (Decidable (_ ∧ _))

/-- The number of line breaks in a text that stand outside quotes and comments. -/
def breakCount : Region → List Char → Nat
  | _, [] => 0
  | r, c :: text => (if r.Breaks c then 1 else 0) + (r.step c).breakCount text

@[simp] theorem after_cons (r : Region) (c : Char) (text : List Char) :
    r.after (c :: text) = (r.step c).after text := rfl

theorem after_append (r : Region) (text more : List Char) :
    r.after (text ++ more) = (r.after text).after more :=
  List.foldl_append

theorem breakCount_append (text more : List Char) : ∀ r : Region,
    r.breakCount (text ++ more) = r.breakCount text + (r.after text).breakCount more := by
  induction text with
  | nil => exact fun r => (Nat.zero_add _).symm
  | cons c text ih =>
    intro r
    rw [List.cons_append, breakCount, breakCount, ih, after_cons, Nat.add_assoc]

end Region

/-- The region that a mode stands for. -/
def Mode.region : Mode → Region
  | .singleQuoted => .single
  | .doubleQuoted escaping | .bangDouble escaping => .double escaping
  | .comment backslash => .comment backslash
  | _ => .plain

/-! ## One character -/

/-- A kind that neither is a line break nor tells that the input was interrupted or has ended. -/
def TokenKind.isOrdinary (kind : TokenKind) : Bool :=
  kind != .newline && kind != .interrupt && kind != .endOfInput

/-- What a move on a character may be in a region. -/
def Move.Abides (r : Region) (c : Char) : Move → Prop
  | .take next => ¬r.Breaks c ∧ next.region = r.step c
  | .skip => ¬r.Breaks c ∧ r.step c = .plain
  | .lineBreak => r.Breaks c
  | .close kind => ¬r.Breaks c ∧ r.step c = .plain ∧ kind.isOrdinary = true
  | .closeBefore kind => r = .plain ∧ kind.isOrdinary = true
  | .reject => r = .plain

namespace Mode

theorem abides_firstMove (c : Char) : (firstMove c).Abides .plain c := by
  unfold firstMove
  split
  all_goals simp_all [Move.Abides, Region.Breaks, Region.step, Mode.region, TokenKind.isOrdinary]

theorem abides_symbolMove (c : Char) : (symbolMove c).Abides .plain c := by
  unfold symbolMove
  split
  · exact ⟨rfl, rfl⟩
  · rename_i hends
    have hne : c ≠ '\n' ∧ c ≠ '\'' ∧ c ≠ '"' ∧ c ≠ '#' := by
      refine ⟨?_, ?_, ?_, ?_⟩
      all_goals
        rintro rfl
        exact hends rfl
    simp [Move.Abides, Region.Breaks, Region.step, Mode.region, hne]

theorem abides_quotedMove {kind : TokenKind} {inside : Bool → Mode} (hkind : kind.isOrdinary = true)
    (hinside : ∀ escaping, (inside escaping).region = .double escaping) (escaping : Bool)
    (c : Char) : (quotedMove kind inside escaping c).Abides (.double escaping) c := by
  unfold quotedMove
  split_ifs with hescaping hquote
  · simp [Move.Abides, Region.Breaks, Region.step, hescaping, hinside]
  · simp [Move.Abides, Region.Breaks, Region.step, hescaping, hquote, hkind]
  · simp [Move.Abides, Region.Breaks, Region.step, hescaping, hquote, hinside]

/-- The moves of a mode keep to its region. -/
theorem abides_move (m : Mode) (c : Char) : (m.move c).Abides m.region c := by
  cases m with
  | start => exact abides_firstMove c
  | symbol => exact abides_symbolMove c
  | doubleQuoted escaping => exact abides_quotedMove rfl (fun _ => rfl) escaping c
  | bangDouble escaping => exact abides_quotedMove rfl (fun _ => rfl) escaping c
  | bang =>
    rw [move]
    split_ifs with hquote hgreater hpipe
    · simp [Move.Abides, Region.Breaks, Region.step, Mode.region, hquote]
    · simp [Move.Abides, Region.Breaks, Region.step, Mode.region, hgreater]
    · simp [Move.Abides, Region.Breaks, Region.step, Mode.region, hpipe]
    · exact abides_symbolMove c
  | _ =>
    simp only [move]
    split_ifs
    all_goals simp_all [Move.Abides, Region.Breaks, Region.step, Mode.region, TokenKind.isOrdinary]

end Mode

/-! ## Where a run stands -/

/-- Where a run stands in the text of its source: the kind of the last token, if there was one since
the input was interrupted, has ended or was begun anew, and the region. -/
structure Place where
  last : Option TokenKind
  region : Region
  deriving DecidableEq, Repr, Inhabited

namespace Place

/-- Before the first token, and where the scanner begins anew. -/
def beginning : Place := ⟨none, .plain⟩

/-- The line break to come is passed over. -/
def continues (p : Place) : Bool :=
  p.last.any TokenKind.continuesLine

/-- The place after some text of which no result came. -/
def through (p : Place) (text : List Char) : Place :=
  { p with region := p.region.after text }

/-- The place after a call that went through some text and gave this result. -/
def after (p : Place) (text : List Char) : Except Fault Token → Place
  | .ok t => if t.kind = .interrupt ∨ t.kind = .endOfInput then beginning
    else { p.through text with last := some t.kind }
  | .error _ => p.through text

/-- On the way through some text this kind of token may be given, or none.  After a token that
continues the line it is no line break.  Otherwise it is a line break if the way goes through one,
and the way goes through no more than one. -/
structure Allows (p : Place) (text : List Char) (given : Option TokenKind) : Prop where
  follows : p.continues = true → given ≠ some .newline
  count : p.continues = false →
    p.region.breakCount text = if given = some .newline then 1 else 0

variable {p : Place} {given : Option TokenKind}

theorem some_ne_newline {kind : TokenKind} (h : kind.isOrdinary = true) :
    some kind ≠ some .newline := by
  rintro ⟨⟩
  cases h

theorem allows_nil (h : given ≠ some .newline) : p.Allows [] given :=
  ⟨fun _ => h, fun _ => by rw [if_neg h]; rfl⟩

/-- Going on after some text of which no token came. -/
theorem Allows.append {text more : List Char} (h : p.Allows text none)
    (hmore : (p.through text).Allows more given) : p.Allows (text ++ more) given := by
  refine ⟨hmore.follows, fun hcontinues => ?_⟩
  rw [Region.breakCount_append, h.count hcontinues, if_neg (by simp), Nat.zero_add]
  exact hmore.count hcontinues

/-- A character that is no line break, or one that is passed over. -/
theorem allows_singleton {c : Char} (hgiven : given ≠ some .newline)
    (h : p.region.Breaks c → p.continues = true) : p.Allows [c] given := by
  refine ⟨fun _ => hgiven, fun hcontinues => ?_⟩
  have hbreaks : ¬p.region.Breaks c := fun hbreaks => by simp [h hbreaks] at hcontinues
  rw [Region.breakCount, if_neg hbreaks, if_neg hgiven]
  rfl

theorem after_through (p : Place) (text more : List Char) (result : Except Fault Token) :
    (p.through text).after more result = p.after (text ++ more) result := by
  have hthrough : (p.through text).through more = p.through (text ++ more) := by
    simp only [through, Region.after_append]
  cases result with
  | ok t => simp only [after, hthrough]
  | error fault => exact hthrough

end Place

/-! ## Scanning -/

namespace ScanState

/-- The kind of the token that is complete. -/
def Progress.kind? : Progress → Option TokenKind
  | .complete kind _ _ => some kind
  | _ => none

/-- The region that scanning has come to. -/
def Progress.region : Progress → Region
  | .dry mode _ => mode.region
  | _ => .plain

/-- A complete token is one that the text may give. -/
def Progress.Abides (p : Place) (text : List Char) (q : Progress) : Prop :=
  ∃ gone, gone ++ q.rest = text ∧ p.Allows gone q.kind? ∧ q.region = p.region.after gone ∧
    ∀ kind ∈ q.kind?, kind = .newline ∨ kind.isOrdinary = true

theorem Progress.Abides.cons {p : Place} {c : Char} {text : List Char} {q : Progress}
    (hc : p.region.Breaks c → p.continues = true) (h : q.Abides (p.through [c]) text) :
    q.Abides p (c :: text) := by
  obtain ⟨gone, rfl, hallows, hregion, hkind⟩ := h
  exact ⟨c :: gone, rfl, (Place.allows_singleton (by simp) hc).append hallows, hregion, hkind⟩

theorem abides_scan (text : List Char) : ∀ {p : Place} {mode : Mode} (held : List Char),
    mode.region = p.region → (scan p.last mode held text).Abides p text := by
  induction text with
  | nil =>
    intro p mode held hregion
    refine ⟨[], rfl, Place.allows_nil (by simp [scan, Progress.kind?]), hregion, ?_⟩
    rintro kind ⟨⟩
  | cons c text ih =>
    intro p mode held hregion
    have habides := mode.abides_move c
    rw [hregion] at habides
    rw [scan]
    cases hmove : mode.move c with
    | take next =>
      rw [hmove] at habides
      obtain ⟨hbreaks, hnext⟩ := habides
      have hrest : (scan p.last next (hold mode c text held) text).Abides (p.through [c]) text :=
        ih _ hnext
      exact hrest.cons fun h => absurd h hbreaks
    | skip =>
      rw [hmove] at habides
      obtain ⟨hbreaks, hplain⟩ := habides
      have hrest : (scan p.last .start [] text).Abides (p.through [c]) text := ih _ hplain.symm
      exact hrest.cons fun h => absurd h hbreaks
    | lineBreak =>
      rw [hmove] at habides
      have hbreaks : p.region.Breaks c := habides
      dsimp only
      split
      · rename_i hcontinues
        have hrest : (scan p.last .start [] text).Abides (p.through [c]) text :=
          ih _ hbreaks.2.symm
        exact hrest.cons fun _ => hcontinues
      · rename_i hcontinues
        refine ⟨[c], rfl, ⟨fun h => absurd h hcontinues, fun _ => ?_⟩, hbreaks.2.symm, ?_⟩
        · rw [Region.breakCount, if_pos hbreaks]
          rfl
        · rintro kind ⟨⟩
          exact .inl rfl
    | close kind =>
      rw [hmove] at habides
      obtain ⟨hbreaks, hplain, hkind⟩ := habides
      refine ⟨[c], rfl, Place.allows_singleton (Place.some_ne_newline hkind) ?_, hplain.symm, ?_⟩
      · exact fun h => absurd h hbreaks
      · rintro kind ⟨⟩
        exact .inr hkind
    | closeBefore kind =>
      rw [hmove] at habides
      obtain ⟨hplain, hkind⟩ := habides
      refine ⟨[], rfl, Place.allows_nil (Place.some_ne_newline hkind), hplain.symm, ?_⟩
      rintro kind ⟨⟩
      exact .inr hkind
    | reject =>
      rw [hmove] at habides
      have hplain : p.region = .plain := habides
      refine ⟨[], rfl, Place.allows_nil (by simp [Progress.kind?]), hplain.symm, ?_⟩
      rintro kind ⟨⟩

theorem isOrdinary_refinedKind {kind : TokenKind} (h : kind.isOrdinary = true)
    (spelling : List Char) : (refinedKind kind spelling).isOrdinary = true := by
  unfold refinedKind
  split_ifs
  · rfl
  · rfl
  · rfl
  · exact h

end ScanState

/-! ## One call -/

/-- The kind of the token that is given. -/
def givenKind (result : Except Fault Token) : Option TokenKind :=
  result.toOption.map Token.kind

/-- The scanner stands at this place, or nothing is left for it to come to. -/
def Scanner.Stands (s : Scanner) (p : Place) : Prop :=
  s.previous = p.last ∧ s.mode.region = p.region ∨
    s.finished = true ∧ s.rest = [] ∧ s.mode = .start

/-- A call that began at this place, with this text to come, has gone through some of it and given
what that allows, and the scanner stands at the place after it. -/
def Reply.Abides (r : Reply) (p : Place) (text : List Char) : Prop :=
  ∃ gone, gone ++ r.scanner.upcoming = text ∧ p.Allows gone (givenKind r.result) ∧
    r.scanner.Stands (p.after gone r.result)

@[simp] theorem Reply.abides_after (r : Reply) (events : List Event) (p : Place)
    (text : List Char) : (r.after events).Abides p text ↔ r.Abides p text :=
  Iff.rfl

theorem Reply.Abides.append {r : Reply} {p : Place} {text more : List Char}
    (h : p.Allows text none) (hmore : r.Abides (p.through text) more) :
    r.Abides p (text ++ more) := by
  obtain ⟨gone, rfl, hallows, hstands⟩ := hmore
  rw [Place.after_through] at hstands
  exact ⟨text ++ gone, List.append_assoc _ _ _, h.append hallows, hstands⟩

/-- Where no token is given the place stays the same but for the region. -/
theorem Reply.abides_of_error {r : Reply} {fault : Fault} {p : Place} {gone text : List Char}
    (hresult : r.result = .error fault) (htext : gone ++ r.scanner.upcoming = text)
    (hallows : p.Allows gone none) (hstands : r.scanner.Stands (p.through gone)) :
    r.Abides p text := by
  refine ⟨gone, htext, ?_, ?_⟩
  · rw [hresult]
    exact hallows
  · rw [hresult]
    exact hstands

/-- A token that is no sign of an interruption or of the end is the last one afterwards. -/
theorem Reply.abides_of_ok {r : Reply} {t : Token} {p : Place} {gone text : List Char}
    (hresult : r.result = .ok t) (hkind : t.kind = .newline ∨ t.kind.isOrdinary = true)
    (htext : gone ++ r.scanner.upcoming = text) (hallows : p.Allows gone (some t.kind))
    (hlast : r.scanner.previous = some t.kind)
    (hregion : r.scanner.mode.region = p.region.after gone) : r.Abides p text := by
  have hgoes : ¬(t.kind = .interrupt ∨ t.kind = .endOfInput) := by
    rintro (h | h)
    · simp [h, TokenKind.isOrdinary] at hkind
    · simp [h, TokenKind.isOrdinary] at hkind
  refine ⟨gone, htext, ?_, .inl ?_⟩
  · rw [hresult]
    exact hallows
  · rw [hresult, Place.after, if_neg hgoes]
    exact ⟨hlast, hregion⟩

namespace ScanState

variable {s : ScanState} {p : Place}

/-- Scanning the characters at hand goes through them all or gives what some of them allow. -/
theorem abides_scanRest (hlast : s.previous = p.last) (hregion : s.mode.region = p.region)
    (reads : List Read) :
    match s.scanRest with
    | .inl t => p.Allows s.rest none ∧ t.previous = (p.through s.rest).last ∧
        t.mode.region = (p.through s.rest).region
    | .inr a => (a.toReply reads).Abides p (Scanner.upcoming { s with reads }) := by
  have habides := abides_scan s.rest s.held hregion
  have htext {gone rest : List Char} (hgone : gone ++ rest = s.rest) :
      gone ++ (rest ++ s.beyond reads) = s.rest ++ s.beyond reads := by
    rw [← List.append_assoc, hgone]
  unfold scanRest
  rw [hlast]
  cases hprogress : scan p.last s.mode s.held s.rest with
  | dry mode held =>
    rw [hprogress] at habides
    obtain ⟨gone, hgone, hallows, hend, -⟩ := habides
    obtain rfl : gone = s.rest := (List.append_nil gone).symm.trans hgone
    exact ⟨hallows, rfl, hend⟩
  | complete kind spelling rest =>
    rw [hprogress] at habides
    obtain ⟨gone, hgone, hallows, hend, hkind⟩ := habides
    obtain rfl | hordinary := hkind kind rfl
    · exact Reply.abides_of_ok rfl (.inl rfl) (htext hgone) hallows rfl hend
    · have hrefined := isOrdinary_refinedKind hordinary spelling
      refine Reply.abides_of_ok rfl (.inr hrefined) (htext hgone) ⟨fun _ => ?_, fun hcontinues => ?_⟩
        rfl hend
      · exact Place.some_ne_newline hrefined
      · rw [hallows.count hcontinues, if_neg (Place.some_ne_newline hrefined)]
        exact if_neg (Place.some_ne_newline hordinary)
  | rejected rest =>
    rw [hprogress] at habides
    obtain ⟨gone, hgone, hallows, hend, -⟩ := habides
    exact Reply.abides_of_error rfl (htext hgone) hallows (.inl ⟨rfl, hend⟩)

theorem scanRest_of_rest_eq_nil (h : s.rest = []) : s.scanRest = .inl { s with rest := [] } := by
  unfold scanRest
  rw [h]
  rfl

theorem abides_finish (hrest : s.rest = []) (hfinished : s.finished = true) (p : Place)
    (reads : List Read) : (s.finish.toReply reads).Abides p [] := by
  unfold finish
  split
  · refine ⟨[], ?_, Place.allows_nil ?_, .inr ⟨hfinished, rfl, rfl⟩⟩
    · simp [Answer.toReply, Scanner.upcoming, beyond, reset, hfinished]
    · rintro ⟨⟩
  · refine ⟨[], ?_, Place.allows_nil ?_, .inr ⟨hfinished, hrest, rfl⟩⟩
    · simp [Answer.toReply, Scanner.upcoming, beyond, hrest, hfinished]
    · rintro ⟨⟩

theorem abides_conclude (hlast : s.previous = p.last) (hregion : s.mode.region = p.region)
    (hfinished : s.finished = true) (reads : List Read) : (s.conclude reads).Abides p s.rest := by
  have hscanned := abides_scanRest hlast hregion reads
  unfold conclude
  cases hscan : s.scanRest with
  | inl t =>
    rw [hscan] at hscanned
    obtain ⟨hallows, -, -⟩ := hscanned
    obtain ⟨mode, held, rfl⟩ := eq_of_scanRest_inl hscan
    have hfinish := abides_finish (s := { s with mode, held, rest := [] }) rfl hfinished
      (p.through s.rest) reads
    rw [← List.append_nil s.rest]
    exact .append hallows hfinish
  | inr a =>
    rwa [hscan, Scanner.upcoming, beyond, if_pos hfinished, List.append_nil] at hscanned

/-- A read that fails for good is the last, and all of its text is upcoming. -/
theorem abides_fail (hlast : s.previous = p.last) (hregion : s.mode.region = p.region)
    (text : List Char) (e : ReadError) (reads : List Read) :
    (s.fail text e reads).Abides p (Line.logical text ++ ['\n']) := by
  refine Reply.abides_of_error rfl ?_ (Place.allows_nil (by simp)) (.inl ⟨hlast, hregion⟩)
  simp [fail, Answer.toReply, Scanner.upcoming, beyond, fill]

/-- A call that reads goes through the text that its lines deliver and gives what that allows. -/
theorem Requests.abides {retried : Bool} {reads : List Read} {r : Reply} {made : List Entry}
    (h : Requests s retried reads r made) :
    ∀ {p : Place}, s.finished = false → s.previous = p.last → s.mode.region = p.region →
      r.Abides p (delivered s.foreground retried reads) := by
  induction h with
  | @exhausted s retried =>
    intro p _ hlast hregion
    rw [Reply.abides_after]
    exact abides_conclude (s := s.fill [] true) hlast hregion (by simp [fill]) []
  | @dry s t retried text reads r made hscan _ ih =>
    intro p hopen hlast hregion
    have hscanned := abides_scanRest (s := s.fill text false) hlast hregion reads
    rw [hscan] at hscanned
    obtain ⟨hallows, hlast', hregion'⟩ := hscanned
    obtain ⟨mode, held, rfl⟩ := eq_of_scanRest_inl hscan
    have habides := Reply.Abides.append hallows (ih (by simp [fill, hopen]) hlast' hregion')
    rw [Reply.abides_after]
    simpa [fill, delivered] using habides
  | @answer s retried text reads a hscan =>
    intro p hopen hlast hregion
    have hscanned := abides_scanRest (s := s.fill text false) hlast hregion reads
    rw [hscan] at hscanned
    rw [Reply.abides_after]
    simpa [Scanner.upcoming, beyond, fill, hopen, delivered] using hscanned
  | @interrupted s retried text reads =>
    intro p hopen _ _
    rw [Reply.abides_after]
    refine ⟨[], ?_, Place.allows_nil ?_, .inl ⟨rfl, rfl⟩⟩
    · simp [Answer.toReply, Scanner.upcoming, beyond, reset, delivered, hopen]
    · rintro ⟨⟩
  | @endOfStream s retried text reads =>
    intro p _ hlast hregion
    rw [Reply.abides_after]
    exact abides_conclude (s := s.fill text true) hlast hregion (by simp [fill]) reads
  | @unasked s retried text reads e halone =>
    intro p _ hlast hregion
    rw [Reply.abides_after, delivered_of_unasked halone]
    exact abides_fail hlast hregion text e reads
  | @refused s t text reads e hreclaim =>
    intro p _ hlast hregion
    rw [Reply.abides_after, Reply.abides_after, delivered_of_refused hreclaim]
    obtain ⟨foreground, rfl⟩ := eq_of_reclaim hreclaim
    exact abides_fail (s := { s with foreground }) hlast hregion text e reads
  | @retry s t text reads e r made hreclaim _ ih =>
    intro p hopen hlast hregion
    rw [Reply.abides_after, Reply.abides_after, delivered_of_retry hreclaim]
    obtain ⟨foreground, rfl⟩ := eq_of_reclaim hreclaim
    exact ih hopen hlast hregion

end ScanState

namespace Scanner

/-- A call for the next token goes through some of the text to come and gives what that allows. -/
theorem Stands.nextToken {s : Scanner} {p : Place} (h : s.Stands p) :
    s.nextToken.Abides p s.upcoming := by
  unfold Scanner.nextToken
  obtain ⟨hlast, hregion⟩ | ⟨hfinished, hrest, hmode⟩ := h
  · have hscanned := ScanState.abides_scanRest hlast hregion s.reads
    cases hscan : s.toScanState.scanRest with
    | inr a =>
      rw [hscan] at hscanned
      exact hscanned
    | inl t =>
      rw [hscan] at hscanned
      obtain ⟨hallows, hlast', hregion'⟩ := hscanned
      obtain ⟨mode, held, rfl⟩ := ScanState.eq_of_scanRest_inl hscan
      dsimp only
      rw [upcoming, ScanState.beyond]
      by_cases hfinished : s.finished = true
      · have hfinish := ScanState.abides_finish (s := { s.toScanState with mode, held, rest := [] })
          rfl hfinished (p.through s.rest) s.reads
        rw [if_pos hfinished, if_pos hfinished]
        exact .append hallows hfinish
      · have hopen : s.finished = false := by simpa using hfinished
        rw [if_neg hfinished, if_neg hfinished]
        exact .append hallows ((ScanState.requests s.reads _ false).abides hopen hlast' hregion')
  · -- Nothing is left: the call gives the end of the input.
    have hscan := ScanState.scanRest_of_rest_eq_nil hrest
    have hupcoming : s.upcoming = [] := by
      simp [upcoming, ScanState.beyond, hrest, hfinished]
    rw [hscan, hupcoming]
    dsimp only
    rw [if_pos hfinished]
    exact ScanState.abides_finish (s := { s.toScanState with rest := [] }) rfl hfinished p s.reads

end Scanner

/-! ## All calls -/

/-- What one call of a run has done with the text. -/
inductive Passage where
  /-- it went through this text and gave this result -/
  | gave (text : List Char) (result : Except Fault Token)
  /-- it dropped this text and began anew -/
  | dropped (text : List Char)

/-- The text that a call went through or dropped. -/
def Passage.text : Passage → List Char
  | .gave text _ => text
  | .dropped text => text

namespace Scanner

/-- The text that the next call goes through: all that is upcoming now and no longer after it. -/
def passed (s : Scanner) : List Char :=
  s.upcoming.take (s.upcoming.length - s.nextToken.scanner.upcoming.length)

/-- The passages of a run of calls. -/
def passages (s : Scanner) : List Call → List Passage
  | [] => []
  | .nextToken :: calls =>
    .gave s.passed s.nextToken.result :: s.nextToken.scanner.passages calls
  | .reset :: calls => .dropped s.rest :: s.reset.passages calls
  | .report _ :: calls => s.passages calls

end Scanner

/-- Every passage of a run that stands at this place gives what its text allows. -/
def LineLaw : Place → List Passage → Prop
  | _, [] => True
  | p, .gave text result :: passages =>
    p.Allows text (givenKind result) ∧ LineLaw (p.after text result) passages
  | _, .dropped _ :: passages => LineLaw .beginning passages

namespace Scanner

variable {s : Scanner} {p : Place}

theorem upcoming_reset (s : Scanner) : s.rest ++ s.reset.upcoming = s.upcoming := by
  rw [upcoming, upcoming]
  rfl

/-- What a call has gone through comes before what is upcoming after it. -/
theorem Stands.passed_append (h : s.Stands p) :
    s.passed ++ s.nextToken.scanner.upcoming = s.upcoming ∧
      p.Allows s.passed (givenKind s.nextToken.result) ∧
      s.nextToken.scanner.Stands (p.after s.passed s.nextToken.result) := by
  obtain ⟨gone, hgone, hallows, hstands⟩ := h.nextToken
  have hpassed : s.passed = gone := by
    rw [passed, ← hgone, List.length_append, Nat.add_sub_cancel, List.take_left]
  rw [hpassed]
  exact ⟨hgone, hallows, hstands⟩

/-- The passages of a run follow one another in the text without a gap. -/
theorem Stands.flatMap_passages (h : s.Stands p) (calls : List Call) :
    (s.passages calls).flatMap Passage.text ++ (s.afterAll calls).upcoming = s.upcoming := by
  induction calls generalizing s p with
  | nil => rfl
  | cons c calls ih =>
    cases c with
    | nextToken =>
      obtain ⟨htext, -, hstands⟩ := h.passed_append
      rw [passages, List.flatMap_cons, List.append_assoc, Passage.text]
      exact (congrArg (s.passed ++ ·) (ih hstands)).trans htext
    | reset =>
      rw [passages, List.flatMap_cons, List.append_assoc, Passage.text]
      have hreset : s.reset.Stands .beginning := .inl ⟨rfl, rfl⟩
      exact (congrArg (s.rest ++ ·) (ih hreset)).trans s.upcoming_reset
    | report message => exact ih h

theorem Stands.lineLaw (h : s.Stands p) (calls : List Call) : LineLaw p (s.passages calls) := by
  induction calls generalizing s p with
  | nil => trivial
  | cons c calls ih =>
    cases c with
    | nextToken =>
      obtain ⟨-, hallows, hstands⟩ := h.passed_append
      exact ⟨hallows, ih hstands⟩
    | reset =>
      have hreset : s.reset.Stands .beginning := .inl ⟨rfl, rfl⟩
      exact ih hreset
    | report message => exact ih h

/-- For every source and every run of calls, the passages of the run follow one another in the text
that the source delivers, and each gives a line break if it goes through one outside quotes and
comments, and only then, and only one; but after a token that continues the line it gives none. -/
theorem lineLaw_passages (name : String) (reads : List Read) (foreground : Option (List Bool))
    (calls : List Call) :
    ((ofReads name reads foreground).passages calls).flatMap Passage.text ++
        ((ofReads name reads foreground).afterAll calls).upcoming =
      delivered foreground false reads ∧
      LineLaw .beginning ((ofReads name reads foreground).passages calls) := by
  have hstands : (ofReads name reads foreground).Stands .beginning := .inl ⟨rfl, rfl⟩
  exact ⟨hstands.flatMap_passages calls, hstands.lineLaw calls⟩

end Scanner

end LispShell
