import LispShell.Proofs.BufferedTurns

set_option autoImplicit false

/-!
# Indices stay in the buffer

`BufferedCall.Sound` says what holds of a call at the heads of its loops.  The indices are in order
and inside the buffer, a token that is complete has text, and so has one that was begun.  There is
one exception: a symbol is begun before its first character is gone past, and then this character
does not end symbols.

From a sound call no access is out of range (`BufferedCall.exists_turn`), and every turn leads to a
sound call or to a scanner that is ready for the next one (`BufferedCall.Sound.turn`).
-/

namespace LispShell

open ScanState

/-! ## Accesses in range -/

namespace BufferedScanner

variable {b : BufferedScanner}

theorem exists_charAt {i : Nat} (h : i < b.buffer.length) : ∃ c, b.charAt i = .ok c :=
  ⟨b.buffer[i], charAt_eq_ok_iff.mpr (List.getElem?_eq_getElem h)⟩

namespace InRange

theorem slice_eq (h : b.InRange) : b.slice b.start b.cursor = .ok b.taken :=
  if_pos ⟨h.start_le, h.cursor_le⟩

theorem exists_isEscaped (h : b.InRange) : ∃ escaped, b.isEscaped = .ok escaped := by
  unfold isEscaped
  split
  · rename_i hcomment
    have hlt : b.cursor - 1 < b.buffer.length := by
      have hle := h.cursor_le
      omega
    obtain ⟨c, hc⟩ := exists_charAt hlt
    rw [hc]
    exact ⟨_, rfl⟩
  · exact ⟨false, rfl⟩

/-- What a read keeps is the text of the token at hand. -/
theorem fill_eq (h : b.InRange) (text : List Char) (ended : Bool) :
    b.fill text ended = .ok { b with
      buffer := (if b.keepsText then b.taken else []) ++
        (Line.logical text ++ if ended then ['\n'] else [])
      start := 0
      cursor := if b.keepsText then b.cursor - b.start else 0
      line := b.line + 1
      finished := b.finished || ended } := by
  unfold fill
  by_cases hkeeps : b.keepsText
  · simp only [if_pos hkeeps, h.slice_eq]
    rfl
  · simp only [if_neg hkeeps]
    rfl

end InRange

theorem length_taken (h : b.cursor ≤ b.buffer.length) : b.taken.length = b.cursor - b.start := by
  rw [taken, List.extract_eq_take_drop, List.length_take, List.length_drop]
  omega

end BufferedScanner

/-- A token with characters has text: no operator has an empty name. -/
theorem canonicalText_ne_empty (kind : TokenKind) {text : List Char} (h : text ≠ []) :
    canonicalText kind text ≠ "" := by
  have hspelling : String.ofList text ≠ "" := fun hempty =>
    h (by simpa using congrArg String.toList hempty)
  have hnames : ∀ o ∈ operators, o.2 ≠ "" := by decide
  unfold canonicalText
  dsimp only
  split
  · cases hname : operatorName? (String.ofList text) with
    | none => exact hspelling
    | some name =>
      obtain ⟨before, after, hoperators, -⟩ := List.lookup_eq_some_iff.mp hname
      exact hnames (String.ofList text, name) (by simp [hoperators])
  · exact hspelling

/-! ## What holds of calls -/

/-- Between two calls the indices are in range, no token waits to be given, and a token that was
begun has text. -/
structure BufferedScanner.Ready (b : BufferedScanner) : Prop where
  inRange : b.InRange
  token : b.token = none
  begun : b.stage ≠ .start → b.start < b.cursor

namespace BufferedCall

/-- What holds at the head of a loop besides that the indices are in range. -/
inductive Head (p : BufferedCall) : Prop where
  | complete {kind : TokenKind} (hloop : p.loop = .call) (htoken : p.token = some kind)
      (hbegun : p.start < p.cursor)
  | unfinished (hloop : p.loop = .call) (htoken : p.token = none)
      (hbegun : p.stage ≠ .start → p.start < p.cursor)
  /-- the first character of a symbol comes next -/
  | word {c : Char} (hloop : p.loop = .call) (htoken : p.token = none) (hstage : p.stage = .symbol)
      (hc : p.charAt p.cursor = .ok c) (hends : endsSymbol c = false)
  | double (hloop : p.loop = .double) (htoken : p.token = none) (hquoted : p.stage.isQuoted = true)
      (hdouble : p.stage ≠ .singleQuoted) (hbegun : p.start < p.cursor)
  | single (hloop : p.loop = .single) (htoken : p.token = none) (hsingle : p.stage = .singleQuoted)
      (hbegun : p.start < p.cursor)

/-- What holds of a call at the head of each of its loops. -/
structure Sound (p : BufferedCall) : Prop where
  inRange : p.InRange
  head : p.Head

end BufferedCall

/-- What holds of the result and the scanner at the end of a call. -/
structure BufferedScanner.Closes (b : BufferedScanner) (result : Except Fault Token) : Prop where
  ready : b.Ready
  /-- only a read that failed leaves a token unfinished -/
  stage : b.stage ≠ .start → ∃ e, result = .error (.read e)
  /-- a token has text, unless it stands for none -/
  text : ∀ t, result = .ok t → t.kind ≠ .interrupt → t.kind ≠ .endOfInput → t.text ≠ ""

/-- What holds after a turn. -/
def Turn.Sound : Turn → Prop
  | .next q _ => q.Sound
  | .over result b _ => b.Closes result

/-! ## No access is out of range -/

namespace BufferedCall

variable {p : BufferedCall}

theorem exists_inside (act : Char → Act) : ∃ t, p.inside act = .ok t := by
  unfold inside
  split
  · rename_i hlt
    obtain ⟨c, hc⟩ := BufferedScanner.exists_charAt hlt
    rw [hc]
    exact ⟨_, rfl⟩
  · exact ⟨_, rfl⟩

theorem exists_fail (h : p.InRange) (text : List Char) (e : ReadError) (events : List Event) :
    ∃ t, p.fail text e events = .ok t := by
  rw [fail, h.fill_eq]
  exact ⟨_, rfl⟩

theorem exists_afterRead (h : p.InRange) (text : List Char) (status : ReadStatus) :
    ∃ t, p.afterRead text status = .ok t := by
  unfold afterRead
  cases status with
  | ok | endOfStream =>
    simp only [h.fill_eq]
    exact ⟨_, rfl⟩
  | interrupted => exact ⟨_, rfl⟩
  | failed e =>
    cases hreclaim : p.reclaim with
    | none => exact exists_fail h text e _
    | some answer =>
      obtain ⟨taken, q⟩ := answer
      obtain ⟨foreground, rfl⟩ := eq_of_reclaim hreclaim
      cases taken with
      | true => exact ⟨_, rfl⟩
      | false => exact exists_fail (p := { p with foreground }) ⟨h.start_le, h.cursor_le⟩ text e _

theorem exists_look (h : p.InRange) (hlt : p.cursor < p.buffer.length) : ∃ t, p.look = .ok t := by
  obtain ⟨c, hc⟩ := BufferedScanner.exists_charAt hlt
  obtain ⟨escaped, hescaped⟩ := h.exists_isEscaped
  rw [look, hc, hescaped]
  exact ⟨_, rfl⟩

/-- From a call whose indices are in range no access is out of range. -/
theorem exists_turn (h : p.InRange) : ∃ t, p.turn = .ok t := by
  unfold turn
  cases p.loop with
  | double => exact exists_inside _
  | single => exact exists_inside _
  | call =>
    cases p.token with
    | some kind =>
      simp only [h.slice_eq]
      exact ⟨_, rfl⟩
    | none =>
      dsimp only
      split
      · rename_i hlt
        exact exists_look h hlt
      · split
        · exact ⟨_, rfl⟩
        · exact exists_afterRead (p := { p with reads := (Read.next p.reads).2 })
            ⟨h.start_le, h.cursor_le⟩ (Read.next p.reads).1.text (Read.next p.reads).1.status

/-! ## Turns keep calls sound -/

/-- A token that was begun has text, unless a symbol comes next. -/
theorem Head.start_lt (h : p.Head) (hstage : p.stage ≠ .start)
    (hword : ∀ c, p.stage = .symbol → p.charAt p.cursor = .ok c → endsSymbol c = true) :
    p.start < p.cursor := by
  cases h with
  | complete _ _ hbegun | double _ _ _ _ hbegun | single _ _ _ hbegun => exact hbegun
  | unfinished _ _ hbegun => exact hbegun hstage
  | word _ _ hsymbol hc hends =>
    rw [hword _ hsymbol hc] at hends
    cases hends

/-- A character that is gone past is in the text of the token at hand. -/
theorem start_lt_goPast (h : p.InRange) :
    (p.begun.goPast true).start < (p.begun.goPast true).cursor := by
  have hle := h.start_le
  simp only [goPast, begun, Bool.toNat_true]
  split
  · omega
  · omega

theorem start_le_begun (h : p.InRange) : p.begun.start ≤ p.cursor := by
  have hle := h.start_le
  simp only [begun]
  split
  · exact Nat.le_refl _
  · exact hle

theorem begun_of_ne_start (h : p.stage ≠ .start) : p.begun = p := by
  rw [begun, if_neg h]

/-- Looking at a character keeps a call sound. -/
theorem Sound.perform (h : p.Sound) (hloop : p.loop = .call) (htoken : p.token = none)
    {held : List Char} {c : Char} (hc : p.charAt p.cursor = .ok c) {act : Act}
    (ha : act.Fits p.stage held c) : (p.perform act).Sound := by
  have hlt : p.cursor + 1 ≤ p.buffer.length := BufferedScanner.lt_of_charAt hc
  have hpast := start_lt_goPast h.inRange
  have hstart := start_le_begun h.inRange
  cases ha with
  | skip =>
    exact ⟨⟨Nat.le_of_lt hpast, hlt⟩, .unfinished hloop htoken fun hne => absurd rfl hne⟩
  | take => exact ⟨⟨Nat.le_of_lt hpast, hlt⟩, .unfinished hloop htoken fun _ => hpast⟩
  | uncomment =>
    exact ⟨⟨hstart, Nat.le_of_lt hlt⟩, .unfinished hloop htoken fun hne => absurd rfl hne⟩
  | lineBreak =>
    unfold BufferedCall.perform
    dsimp only
    split
    · exact ⟨⟨Nat.le_of_lt hpast, hlt⟩, .unfinished hloop htoken fun hne => absurd rfl hne⟩
    · exact ⟨⟨Nat.le_of_lt hpast, hlt⟩, .complete rfl rfl hpast⟩
  | close hkind =>
    simp only [BufferedCall.perform, hkind, false_and, if_false]
    exact ⟨⟨Nat.le_of_lt hpast, hlt⟩, .complete rfl rfl hpast⟩
  | word hstage =>
    refine ⟨⟨hstart, Nat.le_of_lt hlt⟩, ?_⟩
    obtain hbang | ⟨-, hends⟩ := hstage
    · -- The symbol has its exclamation mark already.
      have hne : p.stage ≠ .start := by simp [hbang]
      have hbegun := h.head.start_lt hne (by simp [hbang])
      rw [begun_of_ne_start hne]
      exact .unfinished hloop htoken fun _ => hbegun
    · exact .word hloop htoken rfl hc hends
  | closeBefore hne hkind hmove =>
    have hbegun : p.start < p.cursor := by
      refine h.head.start_lt hne fun d hsymbol hd => ?_
      obtain rfl : c = d := Except.ok.inj (hc.symm.trans hd)
      cases hends : endsSymbol c with
      | true => rfl
      | false => simp [hsymbol, Stage.mode, Mode.move, Mode.symbolMove, hends] at hmove
    simp only [BufferedCall.perform, hkind, false_and, if_false]
    refine ⟨⟨hstart, Nat.le_of_lt hlt⟩, .complete rfl rfl ?_⟩
    rw [begun_of_ne_start hne]
    exact hbegun
  | double hquoted hdouble =>
    have hne : p.stage ≠ .start := by
      intro hstage
      simp [hstage, Stage.isQuoted] at hquoted
    have hbegun : p.start < p.cursor := by
      refine h.head.start_lt hne fun d hsymbol _ => ?_
      simp [hsymbol, Stage.isQuoted] at hquoted
    refine ⟨⟨hstart, Nat.le_of_lt hlt⟩, .double rfl htoken hquoted hdouble ?_⟩
    rw [begun_of_ne_start hne]
    exact hbegun
  | single hsingle =>
    have hne : p.stage ≠ .start := by simp [hsingle]
    have hbegun := h.head.start_lt hne (by simp [hsingle])
    refine ⟨⟨hstart, Nat.le_of_lt hlt⟩, .single rfl htoken hsingle ?_⟩
    rw [begun_of_ne_start hne]
    exact hbegun
  | reject =>
    exact ⟨⟨⟨Nat.le_refl _, Nat.le_of_lt hlt⟩, htoken, fun hne => absurd rfl hne⟩,
      fun hne => absurd rfl hne, fun t ht => by cases ht⟩

/-- Going on in double quotes keeps a call sound. -/
theorem Sound.double (h : p.Sound) (hloop : p.loop = .double) {c : Char}
    (hc : p.charAt p.cursor = .ok c) : (p.perform (p.stage.doubleAct c)).Sound := by
  have hlt : p.cursor + 1 ≤ p.buffer.length := BufferedScanner.lt_of_charAt hc
  have hpast := start_lt_goPast h.inRange
  cases h.head with
  | double _ htoken hquoted hdouble =>
    obtain ⟨kind, hact, hkind, -⟩ | ⟨next, hact, hnext, hnextDouble, -⟩ :=
      Stage.doubleAct_cases hquoted hdouble [] c
    · simp only [hact, BufferedCall.perform, hkind, false_and, if_false]
      exact ⟨⟨Nat.le_of_lt hpast, hlt⟩, .complete rfl rfl hpast⟩
    · rw [hact]
      exact ⟨⟨Nat.le_of_lt hpast, hlt⟩, .double hloop htoken hnext hnextDouble hpast⟩
  | complete hcall | unfinished hcall | word hcall | single hcall => simp [hloop] at hcall

/-- Going on in single quotes keeps a call sound. -/
theorem Sound.single (h : p.Sound) (hloop : p.loop = .single) {c : Char}
    (hc : p.charAt p.cursor = .ok c) : (p.perform (Stage.singleAct c)).Sound := by
  have hlt : p.cursor + 1 ≤ p.buffer.length := BufferedScanner.lt_of_charAt hc
  have hpast := start_lt_goPast h.inRange
  cases h.head with
  | single _ htoken =>
    unfold Stage.singleAct
    split
    · exact ⟨⟨Nat.le_of_lt hpast, hlt⟩, .complete rfl rfl hpast⟩
    · exact ⟨⟨Nat.le_of_lt hpast, hlt⟩, .single hloop htoken rfl hpast⟩
  | complete hcall | unfinished hcall | word hcall | double hcall => simp [hloop] at hcall

/-- Quoted text was begun and is not complete. -/
theorem Head.of_loop (h : p.Head) (hloop : p.loop ≠ .call) :
    p.token = none ∧ p.start < p.cursor := by
  cases h with
  | double _ htoken _ _ hbegun | single _ htoken _ hbegun => exact ⟨htoken, hbegun⟩
  | complete hcall | unfinished hcall | word hcall => exact absurd hcall hloop

/-- Leaving a loop at the end of the buffer, the cursor stays there. -/
theorem Sound.leave (h : p.Sound) (hloop : p.loop ≠ .call) (hend : p.buffer.length ≤ p.cursor) :
    p.leave.Sound := by
  obtain ⟨hstart, hcursor⟩ := h.inRange
  obtain ⟨htoken, hbegun⟩ := h.head.of_loop hloop
  simp only [BufferedCall.leave, BufferedScanner.keepBreak]
  split
  · split
    · refine ⟨⟨?_, Nat.le_refl _⟩, .unfinished rfl htoken fun _ => ?_⟩
      · simp only [List.length_append, List.length_dropLast, List.length_cons]
        omega
      · simp only [List.length_append, List.length_dropLast, List.length_cons]
        omega
    · exact ⟨⟨hstart, hcursor⟩, .unfinished rfl htoken fun _ => hbegun⟩
  · exact ⟨⟨hstart, hcursor⟩, .unfinished rfl htoken fun _ => hbegun⟩

/-- Giving a token, which has text, leaves the scanner ready. -/
theorem Sound.give (h : p.Sound) {kind : TokenKind} (htoken : p.token = some kind)
    {text : List Char} (htext : p.slice p.start p.cursor = .ok text) :
    (p.give kind text).Sound := by
  obtain ⟨hstart, hcursor⟩ := h.inRange
  have hbegun : p.start < p.cursor := by
    cases h.head with
    | complete _ _ hbegun => exact hbegun
    | unfinished _ hnone | word _ hnone | double _ hnone | single _ hnone => simp [htoken] at hnone
  refine ⟨⟨⟨hstart, hcursor⟩, rfl, fun hne => absurd rfl hne⟩, fun hne => absurd rfl hne, ?_⟩
  intro t ht _ _
  obtain rfl := Except.ok.inj ht
  refine canonicalText_ne_empty kind ?_
  rw [h.inRange.slice_eq] at htext
  obtain rfl := Except.ok.inj htext
  rw [← List.length_pos_iff, BufferedScanner.length_taken hcursor]
  omega

theorem closes_reset (b : BufferedScanner) {result : Except Fault Token}
    (h : ∀ t, result = .ok t → t.kind = .interrupt) : b.reset.Closes result :=
  ⟨⟨⟨Nat.le_refl _, Nat.le_refl _⟩, rfl, fun hne => absurd rfl hne⟩, fun hne => absurd rfl hne,
    fun t ht hinterrupt _ => absurd (h t ht) hinterrupt⟩

theorem Sound.finish (h : p.Sound) (htoken : p.token = none) : p.finish.Sound := by
  obtain ⟨hstart, hcursor⟩ := h.inRange
  unfold BufferedCall.finish
  split
  · exact closes_reset _ fun t ht => by cases ht
  · refine ⟨⟨⟨hstart, hcursor⟩, htoken, fun hne => absurd rfl hne⟩, fun hne => absurd rfl hne, ?_⟩
    intro t ht _ hend
    obtain rfl := Except.ok.inj ht
    exact absurd rfl hend

/-- Where a line is asked for, the buffer is used up, and a token that was begun has text. -/
theorem Sound.atEnd (h : p.Sound) (hend : p.buffer.length ≤ p.cursor) :
    p.cursor = p.buffer.length ∧ (p.stage ≠ .start → p.start < p.cursor) := by
  refine ⟨Nat.le_antisymm h.inRange.cursor_le hend, fun hne => h.head.start_lt hne ?_⟩
  intro c _ hc
  exact absurd (BufferedScanner.lt_of_charAt hc) (Nat.not_lt.mpr hend)

/-- Where a line is asked for the scanner is ready, whatever reads its source has left. -/
theorem Sound.ready_of_end (h : p.Sound) (htoken : p.token = none)
    (hend : p.buffer.length ≤ p.cursor) (reads : List Read) :
    BufferedScanner.Ready { p.toBufferedScanner with reads } :=
  ⟨⟨h.inRange.start_le, h.inRange.cursor_le⟩, htoken, (h.atEnd hend).2⟩

theorem sound_of_ready (h : p.Ready) (hloop : p.loop = .call) : p.Sound :=
  ⟨h.inRange, .unfinished hloop h.token h.begun⟩

/-- A line that is read goes behind the token at hand. -/
theorem ready_fill {b b' : BufferedScanner} (h : b.Ready) {text : List Char} {ended : Bool}
    (hfill : b.fill text ended = .ok b') : b'.Ready := by
  rw [h.inRange.fill_eq] at hfill
  obtain rfl := Except.ok.inj hfill
  refine ⟨⟨Nat.zero_le _, ?_⟩, h.token, ?_⟩
  · dsimp only
    split
    · rw [List.length_append, BufferedScanner.length_taken h.inRange.cursor_le]
      omega
    · exact Nat.zero_le _
  · intro hne
    have hbegun := h.begun hne
    dsimp only
    rw [if_pos ⟨hne, hbegun⟩]
    omega

theorem ready_reclaim (h : p.Ready) {taken : Bool} {q : BufferedCall}
    (hreclaim : p.reclaim = some (taken, q)) : q.Ready := by
  obtain ⟨foreground, rfl⟩ := eq_of_reclaim hreclaim
  exact ⟨⟨h.inRange.start_le, h.inRange.cursor_le⟩, h.token, h.begun⟩

/-- A turn that reads leads to a sound call. -/
theorem sound_reads {text : List Char} {status : ReadStatus} {t : Turn} (h : p.Ready)
    (hloop : p.loop = .call) (ht : p.Reads text status t) : t.Sound := by
  have hcloses : ∀ {b : BufferedScanner} {e : ReadError}, b.Ready → b.Closes (.error (.read e)) :=
    fun hb => ⟨hb, fun _ => ⟨_, rfl⟩, fun t ht => by cases ht⟩
  cases ht with
  | line hfill | last hfill => exact sound_of_ready (ready_fill h hfill) hloop
  | interrupted =>
    refine closes_reset _ fun t ht => ?_
    obtain rfl := Except.ok.inj ht
    rfl
  | unasked _ hfill => exact hcloses (ready_fill h hfill)
  | refused hreclaim hfill => exact hcloses (ready_fill (ready_reclaim h hreclaim) hfill)
  | @retry q e hreclaim =>
    have hq : q.loop = .call := by
      obtain ⟨foreground, rfl⟩ := eq_of_reclaim hreclaim
      exact hloop
    have hready : q.Ready := ready_reclaim h hreclaim
    exact sound_of_ready (p := { q with retried := true }) hready hq

/-- Every turn keeps a call sound. -/
theorem Sound.turn (h : p.Sound) {t : Turn} (ht : p.Turns t) : t.Sound := by
  cases ht with
  | @look c escaped hloop htoken hc =>
    obtain ⟨held, hfits⟩ := p.stage.exists_fits_act escaped c
    exact h.perform hloop htoken hc hfits
  | double hloop hc => exact h.double hloop hc
  | single hloop hc => exact h.single hloop hc
  | leave hloop hend => exact h.leave hloop hend
  | give hloop htoken htext => exact h.give htoken htext
  | finish hloop htoken => exact h.finish htoken
  | @refill t hloop htoken hend hopen read reads hnext hreads =>
    exact sound_reads (p := { p with reads }) (h.ready_of_end htoken hend reads) hloop hreads

/-! ## Whole calls -/

theorem read_not_mem_perform (act : Act) : Event.read ∉ (p.perform act).events := by
  cases act with
  | go | enter | reject => simp [BufferedCall.perform, Turn.events]
  | complete kind used =>
    unfold BufferedCall.perform
    dsimp only
    split
    · exact List.not_mem_nil
    · exact List.not_mem_nil

/-- A line is asked for at the end of the buffer only. -/
theorem Turns.atEnd_of_read {t : Turn} (ht : p.Turns t) (hread : .read ∈ t.events) :
    p.buffer.length ≤ p.cursor := by
  cases ht with
  | look | double | single => exact absurd hread (read_not_mem_perform _)
  | leave hloop hend => exact hend
  | give => cases hread
  | finish hloop htoken hend => exact hend
  | refill hloop htoken hend => exact hend

end BufferedCall

/-- What holds of a call at the head of a loop: the indices are in range, and a line is asked for
only where the buffer is used up and a token that was begun has text. -/
structure Visit.InBounds (v : Visit) : Prop where
  inRange : v.InRange
  read : .read ∈ v.events →
    v.cursor = v.buffer.length ∧ (v.stage ≠ .start → v.start < v.cursor)

/-- At the head of a loop a sound call is in bounds. -/
theorem BufferedCall.Sound.inBounds {p : BufferedCall} (h : p.Sound) {t : Turn}
    (hturn : p.turn = .ok t) : (⟨p, t.events⟩ : Visit).InBounds :=
  ⟨h.inRange, fun hread => h.atEnd ((turns_of_turn hturn).atEnd_of_read hread)⟩

/-- A sound call comes to its end without an access that is out of range. -/
theorem BufferedCall.Sound.complete {p : BufferedCall} (h : p.Sound) :
    ∃ r, p.complete = .ok r ∧ (∀ v ∈ r.visits, v.InBounds) ∧ r.scanner.Closes r.result := by
  -- The induction is on the turns of the call; what each of them preserves is `Sound.turn`.
  induction p using BufferedCall.complete.induct with
  | case1 p e hturn =>
    obtain ⟨t, ht⟩ := exists_turn h.inRange
    rw [ht] at hturn
    cases hturn
  | case2 p result scanner events hturn =>
    refine ⟨_, complete_of_over hturn, fun v hv => ?_, h.turn (turns_of_turn hturn)⟩
    obtain rfl := List.mem_singleton.mp hv
    exact h.inBounds hturn
  | case3 p q events hturn ih =>
    obtain ⟨r, hcomplete, hvisits, hcloses⟩ := ih (h.turn (turns_of_turn hturn))
    refine ⟨_, complete_of_next hturn hcomplete, fun v hv => ?_, hcloses⟩
    obtain rfl | hv := List.mem_cons.mp hv
    · exact h.inBounds hturn
    · exact hvisits v hv

/-- A scanner that is ready begins a sound call. -/
theorem BufferedScanner.Ready.sound_call {b : BufferedScanner} (h : b.Ready) : b.call.Sound :=
  BufferedCall.sound_of_ready h rfl

end LispShell
