import LispShell.Proofs.BufferedBounds
import LispShell.Proofs.Operators
import LispShell.Proofs.Refill
import Mathlib.Data.List.Induction

set_option autoImplicit false

/-!
# What a scanner with a buffer stands for

A scanner with a buffer gives the replies of the scanner that it stands for.  `BufferedCall.reply` is
the reply that a call under way comes to, said without indices.  Every turn of a sound call leads to
the same reply (`BufferedCall.Sound.reply_turn`), and so the whole call comes to it
(`BufferedCall.Sound.view_complete`).

The two scanners are apart in one place.  The line break at the end of the buffer, inside single
quotes, is held as an escape as soon as it is taken, but the buffer is changed a turn later, when the
loop through the quotes is left.  `BufferedCall.settled` is the scanner after that turn.

`BufferedScanner.Follows` is what holds after any run of calls.
-/

namespace LispShell

open ScanState

/-! ## The rest of a call -/

namespace Scanner

variable {s : Scanner} {mode : Mode} {held rest text : List Char} {kind : TokenKind}
  {retried : Bool}

/-- A call from the place where it scans the characters at hand; `retried` tells that the read
before failed and is being tried again. -/
def proceed (s : Scanner) (retried : Bool) : Reply :=
  match s.toScanState.scanRest with
  | .inr a => a.toReply s.reads
  | .inl t => if t.finished then t.finish.toReply s.reads else t.request retried s.reads

/-- The reply that gives a complete token. -/
def give (s : Scanner) (kind : TokenKind) (text : List Char) : Reply :=
  let refined := refinedKind kind text
  ⟨.ok ⟨refined, canonicalText kind text, s.line⟩,
    { s with toScanState := s.toScanState.afterToken refined s.rest }, []⟩

theorem proceed_eq (h : scan s.previous s.mode s.held s.rest = scan s.previous mode held rest) :
    s.proceed retried = ({ s with mode, held, rest } : Scanner).proceed retried := by
  simp only [proceed, scanRest_eq_of_scan_eq h]

theorem proceed_of_complete
    (h : scan s.previous s.mode s.held s.rest = .complete kind text rest) :
    s.proceed retried = ({ s with rest } : Scanner).give kind text := by
  simp only [proceed, scanRest, h]
  rfl

theorem proceed_of_rejected (h : scan s.previous s.mode s.held s.rest = .rejected rest) :
    s.proceed retried = ⟨.error (.unexpected s.line),
      { s with held := [], rest, mode := .start },
      [s.report "unexpected '<' (expected '<(')"]⟩ := by
  simp only [proceed, scanRest, h]
  rfl

/-- Where no read is left it does not matter whether one was tried again. -/
theorem proceed_of_finished (h : s.finished = true) : s.proceed retried = s.nextToken := by
  unfold proceed nextToken
  cases hscan : s.toScanState.scanRest with
  | inl t =>
    have ht : t.finished = true := (work_of_scanRest_inl hscan).2.1.trans h
    simp only [ht, if_true]
  | inr a => rfl

theorem proceed_of_rest_eq_nil (h : s.rest = []) :
    s.proceed retried = if s.finished then s.toScanState.finish.toReply s.reads
      else s.toScanState.request retried s.reads := by
  simp only [proceed, scanRest, h, scan]
  rw [← h]

end Scanner

/-- A source that is used up goes on to give the end of the stream. -/
theorem ScanState.request_next {reads later : List Read} {read : Read}
    (h : Read.next reads = (read, later)) (s : ScanState) (retried : Bool) :
    s.request retried reads = s.request retried (read :: later) := by
  cases reads with
  | nil =>
    cases h
    rfl
  | cons first reads =>
    cases h
    rfl

/-! ## Stages and characters -/

theorem Stage.isQuoted_mode (s : Stage) (held : List Char) :
    (s.mode held).isQuoted = s.isQuoted := by
  cases s
  all_goals rfl

theorem Stage.mode_ne_singleQuoted {s : Stage} (h : s ≠ .singleQuoted) (held : List Char) :
    s.mode held ≠ .singleQuoted := by
  cases s with
  | singleQuoted => exact absurd rfl h
  | _ => simp [mode]

/-- Outside single quotes, scanning a character depends on the move on it alone. -/
theorem scan_cons_congr {previous : Option TokenKind} {m m' : Mode} {c : Char}
    {held rest : List Char} (hmove : m.move c = m'.move c) (hm : m ≠ .singleQuoted)
    (hm' : m' ≠ .singleQuoted) :
    scan previous m held (c :: rest) = scan previous m' held (c :: rest) := by
  rw [scan, scan, hmove, Mode.hold_eq_cons hm, Mode.hold_eq_cons hm']

namespace BufferedScanner

variable {b : BufferedScanner} {c : Char}

/-- The character at the cursor is the first of the rest. -/
theorem drop_cursor (hc : b.charAt b.cursor = .ok c) :
    b.buffer.drop b.cursor = c :: b.buffer.drop (b.cursor + 1) := by
  obtain ⟨hlt, hget⟩ := List.getElem?_eq_some_iff.mp (charAt_eq_ok_iff.mp hc)
  rw [List.drop_eq_getElem_cons hlt, hget]

/-- A character that is gone past joins the text of the token at hand. -/
theorem extract_succ {start i : Nat} (hstart : start ≤ i) (hc : b.charAt i = .ok c) :
    b.buffer.extract start (i + 1) = b.buffer.extract start i ++ [c] := by
  have hget : (b.buffer.drop start)[i - start]? = some c := by
    rw [List.getElem?_drop, Nat.add_sub_cancel' hstart]
    exact charAt_eq_ok_iff.mp hc
  rw [List.extract_eq_take_drop, List.extract_eq_take_drop, Nat.succ_sub hstart,
    List.take_add_one, hget]
  rfl

/-- In a comment that was begun, the character before the cursor is the newest of those held. -/
theorem eq_of_isEscaped {escaped : Bool} (hstage : b.stage = .comment) (hbegun : b.start < b.cursor)
    (h : b.isEscaped = .ok escaped) : escaped = (b.held.head? == some '\\') := by
  unfold isEscaped at h
  rw [if_pos ⟨hstage, Nat.zero_lt_of_lt hbegun⟩] at h
  obtain ⟨d, hd, hescaped⟩ := exists_of_bind_eq_ok h
  cases hescaped
  have htaken : b.taken = b.buffer.extract b.start (b.cursor - 1) ++ [d] := by
    rw [← extract_succ (Nat.le_sub_one_of_lt hbegun) hd,
      Nat.sub_add_cancel (Nat.one_le_of_lt hbegun), taken]
  rw [held, if_neg (by simp [hstage]), htaken]
  simp

/-- The characters from a place in one text up to a place in the text behind it. -/
theorem extract_append {start : Nat} {text : List Char} (hstart : start ≤ text.length)
    (more : List Char) (n : Nat) :
    (text ++ more).extract start (text.length + n) = text.drop start ++ more.take n := by
  have hlength : text.length + n - start = (text.drop start).length + n := by
    rw [List.length_drop]
    omega
  rw [List.extract_eq_take_drop, List.drop_append_of_le_length hstart, hlength,
    List.take_length_add_append]

/-- A line break that is kept is held as an escape. -/
theorem view_keepBreak {text : List Char} (hbuffer : b.buffer = text ++ ['\n'])
    (hstart : b.start ≤ text.length) (hsingle : b.stage = .singleQuoted) :
    b.keepBreak.view = { b.view with
      held := 'n' :: '\\' :: (text.drop b.start).reverse
      rest := [] } := by
  have hkept : b.keepBreak =
      { b with buffer := text ++ ['\\', 'n'], cursor := text.length + 2 } := by
    simp [keepBreak, hbuffer]
  have hheld : b.keepBreak.held = 'n' :: '\\' :: (text.drop b.start).reverse := by
    rw [hkept, held, if_neg (by simp [hsingle])]
    change ((text ++ ['\\', 'n']).extract b.start (text.length + 2)).reverse = _
    rw [extract_append hstart]
    simp
  have hrest : b.keepBreak.buffer.drop b.keepBreak.cursor = [] := by
    rw [hkept]
    exact List.drop_eq_nil_of_le (by simp)
  simp only [view, hheld, hrest]
  simp only [hkept, hsingle]
  rfl

end BufferedScanner

namespace BufferedCall

variable {p : BufferedCall} {c : Char}

/-- What a token that was begun with the character at the cursor has before it. -/
theorem taken_begun (p : BufferedCall) : p.begun.taken = p.held.reverse := by
  simp only [BufferedScanner.taken, BufferedScanner.held, begun]
  split
  · simp
  · simp

theorem taken_goPast (h : p.InRange) (hc : p.charAt p.cursor = .ok c) :
    (p.begun.goPast true).taken = p.held.reverse ++ [c] := by
  rw [← taken_begun]
  exact BufferedScanner.extract_succ (start_le_begun h) hc

/-- What scanning does with the character at the cursor. -/
theorem scan_view (hc : p.charAt p.cursor = .ok c) :
    scan p.view.previous p.view.mode p.view.held p.view.rest =
      scan p.previous (p.stage.mode p.held) p.held (c :: p.buffer.drop (p.cursor + 1)) := by
  rw [← BufferedScanner.drop_cursor hc]
  rfl

/-! ## What a call comes to -/

/-- The scanner as it is when the loop that the call is in has come to the end of the buffer. -/
def settled (p : BufferedCall) : BufferedScanner :=
  if p.cursor < p.buffer.length then p.toBufferedScanner else p.leave.toBufferedScanner

/-- The reply that a call comes to, by what the scanner stands for. -/
def reply (p : BufferedCall) : Reply :=
  match p.token with
  | some kind => p.view.give kind p.taken
  | none => p.settled.view.proceed p.retried

theorem settled_of_ne_single (hloop : p.loop ≠ .single) : p.settled = p.toBufferedScanner := by
  simp [settled, leave, hloop]

theorem reply_of_token (htoken : p.token = none) :
    p.reply = p.settled.view.proceed p.retried := by
  simp only [reply, htoken]

theorem reply_of_ne_single (hloop : p.loop ≠ .single) (htoken : p.token = none) :
    p.reply = p.view.proceed p.retried := by
  rw [reply_of_token htoken, settled_of_ne_single hloop]

theorem reply_of_lt (hlt : p.cursor < p.buffer.length) (htoken : p.token = none) :
    p.reply = p.view.proceed p.retried := by
  rw [reply_of_token htoken, settled, if_pos hlt]

end BufferedCall

/-- The reply that a turn leads to. -/
def Turn.reply : Turn → Reply
  | .next q events => q.reply.after events
  | .over result b events => ⟨result, b.view, events⟩

namespace BufferedCall

variable {p : BufferedCall} {c : Char}

theorem held_goPast (h : p.InRange) (hc : p.charAt p.cursor = .ok c) {next : Stage}
    (hnext : next ≠ .start) :
    ({ p.begun.goPast true with stage := next } : BufferedCall).held = c :: p.held := by
  rw [BufferedScanner.held, if_neg hnext]
  change (p.begun.goPast true).taken.reverse = _
  rw [taken_goPast h hc]
  simp

theorem held_begun {next : Stage} (hnext : next ≠ .start) :
    ({ p.begun.goPast false with stage := next } : BufferedCall).held = p.held := by
  rw [BufferedScanner.held, if_neg hnext]
  change p.begun.taken.reverse = _
  rw [taken_begun, List.reverse_reverse]

theorem reply_go (hloop : p.loop ≠ .single) (htoken : p.token = none) {next : Stage} {used : Bool}
    {held : List Char}
    (hheld : ({ p.begun.goPast used with stage := next } : BufferedCall).held = held) :
    (p.perform (.go next used)).reply = ({ p.view with
      mode := next.mode held
      held
      rest := p.buffer.drop (p.cursor + used.toNat) } : Scanner).proceed p.retried := by
  subst hheld
  exact reply_of_ne_single (p := { p.begun.goPast used with stage := next }) hloop htoken

theorem reply_complete {kind : TokenKind} {used : Bool}
    (hkind : ¬(kind = .newline ∧ p.previous.any TokenKind.continuesLine = true)) :
    (p.perform (.complete kind used)).reply =
      ({ p.view with rest := p.buffer.drop (p.cursor + used.toNat) } : Scanner).give kind
        (p.begun.goPast used).taken := by
  simp only [perform, if_neg hkind]
  rfl

theorem reply_enter (hstage : p.stage ≠ .start) (hlt : p.cursor < p.buffer.length)
    (htoken : p.token = none) (loop : Loop) :
    (p.perform (.enter loop)).reply = p.view.proceed p.retried := by
  simp only [perform, begun_of_ne_start hstage]
  exact reply_of_lt (p := { p with loop }) hlt htoken

/-- A line break that is passed over is gone past like a blank. -/
theorem perform_continued (h : p.previous.any TokenKind.continuesLine = true) :
    p.perform (.complete .newline true) = p.perform (.go .start true) := by
  simp [perform, h]

section

variable (h : p.InRange) (hloop : p.loop ≠ .single) (htoken : p.token = none)
  (hc : p.charAt p.cursor = .ok c)

include h hc

theorem reply_close {kind : TokenKind} (hkind : kind ≠ .newline)
    (hmove : (p.stage.mode p.held).move c = .close kind) :
    (p.perform (.complete kind true)).reply = p.view.proceed p.retried := by
  rw [reply_complete fun hbreak => hkind hbreak.1, taken_goPast h hc, ← List.reverse_cons]
  refine (Scanner.proceed_of_complete ?_).symm
  rw [scan_view hc, scan, hmove]
  rfl

include hloop htoken

theorem reply_take {next : Stage} (hstage : p.stage ≠ .singleQuoted) (hnext : next ≠ .start)
    (hmove : (p.stage.mode p.held).move c = .take (next.mode (c :: p.held))) :
    (p.perform (.go next true)).reply = p.view.proceed p.retried := by
  rw [reply_go hloop htoken (held_goPast h hc hnext)]
  refine (Scanner.proceed_eq ?_).symm
  rw [scan_view hc, scan, hmove]
  dsimp only
  rw [Mode.hold_eq_cons (Stage.mode_ne_singleQuoted hstage p.held)]
  rfl

/-- An act that fits the move on a character leads to the same reply. -/
theorem reply_perform {act : Act} (ha : act.Fits p.stage p.held c) :
    (p.perform act).reply = p.view.proceed p.retried := by
  have hlt := BufferedScanner.lt_of_charAt hc
  have hscan := scan_view hc
  -- What is left if the character is looked at again.
  have hdrop : p.buffer.drop (p.cursor + false.toNat) = c :: p.buffer.drop (p.cursor + 1) :=
    BufferedScanner.drop_cursor hc
  cases ha with
  | take hstage hnext hmove => exact reply_take h hloop htoken hc hstage hnext hmove
  | close hkind hmove => exact reply_close h hc hkind hmove
  | skip hstage hmove =>
    rw [reply_go hloop htoken rfl]
    refine (Scanner.proceed_eq ?_).symm
    rw [hscan, scan, hmove]
    rfl
  | word hstage hmove =>
    have hsingle : p.stage ≠ .singleQuoted := by
      obtain hbang | ⟨hstart, -⟩ := hstage
      · simp [hbang]
      · simp [hstart]
    rw [reply_go hloop htoken (held_begun (by decide))]
    refine (Scanner.proceed_eq ?_).symm
    rw [hscan, hdrop]
    exact scan_cons_congr hmove (Stage.mode_ne_singleQuoted hsingle p.held)
      (Stage.mode_ne_singleQuoted (by decide) p.held)
  | uncomment hstage hbreak hmove =>
    subst hbreak
    rw [reply_go hloop htoken rfl]
    refine (Scanner.proceed_eq ?_).symm
    rw [hscan, hdrop, scan, hmove]
    rfl
  | lineBreak hstage hmove =>
    have hheld : p.held = [] := if_pos hstage
    by_cases hcontinued : p.previous.any TokenKind.continuesLine = true
    · rw [perform_continued hcontinued, reply_go hloop htoken rfl]
      refine (Scanner.proceed_eq ?_).symm
      rw [hscan, scan, hmove]
      exact if_pos hcontinued
    · rw [reply_complete fun hkind => hcontinued hkind.2, taken_goPast h hc, hheld]
      refine (Scanner.proceed_of_complete ?_).symm
      rw [hscan, scan, hmove]
      exact if_neg hcontinued
  | closeBefore hstage hkind hmove =>
    have htaken : (p.begun.goPast false).taken = p.held.reverse := taken_begun p
    rw [reply_complete fun hbreak => hkind hbreak.1, htaken, hdrop]
    refine (Scanner.proceed_of_complete ?_).symm
    rw [hscan, scan, hmove]
  | double hquoted =>
    refine reply_enter (fun hstage => ?_) hlt htoken .double
    simp [hstage, Stage.isQuoted] at hquoted
  | single hsingle => exact reply_enter (by simp [hsingle]) hlt htoken .single
  | reject hstage hmove =>
    have hrejected : scan p.view.previous p.view.mode p.view.held p.view.rest =
        .rejected (p.buffer.drop p.cursor) := by
      rw [hscan, scan, hmove, BufferedScanner.drop_cursor hc]
    rw [Scanner.proceed_of_rejected hrejected]
    rfl

end

/-- Looking at a character, and at the one before it in a comment, leads to the same reply. -/
theorem Sound.reply_look (h : p.Sound) (hloop : p.loop = .call) (htoken : p.token = none)
    (hc : p.charAt p.cursor = .ok c) {escaped : Bool} (hescaped : p.isEscaped = .ok escaped) :
    (p.perform (p.stage.act escaped c)).reply = p.reply := by
  have hne : p.loop ≠ .single := by simp [hloop]
  rw [reply_of_ne_single hne htoken]
  refine reply_perform h.inRange hne htoken hc (p.stage.fits_act c fun hcomment => ?_)
  have hbegun := h.head.start_lt (by simp [hcomment]) (by simp [hcomment])
  exact BufferedScanner.eq_of_isEscaped hcomment hbegun hescaped

/-- Going on in double quotes leads to the same reply. -/
theorem Sound.reply_double (h : p.Sound) (hloop : p.loop = .double)
    (hc : p.charAt p.cursor = .ok c) : (p.perform (p.stage.doubleAct c)).reply = p.reply := by
  have hne : p.loop ≠ .single := by simp [hloop]
  cases h.head with
  | double _ htoken hquoted hdouble =>
    rw [reply_of_ne_single hne htoken]
    obtain ⟨kind, hact, hkind, hmove⟩ | ⟨next, hact, hnext, -, hmove⟩ :=
      Stage.doubleAct_cases hquoted hdouble p.held c
    · rw [hact]
      exact reply_close h.inRange hc hkind hmove
    · rw [hact]
      refine reply_take h.inRange hne htoken hc hdouble (fun hstart => ?_) hmove
      simp [hstart, Stage.isQuoted] at hnext
  | complete hcall | unfinished hcall | word hcall | single hcall => simp [hloop] at hcall

theorem view_goPast (h : p.InRange) (hsingle : p.stage = .singleQuoted)
    (hc : p.charAt p.cursor = .ok c) :
    (p.goPast true).view = { p.view with
      held := c :: p.held
      rest := p.buffer.drop (p.cursor + 1) } := by
  have hheld : (p.goPast true).held = c :: p.held := by
    have hgo := held_goPast h hc (show Stage.singleQuoted ≠ .start by decide)
    rwa [begun_of_ne_start (by simp [hsingle]), ← hsingle] at hgo
  have hmode : (p.goPast true).stage.mode (c :: p.held) = p.stage.mode p.held := by
    rw [show (p.goPast true).stage = .singleQuoted from hsingle, hsingle]
    rfl
  simp only [BufferedScanner.view, hheld, hmode]
  rfl

/-- Going past the last character in single quotes, a line break is held as an escape. -/
theorem view_keepBreak_goPast (h : p.InRange) (hsingle : p.stage = .singleQuoted)
    (hc : p.charAt p.cursor = .ok c) (hlast : p.buffer.drop (p.cursor + 1) = []) :
    (p.goPast true).keepBreak.view = { p.view with
      held := hold .singleQuoted c [] p.held
      rest := [] } := by
  have hview := view_goPast h hsingle hc
  have hbuffer : p.buffer = p.buffer.take p.cursor ++ [c] := by
    rw [← hlast, ← BufferedScanner.drop_cursor hc, List.take_append_drop]
  by_cases hbreak : c = '\n'
  · subst hbreak
    have hstart : p.start ≤ (p.buffer.take p.cursor).length := by
      rw [List.length_take, Nat.min_eq_left h.cursor_le]
      exact h.start_le
    have hbefore : ((p.buffer.take p.cursor).drop p.start).reverse = p.held := by
      rw [BufferedScanner.held, if_neg (by simp [hsingle]), BufferedScanner.taken,
        List.extract_eq_take_drop, List.drop_take]
    have hkept := BufferedScanner.view_keepBreak (b := (p.goPast true).toBufferedScanner) hbuffer
      hstart hsingle
    rw [hkept, hview]
    simp only [goPast, hbefore]
    rfl
  · have hother : (p.goPast true).buffer.getLast? ≠ some '\n' := by
      rw [show (p.goPast true).buffer = _ from hbuffer]
      simpa using hbreak
    have hhold : hold .singleQuoted c [] p.held = c :: p.held := by simp [hold, hbreak]
    rw [BufferedScanner.keepBreak, if_neg hother, hview, hlast, hhold]

/-- Going past any character in single quotes, the scanner without indices has held it. -/
theorem view_settled (h : p.InRange) (hloop : p.loop = .single) (hsingle : p.stage = .singleQuoted)
    (hc : p.charAt p.cursor = .ok c) :
    (p.goPast true).settled.view = { p.view with
      held := hold .singleQuoted c (p.buffer.drop (p.cursor + 1)) p.held
      rest := p.buffer.drop (p.cursor + 1) } := by
  cases hrest : p.buffer.drop (p.cursor + 1) with
  | cons d rest =>
    have hlt : (p.goPast true).cursor < (p.goPast true).buffer.length := by
      refine Nat.lt_of_not_le fun hle => ?_
      cases hrest.symm.trans (List.drop_eq_nil_of_le hle)
    have hhold : hold .singleQuoted c (d :: rest) p.held = c :: p.held := by simp [hold]
    rw [settled, if_pos hlt, view_goPast h hsingle hc, hrest, hhold]
  | nil =>
    have hend : ¬(p.goPast true).cursor < (p.goPast true).buffer.length :=
      Nat.not_lt.mpr (List.drop_eq_nil_iff.mp hrest)
    have hleave : (p.goPast true).settled = (p.goPast true).keepBreak := by
      rw [settled, if_neg hend]
      exact if_pos hloop
    rw [hleave, view_keepBreak_goPast h hsingle hc hrest]

/-- Going on in single quotes leads to the same reply. -/
theorem Sound.reply_single (h : p.Sound) (hloop : p.loop = .single)
    (hc : p.charAt p.cursor = .ok c) : (p.perform (Stage.singleAct c)).reply = p.reply := by
  cases h.head with
  | single _ htoken hsingle =>
    rw [reply_of_lt (BufferedScanner.lt_of_charAt hc) htoken]
    by_cases hquote : c = '\''
    · rw [Stage.singleAct, if_pos hquote]
      exact reply_close h.inRange hc (by decide) (by simp [hsingle, Stage.mode, Mode.move, hquote])
    · have hgo : p.perform (.go .singleQuoted true) = .next (p.goPast true) [] := by
        rw [BufferedCall.perform, begun_of_ne_start (by simp [hsingle]), ← hsingle]
        rfl
      have hmode : p.stage.mode p.held = .singleQuoted := by
        rw [hsingle]
        rfl
      have hmove : Mode.move .singleQuoted c = .take .singleQuoted := if_neg hquote
      rw [Stage.singleAct, if_neg hquote, hgo]
      refine (reply_of_token (p := p.goPast true) htoken).trans ?_
      rw [view_settled h.inRange hloop hsingle hc]
      refine (Scanner.proceed_eq ?_).symm
      rw [scan_view hc, hmode, scan, hmove, ← hmode]
      rfl
  | complete hcall | unfinished hcall | word hcall | double hcall => simp [hloop] at hcall

theorem reply_leave (htoken : p.token = none) (hend : p.buffer.length ≤ p.cursor) :
    p.leave.reply = p.reply := by
  have hleave : p.leave.token = none := by
    simp only [leave, BufferedScanner.keepBreak]
    repeat' split
    all_goals exact htoken
  have hsettled : p.settled = p.leave.toBufferedScanner := if_neg (Nat.not_lt.mpr hend)
  rw [reply_of_ne_single (by simp [leave]) hleave, reply_of_token htoken, hsettled]
  rfl

theorem Sound.reply_give (h : p.Sound) {kind : TokenKind} (htoken : p.token = some kind)
    {text : List Char} (htext : p.slice p.start p.cursor = .ok text) :
    (p.give kind text).reply = p.reply := by
  rw [h.inRange.slice_eq] at htext
  obtain rfl := Except.ok.inj htext
  simp only [reply, htoken]
  rfl

theorem reply_finish (hloop : p.loop = .call) (htoken : p.token = none)
    (hend : p.buffer.length ≤ p.cursor) (hfinished : p.finished = true) :
    p.finish.reply = p.reply := by
  have hrest : p.view.rest = [] := List.drop_eq_nil_of_le hend
  have hended : p.view.finished = true := hfinished
  have hquoted : p.view.mode.isQuoted = p.stage.isQuoted := p.stage.isQuoted_mode p.held
  rw [reply_of_ne_single (by simp [hloop]) htoken, Scanner.proceed_of_rest_eq_nil hrest,
    if_pos hended]
  unfold finish ScanState.finish
  rw [hquoted]
  split
  · rfl
  · rfl

/-! ## Reads -/

/-- A read leaves what is held, and its text comes next. -/
theorem held_fill {b b' : BufferedScanner} (h : b.Ready) {text : List Char} {ended : Bool}
    (hfill : b.fill text ended = .ok b') : b'.held = b.held ∧
      b'.buffer.drop b'.cursor = Line.logical text ++ if ended then ['\n'] else [] := by
  rw [h.inRange.fill_eq] at hfill
  obtain rfl := Except.ok.inj hfill
  by_cases hstage : b.stage = .start
  · have hkeeps : ¬b.keepsText := fun hkeeps => hkeeps.1 hstage
    refine ⟨(if_pos hstage).trans (if_pos hstage).symm, ?_⟩
    simp only [if_neg hkeeps]
    rfl
  · have hkeeps : b.keepsText := ⟨hstage, h.begun hstage⟩
    have hlength := BufferedScanner.length_taken h.inRange.cursor_le
    simp only [if_pos hkeeps, ← hlength]
    refine ⟨?_, List.drop_left⟩
    rw [BufferedScanner.held, BufferedScanner.held, if_neg hstage, if_neg hstage]
    exact congrArg List.reverse List.take_left

/-- A line that is read goes into the view as it does without indices. -/
theorem view_fill {b b' : BufferedScanner} (h : b.Ready) {text : List Char} {ended : Bool}
    (hfill : b.fill text ended = .ok b') :
    b'.view = { b.view with toScanState := b.view.toScanState.fill text ended } := by
  obtain ⟨hheld, hrest⟩ := held_fill h hfill
  rw [h.inRange.fill_eq] at hfill
  obtain rfl := Except.ok.inj hfill
  simp only [BufferedScanner.view, hheld, hrest]
  rfl

theorem of_reclaim_none (h : p.reclaim = none) :
    p.retried = true ∨ p.view.toScanState.reclaim = none := by
  unfold reclaim at h
  split at h
  · rename_i hretried
    exact .inl hretried
  · refine .inr ?_
    rw [Option.map_eq_none_iff] at h
    exact Option.map_eq_none_iff.mpr h

theorem of_reclaim_some {q : BufferedCall} {taken : Bool} (h : p.reclaim = some (taken, q)) :
    p.retried = false ∧ p.view.toScanState.reclaim = some (taken, q.view.toScanState) := by
  unfold reclaim at h
  split at h
  · cases h
  · rename_i hretried
    obtain ⟨answers, hforeground, hanswer⟩ := Option.map_eq_some_iff.mp h
    refine ⟨by simpa using hretried, Option.map_eq_some_iff.mpr ⟨answers, hforeground, ?_⟩⟩
    cases answers with
    | nil =>
      cases hanswer
      rfl
    | cons answer answers =>
      cases hanswer
      rfl

/-- A turn that reads leads to the same reply. -/
theorem reply_reads {text : List Char} {status : ReadStatus} {t : Turn} (h : p.Ready)
    (hloop : p.loop = .call) (hend : p.buffer.length ≤ p.cursor) (hopen : p.finished = false)
    (ht : p.Reads text status t) :
    t.reply = p.view.toScanState.request p.retried (⟨text, status⟩ :: p.reads) := by
  have hne : p.loop ≠ .single := by simp [hloop]
  have hended : p.view.toScanState.finished = false := hopen
  cases ht with
  | @line b hfill =>
    have hreply : ({ p with toBufferedScanner := b, retried := false } : BufferedCall).reply =
        b.view.nextToken :=
      reply_of_ne_single (p := { p with toBufferedScanner := b, retried := false }) hne
        (ready_fill h hfill).token
    refine Eq.trans ?_ (ScanState.request_ofEnded hended p.retried text false p.reads).symm
    rw [Turn.reply, hreply, view_fill h hfill]
    rfl
  | interrupted => rfl
  | @last b hfill =>
    have hreply : ({ p with toBufferedScanner := b } : BufferedCall).reply =
        b.view.proceed p.retried :=
      reply_of_ne_single (p := { p with toBufferedScanner := b }) hne
        (ready_fill h hfill).token
    refine Eq.trans ?_ (ScanState.request_ofEnded hended p.retried text true p.reads).symm
    rw [Turn.reply, hreply, Scanner.proceed_of_finished, view_fill h hfill]
    · rfl
    · obtain ⟨buffer, cursor, rfl⟩ := eq_of_fill hfill
      exact Bool.or_true _
  | unasked hreclaim hfill =>
    rw [Turn.reply, view_fill h hfill, ScanState.request]
    obtain hretried | hnone := of_reclaim_none hreclaim
    · simp only [hretried, if_true]
      rfl
    · simp only [hnone, ite_self]
      rfl
  | @refused q b e hreclaim hfill =>
    obtain ⟨hretried, hsome⟩ := of_reclaim_some hreclaim
    have hreads : q.reads = p.reads := by
      obtain ⟨foreground, rfl⟩ := eq_of_reclaim hreclaim
      rfl
    rw [Turn.reply, view_fill (ready_reclaim h hreclaim) hfill, ScanState.request, ← hreads]
    simp only [hretried, hsome, Bool.false_eq_true, if_false]
    rfl
  | @retry q e hreclaim =>
    obtain ⟨hretried, hsome⟩ := of_reclaim_some hreclaim
    obtain ⟨foreground, rfl⟩ := eq_of_reclaim hreclaim
    have hreply := reply_of_ne_single (p := { p with foreground, retried := true }) hne h.token
    have hrest : p.view.rest = [] := List.drop_eq_nil_of_le hend
    rw [Turn.reply, hreply, Scanner.proceed_of_rest_eq_nil (by exact hrest), ScanState.request]
    simp only [hretried, hsome, Bool.false_eq_true, if_false, if_true]
    rw [if_neg (by exact Bool.eq_false_iff.mp hended)]
    rfl

/-- Every turn leads to the same reply. -/
theorem Sound.reply_turn (h : p.Sound) {t : Turn} (ht : p.Turns t) : t.reply = p.reply := by
  cases ht with
  | look hloop htoken hc hescaped => exact h.reply_look hloop htoken hc hescaped
  | double hloop hc => exact h.reply_double hloop hc
  | single hloop hc => exact h.reply_single hloop hc
  | leave hloop hend => exact reply_leave (h.head.of_loop hloop).1 hend
  | give hloop htoken htext => exact h.reply_give htoken htext
  | finish hloop htoken hend hfinished => exact reply_finish hloop htoken hend hfinished
  | @refill t hloop htoken hend hopen read reads hnext hreads =>
    have hready := h.ready_of_end htoken hend reads
    have hrest : p.view.rest = [] := List.drop_eq_nil_of_le hend
    rw [reply_reads (p := { p with reads }) hready hloop hend hopen hreads,
      reply_of_ne_single (by simp [hloop]) htoken, Scanner.proceed_of_rest_eq_nil hrest,
      if_neg (by exact Bool.eq_false_iff.mp hopen)]
    exact (ScanState.request_next hnext p.view.toScanState p.retried).symm

/-- A call comes to the reply that its turns lead to. -/
theorem Sound.view_complete (h : p.Sound) {r : BufferedReply} (hr : p.complete = .ok r) :
    r.view = p.reply := by
  -- The induction is on the turns of the call, none of which changes the reply.
  induction p using BufferedCall.complete.induct generalizing r with
  | case1 p e hturn =>
    obtain ⟨t, ht⟩ := exists_turn h.inRange
    rw [ht] at hturn
    cases hturn
  | case2 p result scanner events hturn =>
    rw [complete_of_over hturn] at hr
    obtain rfl := Except.ok.inj hr
    rw [← h.reply_turn (turns_of_turn hturn)]
    simp [BufferedReply.view, Turn.reply]
  | case3 p q events hturn ih =>
    have hq : q.Sound := h.turn (turns_of_turn hturn)
    obtain ⟨r', hr', -⟩ := hq.complete
    rw [complete_of_next hturn hr'] at hr
    obtain rfl := Except.ok.inj hr
    rw [← h.reply_turn (turns_of_turn hturn), Turn.reply, ← ih hq hr']
    simp [BufferedReply.view, BufferedReply.from, Reply.after]

end BufferedCall

/-! ## Runs -/

namespace BufferedScanner

/-- What holds of a scanner with a buffer after these calls of a scanner that stands for `s`. -/
structure Follows (b : BufferedScanner) (s : Scanner) (calls : List Call) : Prop where
  view : b.view = s.afterAll calls
  ready : b.Ready
  /-- a token is unfinished only if the last call for one failed with its read -/
  stage : b.stage ≠ .start → ∃ (earlier : List Call) (messages : List String) (e : ReadError),
    calls = earlier ++ .nextToken :: messages.map .report ∧
      (s.afterAll earlier).nextToken.result = .error (.read e)

variable {b : BufferedScanner} {s : Scanner} {calls : List Call}

/-- A call for a token comes to its end, with the reply of the scanner that is stood for. -/
theorem Ready.exists_nextToken (h : b.Ready) : ∃ r, b.nextToken = .ok r ∧
    r.view = b.view.nextToken ∧ (∀ v ∈ r.visits, v.InBounds) ∧ r.scanner.Closes r.result := by
  obtain ⟨r, hr, hvisits, hcloses⟩ := h.sound_call.complete
  refine ⟨r, hr, ?_, hvisits, hcloses⟩
  rw [h.sound_call.view_complete hr]
  exact BufferedCall.reply_of_ne_single (p := b.call) (by simp [call]) h.token

-- Quoted text goes on in a second line.  The first line is kept in front of it, with its line break
-- as an escape, and the indices are counted anew.
example : ((ofReads "input" [⟨"'a\n".toList, .ok⟩, ⟨"b' c".toList, .endOfStream⟩] none).nextToken.map
    fun r => (r.result, r.scanner.buffer, r.scanner.start, r.scanner.cursor)) =
      .ok (.ok ⟨.singleQuoted, "'a\\nb'", 2⟩, "'a\\nb' c\n".toList, 0, 6) := by
  cbv

/-- One more call comes to its end too, and the scanner after it follows. -/
theorem Follows.after (h : b.Follows s calls) (c : Call) :
    ∃ b', b.after c = .ok b' ∧ b'.Follows s (calls ++ [c]) := by
  have hview (c : Call) : s.afterAll (calls ++ [c]) = b.view.after c := by
    rw [h.view, Scanner.afterAll, List.foldl_append]
    rfl
  cases c with
  | nextToken =>
    obtain ⟨r, hr, hreply, -, hcloses⟩ := h.ready.exists_nextToken
    refine ⟨r.scanner, by rw [BufferedScanner.after, hr]; rfl, ?_, hcloses.ready, fun hne => ?_⟩
    · rw [hview]
      exact congrArg Reply.scanner hreply
    · obtain ⟨e, he⟩ := hcloses.stage hne
      refine ⟨calls, [], e, rfl, ?_⟩
      rw [← h.view, ← hreply]
      exact he
  | reset =>
    refine ⟨b.reset, rfl, (hview .reset).symm ▸ rfl, ?_, fun hne => absurd rfl hne⟩
    exact ⟨⟨Nat.le_refl _, Nat.le_refl _⟩, rfl, fun hne => absurd rfl hne⟩
  | report message =>
    refine ⟨b, rfl, (hview (.report message)).symm, h.ready, fun hne => ?_⟩
    obtain ⟨earlier, messages, e, rfl, he⟩ := h.stage hne
    exact ⟨earlier, messages ++ [message], e, by simp, he⟩

/-- After any calls a scanner follows the one that it stands for. -/
theorem exists_afterAll (h : b.Follows s []) (calls : List Call) :
    ∃ b', b.afterAll calls = .ok b' ∧ b'.Follows s calls := by
  induction calls using List.reverseRecOn with
  | nil => exact ⟨b, rfl, h⟩
  | append_singleton calls c ih =>
    obtain ⟨b₁, hcalls, hfollows⟩ := ih
    obtain ⟨b₂, hcall, hfollows⟩ := hfollows.after c
    refine ⟨b₂, ?_, hfollows⟩
    rw [afterAll, List.foldlM_append]
    change (b.afterAll calls >>= fun b => [c].foldlM BufferedScanner.after b) = _
    rw [hcalls]
    change BufferedScanner.after b₁ c >>= pure = _
    rw [hcall]
    rfl

theorem follows_ofReads (name : String) (reads : List Read) (foreground : Option (List Bool)) :
    (ofReads name reads foreground).Follows (Scanner.ofReads name reads foreground) [] where
  view := rfl
  ready := ⟨⟨Nat.le_refl _, Nat.le_refl _⟩, rfl, fun hne => absurd rfl hne⟩
  stage hne := absurd rfl hne

/-- No access to the buffer is out of range, whatever the source gives, whatever the collaborator
answers and in whatever order the calls are made.  At the heads of all loops the indices are in order
and in the buffer, and a line is asked for only where the buffer is used up and a token that was
begun has text.  Between two calls no token waits to be given, and one is unfinished only after a
read that failed.  A token that stands for text has some. -/
theorem indices_in_range (name : String) (reads : List Read) (foreground : Option (List Bool))
    (calls : List Call) :
    ∃ b r, (ofReads name reads foreground).afterAll calls = .ok b ∧ b.nextToken = .ok r ∧
      b.Follows (Scanner.ofReads name reads foreground) calls ∧
      r.view = ((Scanner.ofReads name reads foreground).afterAll calls).nextToken ∧
      (∀ v ∈ r.visits, v.InBounds) ∧
      ∀ t, r.result = .ok t → t.kind ≠ .interrupt → t.kind ≠ .endOfInput → t.text ≠ "" := by
  obtain ⟨b, hb, hfollows⟩ := exists_afterAll (follows_ofReads name reads foreground) calls
  obtain ⟨r, hr, hreply, hvisits, hcloses⟩ := hfollows.ready.exists_nextToken
  rw [hfollows.view] at hreply
  exact ⟨b, r, hb, hr, hfollows, hreply, hvisits, hcloses.text⟩

end BufferedScanner

end LispShell
