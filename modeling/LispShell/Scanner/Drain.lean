import LispShell.Scanner.Basic

set_option autoImplicit false

/-!
# Scanning to the end

Calling `nextToken` again and again, past faults, comes to an `endOfInput` token.  The reason is a
measure, the `work` that a scanner has before it: characters at hand and characters to be read count
twice, being in the middle of something counts one, a read counts three besides its text, and an
input that has not ended counts four.  Every call that does not give `endOfInput` lessens it.

`Scanner.drain` is the list of all those calls.  It needs no bound on their number.
-/

namespace LispShell

/-! ## The measure -/

/-- Being between tokens is no work, anything else is. -/
def Mode.work (m : Mode) : Nat :=
  if m = .start then 0 else 1

/-- The work that is left in ending the input. -/
def endWork (finished : Bool) : Nat :=
  if finished then 0 else 4

/-- The work that the state of a scanner has before it, its source apart. -/
def ScanState.work (s : ScanState) : Nat :=
  2 * s.rest.length + s.mode.work + endWork s.finished

/-- The work that a list of reads stands for. -/
def readsWork : List Read → Nat
  | [] => 0
  | read :: reads => 2 * read.text.length + 3 + readsWork reads

/-- The work that a scanner has before it. -/
def Scanner.work (s : Scanner) : Nat :=
  s.toScanState.work + readsWork s.reads

/-- A call gave the token that ends the input. -/
def Reply.isEnd (r : Reply) : Bool :=
  match r.result with
  | .ok t => t.kind == .endOfInput
  | .error _ => false

/-- A call gave the end of the input, or left less work than `n`. -/
def Reply.Lessens (r : Reply) (n : Nat) : Prop :=
  r.isEnd = false → r.scanner.work < n

/-- What was done before a call changes nothing of what it leaves. -/
theorem Reply.lessens_after {r : Reply} {n : Nat} (events : List Event) :
    (r.after events).Lessens n ↔ r.Lessens n :=
  Iff.rfl

/-- What lessens some work lessens any greater work. -/
theorem Reply.Lessens.mono {r : Reply} {m n : Nat} (h : r.Lessens m) (hle : m ≤ n) :
    r.Lessens n :=
  fun hend => Nat.lt_of_lt_of_le (h hend) hle

/-- Being in the middle of something counts no more than one. -/
theorem Mode.work_le_one (m : Mode) : m.work ≤ 1 := by
  unfold Mode.work
  split <;> omega

/-- Between tokens there is nothing to finish. -/
theorem Mode.work_start : Mode.start.work = 0 := rfl

/-- A token that ends before a character, or a rejected `<`, was begun before. -/
theorem Mode.work_pos_of_move {m : Mode} {c : Char}
    (h : (∃ kind, m.move c = .closeBefore kind) ∨ m.move c = .reject) : m.work = 1 := by
  cases m with
  | start =>
    rcases h with ⟨kind, h⟩ | h
    · exact absurd h ((firstMove_consumes c).1 kind)
    · exact absurd h (firstMove_consumes c).2
  | _ => rfl

/-! ## Scanning lessens the work -/

/-- The work that is left after scanning characters. -/
def ScanState.Progress.work : ScanState.Progress → Nat
  | .dry mode _ => mode.work
  | .complete _ _ rest => 2 * rest.length + 1
  | .rejected rest => 2 * rest.length + 1

/-- Scanning leaves no more work than there was, and less if it completes or rejects something. -/
theorem ScanState.work_scan_le (previous : Option TokenKind) (rest : List Char) (mode : Mode)
    (held : List Char) :
    (scan previous mode held rest).work ≤ 2 * rest.length + mode.work := by
  induction rest generalizing mode held with
  | nil => simp [scan, Progress.work]
  | cons c rest ih =>
    simp only [scan, List.length_cons]
    split
    next m _ =>
      have h₁ := ih m (hold mode c rest held)
      have h₂ := m.work_le_one
      omega
    next =>
      have h₁ := ih .start []
      rw [Mode.work_start] at h₁
      omega
    next =>
      split
      · have h₁ := ih .start []
        rw [Mode.work_start] at h₁
        omega
      · simp only [Progress.work]
        omega
    next =>
      simp only [Progress.work]
      omega
    next kind h =>
      have h₁ := Mode.work_pos_of_move (Or.inl ⟨kind, h⟩)
      simp only [Progress.work, List.length_cons]
      omega
    next h =>
      have h₁ := Mode.work_pos_of_move (Or.inr h)
      simp only [Progress.work, List.length_cons]
      omega

/-- If no token or fault is at hand, no characters and no more work are left. -/
theorem ScanState.work_of_scanRest_inl {s t : ScanState} (h : s.scanRest = .inl t) :
    t.rest = [] ∧ t.finished = s.finished ∧ t.work ≤ s.work := by
  have hle := work_scan_le s.previous s.rest s.mode s.held
  unfold scanRest at h
  split at h
  next mode held heq =>
    simp only [heq, Progress.work] at hle
    obtain rfl := Sum.inl.inj h
    refine ⟨rfl, rfl, ?_⟩
    simp only [work, List.length_nil]
    omega
  next => simp at h
  next => simp at h

/-- A token or fault at hand leaves less work. -/
theorem ScanState.work_of_scanRest_inr {s : ScanState} {a : Answer} (h : s.scanRest = .inr a) :
    a.state.work < s.work := by
  have hle := work_scan_le s.previous s.rest s.mode s.held
  unfold scanRest at h
  split at h
  next => simp at h
  next kind text rest heq =>
    simp only [heq, Progress.work] at hle
    obtain rfl := Sum.inr.inj h
    simp only [work, afterToken, Mode.work_start]
    omega
  next rest heq =>
    simp only [heq, Progress.work] at hle
    obtain rfl := Sum.inr.inj h
    simp only [work, Mode.work_start]
    omega

/-- The end of the input comes after at most one fault. -/
theorem ScanState.lessens_finish (s : ScanState) (reads : List Read) :
    (s.finish.toReply reads).Lessens (s.work + readsWork reads) := by
  intro hend
  unfold finish at hend ⊢
  split at hend
  next hquoted =>
    have hmode : s.mode.work = 1 := by
      cases hm : s.mode <;> simp_all [Mode.isQuoted, Mode.work]
    simp only [hquoted, Answer.toReply, Scanner.work, work, reset, Mode.work_start,
      List.length_nil, if_true]
    omega
  next => simp [Reply.isEnd, Answer.toReply, Token.control] at hend

/-- Scanning what was read last comes to the end or lessens the work. -/
theorem ScanState.lessens_conclude (s : ScanState) (reads : List Read) :
    (s.conclude reads).Lessens (s.work + readsWork reads) := by
  unfold conclude
  split
  next t h =>
    have hle := (work_of_scanRest_inl h).2.2
    exact (lessens_finish t reads).mono (by omega)
  next a h =>
    intro _
    have hlt := work_of_scanRest_inr h
    simp only [Answer.toReply, Scanner.work]
    omega

/-- A line adds at most its text, and the last one at most a line break besides. -/
theorem ScanState.work_fill_le {s : ScanState} (hrest : s.rest = []) (text : List Char) :
    (s.fill text false).work ≤ s.work + 2 * text.length ∧
      (s.finished = false → (s.fill text true).work + 2 ≤ s.work + 2 * text.length) := by
  have hle := Line.length_logical_le text
  constructor
  · simp only [work, fill, hrest, List.length_append, List.length_nil, Bool.or_false,
      Bool.false_eq_true, if_false]
    omega
  · intro hfinished
    simp only [work, fill, endWork, hrest, hfinished, List.length_append, List.length_nil, if_true,
      List.length_cons, Bool.or_true, Bool.false_eq_true, if_false]
    omega

/-- Reading lines comes to the end or lessens the work. -/
theorem ScanState.lessens_request (reads : List Read) (s : ScanState) (retried : Bool)
    (hrest : s.rest = []) (hfinished : s.finished = false) :
    (s.request retried reads).Lessens (s.work + readsWork reads) := by
  induction reads generalizing s retried with
  | nil =>
    simp only [request, Reply.lessens_after]
    have hle := (work_fill_le hrest []).2 hfinished
    refine (lessens_conclude _ []).mono ?_
    simp only [List.length_nil] at hle
    omega
  | cons read reads ih =>
    obtain ⟨text, status⟩ := read
    have hfill := work_fill_le hrest text
    have hended := hfill.2 hfinished
    have hfail (t : ScanState) (ht : t.work = s.work) (hr : t.rest = []) (hf : t.finished = false)
        (e : ReadError) :
        (t.fail text e reads).Lessens (s.work + (2 * text.length + 3 + readsWork reads)) := by
      intro _
      have h := (work_fill_le hr text).2 hf
      simp only [fail, Answer.toReply, Scanner.work]
      omega
    simp only [request, Reply.lessens_after, readsWork]
    cases status with
    | ok =>
      simp only []
      split
      next t h =>
        obtain ⟨hr, hf, hle⟩ := work_of_scanRest_inl h
        have hf' : t.finished = false := by rw [hf]; simp [fill, hfinished]
        exact (ih t false hr hf').mono (by omega)
      next a h =>
        intro _
        have hlt := work_of_scanRest_inr h
        simp only [Answer.toReply, Scanner.work]
        omega
    | interrupted =>
      intro _
      simp only [Answer.toReply, Scanner.work, work, reset, Mode.work_start, List.length_nil]
      omega
    | endOfStream => exact (lessens_conclude _ reads).mono (by omega)
    | failed e =>
      simp only []
      split
      next => exact hfail s rfl hrest hfinished e
      next =>
        unfold reclaim
        cases s.foreground with
        | none => exact hfail s rfl hrest hfinished e
        | some answers =>
          cases answers with
          | nil => exact hfail s rfl hrest hfinished e
          | cons taken answers =>
            simp only [Option.map_some, Reply.lessens_after]
            cases taken with
            | false =>
              exact hfail { s with foreground := some answers } rfl hrest hfinished e
            | true =>
              have h := ih { s with foreground := some answers } true hrest hfinished
              refine h.mono ?_
              simp only [work]
              omega

/-- Every call gives the end of the input or lessens the work. -/
theorem Scanner.lessens_nextToken (s : Scanner) : s.nextToken.Lessens s.work := by
  unfold nextToken
  split
  next a h =>
    intro _
    have hlt := ScanState.work_of_scanRest_inr h
    simp only [Answer.toReply, Scanner.work]
    omega
  next t h =>
    obtain ⟨hrest, hfinished, hle⟩ := ScanState.work_of_scanRest_inl h
    have hwork : t.work + readsWork s.reads ≤ s.work := by
      simp only [Scanner.work]
      omega
    split
    next => exact (ScanState.lessens_finish t s.reads).mono hwork
    next hf =>
      exact (ScanState.lessens_request s.reads t false hrest (by simpa using hf)).mono hwork

/-! ## All calls -/

/-- The calls up to the one that gives the end of the input. -/
def Scanner.drain (s : Scanner) : List Reply :=
  let r := s.nextToken
  if _h : r.isEnd = true then [r] else r :: r.scanner.drain
termination_by s.work
decreasing_by exact s.lessens_nextToken (by simpa using _h)

/-- The tokens of a text, or its first fault. -/
def tokenize (text : List Char) : Except Fault (List Token) :=
  (Scanner.ofText "<string>" text).drain.mapM Reply.result

end LispShell
