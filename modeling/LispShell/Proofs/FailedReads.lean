import LispShell.Proofs.Journal

set_option autoImplicit false

/-!
# Failed reads

The collaborator is asked once for each block of failed reads that follow one another, right after
the first of them.  If it takes the terminal back, the next read comes at once and finds the scanner
as it was.  In every other case the call gives the failure, and nothing is read any more.

`RetryLaw` says this of the journal of a run, entry by entry.  That the journal of every run obeys
it is shown by way of the phases that a scanner goes through: `Phase.Step` tells which entry may
come in which phase, and `Scanner.path_journal` finds a path of steps along every journal.
-/

namespace LispShell

/-! ## The law -/

/-- The error that a read failed with. -/
def Read.error? (r : Read) : Option ReadError :=
  match r.status with
  | .failed e => some e
  | _ => none

/-- The error that the last of all reads failed with, if it failed. -/
def lastError? (entries : List Entry) : Option ReadError :=
  (entries.filterMap Entry.read?).getLast?.bind Read.error?

namespace Entry

/-- The result of a call is a failed read. -/
def isReadFault : Entry → Bool
  | .gave (.error (.read _)) => true
  | _ => false

/-- After this nothing is to be read. -/
def EndsInput : Entry → Prop
  | .read _ r => r.status = .endOfStream
  | entry => entry.isReadFault = true

end Entry

/-- What a journal has to do with failed reads; `collaborator` tells whether there is one to ask. -/
structure RetryLaw (collaborator : Bool) (journal : List Entry) : Prop where
  /-- If the first of a block of reads fails, the collaborator is asked before anything else. -/
  asks : ∀ {before after : List Entry} {state : ScanState} {read : Read} {e : ReadError},
    journal = before ++ .read state read :: after → read.error? = some e →
      lastError? before = none → collaborator = true →
        ∃ taken later, after = .reclaim taken :: later
  /-- It is never asked anywhere else. -/
  asks_only : ∀ {before after : List Entry} {taken : Bool},
    journal = before ++ .reclaim taken :: after → collaborator = true ∧
      ∃ earlier state read e, before = earlier ++ [.read state read] ∧ read.error? = some e ∧
        lastError? earlier = none
  /-- If it takes the terminal back, the next read comes at once, and of the scanner nothing has
  changed but the answers that the collaborator has left. -/
  retries : ∀ {before after : List Entry} {state : ScanState} {read : Read},
    journal = before ++ .read state read :: .reclaim true :: after →
      ∃ foreground next later, after = .read { state with foreground } next :: later
  /-- If it refuses, the call gives the failure. -/
  gives_refused : ∀ {before after : List Entry} {state : ScanState} {read : Read} {e : ReadError},
    journal = before ++ .read state read :: .reclaim false :: after → read.error? = some e →
      ∃ later, after = .gave (.error (.read e)) :: later
  /-- So it does if there is no collaborator, or if the read before has failed too. -/
  gives_unasked : ∀ {before after : List Entry} {state : ScanState} {read : Read} {e : ReadError},
    journal = before ++ .read state read :: after → read.error? = some e →
      collaborator = false ∨ lastError? before ≠ none →
        ∃ later, after = .gave (.error (.read e)) :: later
  /-- The failure that a call gives is that of the last read. -/
  gives_last : ∀ {before after : List Entry} {e : ReadError},
    journal = before ++ .gave (.error (.read e)) :: after → lastError? before = some e
  /-- After such a failure, and after the end of the stream, no read is made. -/
  stops : ∀ {before after : List Entry} {entry : Entry}, journal = before ++ entry :: after →
    entry.EndsInput → ∀ state read, Entry.read state read ∉ after
  /-- No more than one call gives a failed read. -/
  once : journal.countP Entry.isReadFault ≤ 1

/-! ## Phases -/

/-- What a scanner is about to do with its source. -/
inductive Phase where
  /-- the read before, if there was one, did not fail -/
  | ready
  /-- the first of a block of reads has failed in this state, and the collaborator is to be asked -/
  | failed (state : ScanState) (e : ReadError)
  /-- the terminal was taken back, and the read is to be tried again in this state -/
  | retrying (state : ScanState)
  /-- this failure is to be given -/
  | failing (e : ReadError)
  /-- no read is to be made any more -/
  | ended

namespace Phase

/-- In this phase a read may be made, in this state. -/
def Asks : Phase → ScanState → Prop
  | .ready, _ => True
  | .retrying state, state' => ∃ foreground, state' = { state with foreground }
  | _, _ => False

end Phase

/-- The entry has nothing to do with reading. -/
def Entry.IsQuiet : Entry → Prop
  | .report _ | .reset => True
  | .gave result => ∀ e, result ≠ .error (.read e)
  | .read _ _ | .reclaim _ => False

/-- An entry that may come in a phase, and the phase after it. -/
inductive Phase.Step (collaborator : Bool) : Phase → Entry → Phase → Prop where
  | good {p : Phase} {state : ScanState} {read : Read} (hasks : p.Asks state)
      (hstatus : read.status = .ok ∨ read.status = .interrupted) :
      Step collaborator p (.read state read) .ready
  | last {p : Phase} {state : ScanState} {read : Read} (hasks : p.Asks state)
      (hstatus : read.status = .endOfStream) : Step collaborator p (.read state read) .ended
  | first {state : ScanState} {read : Read} {e : ReadError} (hcollaborator : collaborator = true)
      (herror : read.error? = some e) :
      Step collaborator .ready (.read state read) (.failed state e)
  | alone {state : ScanState} {read : Read} {e : ReadError} (hcollaborator : collaborator = false)
      (herror : read.error? = some e) : Step collaborator .ready (.read state read) (.failing e)
  | again {state : ScanState} {read : Read} {e : ReadError} (foreground : Option (List Bool))
      (herror : read.error? = some e) :
      Step collaborator (.retrying state) (.read { state with foreground } read) (.failing e)
  | taken {state : ScanState} {e : ReadError} :
      Step collaborator (.failed state e) (.reclaim true) (.retrying state)
  | refused {state : ScanState} {e : ReadError} :
      Step collaborator (.failed state e) (.reclaim false) (.failing e)
  | given {e : ReadError} : Step collaborator (.failing e) (.gave (.error (.read e))) .ended
  | ready {entry : Entry} (hquiet : entry.IsQuiet) : Step collaborator .ready entry .ready
  | ended {entry : Entry} (hquiet : entry.IsQuiet) : Step collaborator .ended entry .ended

/-- Steps along a list of entries. -/
inductive Phase.Path (collaborator : Bool) : Phase → List Entry → Phase → Prop where
  | nil {p : Phase} : Path collaborator p [] p
  | cons {p q r : Phase} {entry : Entry} {entries : List Entry}
      (hstep : p.Step collaborator entry q) (hpath : Path collaborator q entries r) :
      Path collaborator p (entry :: entries) r

namespace Phase

variable {collaborator : Bool}

theorem Path.append {p q r : Phase} {first second : List Entry}
    (hfirst : p.Path collaborator first q) (hsecond : q.Path collaborator second r) :
    p.Path collaborator (first ++ second) r := by
  induction hfirst with
  | nil => exact hsecond
  | cons hstep _ ih => exact .cons hstep (ih hsecond)

theorem Path.split {p r : Phase} {before after : List Entry} {entry : Entry}
    (h : p.Path collaborator (before ++ entry :: after) r) :
    ∃ m n, p.Path collaborator before m ∧ m.Step collaborator entry n ∧
      n.Path collaborator after r := by
  induction before generalizing p with
  | nil =>
    cases h with
    | cons hstep hpath => exact ⟨_, _, .nil, hstep, hpath⟩
  | cons first before ih =>
    cases h with
    | cons hstep hpath =>
      obtain ⟨m, n, hbefore, hentry, hafter⟩ := ih hpath
      exact ⟨m, n, .cons hstep hbefore, hentry, hafter⟩

/-- A phase in which a call may end. -/
def IsResting (p : Phase) : Prop :=
  p = .ready ∨ p = .ended

/-! ### What a phase knows of the entries before it -/

/-- The entries before a phase are as it takes them to be. -/
def Fits (collaborator : Bool) (before : List Entry) : Phase → Prop
  | .ready => lastError? before = none
  | .failed state e => collaborator = true ∧
      ∃ earlier read, before = earlier ++ [.read state read] ∧ read.error? = some e ∧
        lastError? earlier = none
  | .retrying _ => lastError? before ≠ none
  | .failing e => lastError? before = some e
  | .ended => True

end Phase

theorem lastError?_concat_read (before : List Entry) (state : ScanState) (read : Read) :
    lastError? (before ++ [.read state read]) = read.error? := by
  simp [lastError?, List.filterMap_append, Entry.read?]

theorem lastError?_concat {before : List Entry} {entry : Entry} (h : entry.read? = none) :
    lastError? (before ++ [entry]) = lastError? before := by
  simp [lastError?, List.filterMap_append, h]

theorem Entry.IsQuiet.read?_eq_none {entry : Entry} (h : entry.IsQuiet) : entry.read? = none := by
  cases entry with
  | read state read => cases h
  | _ => rfl

theorem Entry.IsQuiet.isReadFault_eq_false {entry : Entry} (h : entry.IsQuiet) :
    entry.isReadFault = false := by
  cases entry with
  | gave result =>
    cases result with
    | ok t => rfl
    | error fault =>
      cases fault with
      | read e => exact absurd rfl (h e)
      | _ => rfl
  | _ => rfl

theorem Entry.IsQuiet.not_endsInput {entry : Entry} (h : entry.IsQuiet) : ¬ entry.EndsInput := by
  intro hends
  cases entry with
  | read state read => exact h
  | _ => exact absurd (h.isReadFault_eq_false.symm.trans hends) Bool.false_ne_true

theorem Read.status_eq_failed {read : Read} {e : ReadError} (h : read.error? = some e) :
    read.status = .failed e := by
  unfold Read.error? at h
  split at h
  · rename_i hstatus
    rw [hstatus, Option.some.inj h]
  · cases h

theorem Read.error?_eq_none {read : Read} (h : read.status = .ok ∨ read.status = .interrupted) :
    read.error? = none := by
  unfold Read.error?
  rcases h with h | h
  · rw [h]
  · rw [h]

namespace Phase

variable {collaborator : Bool}

theorem Fits.step {before : List Entry} {p q : Phase} {entry : Entry}
    (h : p.Fits collaborator before) (hstep : p.Step collaborator entry q) :
    q.Fits collaborator (before ++ [entry]) := by
  cases hstep with
  | good _ hstatus => exact (lastError?_concat_read _ _ _).trans (Read.error?_eq_none hstatus)
  | last _ _ => trivial
  | first hcollaborator herror => exact ⟨hcollaborator, before, _, rfl, herror, h⟩
  | alone _ herror => exact (lastError?_concat_read _ _ _).trans herror
  | again _ herror => exact (lastError?_concat_read _ _ _).trans herror
  | taken =>
    obtain ⟨-, earlier, read, rfl, herror, -⟩ := h
    change lastError? _ ≠ none
    rw [lastError?_concat rfl, lastError?_concat_read, herror]
    exact Option.some_ne_none _
  | refused =>
    obtain ⟨-, earlier, read, rfl, herror, -⟩ := h
    exact (lastError?_concat rfl).trans ((lastError?_concat_read _ _ _).trans herror)
  | given => trivial
  | ready hquiet => exact (lastError?_concat hquiet.read?_eq_none).trans h
  | ended _ => trivial

theorem Fits.path {before entries : List Entry} {p q : Phase} (h : p.Fits collaborator before)
    (hpath : p.Path collaborator entries q) : q.Fits collaborator (before ++ entries) := by
  induction hpath generalizing before with
  | nil => rwa [List.append_nil]
  | cons hstep _ ih =>
    rw [List.append_cons]
    exact ih (h.step hstep)

theorem Path.isQuiet_of_mem {entries : List Entry} {q : Phase}
    (h : Phase.ended.Path collaborator entries q) : ∀ entry ∈ entries, entry.IsQuiet := by
  generalize hp : Phase.ended = p at h
  induction h with
  | nil => exact fun _ hmem => absurd hmem List.not_mem_nil
  | cons hstep _ ih =>
    subst hp
    cases hstep with
    | good hasks _ => cases hasks
    | last hasks _ => cases hasks
    | ended hquiet => exact List.forall_mem_cons.mpr ⟨hquiet, ih rfl⟩

theorem Step.eq_ended {entry : Entry} {p q : Phase} (h : p.Step collaborator entry q)
    (hends : entry.EndsInput) : q = .ended := by
  cases h with
  | last _ _ => rfl
  | given => rfl
  | ended _ => rfl
  | ready hquiet => exact absurd hends hquiet.not_endsInput
  | taken => cases hends
  | refused => cases hends
  | good _ hstatus =>
    have hend : ReadStatus.endOfStream = .ok ∨ ReadStatus.endOfStream = .interrupted :=
      hends ▸ hstatus
    simp at hend
  | first _ herror => exact absurd (hends.symm.trans (Read.status_eq_failed herror)) (by simp)
  | alone _ herror => exact absurd (hends.symm.trans (Read.status_eq_failed herror)) (by simp)
  | again _ herror => exact absurd (hends.symm.trans (Read.status_eq_failed herror)) (by simp)

theorem Entry.endsInput_of_isReadFault {entry : Entry} (h : entry.isReadFault = true) :
    entry.EndsInput := by
  cases entry with
  | read state read => cases h
  | _ => exact h

theorem Path.countP_isReadFault_le_one {entries : List Entry} {p q : Phase}
    (h : p.Path collaborator entries q) : entries.countP Entry.isReadFault ≤ 1 := by
  induction h with
  | nil => exact Nat.zero_le _
  | @cons p q r entry entries hstep hpath ih =>
    rw [List.countP_cons]
    cases hfault : entry.isReadFault with
    | false => exact ih
    | true =>
      obtain rfl := hstep.eq_ended (Entry.endsInput_of_isReadFault hfault)
      have hquiet : ∀ entry ∈ entries, ¬ entry.isReadFault = true := by
        intro entry hmem
        rw [(hpath.isQuiet_of_mem entry hmem).isReadFault_eq_false]
        exact Bool.false_ne_true
      rw [List.countP_eq_zero.mpr hquiet]
      exact Nat.le_refl 1

/-! ### From a path to the law -/

theorem Step.of_failed_read {p q : Phase} {state : ScanState} {read : Read} {e : ReadError}
    (h : p.Step collaborator (.read state read) q) (herror : read.error? = some e) :
    p = .ready ∧ collaborator = true ∧ q = .failed state e ∨
      p = .ready ∧ collaborator = false ∧ q = .failing e ∨
      (∃ state', p = .retrying state') ∧ q = .failing e := by
  cases h with
  | good _ hstatus =>
    rw [Read.error?_eq_none hstatus] at herror
    cases herror
  | last _ hstatus =>
    rw [Read.status_eq_failed herror] at hstatus
    cases hstatus
  | first hcollaborator hsome =>
    obtain rfl := Option.some.inj (herror.symm.trans hsome)
    exact .inl ⟨rfl, hcollaborator, rfl⟩
  | alone hcollaborator hsome =>
    obtain rfl := Option.some.inj (herror.symm.trans hsome)
    exact .inr (.inl ⟨rfl, hcollaborator, rfl⟩)
  | again _ hsome =>
    obtain rfl := Option.some.inj (herror.symm.trans hsome)
    exact .inr (.inr ⟨⟨_, rfl⟩, rfl⟩)
  | ready hquiet => cases hquiet
  | ended hquiet => cases hquiet

/-- A call does not end in the middle of a failure. -/
theorem Path.exists_step {p q : Phase} {entries : List Entry}
    (h : p.Path collaborator entries q) (hq : q.IsResting) (hp : ¬ p.IsResting) :
    ∃ entry later r, entries = entry :: later ∧ p.Step collaborator entry r ∧
      r.Path collaborator later q := by
  cases h with
  | nil => exact absurd hq hp
  | cons hstep hpath => exact ⟨_, _, _, rfl, hstep, hpath⟩

section

variable {after : List Entry} {state : ScanState} {e : ReadError} {q : Phase}

theorem Path.of_failing (h : (failing e).Path collaborator after q) (hq : q.IsResting) :
    ∃ later, after = .gave (.error (.read e)) :: later := by
  obtain ⟨entry, later, r, rfl, hstep, -⟩ := h.exists_step hq (by simp [IsResting])
  cases hstep with
  | good hasks _ => cases hasks
  | last hasks _ => cases hasks
  | given => exact ⟨later, rfl⟩

theorem Path.of_failed (h : (failed state e).Path collaborator after q) (hq : q.IsResting) :
    ∃ taken later, after = .reclaim taken :: later := by
  obtain ⟨entry, later, r, rfl, hstep, -⟩ := h.exists_step hq (by simp [IsResting])
  cases hstep with
  | good hasks _ => cases hasks
  | last hasks _ => cases hasks
  | taken => exact ⟨true, later, rfl⟩
  | refused => exact ⟨false, later, rfl⟩

theorem Path.of_retrying (h : (retrying state).Path collaborator after q) (hq : q.IsResting) :
    ∃ foreground next later, after = .read { state with foreground } next :: later := by
  obtain ⟨entry, later, r, rfl, hstep, -⟩ := h.exists_step hq (by simp [IsResting])
  cases hstep with
  | good hasks _ =>
    obtain ⟨foreground, rfl⟩ := hasks
    exact ⟨foreground, _, later, rfl⟩
  | last hasks _ =>
    obtain ⟨foreground, rfl⟩ := hasks
    exact ⟨foreground, _, later, rfl⟩
  | again foreground _ => exact ⟨foreground, _, later, rfl⟩

end

/-- The entries along a path obey the law. -/
theorem Path.retryLaw {journal : List Entry} {p q : Phase} (h : p.Path collaborator journal q)
    (hp : p.IsResting) (hq : q.IsResting) : RetryLaw collaborator journal := by
  have hfits : p.Fits collaborator [] := by
    rcases hp with rfl | rfl
    · rfl
    · trivial
  constructor
  case asks =>
    rintro before after state read e rfl herror hfirst hcollaborator
    obtain ⟨m, n, hbefore, hstep, hafter⟩ := h.split
    obtain ⟨-, -, rfl⟩ | ⟨-, hnone, -⟩ | ⟨⟨state', rfl⟩, -⟩ := hstep.of_failed_read herror
    · exact hafter.of_failed hq
    · rw [hcollaborator] at hnone
      cases hnone
    · exact absurd hfirst (hfits.path hbefore)
  case asks_only =>
    rintro before after taken rfl
    obtain ⟨m, n, hbefore, hstep, -⟩ := h.split
    have hm := hfits.path hbefore
    cases hstep with
    | taken =>
      obtain ⟨hcollaborator, earlier, read, hread⟩ := hm
      exact ⟨hcollaborator, earlier, _, read, _, hread⟩
    | refused =>
      obtain ⟨hcollaborator, earlier, read, hread⟩ := hm
      exact ⟨hcollaborator, earlier, _, read, _, hread⟩
    | ready hquiet => cases hquiet
    | ended hquiet => cases hquiet
  case retries =>
    rintro before after state read rfl
    obtain ⟨m, n, -, hread, hrest⟩ := h.split
    cases hrest with
    | cons hreclaim hafter =>
      cases hreclaim with
      | taken =>
        cases hread with
        | first _ _ => exact hafter.of_retrying hq
      | ready hquiet => cases hquiet
      | ended hquiet => cases hquiet
  case gives_refused =>
    rintro before after state read e rfl herror
    obtain ⟨m, n, -, hread, hrest⟩ := h.split
    cases hrest with
    | cons hreclaim hafter =>
      cases hreclaim with
      | refused =>
        obtain ⟨-, -, hn⟩ | ⟨-, -, hn⟩ | ⟨-, hn⟩ := hread.of_failed_read herror
        · cases hn
          exact hafter.of_failing hq
        · cases hn
        · cases hn
      | ready hquiet => cases hquiet
      | ended hquiet => cases hquiet
  case gives_unasked =>
    rintro before after state read e rfl herror hunasked
    obtain ⟨m, n, hbefore, hstep, hafter⟩ := h.split
    obtain ⟨rfl, hcollaborator, rfl⟩ | ⟨-, -, rfl⟩ | ⟨-, rfl⟩ := hstep.of_failed_read herror
    · rcases hunasked with hnone | hlast
      · rw [hcollaborator] at hnone
        cases hnone
      · exact absurd (hfits.path hbefore) hlast
    · exact hafter.of_failing hq
    · exact hafter.of_failing hq
  case gives_last =>
    rintro before after e rfl
    obtain ⟨m, n, hbefore, hstep, -⟩ := h.split
    cases hstep with
    | given => exact hfits.path hbefore
    | ready hquiet => exact absurd rfl (hquiet e)
    | ended hquiet => exact absurd rfl (hquiet e)
  case stops =>
    rintro before after entry rfl hends state read hmem
    obtain ⟨m, n, -, hstep, hafter⟩ := h.split
    obtain rfl := hstep.eq_ended hends
    exact hafter.isQuiet_of_mem _ hmem
  case once => exact h.countP_isReadFault_le_one

end Phase

/-! ## The path of a run -/

/-- The phase that a scanner is in between two calls. -/
def ScanState.phase (s : ScanState) : Phase :=
  if s.finished then .ended else .ready

theorem ScanState.isResting_phase (s : ScanState) : s.phase.IsResting := by
  unfold phase
  split
  · exact .inr rfl
  · exact .inl rfl

theorem ScanState.phase_of_open {s : ScanState} (h : s.finished = false) : s.phase = .ready := by
  simp [phase, h]

theorem ScanState.phase_of_finished {s : ScanState} (h : s.finished = true) : s.phase = .ended := by
  simp [phase, h]

/-- In this phase a call reads on from this state; the flag tells whether it tries a read again. -/
inductive Phase.Awaits : Phase → ScanState → Bool → Prop where
  | ready {s : ScanState} : Awaits .ready s false
  | retrying (s : ScanState) (foreground : Option (List Bool)) :
      Awaits (.retrying s) { s with foreground } true

theorem Phase.Awaits.asks {p : Phase} {s : ScanState} {retried : Bool} (h : p.Awaits s retried) :
    p.Asks s := by
  cases h with
  | ready => trivial
  | retrying s foreground => exact ⟨foreground, rfl⟩

/-- The answer is no failed read, and leaves the collaborator and the end of the input alone. -/
structure Answer.Keeps (a : Answer) (s : ScanState) : Prop where
  result : ∀ e, a.result ≠ .error (.read e)
  foreground : a.state.foreground = s.foreground
  finished : a.state.finished = s.finished

/-- The call enters these inquiries and what closes it, and all of it is a path from a phase. -/
structure Reply.Obeys (r : Reply) (collaborator : Bool) (p : Phase) (inquiries : List Entry) :
    Prop where
  path : p.Path collaborator (inquiries ++ r.closing) r.scanner.phase
  foreground : r.scanner.foreground.isSome = collaborator

theorem Phase.IsResting.path {collaborator : Bool} {p : Phase} (h : p.IsResting)
    {entries : List Entry} (hquiet : ∀ entry ∈ entries, entry.IsQuiet) :
    p.Path collaborator entries p := by
  induction entries with
  | nil => exact .nil
  | cons entry entries ih =>
    obtain ⟨hentry, hentries⟩ := List.forall_mem_cons.mp hquiet
    refine .cons ?_ (ih hentries)
    rcases h with rfl | rfl
    · exact .ready hentry
    · exact .ended hentry

theorem Reply.isQuiet_of_mem_closing {r : Reply} (h : ∀ e, r.result ≠ .error (.read e)) :
    ∀ entry ∈ r.closing, entry.IsQuiet := by
  intro entry hentry
  rw [closing, List.mem_append, List.mem_map, List.mem_singleton] at hentry
  obtain ⟨report, -, rfl⟩ | rfl := hentry
  · trivial
  · exact h

namespace ScanState

theorem keeps_of_scanRest {s : ScanState} {a : Answer} (h : s.scanRest = .inr a) : a.Keeps s := by
  unfold scanRest at h
  split at h
  · cases h
  · obtain rfl := Sum.inr.inj h
    exact ⟨fun e => by simp, rfl, rfl⟩
  · obtain rfl := Sum.inr.inj h
    exact ⟨fun e => by simp, rfl, rfl⟩

theorem isSome_foreground_of_reclaim {s t : ScanState} {taken : Bool}
    (h : s.reclaim = some (taken, t)) :
    s.foreground.isSome = true ∧ t.foreground.isSome = true := by
  obtain ⟨name, foreground, held, rest, line, mode, previous, finished⟩ := s
  cases foreground with
  | none => cases h
  | some answers =>
    cases answers with
    | nil =>
      cases h
      exact ⟨rfl, rfl⟩
    | cons answer answers =>
      cases h
      exact ⟨rfl, rfl⟩

theorem keeps_finish (s : ScanState) : s.finish.Keeps s := by
  unfold finish
  split
  · exact ⟨fun e => by simp, rfl, rfl⟩
  · exact ⟨fun e => by simp, rfl, rfl⟩

end ScanState

section

variable {collaborator : Bool} {s : ScanState}

theorem Answer.Keeps.obeys {a : Answer} (h : a.Keeps s)
    (hforeground : s.foreground.isSome = collaborator) (reads : List Read) :
    (a.toReply reads).Obeys collaborator s.phase [] := by
  refine ⟨?_, (congrArg Option.isSome h.foreground).trans hforeground⟩
  have hphase : (a.toReply reads).scanner.phase = s.phase := by
    simp [ScanState.phase, Answer.toReply, h.finished]
  rw [hphase]
  exact s.isResting_phase.path (Reply.isQuiet_of_mem_closing h.result)

theorem Reply.Obeys.cons {r : Reply} {p q : Phase} {entry : Entry} {entries : List Entry}
    (hstep : p.Step collaborator entry q) (h : r.Obeys collaborator q entries) :
    r.Obeys collaborator p (entry :: entries) :=
  ⟨.cons hstep h.path, h.foreground⟩

theorem Reply.Obeys.after_read {r : Reply} {p : Phase} {entries : List Entry}
    (h : r.Obeys collaborator p entries) : (r.after [.read]).Obeys collaborator p entries :=
  ⟨by rw [closing_after_read]; exact h.path, h.foreground⟩

theorem Reply.Obeys.after_reclaim {r : Reply} {p : Phase} {entries : List Entry}
    (h : r.Obeys collaborator p entries) (taken : Bool) :
    (r.after [.reclaim taken]).Obeys collaborator p entries :=
  ⟨by rw [closing_after_reclaim]; exact h.path, h.foreground⟩

namespace ScanState

theorem obeys_conclude (hforeground : s.foreground.isSome = collaborator) (reads : List Read) :
    (s.conclude reads).Obeys collaborator s.phase [] := by
  unfold conclude
  cases hscan : s.scanRest with
  | inl t =>
    obtain ⟨mode, held, rfl⟩ := eq_of_scanRest_inl hscan
    exact (keeps_finish { s with mode, held, rest := [] }).obeys hforeground reads
  | inr a => exact (keeps_of_scanRest hscan).obeys hforeground reads

theorem obeys_fail (hforeground : s.foreground.isSome = collaborator) (text : List Char)
    (e : ReadError) (reads : List Read) :
    (s.fail text e reads).Obeys collaborator (.failing e) [] := by
  have hphase : (s.fail text e reads).scanner.phase = .ended :=
    phase_of_finished (by simp [fail, Answer.toReply, fill])
  refine ⟨?_, hforeground⟩
  rw [hphase]
  exact .cons .given .nil

/-- A call that reads and what closes it are a path, from any phase that awaits a read. -/
theorem Requests.obeys {retried : Bool} {reads : List Read} {r : Reply} {made : List Entry}
    (h : Requests s retried reads r made) :
    ∀ {p : Phase}, s.finished = false → s.foreground.isSome = collaborator →
      p.Awaits s retried → r.Obeys collaborator p made := by
  induction h with
  | @exhausted s retried =>
    intro p _ hforeground hawaits
    have hended : (s.fill [] true).phase = .ended := phase_of_finished (by simp [fill])
    have hconclude := obeys_conclude (s := s.fill [] true) hforeground []
    rw [hended] at hconclude
    exact .cons (.last hawaits.asks rfl) hconclude.after_read
  | dry hscan _ ih =>
    intro p hopen hforeground hawaits
    obtain ⟨mode, held, rfl⟩ := eq_of_scanRest_inl hscan
    have hnext := ih (p := .ready) (by simp [fill, hopen]) hforeground .ready
    exact .cons (.good hawaits.asks (.inl rfl)) hnext.after_read
  | @answer s retried text reads a hscan =>
    intro p hopen hforeground hawaits
    have hfilled : (s.fill text false).phase = .ready := phase_of_open (by simp [fill, hopen])
    have hkeeps := (keeps_of_scanRest hscan).obeys hforeground reads
    rw [hfilled] at hkeeps
    exact .cons (.good hawaits.asks (.inl rfl)) hkeeps.after_read
  | @interrupted s retried text reads =>
    intro p hopen hforeground hawaits
    have hkeeps : Answer.Keeps ⟨.ok (.control .interrupt s.line), s.reset, []⟩ s :=
      ⟨fun e => by simp, rfl, rfl⟩
    have hobeys := hkeeps.obeys hforeground reads
    rw [phase_of_open hopen] at hobeys
    exact .cons (.good hawaits.asks (.inr rfl)) hobeys.after_read
  | @endOfStream s retried text reads =>
    intro p _ hforeground hawaits
    have hended : (s.fill text true).phase = .ended := phase_of_finished (by simp [fill])
    have hconclude := obeys_conclude (s := s.fill text true) hforeground reads
    rw [hended] at hconclude
    exact .cons (.last hawaits.asks rfl) hconclude.after_read
  | @unasked s retried text reads e halone =>
    intro p _ hforeground hawaits
    have hfail := (obeys_fail hforeground text e reads).after_read
    cases hawaits with
    | retrying s foreground => exact .cons (.again foreground rfl) hfail
    | ready =>
      have hnone : collaborator = false := by
        rw [← hforeground]
        simpa [reclaim] using halone
      exact .cons (.alone hnone rfl) hfail
  | @refused s t text reads e hreclaim =>
    intro p _ hforeground hawaits
    obtain ⟨hasked, hleft⟩ := isSome_foreground_of_reclaim hreclaim
    have hcollaborator : collaborator = true := hforeground.symm.trans hasked
    have hfail := obeys_fail (hleft.trans hcollaborator.symm) text e reads
    cases hawaits with
    | ready =>
      exact .cons (.first hcollaborator rfl) (.cons .refused (hfail.after_reclaim false).after_read)
  | @retry s t text reads e r made hreclaim _ ih =>
    intro p hopen hforeground hawaits
    obtain ⟨hasked, hleft⟩ := isSome_foreground_of_reclaim hreclaim
    obtain ⟨foreground, rfl⟩ := eq_of_reclaim hreclaim
    have hcollaborator : collaborator = true := hforeground.symm.trans hasked
    have hretry := ih hopen (hleft.trans hcollaborator.symm) (.retrying s foreground)
    cases hawaits with
    | ready =>
      exact .cons (.first hcollaborator rfl) (.cons .taken (hretry.after_reclaim true).after_read)

end ScanState

end

namespace Scanner

theorem path_entries (s : Scanner) (c : Call) :
    s.phase.Path s.foreground.isSome (s.entries c) (s.after c).phase ∧
      (s.after c).foreground.isSome = s.foreground.isSome := by
  cases c with
  | reset => exact ⟨s.isResting_phase.path (List.forall_mem_singleton.mpr trivial), rfl⟩
  | report message => exact ⟨s.isResting_phase.path (List.forall_mem_singleton.mpr trivial), rfl⟩
  | nextToken =>
    suffices h : s.nextToken.Obeys s.foreground.isSome s.phase s.inquiries from
      ⟨h.path, h.foreground⟩
    simp only [nextToken, inquiries]
    cases hscan : s.toScanState.scanRest with
    | inr a => exact (ScanState.keeps_of_scanRest hscan).obeys rfl s.reads
    | inl t =>
      obtain ⟨mode, held, rfl⟩ := ScanState.eq_of_scanRest_inl hscan
      dsimp only
      by_cases hfinished : s.finished = true
      · rw [if_pos hfinished, if_pos hfinished]
        exact (ScanState.keeps_finish _).obeys rfl s.reads
      · rw [if_neg hfinished, if_neg hfinished]
        have hopen : s.finished = false := by simpa using hfinished
        rw [ScanState.phase_of_open hopen]
        exact (ScanState.requests s.reads _ false).obeys hopen rfl .ready

/-- The journal of a run is a path. -/
theorem path_journal (s : Scanner) (calls : List Call) :
    s.phase.Path s.foreground.isSome (s.journal calls) (s.afterAll calls).phase := by
  induction calls generalizing s with
  | nil => exact .nil
  | cons c calls ih =>
    obtain ⟨hpath, hforeground⟩ := s.path_entries c
    have hrest := ih (s.after c)
    rw [hforeground] at hrest
    exact hpath.append hrest

/-- The journal of a run tells what was done, what was given and what was read, and it obeys the law
of failed reads, whatever the scanner was in the middle of, whatever its source has and its
collaborator answers, and in whatever order the calls come.

The journal is written beside the scanner, by `inquiries`.  That its reads and questions are those
of `request`, each with the state in which the scanner makes it, is `ScanState.requests`: the reply
of `request` and these entries come about by the same steps. -/
theorem retryLaw_journal (s : Scanner) (calls : List Call) :
    RetryLaw s.foreground.isSome (s.journal calls) ∧
      (s.journal calls).filterMap Entry.event? = (s.run calls).flatMap Outcome.events ∧
      (s.journal calls).filterMap Entry.result? = (s.run calls).filterMap Outcome.result ∧
      ∃ n, (s.journal calls).filterMap Entry.read? ++ (s.afterAll calls).reads =
        s.reads ++ List.replicate n (.last []) :=
  ⟨(s.path_journal calls).retryLaw s.isResting_phase (s.afterAll calls).isResting_phase,
    s.event?_journal calls, s.result?_journal calls, s.exists_reads_journal calls⟩

end Scanner

end LispShell
