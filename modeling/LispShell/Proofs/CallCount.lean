import LispShell.Proofs.FailedReads

set_option autoImplicit false

/-!
# How many calls come to the end

Whoever calls for tokens again and again, past faults and failures, comes to the end of the input,
and it does not take many more calls than the reads have characters.  For each call before the last
there is something that it alone has used up:

* a token or a fault has a character of its own, the first of its spelling;
* an interrupt has the interrupted read;
* a failed read is given once, and the line break that ends the input is there once.

So calls can be paid for in advance.  `ScanState.due` is the number of calls that what a scanner
has, its source apart, is worth, and `callsWorth` is what reads add to it.  One call uses up at least
one unless it gives the end (`Scanner.pays_nextToken`), and the bound on all calls is their sum.
-/

namespace LispShell

/-! ## What is worth a call -/

/-- The calls that the end of the input is worth: one for the line break that is added, and one for
the failure that there may be. -/
def endDue (finished : Bool) : Nat :=
  if finished then 0 else 2

/-- The calls that a state is worth: one for each character at hand, one for what it is in the middle
of, and those for the end of the input if that is to come. -/
def ScanState.due (s : ScanState) : Nat :=
  s.rest.length + s.mode.work + endDue s.finished

/-- The calls that reads are worth: one for each character and one for each interruption. -/
def callsWorth (reads : List Read) : Nat :=
  (reads.flatMap Read.text).length + reads.countP (·.status == .interrupted)

theorem callsWorth_append (reads more : List Read) :
    callsWorth (reads ++ more) = callsWorth reads + callsWorth more := by
  simp only [callsWorth, List.flatMap_append, List.length_append, List.countP_append]
  omega

theorem callsWorth_cons (read : Read) (reads : List Read) :
    callsWorth (read :: reads) =
      read.text.length + (if read.status = .interrupted then 1 else 0) + callsWorth reads := by
  simp only [callsWorth, List.flatMap_cons, List.length_append, List.countP_cons, beq_iff_eq]
  omega

/-- A call gave the end of the input, or what is left is worth fewer than `n` calls. -/
def Reply.Pays (r : Reply) (n : Nat) : Prop :=
  r.isEnd = false → r.scanner.due < n

theorem Reply.Pays.mono {r : Reply} {m n : Nat} (h : r.Pays m) (hle : m ≤ n) : r.Pays n :=
  fun hend => Nat.lt_of_lt_of_le (h hend) hle

theorem Answer.pays {a : Answer} {n : Nat} (h : a.state.due < n) (reads : List Read) :
    (a.toReply reads).Pays n :=
  fun _ => h

/-! ## One call -/

namespace ScanState

theorem due_of_scanRest_inl {s t : ScanState} (h : s.scanRest = .inl t) : t.due ≤ s.due := by
  have hle := work_scan_le s.previous s.rest s.mode s.held
  unfold scanRest at h
  split at h
  next mode held heq =>
    obtain rfl := Sum.inl.inj h
    have hone := mode.work_le_one
    rw [heq] at hle
    simp only [Progress.work] at hle
    simp only [due, List.length_nil]
    omega
  next => cases h
  next => cases h

/-- A token or a fault uses up a character, or what the scanner was in the middle of. -/
theorem due_of_scanRest_inr {s : ScanState} {a : Answer} (h : s.scanRest = .inr a) :
    a.state.due < s.due := by
  have hle := work_scan_le s.previous s.rest s.mode s.held
  unfold scanRest at h
  split at h
  next => cases h
  next kind text rest heq =>
    obtain rfl := Sum.inr.inj h
    rw [heq] at hle
    simp only [Progress.work] at hle
    have hone := s.mode.work_le_one
    simp only [due, afterToken, Mode.work_start]
    omega
  next rest heq =>
    obtain rfl := Sum.inr.inj h
    rw [heq] at hle
    simp only [Progress.work] at hle
    have hone := s.mode.work_le_one
    simp only [due, Mode.work_start]
    omega

/-- At the end of the input a fault uses up the quoted text that it is about. -/
theorem pays_finish {s : ScanState} (hfinished : s.finished = true) (reads : List Read) :
    (s.finish.toReply reads).Pays s.due := by
  intro hend
  unfold finish at hend ⊢
  split at hend
  next hquoted =>
    have hwork : s.mode.work = 1 := by
      cases hmode : s.mode <;> simp_all [Mode.isQuoted, Mode.work]
    simp only [hquoted, if_true, Answer.toReply, due, reset, Mode.work_start, List.length_nil,
      hfinished]
    omega
  next => simp [Reply.isEnd, Answer.toReply, Token.control] at hend

theorem pays_conclude {s : ScanState} (hfinished : s.finished = true) (reads : List Read) :
    (s.conclude reads).Pays s.due := by
  unfold conclude
  split
  next t h =>
    have hended : t.finished = true := (work_of_scanRest_inl h).2.1.trans hfinished
    exact (pays_finish hended reads).mono (due_of_scanRest_inl h)
  next a h => exact a.pays (due_of_scanRest_inr h) reads

/-- A line is worth its characters, and the last one less than what the end of the input was. -/
theorem due_fill_le {s : ScanState} (hrest : s.rest = []) (hopen : s.finished = false)
    (text : List Char) :
    (s.fill text false).due ≤ s.due + text.length ∧
      (s.fill text true).due < s.due + text.length := by
  have hle := Line.length_logical_le text
  simp only [due, endDue, fill, hrest, hopen, Bool.or_false, Bool.or_true, Bool.false_eq_true, if_true,
    if_false, List.append_nil, List.length_append, List.length_nil, List.length_cons]
  omega

variable {s : ScanState} {retried : Bool} {reads : List Read} {r : Reply} {made : List Entry}

/-- A call that reads is paid for by what the scanner had and by the reads that it makes. -/
theorem Requests.pays (h : Requests s retried reads r made) : s.rest = [] → s.finished = false →
    r.Pays (s.due + callsWorth (made.filterMap Entry.read?)) := by
  have hended : ∀ {s : ScanState} {text : List Char}, (s.fill text true).finished = true := by
    simp [fill]
  induction h with
  | @exhausted s retried =>
    intro hrest hopen
    have hfill := (due_fill_le hrest hopen []).2
    refine (pays_conclude hended []).mono ?_
    simp only [List.length_nil] at hfill
    omega
  | @dry s t retried text reads r made hscan _ ih =>
    intro hrest hopen
    have hfill := (due_fill_le hrest hopen text).1
    have hdue := due_of_scanRest_inl hscan
    obtain ⟨mode, held, rfl⟩ := eq_of_scanRest_inl hscan
    refine (ih rfl (by simp [fill, hopen])).mono ?_
    simp only [List.filterMap_cons, Entry.read?, callsWorth_cons]
    omega
  | @answer s retried text reads a hscan =>
    intro hrest hopen
    have hfill := (due_fill_le hrest hopen text).1
    have hdue := due_of_scanRest_inr hscan
    refine a.pays ?_ reads
    simp only [List.filterMap_cons, Entry.read?, callsWorth_cons]
    omega
  | @interrupted s retried text reads =>
    intro hrest hopen
    refine Answer.pays (a := ⟨.ok (.control .interrupt s.line), s.reset, []⟩) ?_ reads
    simp only [List.filterMap_cons, Entry.read?, callsWorth_cons, due, reset, hrest,
      Mode.work_start, if_true]
    omega
  | @endOfStream s retried text reads =>
    intro hrest hopen
    have hfill := (due_fill_le hrest hopen text).2
    refine (pays_conclude hended reads).mono ?_
    simp only [List.filterMap_cons, Entry.read?, callsWorth_cons]
    omega
  | @unasked s retried text reads e _ =>
    intro hrest hopen
    have hfill := (due_fill_le hrest hopen text).2
    refine Answer.pays (a := ⟨.error (.read e), s.fill text true, []⟩) ?_ reads
    simp only [List.filterMap_cons, Entry.read?, callsWorth_cons]
    omega
  | @refused s t text reads e hreclaim =>
    intro hrest hopen
    obtain ⟨foreground, rfl⟩ := eq_of_reclaim hreclaim
    have hfill := (due_fill_le hrest hopen text).2
    refine Answer.pays (a := ⟨.error (.read e), s.fill text true, []⟩) ?_ reads
    simp only [List.filterMap_cons, Entry.read?, callsWorth_cons]
    omega
  | @retry s t text reads e r made hreclaim _ ih =>
    intro hrest hopen
    obtain ⟨foreground, rfl⟩ := eq_of_reclaim hreclaim
    refine (ih hrest hopen).mono ?_
    simp only [List.filterMap_cons, Entry.read?, callsWorth_cons, due]
    omega

/-- A call makes no more reads than the source has left, and one at its end. -/
theorem Requests.length_reads_le (h : Requests s retried reads r made) :
    (made.filterMap Entry.read?).length ≤ reads.length + 1 := by
  induction h with
  | dry _ _ ih => exact Nat.succ_le_succ ih
  | retry _ _ ih => exact Nat.succ_le_succ ih
  | _ => exact Nat.succ_le_succ (Nat.zero_le _)

end ScanState

namespace Scanner

variable (s : Scanner)

/-- Every call is paid for by what the scanner had and by the reads that the call makes. -/
theorem pays_nextToken :
    s.nextToken.Pays (s.due + callsWorth (s.inquiries.filterMap Entry.read?)) := by
  simp only [nextToken, inquiries]
  cases hscan : s.toScanState.scanRest with
  | inr a =>
    have hdue := ScanState.due_of_scanRest_inr hscan
    exact a.pays (Nat.lt_of_lt_of_le hdue (Nat.le_add_right _ _)) s.reads
  | inl t =>
    obtain ⟨hrest, -, -⟩ := ScanState.work_of_scanRest_inl hscan
    have hdue := ScanState.due_of_scanRest_inl hscan
    dsimp only
    split
    next hfinished =>
      exact (ScanState.pays_finish hfinished s.reads).mono (Nat.le_add_right_of_le hdue)
    next hopen =>
      have hpays := (ScanState.requests s.reads t false).pays hrest (by simpa using hopen)
      exact hpays.mono (Nat.add_le_add_right hdue _)

theorem length_reads_inquiries_le :
    (s.inquiries.filterMap Entry.read?).length ≤ s.reads.length + 1 := by
  unfold inquiries
  split
  next => exact Nat.zero_le _
  next t _ =>
    split
    next => exact Nat.zero_le _
    next => exact (ScanState.requests s.reads t false).length_reads_le

/-! ## All calls -/

/-- The reads that are made in all calls up to the end of the input. -/
def readsToEnd : List Read :=
  (s.journal (List.replicate s.drain.length .nextToken)).filterMap Entry.read?

theorem drain_of_isEnd {s : Scanner} (h : s.nextToken.isEnd = true) : s.drain = [s.nextToken] := by
  rw [drain, dif_pos h]

theorem drain_of_not_isEnd {s : Scanner} (h : ¬s.nextToken.isEnd = true) :
    s.drain = s.nextToken :: s.nextToken.scanner.drain := by
  rw [drain, dif_neg h]

theorem length_drain_le : s.drain.length ≤ s.due + callsWorth s.readsToEnd + 1 := by
  induction s using Scanner.drain.induct with
  | case1 s r hend =>
    rw [drain_of_isEnd hend]
    exact Nat.le_add_left 1 _
  | case2 s r hmore ih =>
    have hpays := s.pays_nextToken (by simpa using hmore)
    have hreads : s.readsToEnd = s.inquiries.filterMap Entry.read? ++ r.scanner.readsToEnd := by
      rw [readsToEnd, drain_of_not_isEnd hmore, List.length_cons, List.replicate_succ, journal,
        List.filterMap_append, read?_entries_nextToken]
      rfl
    have hlength : s.drain.length = r.scanner.drain.length + 1 := by
      rw [drain_of_not_isEnd hmore]
      rfl
    rw [hlength, hreads, callsWorth_append]
    have hdue : r.scanner.due < s.due + callsWorth (s.inquiries.filterMap Entry.read?) := hpays
    omega

/-- The calls up to the end are the first calls for a token, as many as they are. -/
theorem map_result_drain : s.drain.map Reply.result = s.results s.drain.length := by
  induction s using Scanner.drain.induct with
  | case1 s r hend =>
    rw [drain_of_isEnd hend]
    rfl
  | case2 s r hmore ih =>
    rw [drain_of_not_isEnd hmore, List.map_cons, List.length_cons, results, ih]

/-- The last of them gives the end, and no other does. -/
theorem exists_drain_eq : ∃ earlier last, s.drain = earlier ++ [last] ∧ last.isEnd = true ∧
    ∀ r ∈ earlier, r.isEnd = false := by
  induction s using Scanner.drain.induct with
  | case1 s r hend =>
    exact ⟨[], r, drain_of_isEnd hend, hend, fun _ hmem => absurd hmem List.not_mem_nil⟩
  | case2 s r hmore ih =>
    obtain ⟨earlier, last, hdrain, hlast, hearlier⟩ := ih
    refine ⟨r :: earlier, last, ?_, hlast, List.forall_mem_cons.mpr ⟨by simpa using hmore, hearlier⟩⟩
    rw [drain_of_not_isEnd hmore, hdrain]
    rfl

/-- No call makes more reads than are left, and one at the end.  Calls for tokens, past all faults
and failures, come to the end of the input, and of a scanner that has made none before they are fewer
than four more than the reads that they make have characters and interruptions. -/
theorem length_drain_lt (name : String) (reads : List Read) (foreground : Option (List Bool)) :
    let s := ofReads name reads foreground
    (∀ calls, ((s.afterAll calls).inquiries.filterMap Entry.read?).length ≤
      (s.afterAll calls).reads.length + 1) ∧
    s.drain.map Reply.result = s.results s.drain.length ∧
    (∃ earlier last, s.drain = earlier ++ [last] ∧ last.isEnd = true ∧
      ∀ r ∈ earlier, r.isEnd = false) ∧
    s.drain.length < (s.readsToEnd.flatMap Read.text).length +
      s.readsToEnd.countP (·.status == .interrupted) + 4 := by
  intro s
  refine ⟨fun calls => (s.afterAll calls).length_reads_inquiries_le, s.map_result_drain,
    s.exists_drain_eq, ?_⟩
  have hdue : s.due = 2 := rfl
  have hlength := s.length_drain_le
  rw [hdue, callsWorth] at hlength
  omega

/-- The bound is reached: a character, its failed read, the newline at the end of the stream and the
end itself take a call each. -/
example : (ofReads "f" [⟨['a'], .failed .other⟩] none).drain.length = 4 := by
  decide +kernel

end Scanner

end LispShell
