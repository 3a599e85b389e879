import LispShell.Input.ByteStream
import LispShell.Proofs.LossyDecoding

set_option autoImplicit false

/-!
# The lines of a byte stream

What arrives is cut into lines on bytes, and each line is decoded by itself.  `readLines` are the
reads up to the end of the stream.  For deliveries of any sizes, interrupted in any places, these
are the lines of the bytes that were received, and their texts are together the decoding of all
these bytes in one piece.

The two steps are kept apart.  `readLines_eq` is about bytes: which of them each read takes.  Then
`Text.decodeUtf8_append_ascii` carries the cuts over to the text, as the delimiter is an ASCII
character.
-/

namespace LispShell

/-! ## What is received -/

/-- The bytes that deliveries bring until one says that the stream is at its end. -/
def Delivery.received : List Delivery → List UInt8
  | [] => []
  | .bytes [] :: _ => []
  | .bytes (b :: bs) :: deliveries => b :: bs ++ received deliveries
  | .failure _ :: deliveries => received deliveries

namespace ByteStream

/-- The bytes that arrive until the stream says that it is at its end. -/
def received : ByteStream → List UInt8
  | [] => []
  | .byte b :: stream => b :: received stream
  | .pause :: _ => []
  | .failure _ :: stream => received stream

/-- No read fails, though reads may be interrupted. -/
def Unfailing (stream : ByteStream) : Prop :=
  ∀ e, .failure e ∈ stream → e = .interrupted

theorem Unfailing.tail {arrival : Arrival} {stream : ByteStream}
    (h : Unfailing (arrival :: stream)) : stream.Unfailing :=
  fun e he => h e (List.mem_cons_of_mem _ he)

theorem received_map_byte_append (bytes : List UInt8) (stream : ByteStream) :
    received (bytes.map .byte ++ stream) = bytes ++ received stream := by
  induction bytes with
  | nil => rfl
  | cons b bytes ih => exact congrArg (b :: ·) ih

theorem received_ofDeliveries (deliveries : List Delivery) :
    received (ofDeliveries deliveries) = Delivery.received deliveries := by
  induction deliveries with
  | nil => rfl
  | cons delivery deliveries ih =>
    change received (ofDelivery delivery ++ ofDeliveries deliveries) = _
    cases delivery with
    | bytes bytes =>
      cases bytes with
      | nil => rfl
      | cons b bytes =>
        change received ((b :: bytes).map .byte ++ ofDeliveries deliveries) = _
        rw [received_map_byte_append, ih, Delivery.received]
    | failure e => exact ih

theorem failure_mem_ofDeliveries {deliveries : List Delivery} {e : ReadError} :
    Arrival.failure e ∈ ofDeliveries deliveries ↔ Delivery.failure e ∈ deliveries := by
  induction deliveries with
  | nil => exact ⟨fun h => absurd h List.not_mem_nil, fun h => absurd h List.not_mem_nil⟩
  | cons delivery deliveries ih =>
    change Arrival.failure e ∈ ofDelivery delivery ++ ofDeliveries deliveries ↔ _
    rw [List.mem_append, List.mem_cons, ih]
    cases delivery with
    | bytes bytes => cases bytes <;> simp [ofDelivery]
    | failure e' => simp [ofDelivery]

/-! ## All reads of a stream -/

/-- A read that gives a complete line takes something from the stream. -/
theorem length_readUntil_lt {d : UInt8} {line : List UInt8} {stream : ByteStream}
    (h : (readUntil d line stream).1.status = .ok) :
    (readUntil d line stream).2.length < stream.length := by
  fun_induction readUntil d line stream with
  | case1 line => cases h
  | case2 line rest => exact Nat.lt_succ_self _
  | case3 line b rest hne ih => exact Nat.lt_succ_of_lt (ih h)
  | case4 line rest => cases h
  | case5 line rest ih => exact Nat.lt_succ_of_lt (ih h)
  | case6 line e rest hne => cases h

/-- The reads of lines with this delimiter, up to the first that gives no complete line. -/
def readLines (delimiter : Char) (stream : ByteStream) : List Read :=
  if (readLine delimiter stream).1.status = .ok then
    (readLine delimiter stream).1 :: readLines delimiter (readLine delimiter stream).2
  else [(readLine delimiter stream).1]
termination_by stream.length
decreasing_by exact length_readUntil_lt ‹_›

variable {d : UInt8}

/-- A read takes the bytes up to the first delimiter, or all of them if there is none. -/
theorem readUntil_cases {stream : ByteStream} (h : stream.Unfailing) : ∀ line : List UInt8,
    (∃ front rest, stream.received = front ++ d :: received rest ∧ d ∉ front ∧ rest.Unfailing ∧
      readUntil d line stream = (⟨Text.decodeUtf8 (line.reverse ++ front ++ [d]), .ok⟩, rest)) ∨
    (d ∉ stream.received ∧
      (readUntil d line stream).1 =
        ⟨Text.decodeUtf8 (line.reverse ++ stream.received), .endOfStream⟩) := by
  induction stream with
  | nil => exact fun line => .inr ⟨List.not_mem_nil, by simp [readUntil, received]⟩
  | cons arrival stream ih =>
    intro line
    cases arrival with
    | byte b =>
      by_cases hb : b = d
      · subst hb
        exact .inl ⟨[], stream, rfl, List.not_mem_nil, h.tail, by simp [readUntil]⟩
      · simp only [readUntil, if_neg hb, received]
        obtain ⟨front, rest, hreceived, hfront, hrest, hread⟩ | ⟨hnone, hread⟩ :=
          ih h.tail (b :: line)
        · refine .inl ⟨b :: front, rest, by rw [hreceived, List.cons_append], ?_, hrest, ?_⟩
          · exact List.not_mem_cons_of_ne_of_not_mem (Ne.symm hb) hfront
          · simpa using hread
        · exact .inr ⟨List.not_mem_cons_of_ne_of_not_mem (Ne.symm hb) hnone, by simpa using hread⟩
    | pause => exact .inr ⟨List.not_mem_nil, by simp [readUntil, received]⟩
    | failure e =>
      obtain rfl := h e List.mem_cons_self
      exact ih h.tail line

/-- The reads of a stream cut the bytes that are received after each delimiter. -/
theorem readLines_eq (delimiter : Char) {stream : ByteStream} (h : stream.Unfailing) :
    ∃ (lines : List (List UInt8)) (last : List UInt8),
      stream.received = (lines.flatMap (· ++ [delimiterByte delimiter])) ++ last ∧
      (∀ line ∈ lines, delimiterByte delimiter ∉ line) ∧ delimiterByte delimiter ∉ last ∧
      readLines delimiter stream =
        lines.map (fun line => ⟨Text.decodeUtf8 (line ++ [delimiterByte delimiter]), .ok⟩) ++
          [⟨Text.decodeUtf8 last, .endOfStream⟩] := by
  fun_induction readLines delimiter stream with
  | case1 stream hok ih =>
    obtain ⟨front, rest, hreceived, hfront, hrest, hread⟩ | ⟨hnone, hread⟩ :=
      readUntil_cases (d := delimiterByte delimiter) h []
    · obtain ⟨lines, last, hlines, hmem, hlast, hreads⟩ := ih (by rwa [readLine, hread])
      rw [readLine, hread] at hlines hreads
      refine ⟨front :: lines, last, ?_, List.forall_mem_cons.mpr ⟨hfront, hmem⟩, hlast, ?_⟩
      · rw [hreceived, hlines]
        simp
      · rw [readLine, hread, hreads]
        simp
    · rw [readLine, hread] at hok
      cases hok
  | case2 stream hok =>
    obtain ⟨front, rest, hreceived, hfront, hrest, hread⟩ | ⟨hnone, hread⟩ :=
      readUntil_cases (d := delimiterByte delimiter) h []
    · rw [readLine, hread] at hok
      exact absurd rfl hok
    · refine ⟨[], stream.received, rfl, by simp, hnone, ?_⟩
      rw [readLine, hread]
      simp

/-! ## The texts of the reads -/

/-- The bytes of lines and of what comes after them decode to their texts. -/
theorem decodeUtf8_lines {delimiter : Char} (hd : delimiter.toNat < 0x80)
    (lines : List (List UInt8)) (last : List UInt8) :
    Text.decodeUtf8 (lines.flatMap (· ++ [UInt8.ofNat delimiter.toNat]) ++ last) =
      (lines.map Text.decodeUtf8).flatMap (· ++ [delimiter]) ++ Text.decodeUtf8 last := by
  induction lines with
  | nil => rfl
  | cons line lines ih =>
    rw [List.flatMap_cons, List.append_assoc, List.append_assoc, List.singleton_append,
      Text.decodeUtf8_append_ascii hd, ih]
    simp

theorem not_mem_decodeUtf8 {delimiter : Char} (hd : delimiter.toNat < 0x80) {bytes : List UInt8}
    (h : UInt8.ofNat delimiter.toNat ∉ bytes) : delimiter ∉ Text.decodeUtf8 bytes := by
  rw [← List.count_eq_zero, (Text.lossyDecoding_iff.mpr rfl).count_eq hd, List.count_eq_zero]
  exact h

theorem count_lines {lines : List (List UInt8)} {last : List UInt8}
    (hlines : ∀ line ∈ lines, d ∉ line) (hlast : d ∉ last) :
    (lines.flatMap (· ++ [d]) ++ last).count d = lines.length := by
  induction lines with
  | nil => exact List.count_eq_zero_of_not_mem hlast
  | cons line lines ih =>
    obtain ⟨hline, hlines⟩ := List.forall_mem_cons.mp hlines
    rw [List.flatMap_cons, List.append_assoc, List.append_assoc, List.count_append,
      List.count_eq_zero_of_not_mem hline, List.singleton_append, List.count_cons_self, ih hlines,
      Nat.zero_add, List.length_cons]

/-- Nothing comes after the lines just when there are no bytes or the last one ends a line. -/
theorem last_eq_nil_iff {lines : List (List UInt8)} {last : List UInt8} (hlast : d ∉ last) :
    last = [] ↔ (lines.flatMap (· ++ [d]) ++ last) = [] ∨
      (lines.flatMap (· ++ [d]) ++ last).getLast? = some d := by
  constructor
  · rintro rfl
    obtain rfl | ⟨lines, line, hconcat⟩ := List.eq_nil_or_concat lines
    · exact .inl rfl
    · rw [hconcat]
      exact .inr (by simp)
  · rintro (hnil | hend)
    · exact (List.append_eq_nil_iff.mp hnil).2
    · by_contra hne
      rw [List.getLast?_append, List.getLast?_eq_some_getLast hne, Option.some_or] at hend
      exact hlast (Option.some.inj hend ▸ List.getLast_mem hne)

/-- The reads up to the end of a stream without failed reads, for deliveries of any sizes and
interrupted in any places.  There is one complete line for each delimiter, with no other delimiter
in it, and then what comes after the last one.  The texts are together what all the bytes stand for,
decoded in one piece.  A delimiter that is no ASCII character is taken as a line break. -/
theorem readLines_ofDeliveries (delimiter : Char) :
    (0x80 ≤ delimiter.toNat → ∀ stream, readLine delimiter stream = readLine '\n' stream) ∧
    (delimiter.toNat < 0x80 → ∀ deliveries : List Delivery,
      (∀ e, .failure e ∈ deliveries → e = .interrupted) →
      ∃ (lines : List (List Char)) (last : List Char),
        readLines delimiter (ofDeliveries deliveries) =
          lines.map (fun line => ⟨line ++ [delimiter], .ok⟩) ++ [⟨last, .endOfStream⟩] ∧
        lines.length =
          (Delivery.received deliveries).count (UInt8.ofNat delimiter.toNat) ∧
        (∀ line ∈ lines, delimiter ∉ line) ∧ delimiter ∉ last ∧
        (last = [] ↔ Delivery.received deliveries = [] ∨
          (Delivery.received deliveries).getLast? = some (UInt8.ofNat delimiter.toNat)) ∧
        Text.LossyDecoding (Delivery.received deliveries)
          (lines.flatMap (· ++ [delimiter]) ++ last)) := by
  constructor
  · intro hd stream
    rw [readLine, readLine, delimiterByte, if_neg (Nat.not_lt_of_le hd)]
    rfl
  · intro hd deliveries hfailures
    have hbyte : delimiterByte delimiter = UInt8.ofNat delimiter.toNat := if_pos hd
    have hunfailing : (ofDeliveries deliveries).Unfailing :=
      fun e he => hfailures e (failure_mem_ofDeliveries.mp he)
    obtain ⟨lines, last, hreceived, hlines, hlast, hreads⟩ := readLines_eq delimiter hunfailing
    rw [received_ofDeliveries] at hreceived
    rw [hbyte] at hreceived hlines hlast hreads
    refine ⟨lines.map Text.decodeUtf8, Text.decodeUtf8 last, ?_, ?_, ?_,
      not_mem_decodeUtf8 hd hlast, ?_, ?_⟩
    · rw [hreads, List.map_map]
      congr 1
      refine List.map_congr_left fun line _ => ?_
      rw [Text.decodeUtf8_append_ascii hd]
      rfl
    · rw [List.length_map, hreceived, count_lines hlines hlast]
    · exact List.forall_mem_map.mpr fun line hline => not_mem_decodeUtf8 hd (hlines line hline)
    · rw [hreceived, ← last_eq_nil_iff hlast, Text.decodeUtf8, Text.decodeOnto_eq_nil_iff]
      simp
    · rw [Text.lossyDecoding_iff, hreceived, decodeUtf8_lines hd]

/-- A character cut in two by an interruption, one that is cut short by the delimiter, a byte that
is in no character, and a second part of the stream after its end. -/
theorem readLines_ofDeliveries_interrupted :
    readLines ';' (ofDeliveries [.bytes [0x61, 0xC3], .failure .interrupted,
        .bytes [0xA9, 0x3B, 0xE2, 0x82], .bytes [0x3B, 0xFF], .bytes [], .bytes [0x3B]]) =
      [⟨['a', 'é', ';'], .ok⟩, ⟨['\ufffd', ';'], .ok⟩, ⟨['\ufffd'], .endOfStream⟩] ∧
    Text.LossyDecoding [0x61, 0xC3, 0xA9, 0x3B, 0xE2, 0x82, 0x3B, 0xFF]
      ['a', 'é', ';', '\ufffd', ';', '\ufffd'] := by
  obtain ⟨lines, last, hreads, -, -, -, -, hdecoding⟩ :=
    (readLines_ofDeliveries ';').2 (by decide) [.bytes [0x61, 0xC3], .failure .interrupted,
      .bytes [0xA9, 0x3B, 0xE2, 0x82], .bytes [0x3B, 0xFF], .bytes [], .bytes [0x3B]] (by simp)
  have heval : readLines ';' (ofDeliveries [.bytes [0x61, 0xC3], .failure .interrupted,
        .bytes [0xA9, 0x3B, 0xE2, 0x82], .bytes [0x3B, 0xFF], .bytes [], .bytes [0x3B]]) =
      [⟨['a', 'é', ';'], .ok⟩, ⟨['\ufffd', ';'], .ok⟩] ++ [⟨['\ufffd'], .endOfStream⟩] := by
    decide +kernel
  obtain ⟨hlines, hlast⟩ := List.append_inj' (hreads.symm.trans heval) rfl
  have htexts : lines.flatMap (· ++ [';']) = ['a', 'é', ';', '\ufffd', ';'] := by
    have hmap := congrArg (List.flatMap Read.text) hlines
    rwa [List.flatMap_map] at hmap
  cases hlast
  rw [htexts] at hdecoding
  exact ⟨heval, hdecoding⟩

end ByteStream

end LispShell
