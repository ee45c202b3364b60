import Netconf.Proofs.Frame.Segments

/-!
# Messages on a stream

A message may be written on a stream when it contains no marker and its end is no first half of
one. Then the marker behind it is the first one, and messages that were written one after the other
are read as they are, each but the first behind the line end of the one before
(`segments_written`). `outcomes_ofDeliveries` puts this together with what reading does on any
stream.
-/

namespace Netconf

/-- The first half of the marker, with which alone a marker can begin and end. -/
def halfMarker : String := "]]>"

/-- A message in which the marker behind it is the first one. -/
structure Framable (text : String) : Prop where
  /-- There is no marker in it. -/
  not_infix : ¬ endOfMessage.toList <:+: text.toList
  /-- It does not end with the first half of a marker. -/
  not_suffix : ¬ halfMarker.toList <:+ text.toList

/-- A message without the first half of a marker is framable. -/
theorem framable_of_unmarked {text : String} (h : ¬ halfMarker.toList <:+: text.toList) :
    Framable text where
  not_infix hmarker := h ((List.prefix_append _ _).isInfix.trans hmarker)
  not_suffix hend := h hend.isInfix

/-! ## The marker behind a message -/

/-- The characters of the marker are of ASCII. -/
theorem isAscii_endOfMessage : ∀ c ∈ endOfMessage.toList, Text.IsAscii c := by
  intro c hc
  simp only [endOfMessage, String.reduceToList, List.mem_cons, List.not_mem_nil, or_false] at hc
  rcases hc with rfl | rfl | rfl | rfl | rfl | rfl <;> exact ⟨_, by decide, rfl⟩

/-- The marker's bytes are those of its text. -/
theorem bytes_endOfMessage : Text.bytes endOfMessage = marker := by decide

/-- Bytes without a marker, which do not end with its first half, are a segment when a marker
follows. -/
theorem noMarkerBefore_of {m : List UInt8} (hin : ¬ marker <:+: m)
    (hend : ¬ marker.take 3 <:+ m) (bs : List UInt8) :
    NoMarkerBefore m (m ++ marker ++ bs) := by
  intro p hp
  by_contra hlt
  rw [List.append_assoc] at hp
  -- the marker that begins inside `m` takes a part `x` of it
  obtain ⟨x, rfl⟩ : p <+: m :=
    List.prefix_of_prefix_length_le ((List.prefix_append p marker).trans hp)
      (List.prefix_append m _) (by omega)
  rw [List.append_assoc, List.prefix_append_right_inj] at hp
  have hsuffix : x <:+ p ++ x := List.suffix_append p x
  -- it fits into `x`, or it goes on behind `m`, where only its second half can
  match x with
  | [] => simp at hlt
  | [a] => simp [marker] at hp
  | [a, b] => simp [marker] at hp
  | [a, b, c] =>
    simp only [marker, List.cons_append, List.cons_prefix_cons] at hp
    obtain ⟨rfl, rfl, rfl, -⟩ := hp
    exact hend hsuffix
  | [a, b, c, d] => simp [marker] at hp
  | [a, b, c, d, e] => simp [marker] at hp
  | a :: b :: c :: d :: e :: f :: x =>
    simp only [marker, List.cons_append, List.cons_prefix_cons] at hp
    obtain ⟨rfl, rfl, rfl, rfl, rfl, rfl, -⟩ := hp
    have hstart : marker <+: marker ++ x := List.prefix_append marker x
    exact hin (hstart.isInfix.trans hsuffix.isInfix)

/-- The bytes of a framable text, also behind a line end, are a segment when a marker follows. -/
theorem Framable.noMarkerBefore {text : String} (h : Framable text) (bs : List UInt8) :
    NoMarkerBefore (Text.bytes text) (Text.bytes text ++ marker ++ bs) := by
  refine noMarkerBefore_of (fun hin => h.not_infix ?_) (fun hend => h.not_suffix ?_) bs
  · obtain ⟨p, q, hpq⟩ := hin
    rw [← bytes_endOfMessage] at hpq
    obtain ⟨before, after, htext, -⟩ :=
      Text.exists_of_bytes_eq (by decide) isAscii_endOfMessage hpq.symm
    exact ⟨before, after, htext.symm⟩
  · obtain ⟨p, hp⟩ := hend
    have hhalf : Text.bytes halfMarker = marker.take 3 := by decide
    have hascii : ∀ c ∈ halfMarker.toList, Text.IsAscii c := fun c hc =>
      isAscii_endOfMessage c (List.mem_of_mem_take (i := 3) hc)
    have hbytes : Text.bytes text = p ++ Text.bytes halfMarker ++ [] := by simp [hhalf, hp]
    obtain ⟨before, after, htext, hafter⟩ :=
      Text.exists_of_bytes_eq (by decide) hascii hbytes
    obtain rfl := Text.encodeAll_eq_nil.1 hafter
    exact ⟨before, by simpa using htext.symm⟩

/-- A framable text is so behind a line end. -/
theorem Framable.lineEnd_append {text : String} (h : Framable text) : Framable ("\n" ++ text) := by
  have hchars : ("\n" ++ text).toList = '\n' :: text.toList := by simp
  constructor
  · intro hin
    rcases List.infix_cons_iff.1 (hchars ▸ hin) with hstart | hin
    · simp [endOfMessage] at hstart
    · exact h.not_infix hin
  · intro hend
    rcases List.suffix_cons_iff.1 (hchars ▸ hend) with heq | hend
    · simp [halfMarker] at heq
    · exact h.not_suffix hend

/-! ## Messages one after the other -/

namespace Outbound

/-- Writes messages one after the other, whether they are taken or not. -/
def writeMessages (s : Outbound) : List String → Outbound
  | [] => s
  | text :: texts => writeMessages (s.writeMessage text).2 texts

/-- What is on a stream when these messages were written on it. -/
def framed (texts : List String) : String :=
  String.join (texts.map fun text => text ++ endOfMessage ++ "\n")

/-- More messages are framed behind the others. -/
theorem framed_append (texts others : List String) :
    framed (texts ++ others) = framed texts ++ framed others := by
  simp [framed, String.join_append]

/-- A stream that took texts has them behind what it had. -/
theorem written_of_writeAll {s s' : Outbound} {texts : List String}
    (h : s.writeAll texts = (.ok (), s')) : s'.written = s.written ++ String.join texts := by
  induction texts generalizing s with
  | nil =>
    obtain rfl := (Prod.mk.inj h).2
    simp
  | cons text texts ih =>
    unfold writeAll at h
    split at h
    · rw [ih h, String.join_cons, String.append_assoc]
    · cases h

/-- Writing fails when the stream fails. -/
theorem writeAll_error {s s' : Outbound} {texts : List String} {e : Error}
    (h : s.writeAll texts = (.error e, s')) : e = .io := by
  induction texts generalizing s with
  | nil => cases h
  | cons text texts ih =>
    unfold writeAll at h
    split at h
    · exact ih h
    · exact (Except.error.inj (Prod.mk.inj h).1).symm

/-- A message that a stream took is framed behind what it had. -/
theorem written_of_writeMessage {s s' : Outbound} {text : String}
    (h : s.writeMessage text = (.ok (), s')) : s'.written = s.written ++ framed [text] := by
  rw [written_of_writeAll h]
  simp [framed, String.join_cons, String.append_assoc]

/-- A stream without limit takes every text. -/
theorem writeAll_of_unlimited {s : Outbound} (h : s.limit = none) (texts : List String) :
    s.writeAll texts = (.ok (), { s with written := s.written ++ String.join texts }) := by
  induction texts generalizing s with
  | nil => simp [writeAll, String.join]
  | cons text texts ih =>
    have htakes : s.takes text = true := by simp [takes, h]
    rw [writeAll, if_pos htakes, ih (by exact h), String.join_cons, String.append_assoc]

/-- A stream without limit takes a message with its marker and a line end. -/
theorem writeMessage_of_unlimited {s : Outbound} (h : s.limit = none) (text : String) :
    s.writeMessage text =
      (.ok (), { s with written := s.written ++ (text ++ endOfMessage ++ "\n") }) := by
  rw [writeMessage, writeAll_of_unlimited h]
  simp [String.join_cons, String.append_assoc]

/-- A stream without limit takes all messages. -/
theorem writeMessages_of_unlimited {s : Outbound} (h : s.limit = none) (texts : List String) :
    s.writeMessages texts = { s with written := s.written ++ framed texts } := by
  induction texts generalizing s with
  | nil => simp [writeMessages, framed, String.join]
  | cons text texts ih =>
    rw [writeMessages, writeMessage_of_unlimited h, ih (by exact h)]
    simp [framed, String.join_cons, String.append_assoc]

end Outbound

/-- The messages that a reader finds where these texts were written: each but the first stands
behind a line end. -/
def behindLineEnds : List String → List String
  | [] => []
  | text :: texts => text :: texts.map fun t => "\n" ++ t

/-- What is left behind the last message: a line end, if there is a message. -/
def leftBehind (texts : List String) : String := if texts.isEmpty then "" else "\n"

variable {texts : List String}

/-- The segments of written messages behind a line end. -/
theorem segments_lineEnd_framed (h : ∀ text ∈ texts, Framable text) :
    Segments (Text.bytes ("\n" ++ Outbound.framed texts))
      (texts.map fun text => Text.bytes ("\n" ++ text)) (Text.bytes "\n") := by
  induction texts with
  | nil => exact .remainder (by decide)
  | cons text texts ih =>
    obtain ⟨htext, htexts⟩ := List.forall_mem_cons.1 h
    have hsplit : "\n" ++ Outbound.framed (text :: texts) =
        ("\n" ++ text) ++ endOfMessage ++ ("\n" ++ Outbound.framed texts) := by
      simp [Outbound.framed, String.join_cons, String.append_assoc]
    rw [hsplit, Text.bytes_append, Text.bytes_append _ endOfMessage, bytes_endOfMessage]
    exact .segment (htext.lineEnd_append.noMarkerBefore _) (ih htexts)

/-- Written messages are the segments of what is on the stream. -/
theorem segments_framed (h : ∀ text ∈ texts, Framable text) :
    Segments (Text.bytes (Outbound.framed texts)) ((behindLineEnds texts).map Text.bytes)
      (Text.bytes (leftBehind texts)) := by
  cases texts with
  | nil => exact .remainder (by decide)
  | cons text texts =>
    obtain ⟨htext, htexts⟩ := List.forall_mem_cons.1 h
    have hsplit : Outbound.framed (text :: texts) =
        text ++ endOfMessage ++ ("\n" ++ Outbound.framed texts) := by
      simp [Outbound.framed, String.join_cons, String.append_assoc]
    rw [hsplit, Text.bytes_append, Text.bytes_append _ endOfMessage, bytes_endOfMessage]
    have hrest := segments_lineEnd_framed htexts
    simpa [behindLineEnds, leftBehind, Function.comp_def] using
      Segments.segment (htext.noMarkerBefore _) hrest

/-! ## Reading -/

namespace Inbound

/-- Texts are expected as they are, and then what is behind them. -/
theorem expected_bytes (texts : List String) (left n : Nat) :
    expected (texts.map Text.bytes) left (texts.length + n) =
      texts.map .ok ++ expected [] left n := by
  induction texts with
  | nil => simp
  | cons text texts ih =>
    have hcount : (text :: texts).length + n = texts.length + n + 1 := by
      rw [List.length_cons]
      omega
    rw [hcount, List.map_cons, expected, decode_bytes, ih]
    rfl

/-- Messages that were written one after the other are read as they are, each but the first behind
a line end, and then the stream has ended but for a last line end. -/
theorem outcomes_framed {s : Inbound} (h : ∀ text ∈ texts, Framable text)
    (hsteady : Steady s.source) (hcontent : s.content = Text.bytes (Outbound.framed texts))
    (n : Nat) :
    outcomes (texts.length + n) s =
      (behindLineEnds texts).map .ok ++ expected [] (leftBehind texts).utf8ByteSize n := by
  have hlength : (behindLineEnds texts).length = texts.length := by
    cases texts <;> simp [behindLineEnds]
  rw [outcomes_of_segments (segments_framed h) hsteady hcontent, ← hlength, expected_bytes]
  rfl

/-- Reading depends on the bytes of a stream only. Whatever deliveries they come in, and however
often reading is interrupted, the messages are the texts of the segments, where one that is no
text is an error and used up, and then the stream has ended, whatever bytes it still has. In
particular, messages without a marker that were written one after the other are read as they are,
each but the first behind the line end of the one before. -/
theorem outcomes_ofDeliveries :
    (∀ bs, ∃ ms r, Segments bs ms r) ∧
      (∀ ms bs r, Segments bs ms r → ∀ ds, Steady ds → ds.flatMap Delivery.content = bs →
        ∀ n, outcomes n (ofDeliveries ds) = expected ms r.length n) ∧
      (∀ m, (∃ text, Text.bytes text = m ∧ decode m.reverse = .ok text) ∨
        (∀ text, Text.bytes text ≠ m) ∧ decode m.reverse = .error (.parse .encoding)) ∧
      ∀ texts, (∀ text ∈ texts, Framable text) → ∀ ds, Steady ds →
        ds.flatMap Delivery.content =
          Text.bytes (({ } : Outbound).writeMessages texts).written →
        outcomes texts.length (ofDeliveries ds) = (behindLineEnds texts).map .ok := by
  refine ⟨exists_segments, fun ms bs r hsegments ds hds hbytes n => ?_, decode_cases,
    fun texts htexts ds hds hbytes => ?_⟩
  · exact outcomes_of_segments hsegments (steady_ofDeliveries hds)
      ((content_ofDeliveries ds).trans hbytes) n
  · have hwritten : (({ } : Outbound).writeMessages texts).written = Outbound.framed texts := by
      rw [Outbound.writeMessages_of_unlimited rfl]
      exact String.empty_append
    rw [hwritten] at hbytes
    have hread := outcomes_framed htexts (steady_ofDeliveries hds)
      ((content_ofDeliveries ds).trans hbytes) 0
    simpa [expected] using hread

/-- A stream with a false start of a marker, a message that is no text, and half a marker at its
end, in deliveries that cut the markers. -/
def falseStarts : List Delivery :=
  [.bytes [0x61, 0x5D, 0x5D], .fault .interrupted,
    .bytes [0x5D, 0x3E, 0x5D, 0x5D, 0x3E, 0xFF, 0x5D],
    .bytes [0x5D, 0x3E, 0x5D, 0x5D, 0x3E], .fault .interrupted, .bytes [0x5D, 0x5D, 0x3E, 0x5D]]

/-- The segments of the stream. -/
theorem segments_falseStarts :
    Segments (falseStarts.flatMap Delivery.content) [[0x61, 0x5D], [0xFF]]
      [0x5D, 0x5D, 0x3E, 0x5D] := by
  have hremainder : Segments [0x5D, 0x5D, 0x3E, 0x5D] [] [0x5D, 0x5D, 0x3E, 0x5D] :=
    .remainder (by decide)
  have hno : ∀ bs, NoMarkerBefore [0xFF] ([0xFF] ++ marker ++ bs) :=
    noMarkerBefore_of (by decide) (by decide)
  have hfalse : ∀ bs, NoMarkerBefore [0x61, 0x5D] ([0x61, 0x5D] ++ marker ++ bs) :=
    noMarkerBefore_of (by decide) (by decide)
  exact .segment (hfalse _) (.segment (hno _) hremainder)

/-- The stream is read as the law says, and so are two messages, of which the first ends with a
part of a marker. -/
theorem outcomes_falseStarts :
    Steady falseStarts ∧
      outcomes 4 (ofDeliveries falseStarts) =
        [.ok "a]", .error (.parse .encoding), .error (.session (.endOfStream 4)),
          .error (.session (.endOfStream 0))] ∧
      Framable "<a/>]]" ∧ Framable "<b/>" ∧
      outcomes 2 (ofDeliveries [.bytes (Text.bytes (Outbound.framed ["<a/>]]", "<b/>"]))]) =
        [.ok "<a/>]]", .ok "\n<b/>"] := by
  obtain ⟨-, hstream, -, hmessages⟩ := outcomes_ofDeliveries
  have hsteady : Steady falseStarts := by
    unfold Steady
    decide
  have hfirst : Framable "<a/>]]" := ⟨by decide, by decide⟩
  have hsecond : Framable "<b/>" := ⟨by decide, by decide⟩
  have hread := hstream _ _ _ segments_falseStarts falseStarts hsteady rfl 4
  refine ⟨hsteady, hread.trans rfl, hfirst, hsecond, ?_⟩
  refine hmessages ["<a/>]]", "<b/>"] (by simp [hfirst, hsecond]) _ (by simp [Steady]) ?_
  decide

end Inbound

end Netconf
