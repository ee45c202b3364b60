import Netconf.Frame
import Netconf.Proofs.Text.Bytes

/-!
# Segments of a stream

The markers in a stream of bytes cut it into segments: each one goes up to the first marker in what
is left behind the marker before it, and no marker is in the remainder (`Segments`). Reading
messages gives the texts of the segments one after the other, and then says that the stream has
ended (`outcomes_of_segments`), whatever deliveries the bytes come in and however often reading is
interrupted.
-/

namespace Netconf

/-! ## Segments -/

/-- The first marker in `bs` stands behind `m`, if there is one at all. -/
def NoMarkerBefore (m bs : List UInt8) : Prop :=
  ∀ p, p ++ marker <+: bs → m.length ≤ p.length

/-- The segments of a stream of bytes, and its remainder. -/
inductive Segments : List UInt8 → List (List UInt8) → List UInt8 → Prop where
  /-- Bytes without a marker are the remainder. -/
  | remainder {r : List UInt8} (h : ¬ marker <:+: r) : Segments r [] r
  /-- The bytes up to the first marker are a segment. -/
  | segment {m bs r : List UInt8} {ms : List (List UInt8)}
    (hfirst : NoMarkerBefore m (m ++ marker ++ bs)) (h : Segments bs ms r) :
    Segments (m ++ marker ++ bs) (m :: ms) r

/-- A marker among bytes has a first one. -/
theorem exists_first_marker {bs : List UInt8} (h : marker <:+: bs) :
    ∃ m rest, bs = m ++ marker ++ rest ∧ NoMarkerBefore m bs := by
  obtain ⟨p, q, hpq⟩ := h
  -- among the places of markers, take one with the fewest bytes before it
  induction hn : p.length using Nat.strongRecOn generalizing p q with
  | _ n ih =>
    by_cases hfirst : NoMarkerBefore p bs
    · exact ⟨p, q, hpq.symm, hfirst⟩
    · unfold NoMarkerBefore at hfirst
      push Not at hfirst
      obtain ⟨p', ⟨q', hq'⟩, hshorter⟩ := hfirst
      have hlt : p'.length < p.length := by omega
      exact ih p'.length (hn ▸ hlt) p' q' hq' rfl

/-- Every stream of bytes has segments. -/
theorem exists_segments (bs : List UInt8) : ∃ ms r, Segments bs ms r := by
  induction hn : bs.length using Nat.strongRecOn generalizing bs with
  | _ n ih =>
    by_cases h : marker <:+: bs
    · obtain ⟨m, rest, rfl, hfirst⟩ := exists_first_marker h
      have hlt : rest.length < n := by
        rw [← hn]
        simp [marker]
        omega
      obtain ⟨ms, r, hrest⟩ := ih rest.length hlt rest rfl
      exact ⟨m :: ms, r, .segment hfirst hrest⟩
    · exact ⟨[], bs, .remainder h⟩

/-! ## Taking one message -/

namespace Inbound

variable {m r read bs rest : List UInt8}

/-- The marker was read just now, if the bytes read so far end with it. -/
theorem isPrefixOf_marker_iff :
    marker.reverse.isPrefixOf read = true ↔ marker <:+ read.reverse := by
  rw [List.isPrefixOf_iff_prefix, ← List.reverse_prefix, List.reverse_reverse]

/-- Without a marker all bytes are read. -/
theorem takeMessage_of_not_infix (h : ¬ marker <:+: read.reverse ++ bs) :
    takeMessage read bs = (bs.reverse ++ read, none) := by
  induction bs generalizing read with
  | nil => rfl
  | cons b bs ih =>
    have hassoc : (b :: read).reverse ++ bs = read.reverse ++ b :: bs := by simp
    have hread : ¬ marker <:+ (b :: read).reverse := fun hsuffix =>
      h (hassoc ▸ hsuffix.isInfix.trans (List.prefix_append _ _).isInfix)
    rw [takeMessage, if_neg (isPrefixOf_marker_iff.not.2 hread), ih (hassoc ▸ h)]
    simp

/-- Reading stops at the first marker, and leaves what stands behind it. `read` is what was read
before. -/
theorem takeMessage_of_first (hbytes : read.reverse ++ bs = m ++ marker ++ rest)
    (hfirst : NoMarkerBefore m (m ++ marker ++ rest))
    (hread : read.length < m.length + marker.length) :
    takeMessage read bs = (m.reverse, some rest) := by
  induction bs generalizing read with
  | nil =>
    have hlength := congrArg List.length hbytes
    simp only [List.length_append, List.length_reverse, List.length_nil] at hlength
    omega
  | cons b bs ih =>
    have hassoc : (b :: read).reverse ++ bs = m ++ marker ++ rest := by simpa using hbytes
    by_cases hmarker : marker <:+ (b :: read).reverse
    · obtain ⟨p, hp⟩ := hmarker
      -- a marker that ends here stands behind the whole segment, so it is the first one
      have hle : m.length ≤ p.length := hfirst p ⟨bs, by rw [hp]; exact hassoc⟩
      have hlength := congrArg List.length hp
      simp only [List.length_append, List.length_reverse, List.length_cons] at hlength
      obtain ⟨hm, hrest⟩ := List.append_inj hassoc (by simp; omega)
      have hdrop : (b :: read).drop marker.length = m.reverse := by
        have hrev : b :: read = marker.reverse ++ m.reverse := by
          rw [← List.reverse_append, ← hm, List.reverse_reverse]
        rw [hrev, ← List.length_reverse, List.drop_left]
      have hsuffix : marker <:+ (b :: read).reverse := ⟨p, hp⟩
      rw [takeMessage, if_pos (isPrefixOf_marker_iff.2 hsuffix), hdrop, hrest]
    · have hne : (b :: read).length ≠ m.length + marker.length := fun heq =>
        hmarker ⟨m, (List.append_inj hassoc (by simpa using heq)).1.symm⟩
      have hlt : (b :: read).length < m.length + marker.length := by
        rw [List.length_cons] at hne ⊢
        omega
      rw [takeMessage, if_neg (isPrefixOf_marker_iff.not.2 hmarker)]
      exact ih hassoc hlt

/-- Taking from two pieces is taking from the first, and then from the second if the message has
not ended. -/
theorem takeMessage_append (read a b : List UInt8) :
    takeMessage read (a ++ b) =
      match takeMessage read a with
      | (m, some rest) => (m, some (rest ++ b))
      | (read, none) => takeMessage read b := by
  induction a generalizing read with
  | nil => rfl
  | cons x a ih =>
    rw [List.cons_append, takeMessage, takeMessage]
    split
    · rfl
    · exact ih _

/-! ## Deliveries -/

end Inbound

/-- The bytes that a delivery brings. -/
def Delivery.content : Delivery → List UInt8
  | .bytes bs => bs
  | .fault _ => []

/-- Reading goes on after every one of these deliveries: there are bytes and interruptions. -/
def Steady (ds : List Delivery) : Prop := ∀ d ∈ ds, d ≠ .fault .timeout ∧ d ≠ .fault .broken

namespace Inbound

variable {m r read bs rest : List UInt8} {s : Inbound} {ds : List Delivery}

/-- All bytes that can still be read from a stream. -/
def content (s : Inbound) : List UInt8 := s.buffer ++ s.source.flatMap Delivery.content

/-- Where the message ends among all bytes, reading gives its text, and what is behind it stays. -/
theorem readFrom_of_some {buffer : List UInt8} (hds : Steady ds)
    (h : takeMessage read (buffer ++ ds.flatMap Delivery.content) = (m, some rest)) :
    ∃ s, readFrom read buffer ds = (decode m, s) ∧ s.content = rest ∧ Steady s.source := by
  induction ds generalizing read buffer with
  | nil =>
    rw [List.flatMap_nil, List.append_nil] at h
    rw [readFrom, h]
    exact ⟨⟨rest, []⟩, rfl, by simp [content], hds⟩
  | cons d ds ih =>
    obtain ⟨hd, hrest⟩ := List.forall_mem_cons.1 hds
    obtain ⟨read', taken, htake⟩ :
        ∃ read' taken, takeMessage read buffer = (read', taken) := ⟨_, _, rfl⟩
    rw [takeMessage_append, htake] at h
    rw [readFrom, htake]
    cases taken with
    | some rest' =>
      cases h
      exact ⟨⟨rest', d :: ds⟩, rfl, rfl, hds⟩
    | none =>
      -- the message goes on in the next delivery
      cases d with
      | bytes bs => exact ih hrest h
      | fault f =>
        cases f with
        | interrupted => exact ih hrest (by simpa [Delivery.content] using h)
        | timeout => exact absurd rfl hd.1
        | broken => exact absurd rfl hd.2

/-- Where the message does not end among all bytes, reading says that the stream has ended. -/
theorem readFrom_of_none {buffer : List UInt8} (hds : Steady ds)
    (h : takeMessage read (buffer ++ ds.flatMap Delivery.content) = (r, none)) :
    readFrom read buffer ds = (.error (.session (.endOfStream r.length)), {}) := by
  induction ds generalizing read buffer with
  | nil =>
    rw [List.flatMap_nil, List.append_nil] at h
    rw [readFrom, h]
  | cons d ds ih =>
    obtain ⟨hd, hrest⟩ := List.forall_mem_cons.1 hds
    obtain ⟨read', taken, htake⟩ :
        ∃ read' taken, takeMessage read buffer = (read', taken) := ⟨_, _, rfl⟩
    rw [takeMessage_append, htake] at h
    rw [readFrom, htake]
    cases taken with
    | some rest' => cases h
    | none =>
      cases d with
      | bytes bs => exact ih hrest h
      | fault f =>
        cases f with
        | interrupted => exact ih hrest (by simpa [Delivery.content] using h)
        | timeout => exact absurd rfl hd.1
        | broken => exact absurd rfl hd.2

/-- The pieces of a delivery are all of its bytes. -/
theorem flatten_pieces {n : Nat} (h : bs.length ≤ n) : (pieces n bs).flatten = bs := by
  induction n generalizing bs with
  | zero =>
    obtain rfl := List.length_eq_zero_iff.1 (Nat.le_zero.1 h)
    rfl
  | succ n ih =>
    unfold pieces
    split
    · next hempty => simpa using hempty.symm
    · next hempty =>
      have hpos : 0 < bs.length := List.length_pos_iff.2 (by simpa using hempty)
      have hdrop : (bs.drop capacity).length ≤ n := by
        rw [List.length_drop, capacity]
        omega
      rw [List.flatten_cons, ih hdrop, List.take_append_drop]

/-- A stream has the bytes of its deliveries. -/
theorem content_ofDeliveries (ds : List Delivery) :
    (ofDeliveries ds).content = ds.flatMap Delivery.content := by
  have hreadings : ∀ d : Delivery, (readings d).flatMap Delivery.content = d.content := by
    intro d
    cases d with
    | bytes bs =>
      have hpieces : (readings (.bytes bs)).flatMap Delivery.content =
          (pieces bs.length bs).flatten := by
        simp [readings, List.flatMap_map, Delivery.content, List.flatMap_id']
      rw [hpieces, flatten_pieces (Nat.le_refl _)]
      rfl
    | fault f => rfl
  simp only [content, ofDeliveries, List.nil_append, List.flatMap_assoc, hreadings]

/-- The readings of deliveries that reading goes on after are such deliveries. -/
theorem steady_ofDeliveries (h : Steady ds) : Steady (ofDeliveries ds).source := by
  intro x hx
  obtain ⟨d, hd, hx⟩ := List.mem_flatMap.1 hx
  cases d with
  | bytes bs =>
    obtain ⟨piece, -, rfl⟩ := List.mem_map.1 hx
    exact ⟨by simp, by simp⟩
  | fault f =>
    obtain rfl := List.mem_singleton.1 hx
    exact h _ hd

/-! ## Reading all messages -/

/-- The outcomes of reading `n` messages one after the other. -/
def outcomes : Nat → Inbound → List (Except Error String)
  | 0, _ => []
  | n + 1, s => s.readMessage.1 :: outcomes n s.readMessage.2

/-- What reading `n` messages should bring of a stream with these segments and a remainder of this
length: the texts of the segments, and then that the stream has ended. -/
def expected : List (List UInt8) → Nat → Nat → List (Except Error String)
  | _, _, 0 => []
  | m :: ms, left, n + 1 => decode m.reverse :: expected ms left n
  | [], left, n + 1 => .error (.session (.endOfStream left)) :: expected [] 0 n

/-- The bytes of a message are read as the text that has these bytes; if there is none, the message
cannot be read. -/
theorem decode_cases (m : List UInt8) :
    (∃ text, Text.bytes text = m ∧ decode m.reverse = .ok text) ∨
      (∀ text, Text.bytes text ≠ m) ∧ decode m.reverse = .error (.parse .encoding) := by
  unfold decode
  rw [List.reverse_reverse]
  cases h : String.fromUTF8? ⟨m.toArray⟩ with
  | some text => exact Or.inl ⟨text, Text.fromUTF8?_eq_some_iff.1 h, rfl⟩
  | none =>
    refine Or.inr ⟨fun text htext => ?_, rfl⟩
    rw [Text.fromUTF8?_eq_some_iff.2 htext] at h
    cases h

/-- The bytes of a text are read as the text. -/
theorem decode_bytes (text : String) : decode (Text.bytes text).reverse = .ok text := by
  unfold decode
  rw [List.reverse_reverse, Text.fromUTF8?_eq_some_iff.2 rfl]

/-- A stream that has ended goes on saying so. -/
theorem outcomes_ended (n : Nat) : outcomes n {} = expected [] 0 n := by
  induction n with
  | zero => rfl
  | succ n ih => exact congrArg (_ :: ·) ih

/-- Reading gives the segments of the bytes that are left, in whatever deliveries they come. -/
theorem outcomes_of_segments {ms : List (List UInt8)} (h : Segments bs ms r)
    (hsteady : Steady s.source) (hcontent : s.content = bs) (n : Nat) :
    outcomes n s = expected ms r.length n := by
  induction h generalizing s n with
  | @remainder r hr =>
    cases n with
    | zero => rfl
    | succ n =>
      have htake : takeMessage [] (s.buffer ++ s.source.flatMap Delivery.content) =
          (r.reverse ++ [], none) := by
        have hbytes : s.buffer ++ s.source.flatMap Delivery.content = r := hcontent
        rw [hbytes]
        exact takeMessage_of_not_infix hr
      have hread := readFrom_of_none hsteady htake
      rw [outcomes, readMessage, hread, outcomes_ended]
      simp [expected]
  | @segment m bs r ms hfirst _ ih =>
    cases n with
    | zero => rfl
    | succ n =>
      have htake : takeMessage [] (s.buffer ++ s.source.flatMap Delivery.content) =
          (m.reverse, some bs) := by
        have hbytes : ([] : List UInt8).reverse ++ (s.buffer ++ s.source.flatMap Delivery.content)
            = m ++ marker ++ bs := hcontent
        exact takeMessage_of_first hbytes hfirst (by simp [marker])
      obtain ⟨s', hread, hcontent', hsteady'⟩ := readFrom_of_some hsteady htake
      rw [outcomes, readMessage, hread, ih hsteady' hcontent']
      rfl

end Inbound

end Netconf
