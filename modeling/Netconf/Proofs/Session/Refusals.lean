import Netconf.Proofs.Frame.Messages
import Netconf.Proofs.Session.Runs

/-!
# Refusals

A refusal is an error that comes before anything is done: a precondition of a command does not hold,
its trees hold what the peer does not know yet, or the session is not established. `Step.refused`
says that an activity that fails with a refusal has left the transport alone and used up no number.

The argument is by exclusion. What comes behind a request, that is handing it over, receiving,
reading and checking, fails for other reasons (`handOver_error` to `answer_error`), so only the
courses that become no request are left.
-/

namespace Netconf

/-- The errors that come before anything is done. -/
def Error.isRefusal : Error → Bool
  | .session (.capability _) => true
  | .session (.urlScheme _) => true
  | .session (.notEstablished _) => true
  | .session .deleteRunning => true
  | .session .killSelf => true
  | .revision _ => true
  | _ => false

/-! ## Errors of streams -/

/-- Bytes that are no text are the only ones that cannot be decoded. -/
theorem Inbound.decode_error {read : List UInt8} {e : Error} (h : decode read = .error e) :
    e = .parse .encoding := by
  unfold decode at h
  split at h
  · cases h
  · exact (Except.error.inj h).symm

/-- Reading a message is never refused. -/
theorem Inbound.readFrom_error {read buffer : List UInt8} {ds : List Delivery} {e : Error}
    {s' : Inbound} (h : readFrom read buffer ds = (.error e, s')) : e.isRefusal = false := by
  have hdecode {read : List UInt8} {s s' : Inbound} (h : (decode read, s) = (.error e, s')) :
      e.isRefusal = false := by
    rw [decode_error (Prod.mk.inj h).1]
    rfl
  induction ds generalizing read buffer with
  | nil =>
    rw [readFrom] at h
    split at h
    · exact hdecode h
    · obtain rfl := Except.error.inj (Prod.mk.inj h).1
      rfl
  | cons d ds ih =>
    rw [readFrom] at h
    split at h
    · exact hdecode h
    · split at h
      · exact ih h
      · exact ih h
      · obtain rfl := Except.error.inj (Prod.mk.inj h).1
        rfl
      · obtain rfl := Except.error.inj (Prod.mk.inj h).1
        rfl

namespace Transport

/-- Handing a message over is never refused. -/
theorem handOver_error {text : String} {t t' : Transport} {e : Error}
    (h : runOn (handOver text) t = (.error e, t')) : e.isRefusal = false := by
  rw [runOn_handOver] at h
  split at h
  · obtain rfl := Except.error.inj (Prod.mk.inj h).1
    rfl
  · rw [runOn_send] at h
    split at h
    · cases h
    · next hwrite =>
      obtain rfl := Except.error.inj (Prod.mk.inj h).1
      rw [Outbound.writeAll_error hwrite]
      rfl

/-- Receiving is never refused. -/
theorem receive_error {t t' : Transport} {e : Error}
    (h : runOn receive t = (.error e, t')) : e.isRefusal = false := by
  have houtcome := receive_outcome t
  rw [h] at houtcome
  split at houtcome
  · obtain rfl := Except.error.inj houtcome
    rfl
  · exact Inbound.readFrom_error (Prod.ext houtcome.symm rfl)

/-- Asking whether bytes are there is never refused. -/
theorem ready_error {t : Transport} {e : Error} (h : (runOn ready t).1 = .error e) :
    e.isRefusal = false := by
  rw [runOn_ready] at h
  split at h
  · obtain rfl := Except.error.inj h
    rfl
  · cases h

end Transport

/-! ## Errors of documents -/

namespace Xml

/-- Adding an element to a document is never refused. -/
theorem addElement_error {s : Draft} {schema : Option Schema} {name attributes : List Char}
    {e : Error} (h : s.addElement schema name attributes = .error e) : e.isRefusal = false := by
  unfold Draft.addElement at h
  split at h
  · obtain rfl := Except.error.inj h
    rfl
  · dsimp only at h
    split at h
    · cases h
    · split at h
      · next happend =>
        obtain rfl := Except.error.inj h
        unfold Tree.append Tree.insertAt at happend
        split at happend
        · obtain rfl := Except.error.inj happend
          rfl
        · cases happend
      · cases h

/-- Adding an item to a document is never refused. -/
theorem add_error {schema : Option Schema} {s : Draft} {m : Markup} {e : Error}
    (h : s.add schema m = .error e) : e.isRefusal = false := by
  unfold Draft.add at h
  split at h
  · split at h
    · next hadd => exact Except.error.inj h ▸ addElement_error hadd
    · cases h
  · split at h
    · next hadd => exact Except.error.inj h ▸ addElement_error hadd
    · cases h
  · split at h
    · split at h
      · cases h
      · obtain rfl := Except.error.inj h
        rfl
    · obtain rfl := Except.error.inj h
      rfl
  · split at h
    · cases h
    · obtain rfl := Except.error.inj h
      rfl
  · cases h

/-- Adding items to a document is never refused. -/
theorem addAll_error {schema : Option Schema} {s : Draft} {ms : List Markup} {e : Error}
    (h : s.addAll schema ms = .error e) : e.isRefusal = false := by
  induction ms generalizing s with
  | nil => cases h
  | cons m ms ih =>
    unfold Draft.addAll at h
    split at h
    · next hadd => exact Except.error.inj h ▸ add_error hadd
    · exact ih h

/-- Reading a document is never refused. -/
theorem parse_error {defaults : Registry} {schema : Option Schema} {xml : String} {e : Error}
    (h : parse defaults schema xml = .error e) : e.isRefusal = false := by
  unfold parse at h
  dsimp only at h
  split at h
  · next hadd => exact Except.error.inj h ▸ addAll_error hadd
  · unfold Draft.finish at h
    split at h
    · obtain rfl := Except.error.inj h
      rfl
    · split at h
      · obtain rfl := Except.error.inj h
        rfl
      · obtain rfl := Except.error.inj h
        rfl
      · cases h

end Xml

namespace Session

/-- The check of a reply is never a refusal. -/
theorem checkReply_error {number : Nat} {text : String} {d : Document} {e : Error}
    (h : checkReply number text d = .error e) : e.isRefusal = false := by
  unfold checkReply at h
  dsimp only at h
  split at h
  · obtain rfl := Except.error.inj h
    rfl
  · split at h
    · obtain rfl := Except.error.inj h
      rfl
    · split at h
      · cases h
      · obtain rfl := Except.error.inj h
        rfl

/-- A reply that lacks what was asked for is no refusal. -/
theorem answer_error {d : Document} {c : Command} {e : Error} (h : answer d c = .error e) :
    e.isRefusal = false := by
  have hok (h : okAnswer d = .error e) : e.isRefusal = false := by
    unfold okAnswer at h
    split at h
    · cases h
    · exact Except.error.inj h ▸ rfl
  have hdata (h : dataAnswer d = .error e) : e.isRefusal = false := by
    unfold dataAnswer at h
    split at h
    · cases h
    · exact Except.error.inj h ▸ rfl
  unfold answer at h
  split at h
  · exact hdata h
  · exact hdata h
  · exact hdata h
  · unfold lockAnswer at h
    dsimp only at h
    split at h
    · cases h
    · exact Except.error.inj h ▸ rfl
  · split at h
    · cases h
    · exact hdata h
  · cases h
  · exact hok h

/-- The judgement on a message is never a refusal. -/
theorem judge_error {s : Session} {c : Command} {number : Nat} {text : String} {e : Error}
    (h : s.judge c number text = .error e) : e.isRefusal = false := by
  unfold judge replyOf at h
  cases hparse : Xml.parse s.defaults s.schema text with
  | error e' =>
    rw [hparse] at h
    exact Except.error.inj h ▸ Xml.parse_error hparse
  | ok d =>
    rw [hparse] at h
    cases hcheck : checkReply number text d with
    | error e' =>
      simp only [bind, Except.bind, hcheck] at h
      exact Except.error.inj h ▸ checkReply_error hcheck
    | ok d' =>
      simp only [bind, Except.bind, hcheck] at h
      exact answer_error h

/-- A message that is no notification is no refusal. -/
theorem notificationOf_error {s : Session} {message : String} {e : Error}
    (h : s.notificationOf message = .error e) : e.isRefusal = false := by
  unfold notificationOf at h
  cases hparse : Xml.parse s.defaults s.schema message with
  | error e' =>
    rw [hparse] at h
    exact Except.error.inj h ▸ Xml.parse_error hparse
  | ok d =>
    simp only [hparse, bind, Except.bind] at h
    split at h
    · cases h
    · exact Except.error.inj h ▸ rfl

/-! ## Refused activities -/

/-- A command that fails with a refusal becomes no request. -/
theorem Course.request?_of_refusal {c : Command} {s s' : Session} {e : Error}
    (h : Course c s (.error e) s') (he : e.isRefusal = true) : s.request? c = none := by
  cases h with
  | refused hbody => exact request?_of_error hbody
  | early _ hstage => exact request?_of_early hstage
  | unwritten _ hwrite => rw [Transport.handOver_error hwrite] at he; cases he
  | unanswered _ _ hread => rw [Transport.receive_error hread] at he; cases he
  | rejected _ _ _ hjudge => rw [judge_error hjudge] at he; cases he

/-- An activity that fails with a refusal becomes no request, leaves the transport alone and uses up
no number; at most a default binding was added to the session. -/
theorem Step.refused {a : Activity} {s s' : Session} {e : Error} (h : Step s a (.error e) s')
    (he : e.isRefusal = true) :
    a.request? s = none ∧ ∃ defaults, s' = { s with defaults } := by
  generalize hout : (Except.error e : Except Error Unit) = outcome at h
  cases h with
  | @command c outcome _ h =>
    cases outcome with
    | ok _ => cases hout
    | error e' =>
      obtain rfl := Except.error.inj hout
      have hr := h.request?_of_refusal he
      exact ⟨hr, _, h.unsent hr⟩
  | @notification received t h =>
    cases received with
    | error e' =>
      obtain rfl := Except.error.inj hout
      rw [Transport.receive_error h] at he
      cases he
    | ok message =>
      cases hdoc : s.notificationOf message with
      | error e' =>
        simp only [Except.bind, hdoc] at hout
        obtain rfl := Except.error.inj hout
        rw [notificationOf_error hdoc] at he
        cases he
      | ok d => simp [Except.bind, hdoc, Except.map] at hout
  | allowed _ => cases hout
  | denied => exact ⟨rfl, s.defaults, rfl⟩
  | options => cases hout
  | schema => cases hout
  | registered => cases hout
  | ready =>
    cases hready : (runOn Transport.ready s.transport).1 with
    | error e' =>
      rw [hready] at hout
      obtain rfl := Except.error.inj hout
      rw [Transport.ready_error hready] at he
      cases he
    | ok _ => rw [hready] at hout; cases hout

end Session

end Netconf
