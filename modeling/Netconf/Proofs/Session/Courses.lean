import Netconf.Proofs.Session.Actions

/-!
# The courses that commands take

`Course c s outcome s'` lists, once and for all, the ways in which the command `c` can go on the
session `s`: it is refused, or comes when the session is not established, or its request cannot be
written, or no message comes back, or a message comes back that is judged. `course_perform` says
that carrying out the command takes one of these courses. What is known of sessions later is read
off the courses; nothing else opens `perform`.

The first two courses do not touch the transport and use up no number. From the third on there is a
request, `request? c s`, and its number is used up before anything is written.
-/

namespace Netconf

/-- A request: its number, whether it asks for default values, and its body. -/
structure Request where
  /-- The number. -/
  number : Nat
  /-- Whether default values are asked for, if that is said at all. -/
  asked : Option Bool
  /-- The body. -/
  body : String
  deriving DecidableEq

/-- The message of a request. -/
def Request.text (r : Request) : String := envelope r.number r.asked r.body

namespace Session

/-! ## Making a request -/

/-- The default bindings once the binding of an extension is added, if there is one. -/
def registering (defaults : Registry) : Option Binding → Registry
  | some b => (defaults.register b).2
  | none => defaults

/-- Adding a binding changes the default bindings only. -/
theorem runOn_register (b : Option Binding) (s : Session) :
    runOn (register b) s = (.ok (), { s with defaults := registering s.defaults b }) := by
  cases b <;> rfl

/-- The default bindings behind the preparation of a command. -/
def preparedDefaults (c : Command) (s : Session) : Registry :=
  match s.terms.extension c with
  | .ok b => registering s.defaults b
  | .error _ => s.defaults

/-- The session behind the preparation of a command. -/
def prepared (c : Command) (s : Session) : Session :=
  { s with defaults := s.preparedDefaults c }

/-- The body of the request for a command, all its preconditions checked. -/
def preparedBody (c : Command) (s : Session) : Except Error String :=
  match s.terms.extension c with
  | .ok _ => (s.prepared c).terms.body c
  | .error e => .error e

/-- Preparing a command changes the default bindings only. -/
theorem runOn_prepare (c : Command) (s : Session) :
    runOn (prepare c) s = (s.preparedBody c, s.prepared c) := by
  unfold prepare preparedBody prepared preparedDefaults
  rw [runOn_bind_of_ok (runOn_get s), runOn_bind, runOn_ofExcept]
  cases s.terms.extension c with
  | error e => rfl
  | ok b =>
    simp only
    rw [runOn_bind_of_ok (runOn_register b s), runOn_bind_of_ok (runOn_get _), runOn_ofExcept]

/-- A body is prepared if the extension of the command is there, and then it is made with the
binding of the extension. -/
theorem preparedBody_eq_ok {c : Command} {s : Session} {body : String} :
    s.preparedBody c = .ok body ↔
      (∃ b, s.terms.extension c = .ok b) ∧ (s.prepared c).terms.body c = .ok body := by
  unfold preparedBody
  cases s.terms.extension c with
  | ok b => simp
  | error e => simp

/-- The request that a command becomes: there is one if the command is not refused and the session
is established. -/
def request? (c : Command) (s : Session) : Option Request :=
  if s.stage = .established then
    match s.preparedBody c with
    | .ok body => some ⟨s.messageId, if c.takesDefaults then s.withDefaults else none, body⟩
    | .error _ => none
  else none

/-- The request of a command on an established session. -/
theorem request?_of_ok {c : Command} {s : Session} {body : String}
    (hbody : s.preparedBody c = .ok body) (hstage : s.stage = .established) :
    s.request? c
      = some ⟨s.messageId, if c.takesDefaults then s.withDefaults else none, body⟩ := by
  simp [request?, hstage, hbody]

/-- What a request says of its command and its session. -/
theorem request?_eq_some {c : Command} {s : Session} {r : Request} (h : s.request? c = some r) :
    s.stage = .established ∧ s.preparedBody c = .ok r.body ∧ r.number = s.messageId
      ∧ r.asked = if c.takesDefaults then s.withDefaults else none := by
  unfold request? at h
  split at h
  · next hstage =>
    split at h
    · next body hbody =>
      obtain rfl := Option.some.inj h
      exact ⟨hstage, hbody, rfl, rfl⟩
    · cases h
  · cases h

/-- A command that is refused becomes no request. -/
theorem request?_of_error {c : Command} {s : Session} {e : Error}
    (h : s.preparedBody c = .error e) : s.request? c = none := by
  simp [request?, h]

/-- Outside the established stage no command becomes a request. -/
theorem request?_of_early {c : Command} {s : Session} (h : s.stage ≠ .established) :
    s.request? c = none := by
  simp [request?, h]

/-! ## Sending and receiving -/

/-- The session behind a request: the number is used up, and the transport is another. -/
def sent (c : Command) (s : Session) (t : Transport) : Session :=
  { s.prepared c with messageId := s.messageId + 1, transport := t }

/-- The document of a message that came back, if the message is the reply to the request with this
number. -/
def replyOf (s : Session) (number : Nat) (text : String) : Except Error Document := do
  let d ← Xml.parse s.defaults s.schema text
  checkReply number text d

/-- The judgement on the message that came back for a command: whether it is the reply to the
request with this number, and what it brings. -/
def judge (s : Session) (c : Command) (number : Nat) (text : String) : Except Error Answer := do
  let d ← s.replyOf number text
  answer d c

/-- The session behind a judgement. The end of a session closes the transport. -/
def ended (c : Command) (s : Session) : Session :=
  if c = .closeSession then
    { s with stage := .closed, transport := { s.transport with closed := true } }
  else s

/-- Printing a message and flushing it is one action on the transport. -/
theorem print_flush {α : Type} (text : String) (next : Exchange α) :
    (do onTransport (Transport.print text); onTransport Transport.flush; next)
      = (do onTransport (Transport.handOver text); next) := by
  rw [Transport.handOver, onTransport_bind, bind_assoc]

/-- Sending outside the established stage is refused. -/
theorem runOn_send_early {takesDefaults : Bool} {body : String} {s : Session}
    (h : s.stage ≠ .established) :
    runOn (send takesDefaults body) s = (.error (.session (.notEstablished s.stage)), s) := by
  unfold send
  rw [runOn_bind_of_ok (runOn_get s)]
  dsimp only
  rw [if_pos h, runOn_bind_of_error (runOn_throw _ s)]

/-- Sending uses up a number and hands the envelope over to the transport. -/
theorem runOn_send_established {takesDefaults : Bool} {body : String} {s : Session}
    (h : s.stage = .established) :
    runOn (send takesDefaults body) s =
      let asked := if takesDefaults then s.withDefaults else none
      let handed := runOn (Transport.handOver (envelope s.messageId asked body)) s.transport
      (handed.1.map fun _ => s.messageId,
        { s with messageId := s.messageId + 1, transport := handed.2 }) := by
  unfold send
  rw [runOn_bind_of_ok (runOn_get s)]
  dsimp only
  rw [if_neg (Decidable.not_not.mpr h), runOn_bind_of_ok (runOn_set _ s), print_flush, runOn_bind,
    runOn_onTransport]
  dsimp only
  cases (runOn (Transport.handOver (envelope s.messageId _ body)) s.transport).1 <;> rfl

/-- Receiving a reply waits for one message and checks it. -/
theorem runOn_receiveReply (number : Nat) (s : Session) :
    runOn (receiveReply number) s =
      let received := runOn Transport.receive s.transport
      (received.1.bind (s.replyOf number), { s with transport := received.2 }) := by
  unfold receiveReply
  rw [runOn_bind, runOn_onTransport]
  cases runOn Transport.receive s.transport with
  | mk outcome t =>
    cases outcome with
    | error e => rfl
    | ok text =>
      dsimp only [Except.bind]
      rw [runOn_bind, runOn_readDocument]
      unfold replyOf
      cases Xml.parse s.defaults s.schema text with
      | error e => rfl
      | ok d => exact runOn_ofExcept _ _

/-! ## Courses -/

/-- The ways in which a command can go on a session: its outcome, and the session afterwards. -/
inductive Course (c : Command) (s : Session) : Except Error Answer → Session → Prop where
  /-- A precondition of the command does not hold, or its trees cannot be encoded. -/
  | refused {e : Error} (h : s.preparedBody c = .error e) : Course c s (.error e) (s.prepared c)
  /-- The session is not established. -/
  | early {body : String} (h : s.preparedBody c = .ok body) (hstage : s.stage ≠ .established) :
    Course c s (.error (.session (.notEstablished s.stage))) (s.prepared c)
  /-- The request cannot be written. -/
  | unwritten {r : Request} {e : Error} {t : Transport} (hr : s.request? c = some r)
    (hwrite : runOn (Transport.handOver r.text) s.transport = (.error e, t)) :
    Course c s (.error e) (s.sent c t)
  /-- No message comes back. -/
  | unanswered {r : Request} {e : Error} {t t' : Transport} (hr : s.request? c = some r)
    (hwrite : runOn (Transport.handOver r.text) s.transport = (.ok (), t))
    (hread : runOn Transport.receive t = (.error e, t')) :
    Course c s (.error e) (s.sent c t')
  /-- The message that comes back is no reply to the request, or brings nothing usable. -/
  | rejected {r : Request} {text : String} {e : Error} {t t' : Transport}
    (hr : s.request? c = some r)
    (hwrite : runOn (Transport.handOver r.text) s.transport = (.ok (), t))
    (hread : runOn Transport.receive t = (.ok text, t'))
    (hjudge : (s.prepared c).judge c r.number text = .error e) :
    Course c s (.error e) (s.sent c t')
  /-- The message that comes back brings the answer. -/
  | answered {r : Request} {text : String} {a : Answer} {t t' : Transport}
    (hr : s.request? c = some r)
    (hwrite : runOn (Transport.handOver r.text) s.transport = (.ok (), t))
    (hread : runOn Transport.receive t = (.ok text, t'))
    (hjudge : (s.prepared c).judge c r.number text = .ok a) :
    Course c s (.ok a) (ended c (s.sent c t'))

/-- What follows a reply: its answer, and the end of the session if that was asked for. -/
theorem runOn_answer (c : Command) (d : Document) (s : Session) :
    runOn (do
      let a ← ofExcept (answer d c)
      if c = .closeSession then
        modify fun s => { s with stage := .closed }
        onTransport Transport.close
      return a : Exchange Answer) s
      = match answer d c with
        | .ok a => (.ok a, ended c s)
        | .error e => (.error e, s) := by
  rw [runOn_bind, runOn_ofExcept]
  cases answer d c with
  | error e => rfl
  | ok a =>
    unfold ended
    by_cases hclose : c = .closeSession
    · simp only [if_pos hclose]
      rfl
    · simp only [if_neg hclose]
      rfl

/-- Carrying out a command takes one of the courses. -/
theorem course_perform (c : Command) (s : Session) :
    Course c s (runOn (perform c) s).1 (runOn (perform c) s).2 := by
  unfold perform
  rw [runOn_bind, runOn_prepare]
  cases hbody : s.preparedBody c with
  | error e => exact .refused hbody
  | ok body =>
    by_cases hstage : s.stage = .established
    · obtain ⟨r, hr⟩ : ∃ r, s.request? c = some r := ⟨_, request?_of_ok hbody hstage⟩
      have hsend : runOn (send c.takesDefaults body) (s.prepared c)
          = ((runOn (Transport.handOver r.text) s.transport).1.map fun _ => r.number,
              s.sent c (runOn (Transport.handOver r.text) s.transport).2) := by
        obtain rfl := Option.some.inj ((request?_of_ok hbody hstage).symm.trans hr)
        exact runOn_send_established (s := s.prepared c) hstage
      dsimp only
      rw [runOn_bind, hsend]
      obtain ⟨written, t, hwrite⟩ :
          ∃ written t, runOn (Transport.handOver r.text) s.transport = (written, t) := ⟨_, _, rfl⟩
      rw [hwrite]
      cases written with
      | error e => exact .unwritten hr hwrite
      | ok _ =>
        dsimp only [Except.map]
        obtain ⟨received, t', hread⟩ : ∃ received t', runOn Transport.receive t = (received, t') :=
          ⟨_, _, rfl⟩
        have hreply : runOn (receiveReply r.number) (s.sent c t)
            = (received.bind ((s.prepared c).replyOf r.number), s.sent c t') := by
          rw [runOn_receiveReply]
          simp only [sent, hread]
          rfl
        rw [runOn_bind, hreply]
        cases received with
        | error e => exact .unanswered hr hwrite hread
        | ok text =>
          simp only [Except.bind]
          cases hdoc : (s.prepared c).replyOf r.number text with
          | error e => exact .rejected hr hwrite hread (by simp [judge, hdoc, bind, Except.bind])
          | ok d =>
            have hjudge : (s.prepared c).judge c r.number text = answer d c := by
              simp [judge, hdoc, bind, Except.bind]
            dsimp only
            rw [runOn_answer]
            cases hanswer : answer d c with
            | error e => exact .rejected hr hwrite hread (hjudge.trans hanswer)
            | ok a => exact .answered hr hwrite hread (hjudge.trans hanswer)
    · dsimp only
      rw [runOn_bind_of_error (runOn_send_early (s := s.prepared c) hstage)]
      exact .early hbody hstage

/-! ## What a course changes -/

namespace Course

variable {c : Command} {s s' : Session} {outcome : Except Error Answer}

/-- A course leaves the identity, the capabilities and the options of the session. -/
theorem frame (h : Course c s outcome s') :
    ∃ transport stage messageId defaults,
      s' = { s with transport, stage, messageId, defaults } := by
  cases h with
  | refused _ => exact ⟨_, _, _, _, rfl⟩
  | early _ _ => exact ⟨_, _, _, _, rfl⟩
  | unwritten _ _ => exact ⟨_, _, _, _, rfl⟩
  | unanswered _ _ _ => exact ⟨_, _, _, _, rfl⟩
  | rejected _ _ _ _ => exact ⟨_, _, _, _, rfl⟩
  | answered _ _ _ _ =>
    unfold ended
    split <;> exact ⟨_, _, _, _, rfl⟩

/-- A command that becomes no request changes the default bindings at most. -/
theorem unsent (h : Course c s outcome s') (hr : s.request? c = none) : s' = s.prepared c := by
  cases h with
  | refused _ => rfl
  | early _ _ => rfl
  | unwritten hr' _ => rw [hr] at hr'; cases hr'
  | unanswered hr' _ _ => rw [hr] at hr'; cases hr'
  | rejected hr' _ _ _ => rw [hr] at hr'; cases hr'
  | answered hr' _ _ _ => rw [hr] at hr'; cases hr'

/-- What a request does to the transport: its message is handed over, and then a message is read
unless the writing failed. The end of the session closes the transport besides. -/
theorem transport (h : Course c s outcome s') {r : Request} (hr : s.request? c = some r) :
    ∃ closed, s'.transport =
      let written := runOn (Transport.handOver r.text) s.transport
      match written.1 with
      | .ok _ => { (runOn Transport.receive written.2).2 with closed }
      | .error _ => written.2 := by
  cases h with
  | refused hbody => rw [request?_of_error hbody] at hr; cases hr
  | early _ hstage => rw [request?_of_early hstage] at hr; cases hr
  | unwritten hr' hwrite =>
    obtain rfl := Option.some.inj (hr.symm.trans hr')
    exact ⟨false, by simp [hwrite, sent]⟩
  | unanswered hr' hwrite hread =>
    obtain rfl := Option.some.inj (hr.symm.trans hr')
    exact ⟨_, by simp [hwrite, hread, sent]; rfl⟩
  | rejected hr' hwrite hread _ =>
    obtain rfl := Option.some.inj (hr.symm.trans hr')
    exact ⟨_, by simp [hwrite, hread, sent]; rfl⟩
  | answered hr' hwrite hread _ =>
    obtain rfl := Option.some.inj (hr.symm.trans hr')
    unfold ended
    split
    · exact ⟨true, by simp [hwrite, hread, sent]⟩
    · exact ⟨_, by simp [hwrite, hread, sent]; rfl⟩

/-- What is written for a request is what handing its message over writes. -/
theorem sameOutput (h : Course c s outcome s') {r : Request} (hr : s.request? c = some r) :
    (runOn (Transport.handOver r.text) s.transport).2.SameOutput s'.transport := by
  obtain ⟨closed, htransport⟩ := h.transport hr
  rw [htransport]
  dsimp only
  split
  · have hread := Transport.sameOutput_receive (runOn (Transport.handOver r.text) s.transport).2
    exact ⟨hread.outbound, hread.pending⟩
  · exact .refl _

/-- At most one message is read for a command. -/
theorem inbound (h : Course c s outcome s') :
    s'.transport.inbound = s.transport.inbound
      ∨ s'.transport.inbound = s.transport.inbound.readMessage.2 := by
  cases hr : s.request? c with
  | none => exact .inl (by rw [h.unsent hr]; rfl)
  | some r =>
    obtain ⟨closed, htransport⟩ := h.transport hr
    rw [htransport]
    dsimp only
    split
    · dsimp only
      rw [Transport.receive_inbound]
      split
      · exact .inl (Transport.handOver_inbound _ _)
      · exact .inr (by rw [Transport.handOver_inbound])
    · exact .inl (Transport.handOver_inbound _ _)

/-- A request uses up one number, whatever comes of it; without a request none is used up. -/
theorem messageId (h : Course c s outcome s') :
    s'.messageId = s.messageId + (s.request? c).toList.length := by
  cases h with
  | refused hbody => simp [request?_of_error hbody, prepared]
  | early _ hstage => simp [request?_of_early hstage, prepared]
  | unwritten hr _ => simp [hr, sent]
  | unanswered hr _ _ => simp [hr, sent]
  | rejected hr _ _ _ => simp [hr, sent]
  | answered hr _ _ _ =>
    unfold ended
    split <;> simp [hr, sent]

/-- An answer comes from the message that was read once the request was written. -/
theorem of_ok {a : Answer} (h : Course c s (.ok a) s') :
    ∃ r text, s.request? c = some r
      ∧ (runOn (Transport.handOver r.text) s.transport).1 = .ok ()
      ∧ s.transport.inbound.readMessage.1 = .ok text
      ∧ s'.transport.inbound = s.transport.inbound.readMessage.2
      ∧ (s.prepared c).judge c r.number text = .ok a := by
  cases h with
  | answered hr hwrite hread hjudge =>
    next r text t t' =>
    have hmessage := Transport.readMessage_of_exchange hwrite hread
    refine ⟨r, text, hr, by rw [hwrite], by rw [hmessage], ?_, hjudge⟩
    rw [hmessage]
    unfold ended
    split <;> rfl

end Course

end Session

end Netconf
