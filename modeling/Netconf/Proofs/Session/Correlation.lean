import Mathlib.Data.List.Nodup
import Netconf.Proofs.Session.Runs
import Netconf.Proofs.Text.Decimal

/-!
# Requests and their replies

Requests carry the numbers 1, 2, 3 and so on, in the order in which they are handed to the
transport, and a command succeeds only with the reply that carries the number of its own request
(`Run.matched`). The server and the network are free to send anything at any time, late, twice or
never, and writing and reading may fail: none of it moves the reply of one request to another.

What is needed of a command is in its course: the request is handed over before a message is read,
at most one message is read, and `checkReply` lets a document pass only if it answers the request.
-/

namespace Netconf

/-- A document answers the request with a number: it is a reply, the first of its attributes named
`message-id` is that number in decimal, and all errors that it reports are warnings. -/
structure Document.Answers (d : Document) (number : Nat) : Prop where
  /-- It is a reply. -/
  name : d.tree.name d.root = "rpc-reply"
  /-- It carries the number. -/
  messageId :
    ((d.tree.element d.root).attribute? "message-id").map (·.value) = some (toString number)
  /-- It reports warnings at most. -/
  warnings : ∀ e ∈ d.tree.childrenNamed d.root "rpc-error",
    (RpcError.ofNode d.tree e).severity = some "warning"

/-- A document answers one request only. -/
theorem Document.Answers.unique {d : Document} {m n : Nat} (hm : d.Answers m) (hn : d.Answers n) :
    m = n :=
  Text.decimal_injective (Option.some.inj (hm.messageId.symm.trans hn.messageId))

namespace Session

/-- A document that passes the check answers the request, and is passed on as it is. -/
theorem answers_of_checkReply {number : Nat} {text : String} {d d' : Document}
    (h : checkReply number text d = .ok d') : d' = d ∧ d.Answers number := by
  unfold checkReply at h
  dsimp only at h
  split at h
  · cases h
  · next hname =>
    split at h
    · cases h
    · next hid =>
      split at h
      · next hall =>
        refine ⟨(Except.ok.inj h).symm, not_not.1 hname, not_not.1 hid, fun e he => ?_⟩
        have hwarning := List.all_eq_true.1 hall _ (List.mem_map_of_mem he)
        simpa [RpcError.isWarning] using hwarning
      · cases h

/-- A message that brings an answer is a document that answers the request. -/
theorem exists_of_judge {s : Session} {c : Command} {number : Nat} {text : String} {a : Answer}
    (h : s.judge c number text = .ok a) :
    ∃ d, Xml.parse s.defaults s.schema text = .ok d ∧ d.Answers number ∧ answer d c = .ok a := by
  unfold judge replyOf at h
  cases hparse : Xml.parse s.defaults s.schema text with
  | error e => rw [hparse] at h; cases h
  | ok d =>
    rw [hparse] at h
    cases hcheck : checkReply number text d with
    | error e => simp [bind, Except.bind, hcheck] at h
    | ok d' =>
      obtain ⟨rfl, hanswers⟩ := answers_of_checkReply hcheck
      refine ⟨d', rfl, hanswers, ?_⟩
      simpa [bind, Except.bind, hcheck] using h

/-- What a turn of a run has to do with requests and replies. -/
structure Turn.Matched (turns : List Turn) (turn : Turn) : Prop where
  /-- Without a request nothing is handed to the transport. -/
  silent : turn.request? = none →
    turn.after.transport.outbound = turn.session.transport.outbound
  /-- With a request its message is, and nothing else. -/
  handed : ∀ r, turn.request? = some r →
    turn.after.transport.outbound
      = (runOn (Transport.handOver r.text) turn.session.transport).2.outbound
  /-- At most one message is read. -/
  reads : turn.after.transport.inbound = turn.session.transport.inbound
    ∨ turn.after.transport.inbound = turn.session.transport.inbound.readMessage.2
  /-- A command that succeeds has written its request, and the message read next answers this
  request and no other one of the run. -/
  answered : ∀ c a, turn.activity = .command c → (runOn (perform c) turn.session).1 = .ok a →
    ∃ r text d, turn.request? = some r
      ∧ (runOn (Transport.handOver r.text) turn.session.transport).1 = .ok ()
      ∧ turn.session.transport.inbound.readMessage.1 = .ok text
      ∧ turn.after.transport.inbound = turn.session.transport.inbound.readMessage.2
      ∧ Xml.parse (turn.session.prepared c).defaults turn.session.schema text = .ok d
      ∧ d.Answers r.number ∧ answer d c = .ok a
      ∧ ∀ r' ∈ turns.filterMap Turn.request?, d.Answers r'.number → r' = r

/-- Requests with the same number are the same request. -/
theorem Run.eq_of_number {s₀ s : Session} {turns : List Turn} (hrun : Run s₀ turns s)
    {r r' : Request} (hr : r ∈ turns.filterMap Turn.request?)
    (hr' : r' ∈ turns.filterMap Turn.request?) (h : r.number = r'.number) : r = r' := by
  have hnodup : ((turns.filterMap Turn.request?).map Request.number).Nodup := by
    rw [hrun.numbers.1]
    exact List.nodup_range'
  exact List.inj_on_of_nodup_map hnodup hr hr' h

/-- Over every run of an opened session the requests carry the numbers from 1 on, each number once,
and a command succeeds only with the reply to its own request. -/
theorem Run.matched {transport : Transport} {config : Config} {defaults : Registry}
    {s₀ s : Session} {turns : List Turn}
    (hopen : connect transport config defaults = (.ok (), s₀)) (hrun : Run s₀ turns s) :
    (turns.filterMap Turn.request?).map Request.number
        = List.range' 1 (turns.filterMap Turn.request?).length
      ∧ ∀ turn ∈ turns, turn.Matched turns := by
  obtain ⟨hello, hopened⟩ := connect_ok hopen
  have hfirst : s₀.messageId = 1 := by
    cases hopened
    rfl
  refine ⟨hfirst ▸ hrun.numbers.1, fun turn hturn => ?_⟩
  have hstep := step_act turn.activity turn.session
  refine ⟨fun hr => (hstep.silent hr).outbound, fun r hr => (hstep.sameOutput hr).outbound,
    hstep.inbound, ?_⟩
  intro c a hactivity hok
  have hcourse := course_perform c turn.session
  rw [hok] at hcourse
  obtain ⟨r, text, hr, hwrite, hread, hrest, hjudge⟩ := hcourse.of_ok
  obtain ⟨d, hparse, hanswers, hanswer⟩ := exists_of_judge hjudge
  have hrequest : turn.request? = some r := by
    rw [Turn.request?, hactivity]
    exact hr
  have hafter : turn.after = (runOn (perform c) turn.session).2 := by
    rw [Turn.after, hactivity, Activity.act, runOn_drop]
  rw [hafter]
  refine ⟨r, text, d, hrequest, hwrite, hread, hrest, hparse, hanswers, hanswer, ?_⟩
  intro r' hr' hother
  have hmem : r ∈ turns.filterMap Turn.request? := List.mem_filterMap.2 ⟨turn, hturn, hrequest⟩
  exact hrun.eq_of_number hr' hmem (hother.unique hanswers)

/-! ## A late reply -/

/-- A session to which the reply to the first request comes too late. -/
def lateSession : Session :=
  expectingSession [.fault .timeout, served (okReply "1"), served (okReply "3")]

/-- Three commands. The first waits in vain, the second gets the reply to the first, and the third
the reply to itself. -/
def lateActivities : List Activity :=
  [.command .discardChanges, .command .commit, .command .closeSession]

/-- The turns of these commands. -/
def lateTurns : List Turn := takeTurns lateSession lateActivities

/-- The late reply is not taken for the reply to the second request. -/
theorem Run.matched_lateTurns :
    connect candidateServer {} (.standard 0) = (.ok (), candidateSession)
      ∧ (∃ s, Run candidateSession lateTurns s)
      ∧ lateTurns.map (·.outcome.isOk) = [false, false, true]
      ∧ (lateTurns.filterMap Turn.request?).map Request.number = [1, 2, 3]
      ∧ ∀ turn ∈ lateTurns, turn.Matched lateTurns := by
  have hrun : Run candidateSession lateTurns (behindTurns lateSession lateActivities) :=
    (Run.expecting _).taking lateActivities
  obtain ⟨hnumbers, hmatched⟩ := Run.matched connect_candidateServer hrun
  have heval : lateTurns.map (·.outcome.isOk) = [false, false, true]
      ∧ (lateTurns.filterMap Turn.request?).length = 3 := by decide +kernel
  rw [heval.2] at hnumbers
  exact ⟨connect_candidateServer, ⟨_, hrun⟩, heval.1, hnumbers, hmatched⟩

end Session

end Netconf
