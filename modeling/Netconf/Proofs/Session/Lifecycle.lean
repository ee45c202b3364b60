import Netconf.Proofs.Capability.Listing
import Netconf.Proofs.Session.Framing

/-!
# The lifecycle of a session

A session is opened by a greeting of the server that names a base capability and numbers the
session; `readHello_ok` reads this off the document of the greeting. From then on no step takes the
stage back (`Step.rank_le`), and a step on a session that has ended leaves its streams as they are
(`Step.ended`).

Both are carried through runs by induction on the turns. `Run.lifecycle` puts them together with
what the opening itself writes and the stages it goes through.
-/

namespace Netconf

/-! ## The server's greeting -/

namespace Path

/-- The step to the node itself if it has a name. -/
def Step.selfNamed (name : String) : Step := { axis := .self, name := some name }

/-- The step to the children with a name. -/
def Step.childNamed (name : String) : Step := { axis := .child, name := some name }

/-- A step with a bare name and no predicates leads to the nodes that have the name. -/
theorem Step.filter_named (axis : Axis) (name : String) (t : Tree) (ids : List NodeId) :
    Step.filter { axis, name := some name } t ids
      = .ok ((ids.filter fun id => t.name id == name).map .node) := by
  have haccepts : Step.accepts { axis, name := some name } t = fun id => t.name id == name := by
    funext id
    simp [Step.accepts]
  simp [Step.filter, filtered, haccepts]

/-- The way over the node itself to its children, both by name, leads to the children of the one
name if the node has the other. -/
theorem evalSteps_selfNamed_childNamed (t : Tree) (id : NodeId) (top name : String) :
    evalSteps t [.selfNamed top, .childNamed name] id
      = .ok (if t.name id = top then t.childrenNamed id name else []) := by
  by_cases htop : t.name id = top
  · simp [evalSteps, walk, Step.apply, Step.followAll, Step.follow, Step.selfNamed,
      Step.childNamed, Step.filter_named, htop, Tree.childrenNamed, Place.node?,
      List.filterMap_map, Function.comp_def]
  · simp [evalSteps, walk, Step.apply, Step.followAll, Step.follow, Step.selfNamed,
      Step.childNamed, Step.filter_named, htop]

/-- The path to the capabilities of a greeting. -/
theorem parse_capabilities :
    parse "self::hello/capabilities"
      = .ok ⟨"self::hello/capabilities", [.selfNamed "hello", .childNamed "capabilities"]⟩ := rfl

/-- The path to the number of the session in a greeting. -/
theorem parse_sessionId :
    parse "self::hello/session-id"
      = .ok ⟨"self::hello/session-id", [.selfNamed "hello", .childNamed "session-id"]⟩ := rfl

end Path

/-- A query over the node itself to its children by name finds only children of that name, and only
below a node of the other name. -/
theorem Tree.of_queryFirst_named {t : Tree} {id node : NodeId} {path top name : String}
    (hpath : Path.parse path = .ok ⟨path, [.selfNamed top, .childNamed name]⟩)
    (h : t.queryFirst id path = .ok (some node)) :
    t.name id = top ∧ node ∈ t.childrenNamed id name := by
  rw [queryFirst, query, hpath] at h
  simp only [Path.eval, Path.evalSteps_selfNamed_childNamed] at h
  split at h
  · next htop => exact ⟨htop, List.mem_of_mem_head? (by simpa [Except.map] using h)⟩
  · simp [Except.map] at h

namespace Capabilities

/-- A feature that a list of capability strings brings has one of its URIs among them. -/
theorem exists_of_has_ofUris {uris : List String} {f : Feature} (h : (ofUris uris).has f = true) :
    ∃ raw ∈ uris, (capabilityOf (Text.trim raw)).uri ∈ f.uris := by
  obtain ⟨raw, hraw, hf⟩ := has_ofUris.1 h
  exact ⟨raw, hraw, by simpa using List.find?_some hf⟩

end Capabilities

/-- A number that is read below a bound is below it. -/
theorem Text.lt_of_naturalBelow? {bound n : Nat} {cs : List Char}
    (h : Text.naturalBelow? bound cs = some n) : n < bound := by
  have hread : ∀ digits : List Char,
      ((Text.natural? digits).bind fun n => if n < bound then some n else none) = some n →
        n < bound := by
    intro digits hdigits
    obtain ⟨m, -, hm⟩ := Option.bind_eq_some_iff.1 hdigits
    split at hm
    · next hlt => exact Option.some.inj hm ▸ hlt
    · cases hm
  unfold Text.naturalBelow? at h
  split at h
  · exact hread _ h
  · exact hread _ h

namespace Session

/-- A document that greets with a number for the session: a `hello` whose capabilities contain a
base capability, its query apart, and which gives the number. -/
structure Greets (d : Document) (number : Nat) : Prop where
  /-- The top element is a `hello`. -/
  name : d.tree.name d.root = "hello"
  /-- A child lists the capabilities, a base capability among them. -/
  base : ∃ list ∈ d.tree.childrenNamed d.root "capabilities",
    ∃ item ∈ d.tree.childrenNamed list "capability", ∃ v, d.tree.value? item = some v
      ∧ (Capabilities.capabilityOf (Text.trim v.wire)).uri ∈ Feature.base.uris
  /-- A child gives the number, up to blanks around it. -/
  number : ∃ item ∈ d.tree.childrenNamed d.root "session-id",
    Text.naturalBelow? UInt64.size
      (Text.strip (((d.tree.value? item).map Value.wire).getD "").toList) = some number

/-- A greeting numbers sessions with 64 bits. -/
theorem Greets.number_lt {d : Document} {number : Nat} (h : Greets d number) :
    number < UInt64.size := by
  obtain ⟨_, _, hread⟩ := h.number
  exact Text.lt_of_naturalBelow? hread

/-- Only a greeting is read as the server's hello. -/
theorem readHello_ok {d : Document} {hello : Hello} (h : readHello d = .ok hello) :
    Greets d hello.sessionId := by
  unfold readHello at h
  obtain ⟨found, hlist, h⟩ := bind_eq_ok.1 h
  cases found with
  | none => cases h
  | some list =>
    dsimp only at h
    obtain ⟨htop, hlistmem⟩ := Tree.of_queryFirst_named Path.parse_capabilities hlist
    split at h
    · cases h
    · next hbase =>
      obtain ⟨found, hnumber, h⟩ := bind_eq_ok.1 h
      cases found with
      | none => cases h
      | some item =>
        dsimp only at h
        obtain ⟨-, hitem⟩ := Tree.of_queryFirst_named Path.parse_sessionId hnumber
        split at h
        · cases h
        · next sessionId hread =>
          obtain rfl := Except.ok.inj h
          refine ⟨htop, ⟨list, hlistmem, ?_⟩, ⟨item, hitem, hread⟩⟩
          have hhas : (Capabilities.ofNode d.tree list).has .base = true := by simpa using hbase
          obtain ⟨raw, hraw, huri⟩ := Capabilities.exists_of_has_ofUris hhas
          obtain ⟨c, hc, hvalue⟩ := List.mem_filterMap.1 hraw
          obtain ⟨v, hv, rfl⟩ := Option.map_eq_some_iff.1 hvalue
          exact ⟨c, hc, v, hv, huri⟩

end Session

/-! ## What is written of a message -/

/-- A stream has taken a message with its marker and its line end, or only the first of these
pieces. -/
def Outbound.Wrote (s : Outbound) (message : String) (s' : Outbound) : Prop :=
  ∃ n, s'.written = s.written ++ String.join ([message, endOfMessage, "\n"].take n)

/-- Texts are written up to the first that the stream does not take. -/
theorem Outbound.exists_writeAll (s : Outbound) (texts : List String) :
    ∃ n, (s.writeAll texts).2.written = s.written ++ String.join (texts.take n) := by
  induction texts generalizing s with
  | nil => exact ⟨0, by simp [writeAll]⟩
  | cons text texts ih =>
    unfold writeAll
    split
    · obtain ⟨n, hn⟩ := ih { s with written := s.written ++ text }
      exact ⟨n + 1, by rw [hn, List.take_succ_cons, String.join_cons, String.append_assoc]⟩
    · exact ⟨0, by simp⟩

/-- What handing a message over writes is a part of what was put together and the message. -/
theorem Transport.wrote_handOver (text : String) (t : Transport) :
    t.outbound.Wrote (t.pending ++ text) (runOn (handOver text) t).2.outbound := by
  rw [runOn_handOver]
  split
  · exact ⟨0, by simp⟩
  · obtain ⟨n, hn⟩ := t.outbound.exists_writeAll [t.pending ++ text, endOfMessage, "\n"]
    refine ⟨n, ?_⟩
    rw [runOn_send]
    change (t.outbound.writeMessage (t.pending ++ text)).2.written = _ at hn
    split
    · next h => rw [← hn, h]; rfl
    · next h => rw [← hn, h]

/-- A request begins with the tag of its envelope. -/
theorem Request.envelope_prefix (r : Request) : "<nc:rpc ".toList <+: r.text.toList := by
  simp only [text, envelope, elementOf, Terms.declares, String.toList_append, List.append_assoc]
  exact List.prefix_append "<nc:rpc ".toList _

namespace Session

/-! ## Steps -/

namespace Course

variable {c : Command} {s s' : Session} {outcome : Except Error Answer}

/-- A course leaves the stage of the session, or ends the session. -/
theorem stage (h : Course c s outcome s') : s'.stage = s.stage ∨ s'.stage = .closed := by
  cases h with
  | answered _ _ _ _ =>
    unfold ended
    split
    · exact .inr rfl
    · exact .inl rfl
  | _ => exact .inl rfl

/-- The end of a session is answered by closing its transport. -/
theorem closes {a : Answer} (h : Course .closeSession s (.ok a) s') :
    s'.stage = .closed ∧ s'.transport.closed = true := by
  cases h with
  | answered _ _ _ _ => simp [ended]

/-- On a session that has ended every command fails, and only the default bindings may change. -/
theorem of_closed (h : Course c s outcome s') (hstage : s.stage = .closed) :
    (∃ e, outcome = .error e) ∧ s' = s.prepared c := by
  have hr : s.request? c = none := request?_of_early (by rw [hstage]; decide)
  refine ⟨?_, h.unsent hr⟩
  cases h with
  | refused _ => exact ⟨_, rfl⟩
  | early _ _ => exact ⟨_, rfl⟩
  | unwritten _ _ => exact ⟨_, rfl⟩
  | unanswered _ _ _ => exact ⟨_, rfl⟩
  | rejected _ _ _ _ => exact ⟨_, rfl⟩
  | answered hr' _ _ _ => rw [hr] at hr'; cases hr'

end Course

/-- A session that has ended: it is closed, and so is its transport. -/
structure Ended (s : Session) : Prop where
  /-- The session is closed. -/
  stage : s.stage = .closed
  /-- The transport is closed. -/
  transport : s.transport.closed = true

namespace Step

variable {a : Activity} {s s' : Session} {outcome : Except Error Unit}

/-- The stage never goes back. -/
theorem rank_le (h : Step s a outcome s') : s.stage.rank ≤ s'.stage.rank := by
  cases h with
  | command h =>
    rcases h.stage with hsame | hclosed
    · rw [hsame]
    · rw [hclosed]
      cases s.stage <;> decide
  | _ => exact Nat.le_refl _

/-- A session that has ended stays so, and its streams stay as they are. -/
theorem ended (h : Step s a outcome s') (hs : s.Ended) :
    s'.Ended ∧ s'.transport.inbound = s.transport.inbound ∧
      s.transport.SameOutput s'.transport := by
  cases h with
  | command h =>
    rw [(h.of_closed hs.stage).2]
    exact ⟨⟨hs.stage, hs.transport⟩, rfl, .refl _⟩
  | notification h =>
    rw [Transport.runOn_receive, if_pos hs.transport] at h
    obtain ⟨-, rfl⟩ := Prod.mk.inj h
    exact ⟨hs, rfl, .refl _⟩
  | _ => exact ⟨⟨hs.stage, hs.transport⟩, rfl, .refl _⟩

end Step

/-! ## The opening -/

/-- The first part of the exchange that opens a session: the own hello. -/
def greet (config : Config) : Exchange Unit := do
  onTransport (Transport.handOver (ownHello config))
  modify fun s => { s with stage := .helloSent }

/-- The second part: the server's hello. -/
def listen : Exchange Unit := do
  let message ← onTransport Transport.receive
  let d ← readDocument message
  let hello ← ofExcept (readHello d)
  modify fun s =>
    { s with
      capabilities := hello.capabilities, sessionId := hello.sessionId, stage := .established }

/-- Saying hello is to greet and to listen. -/
theorem sayHello_eq (config : Config) :
    sayHello (distinct config.capabilities) = greet config >>= fun _ => listen := by
  unfold sayHello greet listen
  rw [print_flush, bind_assoc]
  rfl

/-- The session at the end of two actions in a row. -/
theorem runOn_bind_snd {α β : Type} (x : Exchange α) (f : α → Exchange β) (s : Session) :
    (runOn (x >>= f) s).2 = (runOn x s).2 ∨
      ∃ a, runOn x s = (.ok a, (runOn x s).2) ∧
        (runOn (x >>= f) s).2 = (runOn (f a) (runOn x s).2).2 := by
  rw [runOn_bind]
  cases hx : runOn x s with
  | mk outcome s' =>
    cases outcome with
    | ok a => exact .inr ⟨a, rfl, rfl⟩
    | error e => exact .inl rfl

/-- Listening leaves the stage, or establishes the session. -/
theorem stage_listen (s : Session) :
    (runOn listen s).2.stage = s.stage ∨ (runOn listen s).2.stage = .established := by
  unfold listen
  rcases runOn_bind_snd _ _ s with hend | ⟨message, -, hend⟩
  · exact .inl (by rw [hend, runOn_onTransport])
  rw [hend, runOn_onTransport]
  rcases runOn_bind_snd _ _ _ with hend | ⟨d, -, hend⟩
  · exact .inl (by rw [hend, runOn_readDocument])
  rw [hend, runOn_readDocument]
  rcases runOn_bind_snd _ _ _ with hend | ⟨hello, -, hend⟩
  · exact .inl (by rw [hend, runOn_ofExcept])
  rw [hend]
  exact .inr rfl

/-- A session that has greeted says so. -/
theorem stage_greet {config : Config} {s s' : Session} {u : Unit}
    (h : runOn (greet config) s = (.ok u, s')) : s'.stage = .helloSent := by
  obtain ⟨_, t, -, hset⟩ := exists_of_runOn_bind h
  rw [runOn_modify] at hset
  exact (Prod.mk.inj hset).2 ▸ rfl

/-- Behind both hellos the stage is no earlier than behind the own one. -/
theorem rank_sayHello (config : Config) (s : Session) :
    (runOn (greet config) s).2.stage.rank
      ≤ (runOn (sayHello (distinct config.capabilities)) s).2.stage.rank := by
  rw [sayHello_eq]
  rcases runOn_bind_snd (greet config) (fun _ => listen) s with hend | ⟨_, hgreet, hend⟩
  · rw [hend]
  · rw [hend]
    rcases stage_listen (runOn (greet config) s).2 with hsame | hestablished
    · rw [hsame]
    · rw [hestablished, stage_greet hgreet]
      decide

/-- What follows the hellos leaves the stage. -/
theorem stage_opening (config : Config) (s : Session) :
    (runOn (opening config) s).2.stage
      = (runOn (sayHello (distinct config.capabilities)) s).2.stage := by
  unfold opening
  rcases runOn_bind_snd (sayHello (distinct config.capabilities))
    (fun _ => if config.withDefaults then reportDefaults true else pure ()) s with
    hend | ⟨_, -, hend⟩
  · exact congrArg stage hend
  · refine (congrArg stage hend).trans ?_
    split
    · rw [runOn_reportDefaults]
      split <;> rfl
    · rfl

/-- A session that is dropped is closed. -/
theorem stage_drop (s : Session) : s.drop.stage = .closed := by
  unfold drop
  split
  · next h => exact h
  · rfl

/-- No stage comes behind the last. -/
theorem rank_le_closed (stage : SessionStage) : stage.rank ≤ SessionStage.closed.rank := by
  cases stage <;> decide

/-- A list of stages in which none comes before an earlier one. -/
def Forward (stages : List SessionStage) : Prop := stages.Pairwise fun a b => a.rank ≤ b.rank

/-- What does not go back behind the last stage may follow it. -/
theorem Forward.snoc {stages : List SessionStage} {a b : SessionStage}
    (h : Forward (stages ++ [a])) (hab : a.rank ≤ b.rank) : Forward (stages ++ [a] ++ [b]) := by
  refine List.pairwise_append.2 ⟨h, List.pairwise_singleton _ _, fun c hc d hd => ?_⟩
  obtain rfl := List.mem_singleton.1 hd
  rcases List.mem_append.1 hc with hold | hlast
  · exact Nat.le_trans ((List.pairwise_append.1 h).2.2 c hold a List.mem_cons_self) hab
  · exact List.mem_singleton.1 hlast ▸ hab

/-- The stages that opening a session goes through: at the start, behind the own hello, behind the
server's hello, behind the whole exchange, and in the end, where a session that failed to open was
dropped. -/
def openingStages (transport : Transport) (config : Config) (defaults : Registry) :
    List SessionStage :=
  let s : Session := { transport, defaults, options := config.edit }
  [s.stage, (runOn (greet config) s).2.stage,
    (runOn (sayHello (distinct config.capabilities)) s).2.stage,
    (runOn (opening config) s).2.stage, (connect transport config defaults).2.stage]

/-- Opening a session never goes back. -/
theorem forward_openingStages (transport : Transport) (config : Config) (defaults : Registry) :
    Forward (openingStages transport config defaults) := by
  have hend : (runOn (opening config) { transport, defaults, options := config.edit }).2.stage.rank
      ≤ (connect transport config defaults).2.stage.rank := by
    rw [connect_eq]
    split
    · next h => rw [h]
    · rw [stage_drop]
      exact rank_le_closed _
  have hstart : Forward ([] ++ [SessionStage.init]) := List.pairwise_singleton _ _
  exact (((hstart.snoc (Nat.zero_le _)).snoc (rank_sayHello config _)).snoc
    (Nat.le_of_eq (congrArg _ (stage_opening config _).symm))).snoc hend

/-- An opened session is established, has the number of the server's hello, and nothing is being put
together. -/
theorem Opened.session {transport : Transport} {config : Config} {defaults : Registry}
    {hello : Hello} {s : Session} (h : Opened transport config defaults hello s) :
    s.stage = .established ∧ s.sessionId = hello.sessionId ∧ s.transport.pending = "" := by
  cases h with
  | @intro t t' _ _ _ hwrite hread _ _ _ =>
    have hpending := Transport.handOver_pending (ownHello config) transport
    have hsilent := Transport.sameOutput_receive t
    rw [ownHello, hwrite, Transport.open_of_handOver_ok hwrite] at hpending
    rw [hread] at hsilent
    exact ⟨rfl, rfl, hsilent.pending.trans hpending⟩

/-- What opening a session does. -/
structure Opens (transport : Transport) (config : Config) (defaults : Registry) : Prop where
  /-- The own hello is written, behind what the transport was given before. -/
  writes : transport.outbound.Wrote (transport.pending ++ ownHello config)
    (connect transport config defaults).2.transport.outbound
  /-- A session is handed out only if the first message that comes is a greeting. -/
  greeted : (connect transport config defaults).1 = .ok () →
    (connect transport config defaults).2.stage = .established ∧
      ∃ message d, transport.inbound.readMessage.1 = .ok message ∧
        Xml.parse defaults none message = .ok d ∧
        Greets d (connect transport config defaults).2.sessionId
  /-- A session is closed if it is not handed out. -/
  refused : (connect transport config defaults).1 ≠ .ok () →
    (connect transport config defaults).2.stage = .closed

/-- Opening a session greets, and hands the session out only for a greeting. -/
theorem opens (transport : Transport) (config : Config) (defaults : Registry) :
    Opens transport config defaults where
  writes := by
    have hwrote := Transport.wrote_handOver (ownHello config) transport
    rwa [← (sameOutput_connect transport config defaults).outbound] at hwrote
  greeted hok := by
    obtain ⟨hello, hopened⟩ := connect_ok (Prod.ext hok rfl)
    obtain ⟨message, d, hmessage, hparse, hread⟩ := hopened.message
    obtain ⟨hstage, hnumber, -⟩ := hopened.session
    exact ⟨hstage, message, d, hmessage, hparse, hnumber ▸ readHello_ok hread⟩
  refused herror := by
    rw [connect_eq] at herror ⊢
    split
    · next h => simp [h] at herror
    · exact stage_drop _

/-! ## Turns and runs -/

/-- What a turn keeps to. -/
structure Turn.Proper (turn : Turn) : Prop where
  /-- Nothing is written, or the request of an established session, which begins as no hello
  does. -/
  writes : turn.after.transport.outbound = turn.session.transport.outbound ∨
    ∃ r, turn.request? = some r ∧ turn.session.stage = .established ∧
      "<nc:rpc ".toList <+: r.text.toList ∧
      turn.session.transport.outbound.Wrote r.text turn.after.transport.outbound
  /-- The message of a request has no marker of its own in it, as long as the names in it have
  none. -/
  unmarked : turn.Guarded → ∀ r, turn.request? = some r → ¬ halfMarker.toList <:+: r.text.toList

/-- What a turn on a session that has ended comes to. -/
structure Turn.Idle (turn : Turn) : Prop where
  /-- The session is closed, and so is its transport. -/
  before : turn.session.Ended
  /-- They stay so. -/
  after : turn.after.Ended
  /-- Commands fail. -/
  command : ∀ c, turn.activity = .command c → ∃ e, turn.outcome = .error e
  /-- Waiting for a notification fails. -/
  notification : turn.activity = .notification →
    turn.outcome = .error (.session .transportClosed)
  /-- Nothing is read. -/
  inbound : turn.after.transport.inbound = turn.session.transport.inbound
  /-- Nothing is written. -/
  outbound : turn.after.transport.outbound = turn.session.transport.outbound

/-- The stages of the sessions that turns met and left behind. -/
def stagesOf (turns : List Turn) : List SessionStage :=
  turns.flatMap fun turn => [turn.session.stage, turn.after.stage]

/-- Every turn on a session with nothing put together is proper, unless the session is closed. -/
theorem Turn.proper {turn : Turn}
    (h : turn.session.stage = .closed ∨ turn.session.transport.pending = "") : turn.Proper where
  writes := by
    have hstep := step_act turn.activity turn.session
    cases hr : turn.request? with
    | none => exact .inl (hstep.silent hr).outbound
    | some r =>
      obtain ⟨c, -, hrequest⟩ := Activity.exists_of_request? hr
      have hstage := (request?_eq_some hrequest).1
      have hpending : turn.session.transport.pending = "" :=
        h.resolve_left (by rw [hstage]; decide)
      have hwrote := Transport.wrote_handOver r.text turn.session.transport
      rw [hpending, String.empty_append, ← (hstep.sameOutput hr).outbound] at hwrote
      exact .inr ⟨r, rfl, hstage, r.envelope_prefix, hwrote⟩
  unmarked hguarded := (Turn.framed_of_guarded hguarded).unmarked

/-- Every turn on a session that has ended is idle. -/
theorem Turn.idle {turn : Turn} (h : turn.session.Ended) : turn.Idle := by
  have hstep := step_act turn.activity turn.session
  obtain ⟨hafter, hinbound, houtput⟩ := hstep.ended h
  refine ⟨h, hafter, ?_, ?_, hinbound, houtput.outbound⟩
  · intro c hc
    obtain ⟨e, he⟩ := ((course_perform c turn.session).of_closed h.stage).1
    refine ⟨e, ?_⟩
    rw [outcome, hc, Activity.act, runOn_drop, he]
    rfl
  · intro hn
    rw [outcome, hn, Activity.act, runOn_drop, runOn_nextNotification, Transport.runOn_receive,
      if_pos h.transport]
    rfl

/-- A session whose end was answered has ended. -/
theorem Turn.ended_of_close {turn : Turn} (hclose : turn.activity = .command .closeSession)
    (hok : turn.outcome = .ok ()) : turn.after.Ended := by
  rw [outcome, hclose, Activity.act, runOn_drop] at hok
  rw [after, hclose, Activity.act, runOn_drop]
  have hcourse := course_perform .closeSession turn.session
  cases hanswer : (runOn (perform .closeSession) turn.session).1 with
  | error e => rw [hanswer] at hok; cases hok
  | ok a =>
    rw [hanswer] at hcourse
    exact ⟨hcourse.closes.1, hcourse.closes.2⟩

namespace Run

variable {s₀ s : Session} {turns : List Turn}

/-- Over a run the stages go on from those before. -/
theorem forward (hrun : Run s₀ turns s) {stages : List SessionStage}
    (h : Forward (stages ++ [s₀.stage])) :
    Forward (stages ++ [s₀.stage] ++ stagesOf turns ++ [s.stage]) := by
  -- on the run: the network leaves the stage, and a turn does not go back
  induction hrun with
  | start => simpa [stagesOf] using h.snoc (Nat.le_refl _)
  | meanwhile _ _ ih => exact ih
  | @turn turns s _ a ih =>
    have hturn := (ih.snoc (step_act a s).rank_le).snoc (Nat.le_refl _)
    simpa [stagesOf, Turn.after] using hturn

/-- Over a run from a session with nothing put together there never is anything, until the session
is closed. -/
theorem closed_or_pending (hrun : Run s₀ turns s)
    (h : s₀.stage = .closed ∨ s₀.transport.pending = "") :
    ∀ turn ∈ turns, turn.session.stage = .closed ∨ turn.session.transport.pending = "" := by
  refine (hrun.invariant (P := fun s => s.stage = .closed ∨ s.transport.pending = "") h
    (fun s t ht hs => hs.imp id ht.pending.trans) fun s a hs => ?_).2
  rcases hs with hclosed | hpending
  · have hrank := (step_act a s).rank_le
    rw [hclosed] at hrank
    left
    revert hrank
    cases (runOn a.act s).2.stage <;> decide
  · exact .inr ((step_act a s).pending hpending)

/-- Behind the turn that ended a session every turn meets an ended session, and nothing more is
written. -/
theorem ended (hrun : Run s₀ turns s) {before later : List Turn} {last : Turn}
    (hturns : turns = before ++ last :: later) (hlast : last.after.Ended) :
    s.Ended ∧ (∀ turn ∈ later, turn.session.Ended)
      ∧ s.transport.outbound.written = last.after.transport.outbound.written := by
  induction hrun generalizing later with
  | start => simp at hturns
  | meanwhile _ ht ih =>
    obtain ⟨hs, hlater, hwritten⟩ := ih hturns
    exact ⟨⟨hs.stage, ht.closed hs.transport⟩, hlater, ht.written.trans hwritten⟩
  | @turn turns s _ a ih =>
    rcases List.eq_nil_or_concat later with rfl | ⟨others, turn, rfl⟩
    · obtain ⟨-, hnew⟩ := List.append_inj' hturns rfl
      obtain rfl := (List.cons.inj hnew).1
      exact ⟨hlast, by simp, rfl⟩
    · have hsplit : turns ++ [⟨a, s⟩] = (before ++ last :: others) ++ [turn] := by
        rw [hturns, List.concat_eq_append, List.append_assoc, List.cons_append]
      obtain ⟨hold, hnew⟩ := List.append_inj' hsplit rfl
      obtain rfl := (List.cons.inj hnew).1
      obtain ⟨hs, hothers, hwritten⟩ := ih hold
      obtain ⟨hafter, -, houtput⟩ := (step_act a s).ended hs
      refine ⟨hafter, fun turn hturn => ?_, ?_⟩
      · rw [List.concat_eq_append] at hturn
        rcases List.mem_append.1 hturn with hmem | hmem
        · exact hothers turn hmem
        · exact List.mem_singleton.1 hmem ▸ hs
      · exact (congrArg Outbound.written houtput.outbound).trans hwritten

end Run

/-- The lifecycle of a session, over every transport, configuration and run from the opening on.
Opening it writes its hello and hands the session out only for a greeting of the server. After that
only requests of the established session are written, none of which is a hello. The stage never
goes back, also when the session is dropped in the end. Behind a turn in which the session was
closed, every command and every wait for a notification fails, and nothing is read or written. -/
theorem Run.lifecycle {transport : Transport} {config : Config} {defaults : Registry} {s : Session}
    {turns : List Turn} (hrun : Run (connect transport config defaults).2 turns s) :
    Opens transport config defaults
      ∧ (∀ turn ∈ turns, turn.Proper)
      ∧ Forward (openingStages transport config defaults ++ stagesOf turns
          ++ [s.stage, s.drop.stage])
      ∧ ∀ before later last, turns = before ++ last :: later →
          last.activity = .command .closeSession → last.outcome = .ok () →
          s.Ended ∧ (∀ turn ∈ later, turn.Idle)
            ∧ s.transport.outbound.written = last.after.transport.outbound.written := by
  have hopens := opens transport config defaults
  have hstart : (connect transport config defaults).2.stage = .closed
      ∨ (connect transport config defaults).2.transport.pending = "" := by
    by_cases hok : (connect transport config defaults).1 = .ok ()
    · obtain ⟨hello, hopened⟩ := connect_ok (Prod.ext hok rfl)
      exact .inr hopened.session.2.2
    · exact .inl (hopens.refused hok)
  refine ⟨hopens, fun turn hturn => Turn.proper (hrun.closed_or_pending hstart turn hturn), ?_, ?_⟩
  · have hsplit : openingStages transport config defaults
        = (openingStages transport config defaults).dropLast
          ++ [(connect transport config defaults).2.stage] := rfl
    have hopening := forward_openingStages transport config defaults
    rw [hsplit] at hopening
    have hforward := hrun.forward hopening
    have hdropped := hforward.snoc (b := s.drop.stage) (by rw [stage_drop]; exact rank_le_closed _)
    simpa [openingStages] using hdropped
  · intro before later last hturns hclose hok
    obtain ⟨hs, hlater, hwritten⟩ := hrun.ended hturns (Turn.ended_of_close hclose hok)
    exact ⟨hs, fun turn hturn => Turn.idle (hlater turn hturn), hwritten⟩

/-! ## A session that is used after its end -/

/-- A session to which two replies and a notification are on their way. -/
def closingSession : Session := expectingSession
  [served (okReply "1"), served (okReply "2"), served "<notification/>"]

/-- A commit, the end of the session, and two attempts to go on. -/
def closingActivities : List Activity :=
  [.command .commit, .command .closeSession, .command .commit, .notification]

/-- The turns of these activities. -/
def closingTurns : List Turn := takeTurns closingSession closingActivities

/-- The commit succeeds before the end of the session and fails behind it, and the notification is
not read. -/
theorem Run.lifecycle_closingTurns :
    Run (connect candidateServer {} (.standard 0)).2 closingTurns
        (behindTurns closingSession closingActivities)
      ∧ closingTurns.map (·.outcome.isOk) = [true, true, false, false]
      ∧ Forward (openingStages candidateServer {} (.standard 0) ++ stagesOf closingTurns
          ++ [SessionStage.closed, .closed])
      ∧ (∀ turn ∈ closingTurns, turn.Proper) ∧ ∀ turn ∈ closingTurns.drop 2, turn.Idle := by
  have hrun : Run (connect candidateServer {} (.standard 0)).2 closingTurns
      (behindTurns closingSession closingActivities) := by
    rw [connect_candidateServer]
    exact (Run.expecting _).taking closingActivities
  obtain ⟨-, hproper, hforward, hclosed⟩ := Run.lifecycle hrun
  have houtcomes : closingTurns.map (·.outcome.isOk) = [true, true, false, false] := by
    decide +kernel
  obtain ⟨first, last, later, hturns, hclose, hok⟩ : ∃ first last later,
      closingTurns = first :: last :: later ∧ last.activity = .command .closeSession
        ∧ last.outcome.isOk = true :=
    ⟨_, _, _, rfl, rfl, by decide +kernel⟩
  obtain ⟨hs, hidle, -⟩ := hclosed [first] later last hturns hclose (eq_ok_of_isOk hok)
  rw [stage_drop, hs.stage] at hforward
  refine ⟨hrun, houtcomes, hforward, hproper, ?_⟩
  rw [hturns]
  exact hidle

end Session

end Netconf
