import Netconf.Proofs.Frame.Messages
import Netconf.Proofs.Session.Bodies

/-!
# Requests and frames

No request breaks the framing. Whatever texts a session is given, its hello and its requests do not
contain the first half of a marker, as long as the names in the trees that commands take are guarded
(`Turn.Guarded`). So each message that the transport takes is one frame more (`Turn.Framed`), and
who reads what was written gets the hello and then the requests, one frame each
(`Run.keeps_framing`).

The invariant of a run is that nothing is being put together between two turns: a message that is
handed over goes out alone.
-/

namespace Netconf

namespace Transport

/-- An open transport starts anew behind a message, whether it was written or not. -/
theorem handOver_pending (text : String) (t : Transport) :
    (runOn (handOver text) t).2.pending = if t.closed then t.pending else "" := by
  rw [runOn_handOver]
  split
  · rfl
  · rw [runOn_send]
    split <;> rfl

/-- A message that a transport took is one frame more, if nothing was put together before. -/
theorem handOver_written {text : String} {t : Transport} (hpending : t.pending = "")
    (h : (runOn (handOver text) t).1 = .ok ()) :
    (runOn (handOver text) t).2.outbound.written
      = t.outbound.written ++ Outbound.framed [text] := by
  rw [runOn_handOver, hpending, String.empty_append] at h ⊢
  split at h
  · cases h
  · next hopen =>
    rw [if_neg hopen]
    rw [runOn_send] at h ⊢
    split at h
    · next hwrite => exact Outbound.written_of_writeMessage hwrite
    · cases h

/-- From one transport to another a message became one frame more, if the first takes it and nothing
was put together there before. -/
def AddsFrame (t : Transport) (text : String) (t' : Transport) : Prop :=
  t.pending = "" → (runOn (handOver text) t).1 = .ok () →
    t'.outbound.written = t.outbound.written ++ Outbound.framed [text]

/-- What writes as much as handing a message over adds the frame of the message. -/
theorem SameOutput.addsFrame {text : String} {t t' : Transport}
    (h : (runOn (handOver text) t).2.SameOutput t') : t.AddsFrame text t' := by
  intro hpending htaken
  rw [h.outbound]
  exact handOver_written hpending htaken

end Transport

namespace Session

/-! ## What is written to open a session -/

section

variable {α β : Type}

/-- An action that writes nothing. -/
def Silent (x : Exchange α) : Prop :=
  ∀ s : Session, s.transport.SameOutput (runOn x s).2.transport

/-- Silent actions one after the other are silent. -/
theorem Silent.bind {x : Exchange α} {f : α → Exchange β} (hx : Silent x)
    (hf : ∀ a, Silent (f a)) : Silent (x >>= f) := by
  intro s
  have hfirst := hx s
  rw [runOn_bind]
  split
  · next a s' h =>
    rw [h] at hfirst
    exact hfirst.trans (hf a s')
  · next h => rwa [h] at hfirst

/-- Changing what the session knows is silent. -/
theorem silent_modify {f : Session → Session} (h : ∀ s, (f s).transport = s.transport) :
    Silent (modify f) := by
  intro s
  rw [runOn_modify, h]
  exact .refl _

/-- Taking over an outcome is silent. -/
theorem silent_ofExcept (outcome : Except Error α) : Silent (ofExcept outcome) := by
  intro s
  rw [runOn_ofExcept]
  exact .refl _

/-- Receiving is silent. -/
theorem silent_receive : Silent (onTransport Transport.receive) := by
  intro s
  rw [runOn_onTransport]
  exact Transport.sameOutput_receive _

/-- Reading a document is silent. -/
theorem silent_readDocument (message : String) : Silent (readDocument message) := by
  intro s
  rw [runOn_readDocument]
  exact .refl _

/-- Setting whether default values are asked for is silent. -/
theorem silent_reportDefaults (on : Bool) : Silent (reportDefaults on) := by
  intro s
  rw [runOn_reportDefaults]
  split <;> exact .refl _

/-- Of a message and what follows silently, the message is written. -/
theorem sameOutput_of_silent {next : Exchange α} (hnext : Silent next) (text : String)
    (s : Session) :
    (runOn (Transport.handOver text) s.transport).2.SameOutput
      (runOn (do onTransport (Transport.handOver text); next) s).2.transport := by
  rw [runOn_bind, runOn_onTransport]
  cases (runOn (Transport.handOver text) s.transport).1 with
  | error e => exact .refl _
  | ok _ => exact hnext { s with transport := (runOn (Transport.handOver text) s.transport).2 }

end

/-- The hello with which a session of a configuration is opened. -/
def ownHello (config : Config) : String := helloText (distinct config.capabilities)

/-- The exchange that opens a session writes the own hello, whatever comes back. -/
theorem sameOutput_opening (config : Config) (s : Session) :
    (runOn (Transport.handOver (ownHello config)) s.transport).2.SameOutput
      (runOn (opening config) s).2.transport := by
  unfold opening sayHello
  rw [print_flush]
  simp only [bind_assoc]
  -- behind the hello the exchange only reads and sets what the session knows
  refine sameOutput_of_silent ?_ _ _
  refine Silent.bind (silent_modify (by intro; rfl)) fun _ => ?_
  refine silent_receive.bind fun message => ?_
  refine (silent_readDocument message).bind fun d => ?_
  refine (silent_ofExcept _).bind fun hello => ?_
  refine Silent.bind (silent_modify (by intro; rfl)) fun _ => ?_
  split
  · exact silent_reportDefaults true
  · exact fun _ => .refl _

/-- Opening a session writes the own hello, whether the session is opened or dropped. -/
theorem sameOutput_connect (transport : Transport) (config : Config) (defaults : Registry) :
    (runOn (Transport.handOver (ownHello config)) transport).2.SameOutput
      (connect transport config defaults).2.transport := by
  have hopening := sameOutput_opening config { transport, defaults, options := config.edit }
  rw [connect_eq]
  split
  · next hopened => rwa [hopened] at hopening
  · next s hopened =>
    rw [hopened] at hopening
    have hdrop : s.transport.SameOutput s.drop.transport := by
      unfold drop
      split <;> exact ⟨rfl, rfl⟩
    exact hopening.trans hdrop

/-- Opening a session adds the frame of the own hello. -/
theorem addsFrame_connect (transport : Transport) (config : Config) (defaults : Registry) :
    transport.AddsFrame (ownHello config) (connect transport config defaults).2.transport :=
  (sameOutput_connect transport config defaults).addsFrame

/-! ## What turns write -/

/-- The names in the trees of a turn's command are guarded. -/
def Turn.Guarded (turn : Turn) : Prop :=
  ∀ c, turn.activity = .command c →
    ∀ selection ∈ c.selections, selection.Guarded turn.session.defaults

/-- The message that a turn hands to an open transport, if it hands one over. -/
def Turn.message? (turn : Turn) : Option String :=
  if turn.session.transport.closed then none else turn.request?.map Request.text

/-- The transport takes what a turn hands over. -/
def Turn.Delivered (turn : Turn) : Prop :=
  ∀ text ∈ turn.message?, (runOn (Transport.handOver text) turn.session.transport).1 = .ok ()

/-- What a turn has to do with frames. -/
structure Turn.Framed (turn : Turn) : Prop where
  /-- Without a request nothing is written. -/
  silent : turn.request? = none →
    turn.after.transport.outbound = turn.session.transport.outbound
  /-- The message of a request does not contain the first half of a marker. -/
  unmarked : ∀ r, turn.request? = some r → ¬ halfMarker.toList <:+: r.text.toList
  /-- A request that the transport takes is one frame more, and where nothing was put together
  before, its message is all of the frame. -/
  frame : ∀ r, turn.request? = some r → turn.session.transport.pending = "" →
    (runOn (Transport.handOver r.text) turn.session.transport).1 = .ok () →
    turn.after.transport.outbound.written
      = turn.session.transport.outbound.written ++ Outbound.framed [r.text]

/-- A turn leaves nothing that is being put together. -/
theorem Step.pending {a : Activity} {s s' : Session} {outcome : Except Error Unit}
    (h : Step s a outcome s') (hpending : s.transport.pending = "") :
    s'.transport.pending = "" := by
  cases hr : a.request? s with
  | none => exact (h.silent hr).pending.trans hpending
  | some r =>
    rw [(h.sameOutput hr).pending, Transport.handOver_pending]
    split
    · exact hpending
    · rfl

/-- Over a run nothing is being put together between turns. -/
theorem Run.pending {s₀ s : Session} {turns : List Turn} (hrun : Run s₀ turns s)
    (hpending : s₀.transport.pending = "") : s.transport.pending = "" :=
  (hrun.invariant (P := fun s => s.transport.pending = "") hpending
    (fun _ _ ht h => ht.pending.trans h) fun s a h => (step_act a s).pending h).1

/-- A turn with guarded names writes frames only. -/
theorem Turn.framed_of_guarded {turn : Turn} (h : turn.Guarded) : turn.Framed := by
  have hstep := step_act turn.activity turn.session
  refine ⟨fun hr => (hstep.silent hr).outbound, fun r hr => ?_,
    fun r hr => (hstep.sameOutput hr).addsFrame⟩
  obtain ⟨c, hactivity, hrequest⟩ := Activity.exists_of_request? hr
  exact (sealed_request hrequest (h c hactivity)).tame.not_infix

/-- What a turn writes is the message that the transport took, if there is one, as a frame. -/
theorem Turn.written {turn : Turn} (hpending : turn.session.transport.pending = "")
    (hdelivered : turn.Delivered) :
    turn.after.transport.outbound.written
      = turn.session.transport.outbound.written ++ Outbound.framed turn.message?.toList := by
  have hstep := step_act turn.activity turn.session
  have hnothing : turn.session.transport.outbound.written
      = turn.session.transport.outbound.written ++ Outbound.framed [] := by
    simp [Outbound.framed]
  cases hr : turn.request? with
  | none =>
    have hmessage : turn.message? = none := by simp [message?, hr]
    have houtbound : turn.after.transport.outbound = turn.session.transport.outbound :=
      (hstep.silent hr).outbound
    rw [hmessage, houtbound]
    exact hnothing
  | some r =>
    have hsame : (runOn (Transport.handOver r.text) turn.session.transport).2.SameOutput
        turn.after.transport := hstep.sameOutput hr
    -- a closed transport refuses the request, an open one takes it by assumption
    cases hclosed : turn.session.transport.closed with
    | true =>
      have hmessage : turn.message? = none := by simp [message?, hclosed]
      rw [hsame.outbound, hmessage, Transport.runOn_handOver, if_pos hclosed]
      exact hnothing
    | false =>
      have hmessage : turn.message? = some r.text := by simp [message?, hclosed, hr]
      rw [hmessage]
      exact hsame.addsFrame hpending (hdelivered r.text hmessage)

/-- What is written over a run are the messages that the transport took, each as a frame. -/
theorem Run.written {s₀ s : Session} {turns : List Turn} (hrun : Run s₀ turns s)
    (hpending : s₀.transport.pending = "") (hdelivered : ∀ turn ∈ turns, turn.Delivered) :
    s.transport.outbound.written
      = s₀.transport.outbound.written ++ Outbound.framed (turns.filterMap Turn.message?) := by
  -- on the run: the network writes nothing, and a turn adds its own frame behind the others
  induction hrun with
  | start => simp [Outbound.framed]
  | meanwhile _ ht ih => exact ht.written.trans (ih hdelivered)
  | @turn turns s hrun a ih =>
    obtain ⟨hbefore, hlast⟩ := List.forall_mem_append.1 hdelivered
    have hempty := hrun.pending hpending
    have hturn := @Turn.written ⟨a, s⟩ hempty (hlast _ List.mem_cons_self)
    rw [filterMap_snoc, Outbound.framed_append, ← String.append_assoc, ← ih hbefore]
    exact hturn

/-- A message of a turn is the text of its request. -/
theorem exists_of_message? {turn : Turn} {text : String} (h : turn.message? = some text) :
    ∃ r, turn.request? = some r ∧ r.text = text := by
  unfold Turn.message? at h
  split at h
  · cases h
  · exact Option.map_eq_some_iff.1 h

/-- The messages of a run: the own hello, and then what the turns hand over. -/
def messages (config : Config) (turns : List Turn) : List String :=
  ownHello config :: turns.filterMap Turn.message?

/-- Over every run from the opening of a session on, no message has the first half of a marker, and
every request that the transport takes is one frame. Where it takes them all, a reader of what was
written gets the hello and then each request, behind the line end of the message before. -/
theorem Run.keeps_framing {transport : Transport} {config : Config} {defaults : Registry}
    {s : Session} {turns : List Turn} (hrun : Run (connect transport config defaults).2 turns s)
    (hguarded : ∀ turn ∈ turns, turn.Guarded) :
    ¬ halfMarker.toList <:+: (ownHello config).toList
      ∧ (∀ turn ∈ turns, turn.Framed)
      ∧ (transport.pending = "" →
          (runOn (Transport.handOver (ownHello config)) transport).1 = .ok () →
          (∀ turn ∈ turns, turn.Delivered) →
          s.transport.outbound.written
              = transport.outbound.written ++ Outbound.framed (messages config turns)
            ∧ ∀ ds, Steady ds →
                Text.bytes transport.outbound.written ++ ds.flatMap Delivery.content
                  = Text.bytes s.transport.outbound.written →
                Inbound.outcomes ((messages config turns).length + 1) (.ofDeliveries ds)
                  = (behindLineEnds (messages config turns)).map .ok
                    ++ [.error (.session (.endOfStream 1))]) := by
  have hhello : ¬ halfMarker.toList <:+: (ownHello config).toList :=
    (sealed_helloText (distinct config.capabilities)).tame.not_infix
  have hframed : ∀ turn ∈ turns, turn.Framed :=
    fun turn hturn => Turn.framed_of_guarded (hguarded turn hturn)
  refine ⟨hhello, hframed, fun hpending hsaid hdelivered => ?_⟩
  have hopened := sameOutput_connect transport config defaults
  have hempty : (connect transport config defaults).2.transport.pending = "" := by
    rw [hopened.pending, Transport.handOver_pending, hpending]
    split <;> rfl
  have hwritten : s.transport.outbound.written
      = transport.outbound.written ++ Outbound.framed (messages config turns) := by
    have hfirst := addsFrame_connect transport config defaults hpending hsaid
    rw [hrun.written hempty hdelivered, hfirst, String.append_assoc, ← Outbound.framed_append]
    rfl
  refine ⟨hwritten, fun ds hds hbytes => ?_⟩
  -- no message contains half a marker, so each marker that is written ends a message
  have hframable : ∀ text ∈ messages config turns, Framable text := by
    refine List.forall_mem_cons.2 ⟨framable_of_unmarked hhello, fun text htext => ?_⟩
    obtain ⟨turn, hturn, hmessage⟩ := List.mem_filterMap.1 htext
    obtain ⟨r, hr, rfl⟩ := exists_of_message? hmessage
    exact framable_of_unmarked ((hframed turn hturn).unmarked r hr)
  -- the deliveries bring what was written since the opening
  have hcontent :
      ds.flatMap Delivery.content = Text.bytes (Outbound.framed (messages config turns)) := by
    rw [hwritten, Text.bytes_append] at hbytes
    exact List.append_cancel_left hbytes
  exact Inbound.outcomes_framed hframable (Inbound.steady_ofDeliveries hds)
    ((Inbound.content_ofDeliveries ds).trans hcontent) 1

/-! ## Texts with markers -/

/-- An element with a marker in its namespace, its attribute and its value. -/
def markedElement : Element where
  ns := some endOfMessage
  name := "note"
  attributes := [⟨none, "by", endOfMessage⟩]
  value := some (.text endOfMessage)

/-- A tree of this element. -/
def markedTree : Tree where
  nodes := #[{ element := markedElement }]
  defaults := .standard 0

/-- Two commands that send this tree. -/
def markedActivities : List Activity :=
  [.command (.editConfig .candidate ⟨markedTree, [0]⟩), .command (.rpc markedTree 0)]

/-- A session to which the replies to these commands are on their way. -/
def markedSession : Session := expectingSession [served (okReply "1"), served (okReply "2")]

/-- The turns of these commands. -/
def markedTurns : List Turn := takeTurns markedSession markedActivities

/-- The names in the tree are guarded. -/
theorem guarded_markedTree : (Selection.mk markedTree [0]).Guarded (.standard 0) := by
  intro id hid
  obtain rfl := List.mem_singleton.1 hid
  have helement : markedElement.Guarded :=
    { name := by decide
      attributes := List.forall_mem_singleton.2 (by decide)
      bindings := fun _ hlabel => nomatch hlabel }
  have hbranch : (markedTree.refresh (.standard 0)).branch 0 = .mk 0 markedElement [] := rfl
  refine ⟨?_, (fun _ hp => nomatch hp), ?_⟩
  · change ((markedTree.refresh (.standard 0)).branch 0).All _
    rw [hbranch]
    exact Branch.all_iff.2 ⟨helement, fun _ hc => nomatch hc⟩
  · have hlabels : ∀ label ∈ ["nc", "pl", "ncn"], Text.Guarded label := by decide
    exact hlabels

/-- The default bindings stay as they are, and the transport takes both messages. -/
theorem markedTurns_sent :
    (∀ turn ∈ markedTurns, turn.session.defaults = .standard 0)
      ∧ (∀ turn ∈ markedTurns, ∀ text ∈ turn.message?,
          (runOn (Transport.handOver text) turn.session.transport).1.isOk = true)
      ∧ (messages {} markedTurns).length = 3 := by decide +kernel

/-- The turns send trees with guarded names only. -/
theorem guarded_markedTurns : ∀ turn ∈ markedTurns, turn.Guarded := by
  have hselections : ∀ a ∈ markedActivities, ∀ c, a = .command c →
      ∀ selection ∈ c.selections, selection = ⟨markedTree, [0]⟩ := by
    intro a ha c hc selection hselection
    simp only [markedActivities, List.mem_cons, List.not_mem_nil, or_false] at ha
    rcases ha with rfl | rfl
    all_goals
      obtain rfl := Activity.command.inj hc
      exact List.mem_singleton.1 hselection
  intro turn hturn c hc selection hselection
  have hactivity : turn.activity ∈ markedActivities := by
    have hmem := List.mem_map_of_mem (f := Turn.activity) hturn
    rwa [markedTurns, activities_takeTurns] at hmem
  rw [markedTurns_sent.1 turn hturn, hselections _ hactivity c hc selection hselection]
  exact guarded_markedTree

/-- What two requests with markers in their tree leave on the stream of the session. -/
def markedStream : String :=
  (behindTurns markedSession markedActivities).transport.outbound.written

/-- The markers in the tree are read as parts of the messages, of which there are three. -/
theorem Run.keeps_framing_markedTurns :
    Run (connect candidateServer {} (.standard 0)).2 markedTurns
        (behindTurns markedSession markedActivities)
      ∧ (∀ turn ∈ markedTurns, turn.Guarded ∧ turn.Delivered ∧ turn.Framed)
      ∧ (messages {} markedTurns).length = 3
      ∧ Inbound.outcomes 4 (.ofDeliveries [.bytes (Text.bytes markedStream)])
          = (behindLineEnds (messages {} markedTurns)).map .ok
            ++ [.error (.session (.endOfStream 1))] := by
  obtain ⟨-, htaken, hlength⟩ := markedTurns_sent
  have hdelivered : ∀ turn ∈ markedTurns, turn.Delivered :=
    fun turn hturn text htext => eq_ok_of_isOk (htaken turn hturn text htext)
  have hrun : Run (connect candidateServer {} (.standard 0)).2 markedTurns
      (behindTurns markedSession markedActivities) := by
    rw [connect_candidateServer]
    exact (Run.expecting _).taking markedActivities
  have hsaid : (runOn (Transport.handOver (ownHello {})) candidateServer).1 = .ok () :=
    eq_ok_of_isOk (by decide +kernel)
  obtain ⟨-, hframed, hread⟩ := Run.keeps_framing hrun guarded_markedTurns
  obtain ⟨-, houtcomes⟩ := hread rfl hsaid hdelivered
  have hbytes : Text.bytes candidateServer.outbound.written
      ++ [Delivery.bytes (Text.bytes markedStream)].flatMap Delivery.content
        = Text.bytes markedStream := by
    simp [Delivery.content, candidateServer]
    rfl
  have hnow := houtcomes [.bytes (Text.bytes markedStream)] (by simp [Steady]) hbytes
  rw [hlength] at hnow
  exact ⟨hrun, fun turn hturn => ⟨guarded_markedTurns turn hturn, hdelivered turn hturn,
    hframed turn hturn⟩, hlength, hnow⟩

end Session

end Netconf
