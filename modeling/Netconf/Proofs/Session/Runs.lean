import Netconf.Proofs.Session.Courses
import Netconf.Proofs.Text.Bytes

/-!
# Runs of a session

A session is opened by the exchange of hellos and then used for one activity after the other, while
the peer and the network do as they like with the transport between any two of them. `connect_ok`
says what an opened session has been through, and `Run` collects what may follow, as the list of the
turns taken. A statement about runs is proved by `Run.invariant`: it holds at the start, and neither
the network nor a turn breaks it.

The requests of a run are numbered one by one (`Run.numbers`), whatever becomes of them.
-/

namespace Netconf

namespace Session

/-! ## Opening a session -/

/-- The sessions that the exchange of hellos over a transport leads to: the own hello was written,
the first message that came is the server's hello, and reporting defaults was asked for only if the
server can do it. -/
inductive Opened (transport : Transport) (config : Config) (defaults : Registry) :
    Hello → Session → Prop where
  /-- Both sides have said hello. -/
  | intro {t t' : Transport} {text : String} {d : Document} {hello : Hello}
    (hwrite :
      runOn (Transport.handOver (helloText (distinct config.capabilities))) transport = (.ok (), t))
    (hread : runOn Transport.receive t = (.ok text, t'))
    (hdoc : Xml.parse defaults none text = .ok d)
    (hhello : readHello d = .ok hello)
    (hreport : config.withDefaults = true → hello.capabilities.has .withDefaults = true) :
    Opened transport config defaults hello
      { transport := t', stage := .established, sessionId := hello.sessionId,
        capabilities := hello.capabilities, defaults, options := config.edit,
        withDefaults := if config.withDefaults then some true else none }

/-- Saying hello writes the own hello, waits for one message and reads it as the server's hello. -/
theorem sayHello_ok {capabilities : List String} {s s' : Session}
    (h : runOn (sayHello capabilities) s = (.ok (), s')) :
    ∃ t t' text d hello,
      runOn (Transport.handOver (helloText capabilities)) s.transport = (.ok (), t)
        ∧ runOn Transport.receive t = (.ok text, t')
        ∧ Xml.parse s.defaults s.schema text = .ok d ∧ readHello d = .ok hello
        ∧ s' = { s with
            transport := t', stage := .established, capabilities := hello.capabilities,
            sessionId := hello.sessionId } := by
  unfold sayHello at h
  rw [print_flush] at h
  obtain ⟨_, _, hhand, h⟩ := exists_of_runOn_bind h
  obtain ⟨t, hwrite, rfl⟩ := exists_of_onTransport hhand
  rw [runOn_bind_of_ok (runOn_modify _ _)] at h
  obtain ⟨text, _, hcome, h⟩ := exists_of_runOn_bind h
  obtain ⟨t', hread, rfl⟩ := exists_of_onTransport hcome
  obtain ⟨d, _, hparse, h⟩ := exists_of_runOn_bind h
  rw [runOn_readDocument] at hparse
  obtain ⟨hdoc, rfl⟩ := Prod.mk.inj hparse
  obtain ⟨hello, _, htake, h⟩ := exists_of_runOn_bind h
  rw [runOn_ofExcept] at htake
  obtain ⟨hhello, rfl⟩ := Prod.mk.inj htake
  rw [runOn_modify] at h
  exact ⟨t, t', text, d, hello, hwrite, hread, hdoc, hhello, (Prod.mk.inj h).2.symm⟩

/-- Asking for default values needs the server's capability, and changes nothing else. -/
theorem runOn_reportDefaults (on : Bool) (s : Session) :
    runOn (reportDefaults on) s =
      if s.capabilities.has .withDefaults then (.ok (), { s with withDefaults := some on })
      else (.error (.session (.capability Feature.withDefaults.capabilityName)), s) := by
  unfold reportDefaults
  rw [runOn_bind_of_ok (runOn_get s), runOn_bind, runOn_ofExcept]
  unfold Terms.require
  by_cases hhas : s.terms.capabilities.has .withDefaults
  · rw [if_pos hhas, if_pos (show s.capabilities.has .withDefaults = true from hhas)]
    exact runOn_modify _ s
  · rw [if_neg hhas, if_neg (show ¬ s.capabilities.has .withDefaults = true from hhas)]

/-- The exchange that opens a session. -/
def opening (config : Config) : Exchange Unit := do
  sayHello (distinct config.capabilities)
  if config.withDefaults then reportDefaults true

/-- Opening a session is that exchange, and a session that fails to open is dropped. -/
theorem connect_eq (transport : Transport) (config : Config) (defaults : Registry) :
    connect transport config defaults =
      match runOn (opening config) { transport, defaults, options := config.edit } with
      | (.ok _, s) => (.ok (), s)
      | (.error e, s) => (.error e, s.drop) := by
  unfold connect runOn
  generalize hopening : opening config { transport, defaults, options := config.edit } = ending
  unfold opening at hopening
  simp only [hopening]
  cases ending <;> rfl

/-- A session that was opened has gone through the whole exchange. -/
theorem runOn_opening_of_connect {transport : Transport} {config : Config} {defaults : Registry}
    {s : Session} (h : connect transport config defaults = (.ok (), s)) :
    runOn (opening config) { transport, defaults, options := config.edit } = (.ok (), s) := by
  rw [connect_eq] at h
  split at h
  · next s' hopening =>
    obtain rfl := (Prod.mk.inj h).2
    exact hopening
  · cases h

/-- What an opened session has been through. -/
theorem connect_ok {transport : Transport} {config : Config} {defaults : Registry} {s : Session}
    (h : connect transport config defaults = (.ok (), s)) :
    ∃ hello, Opened transport config defaults hello s := by
  obtain ⟨_, _, hhello, hreport⟩ := exists_of_runOn_bind (runOn_opening_of_connect h)
  obtain ⟨t, t', text, d, hello, hwrite, hread, hdoc, hsaid, rfl⟩ := sayHello_ok hhello
  refine ⟨hello, ?_⟩
  by_cases hask : config.withDefaults = true
  · rw [if_pos hask, runOn_reportDefaults] at hreport
    split at hreport
    · next hhas =>
      obtain rfl := (Prod.mk.inj hreport).2
      have hopened : Opened transport config defaults hello _ :=
        .intro hwrite hread hdoc hsaid fun _ => hhas
      rw [if_pos hask] at hopened
      exact hopened
    · cases hreport
  · rw [if_neg hask, runOn_pure] at hreport
    obtain rfl := (Prod.mk.inj hreport).2
    have hopened : Opened transport config defaults hello _ :=
      .intro hwrite hread hdoc hsaid fun h => absurd h hask
    rw [if_neg hask] at hopened
    exact hopened

/-- An opened session has read the server's hello as the first message that came. -/
theorem Opened.message {transport : Transport} {config : Config} {defaults : Registry}
    {hello : Hello} {s : Session} (h : Opened transport config defaults hello s) :
    ∃ message d, transport.inbound.readMessage.1 = .ok message
      ∧ Xml.parse defaults none message = .ok d ∧ readHello d = .ok hello := by
  cases h with
  | intro hwrite hread hdoc hhello _ =>
    have hmessage := Transport.readMessage_of_exchange hwrite hread
    exact ⟨_, _, by rw [hmessage], hdoc, hhello⟩

/-! ## Activities -/

/-- What can be done with a session. -/
inductive Activity where
  /-- A command is carried out. -/
  | command (c : Command)
  /-- A notification is waited for. -/
  | notification
  /-- It is set whether default values are asked for. -/
  | reportDefaults (on : Bool)
  /-- The options of edits are set. -/
  | setOptions (options : EditOptions)
  /-- The schema of the retrieved data is set. -/
  | setSchema (schema : Schema)
  /-- A default binding is added, by whoever shares those of the session. -/
  | register (b : Binding)
  /-- It is asked whether bytes are there. -/
  | ready

namespace Activity

/-- The effect of an activity on the session. -/
def act : Activity → Exchange Unit
  | command c => perform c >>= fun _ => pure ()
  | notification => nextNotification >>= fun _ => pure ()
  | reportDefaults on => Session.reportDefaults on
  | setOptions options => modify fun s => { s with options }
  | setSchema schema => modify fun s => { s with schema := some schema }
  | register b => Session.register (some b)
  | ready => onTransport Transport.ready >>= fun _ => pure ()

/-- The request that an activity becomes, if it becomes one. -/
def request? (a : Activity) (s : Session) : Option Request :=
  match a with
  | command c => s.request? c
  | _ => none

end Activity

/-- Only commands become requests. -/
theorem Activity.exists_of_request? {a : Activity} {s : Session} {r : Request}
    (h : a.request? s = some r) : ∃ c, a = .command c ∧ s.request? c = some r := by
  cases a with
  | command c => exact ⟨c, rfl, h⟩
  | _ => cases h

/-- The document of a message that came, if it is a notification. -/
def notificationOf (s : Session) (message : String) : Except Error Document := do
  let d ← Xml.parse s.defaults s.schema message
  if d.tree.name d.root = "notification" then return d else throw (.notification message)

/-- Waiting for a notification receives one message. -/
theorem runOn_nextNotification (s : Session) :
    runOn nextNotification s =
      let received := runOn Transport.receive s.transport
      (received.1.bind s.notificationOf, { s with transport := received.2 }) := by
  unfold nextNotification
  rw [runOn_bind, runOn_onTransport]
  cases runOn Transport.receive s.transport with
  | mk outcome t =>
    cases outcome with
    | error e => rfl
    | ok message =>
      dsimp only [Except.bind]
      rw [runOn_bind, runOn_readDocument]
      unfold notificationOf
      cases Xml.parse s.defaults s.schema message with
      | error e => rfl
      | ok d =>
        simp only [bind, Except.bind]
        split <;> rfl

/-- The ways in which an activity can go on a session: its outcome, and the session afterwards. -/
inductive Step (s : Session) : Activity → Except Error Unit → Session → Prop where
  /-- A command takes one of its courses. -/
  | command {c : Command} {outcome : Except Error Answer} {s' : Session}
    (h : Course c s outcome s') : Step s (.command c) (outcome.map fun _ => ()) s'
  /-- A message is received, and should be a notification. -/
  | notification {received : Except Error String} {t : Transport}
    (h : runOn Transport.receive s.transport = (received, t)) :
    Step s .notification ((received.bind s.notificationOf).map fun _ => ())
      { s with transport := t }
  /-- The server can report defaults. -/
  | allowed {on : Bool} (h : s.capabilities.has .withDefaults = true) :
    Step s (.reportDefaults on) (.ok ()) { s with withDefaults := some on }
  /-- The server cannot report defaults. -/
  | denied {on : Bool} :
    Step s (.reportDefaults on)
      (.error (.session (.capability Feature.withDefaults.capabilityName))) s
  /-- The options of edits are set. -/
  | options {options : EditOptions} : Step s (.setOptions options) (.ok ()) { s with options }
  /-- The schema is set. -/
  | schema {schema : Schema} : Step s (.setSchema schema) (.ok ()) { s with schema := some schema }
  /-- A default binding is added. -/
  | registered {b : Binding} :
    Step s (.register b) (.ok ()) { s with defaults := registering s.defaults (some b) }
  /-- It was asked whether bytes are there. -/
  | ready : Step s .ready ((runOn Transport.ready s.transport).1.map fun _ => ()) s

/-- Doing something with a session takes one of these ways. -/
theorem step_act (a : Activity) (s : Session) : Step s a (runOn a.act s).1 (runOn a.act s).2 := by
  cases a with
  | command c =>
    rw [Activity.act, runOn_drop]
    exact .command (course_perform c s)
  | notification =>
    rw [Activity.act, runOn_drop, runOn_nextNotification]
    exact .notification rfl
  | reportDefaults on =>
    rw [Activity.act, runOn_reportDefaults]
    split
    · next hhas => exact .allowed hhas
    · exact .denied
  | setOptions options => exact .options
  | setSchema schema => exact .schema
  | register b => exact .registered
  | ready =>
    have hleave : (runOn Transport.ready s.transport).2 = s.transport := by
      rw [Transport.runOn_ready]
      split <;> rfl
    rw [Activity.act, runOn_drop, runOn_onTransport, hleave]
    exact .ready

namespace Step

variable {a : Activity} {s s' : Session} {outcome : Except Error Unit}

/-- What is known of the server stays. -/
theorem capabilities (h : Step s a outcome s') : s'.capabilities = s.capabilities := by
  cases h with
  | command h =>
    obtain ⟨_, _, _, _, rfl⟩ := h.frame
    rfl
  | _ => rfl

/-- Default values are asked for only of servers that can report them. -/
theorem withDefaults (h : Step s a outcome s') (hs' : s'.withDefaults.isSome = true) :
    s.withDefaults.isSome = true ∨ s.capabilities.has .withDefaults = true := by
  cases h with
  | command h =>
    obtain ⟨_, _, _, _, rfl⟩ := h.frame
    exact .inl hs'
  | allowed h => exact .inr h
  | _ => exact .inl hs'

/-- A request uses up one number, and nothing else does. -/
theorem messageId (h : Step s a outcome s') :
    s'.messageId = s.messageId + (a.request? s).toList.length := by
  cases h with
  | command h => exact h.messageId
  | _ => rfl

/-- Without a request nothing is written. -/
theorem silent (h : Step s a outcome s') (hr : a.request? s = none) :
    s.transport.SameOutput s'.transport := by
  cases h with
  | command h =>
    rw [h.unsent hr]
    exact .refl _
  | notification h =>
    have hafter := congrArg Prod.snd h
    dsimp only at hafter ⊢
    rw [← hafter]
    exact Transport.sameOutput_receive _
  | _ => exact .refl _

/-- What is written for a request is what handing its message over writes. -/
theorem sameOutput (h : Step s a outcome s') {r : Request} (hr : a.request? s = some r) :
    (runOn (Transport.handOver r.text) s.transport).2.SameOutput s'.transport := by
  cases h with
  | command h => exact h.sameOutput hr
  | _ => cases hr

/-- At most one message is read. -/
theorem inbound (h : Step s a outcome s') :
    s'.transport.inbound = s.transport.inbound
      ∨ s'.transport.inbound = s.transport.inbound.readMessage.2 := by
  cases h with
  | command h => exact h.inbound
  | notification h =>
    have hafter := congrArg Prod.snd h
    dsimp only at hafter ⊢
    rw [← hafter, Transport.receive_inbound]
    split
    · exact .inl rfl
    · exact .inr rfl
  | _ => exact .inl rfl

end Step

/-! ## Runs -/

/-- Something that was done with a session: the activity, and the session that it met. -/
structure Turn where
  /-- The activity. -/
  activity : Activity
  /-- The session before. -/
  session : Session

namespace Turn

/-- The outcome of a turn. -/
def outcome (turn : Turn) : Except Error Unit := (runOn turn.activity.act turn.session).1

/-- The session behind a turn. -/
def after (turn : Turn) : Session := (runOn turn.activity.act turn.session).2

/-- The request of a turn, if there is one. -/
def request? (turn : Turn) : Option Request := turn.activity.request? turn.session

end Turn

/-- What the peer and the network may do to a transport while the session does nothing. What was
written stays written, what is being put together stays, and a closed transport stays closed.
Anything may have arrived or be lost, and writing may work no longer. -/
structure Meanwhile (t t' : Transport) : Prop where
  /-- Nothing is added to what is being put together. -/
  pending : t'.pending = t.pending
  /-- Nothing is written. -/
  written : t'.outbound.written = t.outbound.written
  /-- No transport is opened again. -/
  closed : t.closed = true → t'.closed = true

/-- The runs of a session from an initial one: the turns taken, and the session afterwards. -/
inductive Run (s₀ : Session) : List Turn → Session → Prop where
  /-- Nothing was done yet. -/
  | start : Run s₀ [] s₀
  /-- Something happens to the transport. -/
  | meanwhile {turns : List Turn} {s : Session} {t : Transport} (hrun : Run s₀ turns s)
    (ht : Meanwhile s.transport t) : Run s₀ turns { s with transport := t }
  /-- A turn is taken. -/
  | turn {turns : List Turn} {s : Session} (hrun : Run s₀ turns s) (a : Activity) :
    Run s₀ (turns ++ [⟨a, s⟩]) (runOn a.act s).2

/-- The turns of activities that follow each other without a pause. -/
def takeTurns (s : Session) : List Activity → List Turn
  | [] => []
  | a :: as => ⟨a, s⟩ :: takeTurns (runOn a.act s).2 as

/-- The turns are those of the activities, in their order. -/
theorem activities_takeTurns (s : Session) (as : List Activity) :
    (takeTurns s as).map (·.activity) = as := by
  induction as generalizing s with
  | nil => rfl
  | cons a as ih => rw [takeTurns, List.map_cons, ih]

/-- The session behind activities that follow each other without a pause. -/
def behindTurns (s : Session) : List Activity → Session
  | [] => s
  | a :: as => behindTurns (runOn a.act s).2 as

/-- What the last turn contributes comes behind what the turns before it do. -/
theorem filterMap_snoc {α : Type} (f : Turn → Option α) (turns : List Turn) (turn : Turn) :
    (turns ++ [turn]).filterMap f = turns.filterMap f ++ (f turn).toList := by
  rw [List.filterMap_append, List.filterMap_cons, List.filterMap_nil]
  cases f turn <;> rfl

namespace Run

variable {s₀ s : Session} {turns : List Turn}

/-- What holds of a session at the start, and is broken neither by the network nor by an activity,
holds of the session after every run and before every turn of it. -/
theorem invariant {P : Session → Prop} (hrun : Run s₀ turns s) (hstart : P s₀)
    (hmeanwhile : ∀ s t, Meanwhile s.transport t → P s → P { s with transport := t })
    (hact : ∀ s (a : Activity), P s → P (runOn a.act s).2) :
    P s ∧ ∀ turn ∈ turns, P turn.session := by
  induction hrun with
  | start => exact ⟨hstart, by simp⟩
  | meanwhile _ ht ih => exact ⟨hmeanwhile _ _ ht ih.1, ih.2⟩
  | turn _ a ih =>
    refine ⟨hact _ a ih.1, ?_⟩
    intro turn hturn
    rcases List.mem_append.1 hturn with hold | hnew
    · exact ih.2 turn hold
    · obtain rfl := List.mem_singleton.1 hnew
      exact ih.1

/-- Activities that follow each other without a pause prolong a run. -/
theorem taking (hrun : Run s₀ turns s) (as : List Activity) :
    Run s₀ (turns ++ takeTurns s as) (behindTurns s as) := by
  induction as generalizing turns s with
  | nil => simpa [takeTurns, behindTurns] using hrun
  | cons a as ih =>
    have htaken := ih (hrun.turn a)
    rwa [List.append_assoc] at htaken

/-- Through a run an opened session keeps the capabilities of the server's hello, and asks for
default values only if the server can report them. -/
theorem hello {transport : Transport} {config : Config} {defaults : Registry} {hello : Hello}
    (hopened : Opened transport config defaults hello s₀) (hrun : Run s₀ turns s) :
    ∀ turn ∈ turns, turn.session.capabilities = hello.capabilities
      ∧ (turn.session.withDefaults.isSome = true →
          hello.capabilities.has .withDefaults = true) := by
  refine (hrun.invariant
    (P := fun s => s.capabilities = hello.capabilities
      ∧ (s.withDefaults.isSome = true → hello.capabilities.has .withDefaults = true))
    ?_ (fun _ _ _ h => h) ?_).2
  · cases hopened with
    | intro _ _ _ _ hreport =>
      refine ⟨rfl, fun hasked => ?_⟩
      split at hasked
      · next hon => exact hreport hon
      · cases hasked
  · rintro s a ⟨hcaps, hdefaults⟩
    refine ⟨(step_act a s).capabilities.trans hcaps, fun hasked => ?_⟩
    rcases (step_act a s).withDefaults hasked with hbefore | hhas
    · exact hdefaults hbefore
    · exact hcaps ▸ hhas

/-- The requests of a run are numbered one by one from the number at the start, whatever becomes of
them, and the session goes on with the next number. -/
theorem numbers (hrun : Run s₀ turns s) :
    (turns.filterMap Turn.request?).map Request.number
        = List.range' s₀.messageId (turns.filterMap Turn.request?).length
      ∧ s.messageId = s₀.messageId + (turns.filterMap Turn.request?).length := by
  induction hrun with
  | start => exact ⟨rfl, rfl⟩
  | meanwhile _ _ ih => exact ih
  | @turn turns s hrun a ih =>
    obtain ⟨ihnumbers, ihnext⟩ := ih
    have hstep := (step_act a s).messageId
    have hsnoc : (turns ++ [Turn.mk a s]).filterMap Turn.request?
        = turns.filterMap Turn.request? ++ (a.request? s).toList := filterMap_snoc _ _ _
    rw [hsnoc, List.map_append, ihnumbers, List.length_append, hstep, ihnext]
    refine ⟨?_, by omega⟩
    cases hr : a.request? s with
    | none => simp
    | some r =>
      obtain ⟨c, -, hrequest⟩ := Activity.exists_of_request? hr
      have hnumber : r.number = s.messageId := (request?_eq_some hrequest).2.2.1
      simp [hnumber, ihnext, List.range'_concat]

end Run

/-! ## A session to start runs from -/

/-- A message as a server sends it, with the marker behind it. -/
def served (message : String) : Delivery := .bytes (Text.bytes (message ++ endOfMessage))

/-- The hello of a server that has the candidate datastore. -/
def candidateHello : String :=
  "<hello><capabilities><capability>" ++ capBase ++ "</capability><capability>"
    ++ standardUri "candidate" ++ "</capability></capabilities><session-id>4</session-id></hello>"

/-- A reply that says that all went well. -/
def okReply (number : String) : String :=
  "<rpc-reply message-id=\"" ++ number ++ "\"><ok/></rpc-reply>"

/-- A transport on which the hello has arrived. -/
def candidateServer : Transport where
  inbound := .ofDeliveries [served candidateHello]

/-- The session that the hello opens. -/
def candidateSession : Session where
  transport := { outbound := { written := helloText [] ++ endOfMessage ++ "\n" } }
  stage := .established
  sessionId := 4
  capabilities := .ofUris [capBase, standardUri "candidate"]
  defaults := .standard 0

/-- The hello opens the session. -/
theorem connect_candidateServer :
    connect candidateServer {} (.standard 0) = (.ok (), candidateSession) := by
  have h : (connect candidateServer {} (.standard 0)).1.isOk = true
      ∧ (connect candidateServer {} (.standard 0)).2 = candidateSession := by decide +kernel
  exact Prod.ext (eq_ok_of_isOk h.1) h.2

/-- The session when deliveries are on their way to it. -/
def expectingSession (ds : List Delivery) : Session := { candidateSession with
  transport := { candidateSession.transport with inbound := .ofDeliveries ds } }

/-- Any deliveries may be on their way to the opened session. -/
theorem Run.expecting (ds : List Delivery) : Run candidateSession [] (expectingSession ds) :=
  .meanwhile .start ⟨rfl, rfl, id⟩

end Session

end Netconf
