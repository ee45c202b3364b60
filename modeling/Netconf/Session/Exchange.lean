import Netconf.Capability.Reading
import Netconf.Path.Query
import Netconf.RpcError.Reading
import Netconf.Session.Request
import Netconf.Transport

/-!
# Sessions

A session talks to a server over a transport: first both sides say hello, then each command is one
request and one reply. Requests are numbered, and a reply counts only if it carries the number of
the request it answers. What a command did to the session stays also when it fails.
-/

namespace Netconf

/-- A session with a server. -/
structure Session where
  /-- The channel to the server. -/
  transport : Transport := {}
  /-- The stage of the session. -/
  stage : SessionStage := .init
  /-- The number that the server gave the session. -/
  sessionId : Nat := 0
  /-- The number of the next request. -/
  messageId : Nat := 1
  /-- What the server can do. -/
  capabilities : Capabilities := {}
  /-- The default bindings, shared with the trees of the session. -/
  defaults : Registry := {}
  /-- The schema of the data that the session retrieves. -/
  schema : Option Schema := none
  /-- The options of edits. -/
  options : EditOptions := {}
  /-- Whether default values are asked for, if that was set. -/
  withDefaults : Option Bool := none
  deriving DecidableEq, Inhabited

/-- An action on a session. -/
abbrev Exchange := EStateM Error Session

/-- An element of a list that is the first of its kind stays, later ones go. -/
def distinct {α : Type} [BEq α] (xs : List α) : List α :=
  xs.foldl (fun seen x => if seen.contains x then seen else seen ++ [x]) []

namespace Session

/-- What the bodies of requests depend on. -/
def terms (s : Session) : Terms where
  capabilities := s.capabilities
  sessionId := s.sessionId
  options := s.options
  defaults := s.defaults

/-- An action on the transport. -/
def onTransport {α : Type} (c : Channel α) : Exchange α := fun s =>
  match c s.transport with
  | .ok a transport => .ok a { s with transport }
  | .error e transport => .error e { s with transport }

/-- Takes over an outcome. -/
def ofExcept {α : Type} (outcome : Except Error α) : Exchange α := fun s =>
  match outcome with
  | .ok a => .ok a s
  | .error e => .error e s

/-- Reads a message as a document with the bindings and the schema of the session. -/
def readDocument (message : String) : Exchange Document := do
  let s ← get
  ofExcept (Xml.parse s.defaults s.schema message)

/-! ## Hello -/

/-- What a hello says: the capabilities of the server and the number of the session. -/
structure Hello where
  /-- The capabilities. -/
  capabilities : Capabilities
  /-- The number of the session. -/
  sessionId : Nat

/-- Reads the hello of a server. -/
def readHello (d : Document) : Except Error Hello := do
  match ← d.tree.queryFirst d.root "self::hello/capabilities" with
  | none => throw (.session .noCapabilities)
  | some node =>
    let capabilities := Capabilities.ofNode d.tree node
    if !capabilities.has .base then throw (.session (.noBase capBase))
    match ← d.tree.queryFirst d.root "self::hello/session-id" with
    | none => throw (.session .noSessionId)
    | some node =>
      let text := ((d.tree.value? node).map Value.wire).getD ""
      match Text.naturalBelow? 0x10000000000000000 (Text.strip text.toList) with
      | none => throw (.session (.badSessionId text))
      | some sessionId => return ⟨capabilities, sessionId⟩

/-- Says hello with the client's own capabilities and waits for the server's hello. -/
def sayHello (capabilities : List String) : Exchange Unit := do
  onTransport (Transport.print (helloText capabilities))
  onTransport Transport.flush
  modify fun s => { s with stage := .helloSent }
  let message ← onTransport Transport.receive
  let d ← readDocument message
  let hello ← ofExcept (readHello d)
  modify fun s =>
    { s with
      capabilities := hello.capabilities, sessionId := hello.sessionId, stage := .established }

/-- Sets whether default values are asked for. -/
def reportDefaults (on : Bool) : Exchange Unit := do
  ofExcept ((← get).terms.require .withDefaults)
  modify fun s => { s with withDefaults := some on }

/-- Ends a session on this side. -/
def drop (s : Session) : Session :=
  if s.stage = .closed then s
  else { s with stage := .closed, transport := { s.transport with closed := true } }

/-- Opens a session. One that fails to open is dropped. -/
def connect (transport : Transport) (config : Config) (defaults : Registry) :
    Except Error Unit × Session :=
  let opened : Exchange Unit := do
    sayHello (distinct config.capabilities)
    if config.withDefaults then reportDefaults true
  match opened { transport, defaults, options := config.edit } with
  | .ok _ s => (.ok (), s)
  | .error e s => (.error e, s.drop)

/-! ## Requests and replies -/

/-- Sends a request; returns its number. -/
def send (takesDefaults : Bool) (body : String) : Exchange Nat := do
  let s ← get
  if s.stage ≠ .established then throw (.session (.notEstablished s.stage))
  let asked := if takesDefaults then s.withDefaults else none
  set { s with messageId := s.messageId + 1 }
  onTransport (Transport.print (envelope s.messageId asked body))
  onTransport Transport.flush
  return s.messageId

/-- Checks that a document is the reply to a request and reports no error beyond warnings. `text` is
the message it was read from. -/
def checkReply (messageId : Nat) (text : String) (d : Document) : Except Error Document :=
  if d.tree.name d.root ≠ "rpc-reply" then .error (.reply [] text)
  else
    let received := ((d.tree.element d.root).attribute? "message-id").map (·.value)
    if received ≠ some (toString messageId) then .error (.idMismatch messageId received)
    else
      let records := (d.tree.childrenNamed d.root "rpc-error").map (RpcError.ofNode d.tree)
      if records.all RpcError.isWarning then .ok d else .error (.reply records text)

/-- Waits for the reply to a request. -/
def receiveReply (messageId : Nat) : Exchange Document := do
  let text ← onTransport Transport.receive
  let d ← readDocument text
  ofExcept (checkReply messageId text d)

/-- The error of a reply that lacks what was asked for. -/
def unexpected (d : Document) : Error := .reply [] (d.tree.toXml d.root)

/-- The children of an element of a reply, taken away from it. Each keeps the bindings that were in
scope at the element. -/
def takeChildren (d : Document) (id : NodeId) : Selection :=
  let scope := (d.tree.lineage id).bindings .empty
  let ids := d.tree.children id
  let take (t : Tree) (c : NodeId) : Tree :=
    (t.detach c).modifyElement c fun e => e.mergeBindings scope
  ⟨ids.foldl take d.tree, ids⟩

/-- The answer of a reply that should say that all went well. -/
def okAnswer (d : Document) : Except Error Answer :=
  if (d.tree.child? d.root "ok").isSome then .ok .done else .error (unexpected d)

/-- The answer of a reply that should bring data. -/
def dataAnswer (d : Document) : Except Error Answer :=
  match d.tree.child? d.root "data" with
  | some data => .ok (.data (takeChildren d data))
  | none => .error (unexpected d)

/-- The answer of a reply to a partial lock. -/
def lockAnswer (d : Document) : Except Error Answer :=
  let text := ((d.tree.childValue? d.root "lock-id").map Value.wire).getD ""
  match Text.naturalBelow? 0x100000000 (Text.strip text.toList) with
  | some lockId => .ok (.lock lockId)
  | none => .error (.session (.badLockId (d.tree.toXml d.root)))

/-- The answer of the reply to a command. -/
def answer (d : Document) : Command → Except Error Answer
  | .get _ => dataAnswer d
  | .getConfig _ _ => dataAnswer d
  | .getStreams => dataAnswer d
  | .partialLock _ => lockAnswer d
  | .action _ _ =>
    if (d.tree.child? d.root "ok").isSome then .ok (.data ⟨d.tree, []⟩) else dataAnswer d
  | .rpc _ _ => .ok (.data (takeChildren d d.root))
  | _ => okAnswer d

/-- Adds a binding to the default bindings, if there is one to add. -/
def register : Option Binding → Exchange Unit
  | some b => modify fun s => { s with defaults := (s.defaults.register b).2 }
  | none => pure ()

/-- Checks the preconditions of a command and makes the body of its request. -/
def prepare (c : Command) : Exchange String := do
  register (← ofExcept ((← get).terms.extension c))
  ofExcept ((← get).terms.body c)

/-- Carries out a command: one request, one reply. The end of the session closes the transport. -/
def perform (c : Command) : Exchange Answer := do
  let body ← prepare c
  let messageId ← send c.takesDefaults body
  let d ← receiveReply messageId
  let a ← ofExcept (answer d c)
  if c = .closeSession then
    modify fun s => { s with stage := .closed }
    onTransport Transport.close
  return a

/-- Waits for a notification. -/
def nextNotification : Exchange Document := do
  let message ← onTransport Transport.receive
  let d ← readDocument message
  if d.tree.name d.root = "notification" then return d else throw (.notification message)

end Session

end Netconf
