import Netconf.Frame
import Netconf.Xml.Reading
import Netconf.Xml.Writing

/-!
# Transports

A transport sends and receives framed messages. Subscribers see the traffic as it passes: raw ones
line by line, the others each message once and pretty printed. What they saw is kept as a list of
events. A closed transport refuses everything.
-/

namespace Netconf

/-- The direction of a message. -/
inductive Direction where
  /-- From the peer. -/
  | inbound
  /-- To the peer. -/
  | outbound
  deriving DecidableEq, Inhabited

/-- Something that a subscriber saw. -/
structure Event where
  /-- The number of the subscriber. -/
  subscriber : Nat
  /-- The direction. -/
  direction : Direction
  /-- What it saw. -/
  text : String
  deriving DecidableEq, Inhabited

/-- A channel for framed messages. -/
structure Transport where
  /-- Where messages come from. -/
  inbound : Inbound := {}
  /-- Where messages go. -/
  outbound : Outbound := {}
  /-- The message being put together. -/
  pending : String := ""
  /-- The subscribers in order; a raw one is `true`. -/
  subscribers : List Bool := []
  /-- What the subscribers saw. -/
  events : List Event := []
  /-- Whether the transport was closed. -/
  closed : Bool := false
  deriving DecidableEq, Inhabited

/-- An action on a transport. -/
abbrev Channel := EStateM Error Transport

namespace Transport

/-! ## Subscribers -/

/-- A message without the marker at its end, if it has one. -/
def bodyOf (message : String) : String :=
  match endOfMessage.toList.reverse.isPrefixOf? (Text.stripEnd message.toList).reverse with
  | some rest => String.ofList rest.reverse
  | none => message

/-- A message pretty printed, or as it is where it is no XML. -/
def prettified (message : String) : String :=
  match Xml.parse (.standard 0) none (bodyOf message) with
  | .ok d => d.tree.toPrettyXml d.root
  | .error _ => message

/-- What a subscriber sees of a message. -/
def seenBy (raw : Bool) (message : String) : List String :=
  if raw then (Text.lines message.toList).map String.ofList else [prettified message]

/-- The events of a message for subscribers numbered from `n`. -/
def eventsFrom (n : Nat) (direction : Direction) (message : String) : List Bool → List Event
  | [] => []
  | raw :: others =>
    (seenBy raw message).map (fun text => ⟨n, direction, text⟩)
      ++ eventsFrom (n + 1) direction message others

/-- Shows a message to the subscribers. -/
def notify (t : Transport) (direction : Direction) (message : String) : Transport :=
  { t with events := t.events ++ eventsFrom 0 direction message t.subscribers }

/-- Adds a subscriber; returns its number. -/
def subscribe (raw : Bool) : Channel Nat := fun t =>
  .ok t.subscribers.length { t with subscribers := t.subscribers ++ [raw] }

/-! ## Messages -/

/-- Refuses a closed transport. -/
def requireOpen : Channel Unit := fun t =>
  if t.closed then .error (.session .transportClosed) t else .ok () t

/-- Adds a text to the message being put together. -/
def print (text : String) : Channel Unit := do
  requireOpen
  modify fun t => { t with pending := t.pending ++ text }

/-- Adds a text and a line end to the message being put together. -/
def writeLine (text : String) : Channel Unit := do
  print text
  print "\n"

/-- Writes a message; the subscribers see it when it was written. -/
def send (message : String) : Channel Unit := fun t =>
  match t.outbound.writeMessage message with
  | (.ok _, outbound) =>
    .ok () ({ t with outbound }.notify .outbound (message ++ endOfMessage ++ "\n"))
  | (.error e, outbound) => .error e { t with outbound }

/-- Sends the message put together, and starts a new one. -/
def flush : Channel Unit := do
  requireOpen
  let t ← get
  set { t with pending := "" }
  send t.pending

/-- Waits for one message; the subscribers see it. -/
def receive : Channel String := do
  requireOpen
  fun t =>
    match t.inbound.readMessage with
    | (.ok message, inbound) => .ok message ({ t with inbound }.notify .inbound message)
    | (.error e, inbound) => .error e { t with inbound }

/-- Are bytes there, so that receiving can go on without waiting? -/
def ready : Channel Bool := do
  requireOpen
  return (← get).inbound.hasBytes

/-- Drops the bytes that have arrived; tells how many. -/
def discard : Channel Nat := fun t =>
  .ok t.inbound.discard.1 { t with inbound := t.inbound.discard.2 }

/-- Closes the transport. -/
def close : Channel Unit := modify fun t => { t with closed := true }

end Transport

end Netconf
