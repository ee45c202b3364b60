import Netconf.Config
import Netconf.Session.Command
import Netconf.Tree.Copy
import Netconf.Xml.Writing

/-!
# Requests

The body of the request that a command becomes, and the preconditions that it needs. Preconditions
are checked before anything is sent, so a refused command leaves the session as it was. Texts are
escaped and trees are encoded for the peer, so the form of a body depends on the command only.
-/

namespace Netconf

/-- The namespace of the model of notification streams. -/
def nsNotificationStreams : String := "urn:ietf:params:xml:ns:netmod:notification"

/-- What the body of a request depends on besides the command. -/
structure Terms where
  /-- What the server can do. -/
  capabilities : Capabilities := {}
  /-- The number of the own session. -/
  sessionId : Nat := 0
  /-- The options of edits. -/
  options : EditOptions := {}
  /-- The default bindings of the session. -/
  defaults : Registry := {}

/-- The name of a feature in messages. -/
def Feature.capabilityName : Feature → String
  | base => ":base"
  | writableRunning => ":writable-running"
  | candidate => ":candidate"
  | confirmedCommit => ":confirmed-commit"
  | rollbackOnError => ":rollback-on-error"
  | validate => ":validate"
  | startup => ":startup"
  | xpath => ":xpath"
  | notification => ":notification"
  | interleave => ":interleave"
  | partialLock => ":partial-lock"
  | actions => ":actions"
  | transactions => ":transactions"
  | withDefaults => ":with-defaults"

/-- An element of a body: its name, its attributes as they are written, and its content. -/
def elementOf (name attributes content : String) : String :=
  "<" ++ name ++ attributes ++ ">" ++ content ++ "</" ++ name ++ ">"

/-- An element without content. -/
def emptyElement (name attributes : String) : String := "<" ++ name ++ attributes ++ "/>"

namespace Terms

/-! ## Preconditions -/

/-- Requires a feature of the server. -/
def require (t : Terms) (f : Feature) : Except Error Unit :=
  if t.capabilities.has f then .ok () else .error (.session (.capability f.capabilityName))

/-- Requires a feature of the server if there is one to require. -/
def requireIf (t : Terms) : Option Feature → Except Error Unit
  | some f => t.require f
  | none => .ok ()

/-- Requires what the use of a datastore needs. -/
def requireDatastore (t : Terms) (d : Datastore) (write : Bool) : Except Error Unit :=
  t.requireIf (d.feature? write)

/-- Requires that the server can use a URL. -/
def requireUrl (t : Terms) (url : String) : Except Error Unit :=
  if !t.capabilities.url then .error (.session (.capability ":url"))
  else if t.capabilities.acceptsUrl url then .ok ()
  else .error (.session (.urlScheme url))

/-! ## Parts of bodies -/

/-- Nodes encoded for the peer, one after the other. -/
def encodeAll (t : Terms) (tree : Tree) : List NodeId → Except Error String
  | [] => .ok ""
  | id :: ids =>
    match (tree.refresh t.defaults).encode id { peer := some t.capabilities } with
    | .error e => .error (.revision e)
    | .ok text =>
      match encodeAll t tree ids with
      | .error e => .error e
      | .ok others => .ok (text ++ others)

/-- Selected nodes encoded for the peer. -/
def encode (t : Terms) (s : Selection) : Except Error String := t.encodeAll s.tree s.nodes

/-- The element of a datastore. -/
def datastoreText (d : Datastore) : String := emptyElement ("nc:" ++ d.name) ""

/-- The element of a URL. -/
def urlText (t : Terms) (url : String) : Except Error String := do
  t.requireUrl url
  return elementOf "nc:url" "" (Xml.escapeText url)

/-- The element of a target. -/
def targetText (t : Terms) : Target → Except Error String
  | .datastore d => do
    t.requireDatastore d true
    return datastoreText d
  | .url url => t.urlText url

/-- The element of a source. -/
def sourceText (t : Terms) : Source → Except Error String
  | .datastore d => do
    t.requireDatastore d false
    return datastoreText d
  | .url url => t.urlText url
  | .config s => do
    let config ← t.encode s
    return elementOf "nc:config" "" config

/-- The filter of a retrieval; there is none for everything. -/
def filterText (t : Terms) : Filter → Except Error String
  | .all => .ok ""
  | .subtree s => do
    let nodes ← t.encode s
    return elementOf "nc:filter" " nc:type=\"subtree\"" nodes
  | .xpath expression => do
    t.require .xpath
    return emptyElement "nc:filter"
      (" nc:type=\"xpath\" nc:select=\"" ++ Xml.escapeAttribute expression ++ "\"")

/-- The filter of a subscription; there is none for everything. -/
def subscriptionFilterText (t : Terms) : Filter → Except Error String
  | .all => .ok ""
  | .subtree s => do
    let nodes ← t.encode s
    return elementOf "ncn:filter" " ncn:type=\"subtree\"" nodes
  | .xpath expression => do
    t.require .xpath
    return elementOf "ncn:filter" " ncn:type=\"xpath\"" (Xml.escapeText expression)

/-- An element with a text, if there is one. -/
def optionalText (name : String) : Option String → String
  | some s => elementOf name "" (Xml.escapeText s)
  | none => ""

/-- The options of an edit. -/
def optionsText (t : Terms) : Except Error String := do
  if t.options.testOption.isSome then t.require .validate
  if t.options.errorOption = some .rollbackOnError then t.require .rollbackOnError
  return optionalText "nc:default-operation" (t.options.defaultOperation.map (·.name))
    ++ optionalText "nc:test-option" (t.options.testOption.map (·.name))
    ++ optionalText "nc:error-option" (t.options.errorOption.map (·.name))

/-- The body of an edit. -/
def editText (t : Terms) (target : Datastore) (config : String) : Except Error String := do
  t.requireDatastore target true
  let options ← t.optionsText
  return elementOf "nc:edit-config" ""
    (elementOf "nc:target" "" (datastoreText target) ++ options ++ config)

/-- The tree that asks for the streams of notifications. -/
def streamsSelection (t : Terms) : Selection :=
  let top : Element := { ns := some nsNotificationStreams, name := "netconf" }
  let child : Element := { ns := some nsNotificationStreams, name := "streams" }
  let branch : Branch := .mk 0 (top.bindOwn "") [.mk 1 child []]
  ⟨((Tree.empty t.defaults).addCopy branch).1, [0]⟩

/-- The declaration of a label on an element of a body. -/
def declares (label ns : String) : String := " xmlns:" ++ label ++ "=\"" ++ ns ++ "\""

/-- A lock operation on a whole datastore. -/
def lockText (t : Terms) (name : String) (target : Datastore) : Except Error String := do
  t.requireDatastore target false
  return elementOf name "" (elementOf "nc:target" "" (datastoreText target))

/-! ## Bodies -/

/-- The body of the request for a command. The preconditions of extensions are not checked here. -/
def body (t : Terms) : Command → Except Error String
  | .get filter => do
    let filter ← t.filterText filter
    return elementOf "nc:get" "" filter
  | .getConfig source filter => do
    t.requireDatastore source false
    let filter ← t.filterText filter
    return elementOf "nc:get-config" "" (elementOf "nc:source" "" (datastoreText source) ++ filter)
  | .editConfig target config => do
    let config ← t.encode config
    t.editText target (elementOf "nc:config" "" config)
  | .editConfigUrl target url => do
    let config ← t.urlText url
    t.editText target config
  | .copyConfig source target => do
    let target ← t.targetText target
    let source ← t.sourceText source
    return elementOf "nc:copy-config" ""
      (elementOf "nc:target" "" target ++ elementOf "nc:source" "" source)
  | .deleteConfig target => do
    if target = .datastore .running then throw (.session .deleteRunning)
    let target ← t.targetText target
    return elementOf "nc:delete-config" "" (elementOf "nc:target" "" target)
  | .lock target => t.lockText "nc:lock" target
  | .unlock target => t.lockText "nc:unlock" target
  | .partialLock selects => do
    t.require .partialLock
    let selects := selects.map fun s => elementOf "pl:select" "" (Xml.escapeText s)
    return elementOf "pl:partial-lock" (declares "pl" nsPartialLock) (String.join selects)
  | .partialUnlock lockId => do
    t.require .partialLock
    return elementOf "pl:partial-unlock" (declares "pl" nsPartialLock)
      (elementOf "pl:lock-id" "" (toString lockId))
  | .commit => do
    t.require .candidate
    return emptyElement "nc:commit" ""
  | .confirmedCommit seconds => do
    t.require .candidate
    t.require .confirmedCommit
    return elementOf "nc:commit" ""
      (emptyElement "nc:confirmed" "" ++ elementOf "nc:confirm-timeout" "" (toString seconds))
  | .discardChanges => do
    t.require .candidate
    return emptyElement "nc:discard-changes" ""
  | .validate source => do
    t.require .validate
    let source ← t.sourceText source
    return elementOf "nc:validate" "" (elementOf "nc:source" "" source)
  | .createSubscription stream filter start stop => do
    t.require .notification
    let filter ← t.subscriptionFilterText filter
    return elementOf "ncn:create-subscription" (declares "ncn" nsNotification)
      (optionalText "ncn:stream" stream ++ filter ++ optionalText "ncn:startTime" start
        ++ optionalText "ncn:stopTime" stop)
  | .getStreams => do
    let filter ← t.filterText (.subtree t.streamsSelection)
    return elementOf "nc:get" "" filter
  | .action tree node => do
    let data ← t.encodeAll tree [node]
    return elementOf "nca:action" (declares "nca" nsActions) (elementOf "nca:data" "" data)
  | .rpc tree node => t.encodeAll tree [node]
  | .startTransaction target =>
    .ok (elementOf "nctr:start-transaction" (declares "nctr" nsTransactions)
      (elementOf "nctr:target" "" (datastoreText target)))
  | .transaction step =>
    .ok (emptyElement ("nctr:" ++ step.name) (declares "nctr" nsTransactions))
  | .closeSession => .ok (emptyElement "nc:close-session" "")
  | .killSession sessionId => do
    if sessionId = t.sessionId then throw (.session .killSelf)
    return elementOf "nc:kill-session" ""
      (elementOf "nc:session-id" "" (toString sessionId))

/-- The binding that a command of an extension brings to the session, if the server has the
extension. Other commands bring none. -/
def extension (t : Terms) : Command → Except Error (Option Binding)
  | .action _ _ => do
    t.require .actions
    return some ⟨"nca", nsActions⟩
  | .startTransaction target => do
    t.requireDatastore target false
    t.require .transactions
    return some ⟨"nctr", nsTransactions⟩
  | .transaction _ => do
    t.require .transactions
    return some ⟨"nctr", nsTransactions⟩
  | _ => .ok none

end Terms

namespace Command

/-- Do the requests of a command ask for default values, if the session does? -/
def takesDefaults : Command → Bool
  | get _ => true
  | getConfig _ _ => true
  | copyConfig _ _ => true
  | getStreams => true
  | _ => false

end Command

/-- The envelope of a request. -/
def envelope (messageId : Nat) (withDefaults : Option Bool) (body : String) : String :=
  let asked : String :=
    match withDefaults with
    | some on =>
      Terms.declares "ncwd" capWithDefaults ++ " ncwd:with-defaults=\""
        ++ (if on then "true" else "false") ++ "\""
    | none => ""
  elementOf "nc:rpc"
    (Terms.declares "nc" nsNetconf ++ " nc:message-id=\"" ++ toString messageId ++ "\"" ++ asked)
    body

/-- The hello of a client with capabilities of its own. -/
def helloText (capabilities : List String) : String :=
  let line (text : String) : String := elementOf "capability" "" (Xml.escapeText text) ++ "\n"
  elementOf "hello" (" xmlns=\"" ++ nsNetconf ++ "\"")
    (elementOf "capabilities" "" (String.join ((capBase :: capabilities).map line)))

end Netconf
