import Netconf.Text.Blank
import Netconf.Text.Cut

/-!
# Capabilities

What a server can do, as it says in its hello: a list of URIs, some of which name features of the
protocol and the others data models. A URI may carry a query behind a question mark, with the
revision of a data model or with the schemes of the URLs that the server can use.
-/

namespace Netconf

/-! ## The URIs -/

/-- The base capability, version 1.0. -/
def capBase : String := "urn:ietf:params:netconf:base:1.0"

/-- The base capability, version 1.1. -/
def capBase11 : String := "urn:ietf:params:netconf:base:1.1"

/-- The base capability in its early form. -/
def capBaseEarly : String := "urn:ietf:params:xml:ns:netconf:base:1.0"

/-- The URI of a standard capability. -/
def standardUri (name : String) : String := "urn:ietf:params:netconf:capability:" ++ name ++ ":1.0"

/-- The URI of a standard capability in its early form. -/
def earlyUri (name : String) : String :=
  "urn:ietf:params:xml:ns:netconf:capability:" ++ name ++ ":1.0"

/-- The URI of the capability for URLs. -/
def capUrl : String := standardUri "url"

/-- The start of the capability for URLs when it lists its schemes. -/
def capUrlSchemes : String := capUrl ++ "?scheme="

/-- The namespace of actions, which is also their capability. -/
def nsActions : String := "http://tail-f.com/ns/netconf/actions/1.0"

/-- The namespace of transactions, which is also their capability. -/
def nsTransactions : String := "http://tail-f.com/ns/netconf/transactions/1.0"

/-- The capability for reporting default values. -/
def capWithDefaults : String := "http://tail-f.com/ns/netconf/with-defaults/1.0"

/-! ## Capability sets -/

/-- The features of the protocol that a capability can stand for, URLs apart. -/
inductive Feature where
  /-- The protocol itself. -/
  | base
  /-- Writing to the running datastore. -/
  | writableRunning
  /-- The candidate datastore. -/
  | candidate
  /-- Commits that must be confirmed. -/
  | confirmedCommit
  /-- Undoing everything on an error. -/
  | rollbackOnError
  /-- Validating configurations. -/
  | validate
  /-- The startup datastore. -/
  | startup
  /-- Filters in the full path language. -/
  | xpath
  /-- Event notifications. -/
  | notification
  /-- Requests between notifications. -/
  | interleave
  /-- Locking parts of a datastore. -/
  | partialLock
  /-- Actions. -/
  | actions
  /-- Transactions. -/
  | transactions
  /-- Reporting default values. -/
  | withDefaults
  deriving DecidableEq, Inhabited

namespace Feature

/-- The URIs that stand for a feature. -/
def uris : Feature → List String
  | base => [capBase, capBase11, capBaseEarly]
  | writableRunning => [standardUri "writable-running"]
  | candidate => [standardUri "candidate", earlyUri "candidate"]
  | confirmedCommit => [standardUri "confirmed-commit", earlyUri "confirmed-commit"]
  | rollbackOnError => [standardUri "rollback-on-error"]
  | validate => [standardUri "validate", earlyUri "validate"]
  | startup => [standardUri "startup"]
  | xpath => [standardUri "xpath"]
  | notification => [standardUri "notification"]
  | interleave => [standardUri "interleave"]
  | partialLock => [standardUri "partial-lock"]
  | actions => [nsActions]
  | transactions => [nsTransactions]
  | withDefaults => [capWithDefaults]

/-- Every feature. -/
def all : List Feature :=
  [base, writableRunning, candidate, confirmedCommit, rollbackOnError, validate, startup, xpath,
    notification, interleave, partialLock, actions, transactions, withDefaults]

/-- The feature that a URI stands for. -/
def ofUri? (uri : String) : Option Feature := all.find? fun f => f.uris.contains uri

end Feature

/-- A capability: its URI without the query, and the revision that the query gives. -/
structure Capability where
  /-- The URI up to the query. -/
  uri : String
  /-- The revision of a data model. -/
  revision : Option String
  deriving DecidableEq, Inhabited

/-- What a server can do. -/
structure Capabilities where
  /-- The features that it has. -/
  features : List Feature := []
  /-- Whether it can use URLs. -/
  url : Bool := false
  /-- The schemes of the URLs that it can use. -/
  urlSchemes : List String := []
  /-- All capabilities in the order of the hello. -/
  all : List Capability := []
  /-- Those that are no features of the protocol, usually data models. -/
  data : List Capability := []
  deriving DecidableEq, Inhabited

namespace Capabilities

/-- A capability string cut into its URI and its query. -/
def cutQuery (raw : String) : String × Option String :=
  match Text.cutOnce '?' raw with
  | some (uri, query) => (uri, some query)
  | none => (raw, none)

/-- The revision that a query gives: the value of the first pair of that name. -/
def revisionIn (query : String) : Option String :=
  (Text.split '&' query.toList).findSome? fun pair =>
    ("revision=".toList.isPrefixOf? pair).map String.ofList

/-- The capability of a string. -/
def capabilityOf (raw : String) : Capability :=
  let (uri, query) := cutQuery raw
  ⟨uri, query.bind revisionIn⟩

/-- The schemes of a list between commas. -/
def schemesIn (list : List Char) : List String :=
  ((Text.split ',' list).map fun part => String.ofList (Text.strip part)).filter fun s => s != ""

/-- What a capability string says about URLs: nothing, that they can be used, or with which
schemes. -/
inductive UrlSupport where
  /-- It says nothing about them. -/
  | none
  /-- They can be used. -/
  | some
  /-- They can be used with these schemes. -/
  | schemes (list : List String)
  deriving DecidableEq

/-- What a capability string says about URLs. The early form may list the schemes directly as its
query. -/
def urlSupport (raw : String) : UrlSupport :=
  let (uri, query) := cutQuery raw
  if uri = capUrl then
    match Text.dropHead? capUrlSchemes raw with
    | .some list => .schemes (schemesIn list.toList)
    | .none => .none
  else if uri = earlyUri "url" then
    match query with
    | .none => .some
    | .some q => .schemes (schemesIn ((Text.dropHead? "scheme=" q).getD q).toList)
  else .none

/-- Adds a capability string. -/
def add (c : Capabilities) (raw : String) : Capabilities :=
  let capability := capabilityOf raw
  let c := { c with all := c.all ++ [capability] }
  match Feature.ofUri? capability.uri, urlSupport raw with
  | some f, _ => if c.features.contains f then c else { c with features := c.features ++ [f] }
  | none, .schemes list => { c with url := true, urlSchemes := list }
  | none, .some => { c with url := true }
  | none, .none => { c with data := c.data ++ [capability] }

/-- The capabilities of a list of strings as they appear in a hello. -/
def ofUris (uris : List String) : Capabilities := (uris.map Text.trim).foldl add {}

/-- Does the server have a feature? -/
def has (c : Capabilities) (f : Feature) : Bool := c.features.contains f

/-- Is a capability with this URI there, its query apart? -/
def hasUri (c : Capabilities) (uri : String) : Bool := c.all.any fun a => a.uri == uri

/-- The revision of a data model. Features of the protocol have none. -/
def revision? (c : Capabilities) (uri : String) : Option String :=
  (c.data.find? fun a => a.uri == uri).bind (·.revision)

/-- Can the server use URLs of a scheme? -/
def hasScheme (c : Capabilities) (scheme : String) : Bool := c.url && c.urlSchemes.contains scheme

/-- Can the server use a URL? It must start with one of the schemes and a colon. -/
def acceptsUrl (c : Capabilities) (url : String) : Bool :=
  c.urlSchemes.any fun scheme => (scheme ++ ":").toList.isPrefixOf url.toList

end Capabilities

end Netconf
