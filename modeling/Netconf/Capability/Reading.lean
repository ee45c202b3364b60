import Netconf.Capability.Basic
import Netconf.Json
import Netconf.Tree.Basic

/-!
# Capabilities in hellos and in JSON
-/

namespace Netconf.Capabilities

/-- The capabilities that a `capabilities` element lists. -/
def ofNode (t : Tree) (id : NodeId) : Capabilities :=
  ofUris ((t.childrenNamed id "capability").filterMap fun c => (t.value? c).map Value.wire)

/-- The name of a feature in JSON. -/
def featureName : Feature → String
  | .base => "base"
  | .writableRunning => "writable_running"
  | .candidate => "candidate"
  | .confirmedCommit => "confirmed_commit"
  | .rollbackOnError => "rollback_on_error"
  | .validate => "validate"
  | .startup => "startup"
  | .xpath => "xpath"
  | .notification => "notification"
  | .interleave => "interleave"
  | .partialLock => "partial_lock"
  | .actions => "actions"
  | .transactions => "transactions"
  | .withDefaults => "with_defaults"

/-- The features that come before the support of URLs in JSON. -/
def featuresBeforeUrl : List Feature :=
  [.base, .writableRunning, .candidate, .confirmedCommit, .rollbackOnError, .validate, .startup]

/-- The features that come behind the support of URLs in JSON. -/
def featuresAfterUrl : List Feature :=
  [.xpath, .notification, .interleave, .partialLock, .actions, .transactions, .withDefaults]

/-- The names of what the server supports, in the order of the JSON form. -/
def supported (c : Capabilities) : List String :=
  let names (fs : List Feature) : List String := (fs.filter c.has).map featureName
  names featuresBeforeUrl ++ (if c.url then ["url"] else []) ++ names featuresAfterUrl

/-- A capability in JSON. -/
def capabilityValue (a : Capability) : Json :=
  .ofMembers [("uri", .ofText a.uri), ("revision", .ofText? a.revision)]

/-- The capabilities as a JSON text. -/
def toJson (c : Capabilities) : String :=
  let flags (fs : List Feature) : List (String × Json) :=
    fs.map fun f => (featureName f, .boolean (c.has f))
  let url : List (String × Json) :=
    [("url", .boolean c.url), ("url_schemes", .array (c.urlSchemes.map .ofText))]
  let lists : List (String × Json) :=
    [("capabilities", .array (c.all.map capabilityValue)),
      ("data_capabilities", .array (c.data.map capabilityValue))]
  (Json.ofMembers (flags featuresBeforeUrl ++ url ++ flags featuresAfterUrl ++ lists)).print

end Netconf.Capabilities
