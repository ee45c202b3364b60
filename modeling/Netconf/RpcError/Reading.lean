import Netconf.Json
import Netconf.RpcError.Basic
import Netconf.Xml.Writing

/-!
# Error records in replies and in JSON

An error record is read from an `rpc-error` element: each field is the trimmed value of the first
child of its name. As JSON a record is an object with one member per field.
-/

namespace Netconf.RpcError

/-- The text of a field of an `rpc-error` element. -/
def field? (t : Tree) (id : NodeId) (name : String) : Option String :=
  (t.childValue? id name).map fun v => Text.trim v.wire

/-- The further information of an `rpc-error` element: its children as XML. -/
def info? (t : Tree) (id : NodeId) : Option String :=
  (t.child? id "error-info").map fun c => String.join ((t.children c).map t.toXml)

/-- The record of an `rpc-error` element. -/
def ofNode (t : Tree) (id : NodeId) : RpcError where
  kind := field? t id "error-type"
  tag := field? t id "error-tag"
  severity := field? t id "error-severity"
  appTag := field? t id "error-app-tag"
  path := field? t id "error-path"
  message := field? t id "error-message"
  info := info? t id

/-! ## JSON -/

/-- The names of the fields in JSON, in order. -/
def fieldNames : List String :=
  ["error_type", "error_tag", "error_severity", "error_app_tag", "error_path", "error_message",
    "error_info"]

/-- The fields in order. -/
def fields (e : RpcError) : List (Option String) :=
  [e.kind, e.tag, e.severity, e.appTag, e.path, e.message, e.info]

/-- The record as a JSON text. -/
def toJson (e : RpcError) : String :=
  (Json.ofMembers (fieldNames.zip (e.fields.map Json.ofText?))).print

/-- A field in JSON: a text, or `null` for a missing one. -/
def readField : Json → Option (Option String)
  | .null => some none
  | .text (some s) => some (some s)
  | _ => none

/-- The record with one field set by its name in JSON; other names are passed over. -/
def setField (e : RpcError) (name : String) (v : Json) : Option RpcError :=
  match name with
  | "error_type" => (readField v).map fun f => { e with kind := f }
  | "error_tag" => (readField v).map fun f => { e with tag := f }
  | "error_severity" => (readField v).map fun f => { e with severity := f }
  | "error_app_tag" => (readField v).map fun f => { e with appTag := f }
  | "error_path" => (readField v).map fun f => { e with path := f }
  | "error_message" => (readField v).map fun f => { e with message := f }
  | "error_info" => (readField v).map fun f => { e with info := f }
  | _ => some e

/-- Sets fields one after the other; a field must not come twice. -/
def setFields (e : RpcError) (seen : List String) :
    List (Option String × Json) → Option RpcError
  | [] => some e
  | (none, _) :: _ => none
  | (some name, v) :: ms =>
    if seen.contains name then none
    else
      (e.setField name v).bind fun e =>
        setFields e (if fieldNames.contains name then name :: seen else seen) ms

/-- The record of a JSON value: an object, or a list of all fields in order. -/
def ofValue? : Json → Option RpcError
  | .object members => setFields {} [] members
  | .array items =>
    if items.length = fieldNames.length then
      setFields {} [] ((fieldNames.map some).zip items)
    else none
  | _ => none

/-- The record of a JSON text. -/
def ofJson (s : String) : Except Error RpcError :=
  match (Json.parse s).bind ofValue? with
  | some e => .ok e
  | none => .error .json

end Netconf.RpcError
