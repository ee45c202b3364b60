/-!
# Error records of a server

One `rpc-error` element of a reply, as a record of its fields.
-/

namespace Netconf

/-- An error that a server reports. -/
structure RpcError where
  /-- The layer where the error arose. -/
  kind : Option String := none
  /-- The error itself. -/
  tag : Option String := none
  /-- How severe it is. -/
  severity : Option String := none
  /-- The error as the application of the server knows it. -/
  appTag : Option String := none
  /-- The place of the error. -/
  path : Option String := none
  /-- A text for people. -/
  message : Option String := none
  /-- The children of the element for further information, as XML. -/
  info : Option String := none
  deriving DecidableEq, Inhabited

namespace RpcError

/-- An error of severity `warning` lets the operation succeed. -/
def isWarning (e : RpcError) : Bool := e.severity == some "warning"

/-- The error on one line: its tag and its text. -/
def summary (e : RpcError) : String :=
  e.tag.getD "unknown" ++ " " ++ e.message.getD ""

end RpcError

end Netconf
