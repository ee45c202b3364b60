/-!
# The lifecycle of a session
-/

namespace Netconf

/-- The stages that a session goes through, in this order. -/
inductive SessionStage where
  /-- Nothing was sent. -/
  | init
  /-- The own hello was sent. -/
  | helloSent
  /-- Both sides have said hello; requests may be sent. -/
  | established
  /-- The session has ended. -/
  | closed
  deriving DecidableEq, Inhabited

namespace SessionStage

/-- The name of a stage in messages. -/
def shown : SessionStage → String
  | init => "Init"
  | helloSent => "HelloSent"
  | established => "Established"
  | closed => "Closed"

/-- The place of a stage in the order of the lifecycle. -/
def rank : SessionStage → Nat
  | init => 0
  | helloSent => 1
  | established => 2
  | closed => 3

end SessionStage

end Netconf
