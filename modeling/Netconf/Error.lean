import Netconf.Path.Operand
import Netconf.RpcError.Basic
import Netconf.Session.Stage

/-!
# Errors

What can go wrong, by cause. Every family of causes has one function `message` that words it, and
`Error.message` puts the family's heading in front. Errors of the underlying byte streams, of the
JSON reader and of the XML syntax have a heading only: their details belong to the device or to the
reader.
-/

namespace Netconf

/-- What is wrong with a path or with an operand of a predicate. -/
inductive PathError where
  /-- A character that starts no token. -/
  | illegalCharacter (c : Char)
  /-- A quote that is not closed; the text behind it is given. -/
  | unterminated (rest : String)
  /-- An integer beyond 64 bits. -/
  | tooLarge (digits : String)
  /-- There is no step at all. -/
  | empty
  /-- An axis that is not supported. -/
  | axis (name : String)
  /-- A token that cannot stand where it stands; the tokens from there on are given. -/
  | unexpected (rest : List Path.Token)
  /-- A function that does not exist. -/
  | unknownFunction (name : String)
  /-- A function called with the wrong number of arguments. -/
  | argumentCount (name : String)
  /-- An operand that an operation cannot use. -/
  | badOperand (operation : String) (operand : Path.Operand)
  /-- A result beyond 64 bits. -/
  | overflow
  /-- The counting function called without an argument. -/
  | nothingToCount

/-- How many tokens an error message shows. -/
def PathError.shownTokens : Nat := 5

/-- The wording of a path error. -/
def PathError.message : PathError → String
  | .illegalCharacter c => "illegal character in expression: " ++ String.singleton c
  | .unterminated rest => "unterminated value: " ++ rest
  | .tooLarge digits => "bad number " ++ digits ++ ": number too large to fit in target type"
  | .empty => "empty path"
  | .axis name => "unsupported or unknown axis: " ++ name
  | .unexpected rest =>
    "parse error: \"" ++ String.join ((rest.take shownTokens).map Path.Token.shown) ++ "...\""
  | .unknownFunction name => "unknown function: " ++ name ++ "()"
  | .argumentCount name => "wrong number of arguments to " ++ name ++ "()"
  | .badOperand operation operand =>
    "badarg to function " ++ operation ++ "(): " ++ operand.shown
  | .overflow => "integer overflow"
  | .nothingToCount => "count() takes one argument"

/-- Why a path cannot be created. -/
inductive CreateError where
  /-- The path names no node. -/
  | nothing (path : String)
  /-- A step that does not go to a child. -/
  | axis
  /-- A label without a namespace. -/
  | unboundLabel (label : String)
  /-- A predicate that assigns nothing. -/
  | illegal (e : Path.Expr)
  /-- Several nodes could take the new ones. -/
  | ambiguous (path : String)
  /-- The path has no step that makes a node. -/
  | empty

/-- The wording of a creation error. -/
def CreateError.message : CreateError → String
  | .nothing path => "nothing to create in \"" ++ path ++ "\""
  | .axis => "unknown axis in create path"
  | .unboundLabel label => "missing namespace for prefix: \"" ++ label ++ "\""
  | .illegal e => "illegal path create expr: " ++ e.shown
  | .ambiguous path => "multiple nodes found by path: \"" ++ path ++ "\""
  | .empty => "empty create path"

/-- What is wrong with a text that should be read. -/
inductive ParseError where
  /-- The markup is malformed. -/
  | markup
  /-- A reference in a text is malformed. -/
  | text
  /-- The attributes of a tag are malformed. -/
  | attribute
  /-- A reference in the value of an attribute is malformed. -/
  | attributeValue
  /-- The bytes of a message are no UTF-8. -/
  | encoding
  /-- A text is no base64. -/
  | base64
  /-- A label that is bound to no namespace. -/
  | unboundLabel (label : String)
  /-- A document without an element. -/
  | noRoot
  /-- An element that is never closed. -/
  | unclosed (name : String)
  deriving DecidableEq

/-- The wording of a reading error. -/
def ParseError.message : ParseError → String
  | .markup => "XML parse error"
  | .text => "text error"
  | .attribute => "attribute error"
  | .attributeValue => "attribute value error"
  | .encoding => "invalid UTF-8 in message"
  | .base64 => "bad base64 value"
  | .unboundLabel label => "unbound prefix: " ++ label
  | .noRoot => "no root element"
  | .unclosed name => "unclosed element: <" ++ name ++ ">"

/-- What is wrong in the course of a session. -/
inductive SessionError where
  /-- The server lacks a capability. -/
  | capability (name : String)
  /-- The server cannot use a URL of this scheme. -/
  | urlScheme (url : String)
  /-- A request outside the established stage. -/
  | notEstablished (stage : SessionStage)
  /-- A hello without capabilities. -/
  | noCapabilities
  /-- A hello without the base capability. -/
  | noBase (capability : String)
  /-- A hello without a session identifier. -/
  | noSessionId
  /-- A hello whose session identifier is no number. -/
  | badSessionId (text : String)
  /-- The running datastore was to be deleted. -/
  | deleteRunning
  /-- A session was to end itself by force. -/
  | killSelf
  /-- A lock was granted without a usable number; the reply is given. -/
  | badLockId (reply : String)
  /-- The transport was closed before. -/
  | transportClosed
  /-- The stream ended after this many bytes of a message. -/
  | endOfStream (bytes : Nat)
  deriving DecidableEq

/-- The wording of a session error. -/
def SessionError.message : SessionError → String
  | .capability name => "capability " ++ name ++ " is not supported by server"
  | .urlScheme url => "the url: \"" ++ url ++ "\" is not a supported :url scheme"
  | .notEstablished state => "session is not established: " ++ state.shown
  | .noCapabilities => "hello contains no capabilities"
  | .noBase name => "server does not support NETCONF base capability: " ++ name
  | .noSessionId => "hello contains no session identifier"
  | .badSessionId text => "bad session identifier in hello: \"" ++ text ++ "\""
  | .deleteRunning => "the running datastore cannot be deleted"
  | .killSelf => "illegal to use kill-session on own session id"
  | .badLockId reply => "bad lock-id returned from partial-lock: " ++ reply
  | .transportClosed => "transport is closed"
  | .endOfStream 0 => "end of stream"
  | .endOfStream bytes => "end of stream after " ++ toString bytes ++ " bytes of message"

/-- What in a tree the peer's revision does not know yet. The peer's revision is given. -/
inductive RevisionError where
  /-- More entries than the peer accepts. -/
  | tooMany (path : String) (count : Nat) (peer : String) (most : Nat)
  /-- A value that the peer does not know. -/
  | enum (path value peer : String)
  /-- A bit that the peer does not know. -/
  | bit (path bit peer : String)
  deriving DecidableEq

/-- The wording of a revision error. -/
def RevisionError.message : RevisionError → String
  | .tooMany path count peer most =>
    path ++ ": " ++ toString count ++ " entries, peer revision " ++ peer ++ " allows "
      ++ toString most
  | .enum path value peer =>
    path ++ ": enum " ++ value ++ " is newer than peer revision " ++ peer
  | .bit path name peer => path ++ ": bit " ++ name ++ " is newer than peer revision " ++ peer

/-- Everything that can go wrong. -/
inductive Error where
  /-- A path is malformed or has a bad operand. -/
  | path (cause : PathError)
  /-- A path cannot be created. -/
  | create (cause : CreateError)
  /-- A text cannot be read. -/
  | parse (cause : ParseError)
  /-- The server answered with error records, or not with a usable reply. -/
  | reply (records : List RpcError) (text : String)
  /-- A precondition or the protocol is violated. -/
  | session (cause : SessionError)
  /-- A node has a parent already, or would become its own ancestor. -/
  | inUse (what : String)
  /-- A node that an edit needs is not there. -/
  | missing (what : String)
  /-- A message that is no notification came where one was expected. -/
  | notification (message : String)
  /-- No complete message came in time; this many bytes of one did. -/
  | timeout (bytes : Nat)
  /-- The peer's revision is too old for the tree. -/
  | revision (cause : RevisionError)
  /-- A reply belongs to another request. -/
  | idMismatch (sent : Nat) (received : Option String)
  /-- The byte stream or a file failed. -/
  | io
  /-- A JSON text is malformed or does not fit. -/
  | json

/-- The wording of an error. -/
def Error.message : Error → String
  | .path cause => "Error in path: " ++ cause.message
  | .create cause => "Error in create path: " ++ cause.message
  | .parse cause => "Parse error: " ++ cause.message
  | .reply _ text => "rpc-reply error: " ++ text
  | .session cause => "Session error: " ++ cause.message
  | .inUse what => "Element has already been used: " ++ what
  | .missing what => "Element does not exist: " ++ what
  | .notification message => "Notification error: " ++ message
  | .timeout bytes =>
    "Timeout error: no complete message after reading " ++ toString bytes ++ " bytes"
  | .revision cause => "Revision error: " ++ cause.message
  | .idMismatch sent received =>
    "Message ID mismatch: after sending rpc with message-id=" ++ toString sent
      ++ ", received rpc-reply with message-id=" ++ received.getD "none"
  | .io => "IO error"
  | .json => "JSON error"

/-- The error records that the server sent; there are none but in a reply error. -/
def Error.records : Error → List RpcError
  | .reply records _ => records
  | _ => []

end Netconf
