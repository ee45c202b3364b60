import Netconf.Error
import Netconf.Json

/-!
# Configuration of a session

What a session is told before it starts, read from JSON. Every field may be missing. A field that is
not known, comes twice or has a value of the wrong form makes the whole text unusable.
-/

namespace Netconf

/-- What an edit does by default. -/
inductive DefaultOperation where
  /-- It is merged. -/
  | merge
  /-- It replaces the configuration. -/
  | replace
  /-- It does nothing but what its marks say. -/
  | none
  deriving DecidableEq, Inhabited

/-- Whether an edit is validated. -/
inductive TestOption where
  /-- It is made at once. -/
  | set
  /-- It is validated, then made. -/
  | testThenSet
  /-- It is only validated. -/
  | testOnly
  deriving DecidableEq, Inhabited

/-- What happens when a part of an edit fails. -/
inductive ErrorOption where
  /-- The edit stops. -/
  | stopOnError
  /-- The edit goes on. -/
  | continueOnError
  /-- The edit is undone. -/
  | rollbackOnError
  deriving DecidableEq, Inhabited

/-- How the traffic of a session is traced. -/
inductive TraceMode where
  /-- Not at all. -/
  | off
  /-- Line by line. -/
  | raw
  /-- Message by message. -/
  | parsed
  deriving DecidableEq, Inhabited

namespace DefaultOperation

/-- The word for a default operation. -/
def name : DefaultOperation → String
  | merge => "merge"
  | replace => "replace"
  | .none => "none"

/-- The default operation of a word. -/
def ofName? (s : String) : Option DefaultOperation :=
  [merge, replace, DefaultOperation.none].find? fun o => o.name == s

end DefaultOperation

namespace TestOption

/-- The word for a test option. -/
def name : TestOption → String
  | set => "set"
  | testThenSet => "test-then-set"
  | testOnly => "test-only"

/-- The test option of a word. -/
def ofName? (s : String) : Option TestOption :=
  [set, testThenSet, testOnly].find? fun o => o.name == s

end TestOption

namespace ErrorOption

/-- The word for an error option. -/
def name : ErrorOption → String
  | stopOnError => "stop-on-error"
  | continueOnError => "continue-on-error"
  | rollbackOnError => "rollback-on-error"

/-- The error option of a word. -/
def ofName? (s : String) : Option ErrorOption :=
  [stopOnError, continueOnError, rollbackOnError].find? fun o => o.name == s

end ErrorOption

namespace TraceMode

/-- The word for a trace mode. -/
def name : TraceMode → String
  | off => "off"
  | raw => "raw"
  | parsed => "parsed"

/-- The trace mode of a word. -/
def ofName? (s : String) : Option TraceMode := [off, raw, parsed].find? fun m => m.name == s

end TraceMode

/-- The options of edits. -/
structure EditOptions where
  /-- What an edit does by default. -/
  defaultOperation : Option DefaultOperation := none
  /-- Whether an edit is validated. -/
  testOption : Option TestOption := none
  /-- What happens when a part of an edit fails. -/
  errorOption : Option ErrorOption := none
  deriving DecidableEq, Inhabited

/-- The configuration of a session. -/
structure Config where
  /-- How long a session waits for a message, in milliseconds; forever if not given. -/
  timeoutMs : Option Nat := none
  /-- Capabilities of the client's own. -/
  capabilities : List String := []
  /-- The options of edits. -/
  edit : EditOptions := {}
  /-- Whether default values are reported. -/
  withDefaults : Bool := false
  /-- How the traffic is traced. -/
  trace : TraceMode := .off
  deriving DecidableEq, Inhabited

namespace Config

/-- A word: a text, or an object with the word as its only member and `null` as its value. -/
def readWord : Json → Option String
  | .text (some s) => some s
  | .object [(some s, .null)] => some s
  | _ => none

/-- A value that may be `null`. -/
def readOptional {α : Type} (read : Json → Option α) : Json → Option (Option α)
  | .null => some none
  | v => (read v).map some

/-- A natural number of 64 bits. -/
def readMilliseconds : Json → Option Nat
  | .number (some n) => if n < 0x10000000000000000 then some n else none
  | _ => none

/-- A text. -/
def readText : Json → Option String
  | .text s => s
  | _ => none

/-- A list of texts. -/
def readTexts : Json → Option (List String)
  | .array items => items.mapM readText
  | _ => none

/-- A truth value. -/
def readBoolean : Json → Option Bool
  | .boolean b => some b
  | _ => none

/-- The names of the fields in JSON, in order. -/
def fieldNames : List String :=
  ["read_timeout_ms", "capabilities", "default_operation", "test_option", "error_option",
    "with_defaults", "trace"]

/-- The configuration with one field set by its name in JSON. -/
def setField (c : Config) (name : String) (v : Json) : Option Config :=
  match name with
  | "read_timeout_ms" =>
    (readOptional readMilliseconds v).map fun f => { c with timeoutMs := f }
  | "capabilities" => (readTexts v).map fun f => { c with capabilities := f }
  | "default_operation" =>
    (readOptional (fun w => (readWord w).bind DefaultOperation.ofName?) v).map fun f =>
      { c with edit := { c.edit with defaultOperation := f } }
  | "test_option" =>
    (readOptional (fun w => (readWord w).bind TestOption.ofName?) v).map fun f =>
      { c with edit := { c.edit with testOption := f } }
  | "error_option" =>
    (readOptional (fun w => (readWord w).bind ErrorOption.ofName?) v).map fun f =>
      { c with edit := { c.edit with errorOption := f } }
  | "with_defaults" => (readBoolean v).map fun f => { c with withDefaults := f }
  | "trace" => ((readWord v).bind TraceMode.ofName?).map fun f => { c with trace := f }
  | _ => none

/-- Sets fields one after the other; a field must not come twice. -/
def setFields (c : Config) (seen : List String) : List (Option String × Json) → Option Config
  | [] => some c
  | (none, _) :: _ => none
  | (some name, v) :: ms =>
    if seen.contains name then none
    else (c.setField name v).bind fun c => setFields c (name :: seen) ms

/-- The configuration of a JSON value: an object, or a list of the first fields in order. -/
def ofValue? : Json → Option Config
  | .object members => setFields {} [] members
  | .array items =>
    if items.length ≤ fieldNames.length then setFields {} [] ((fieldNames.map some).zip items)
    else none
  | _ => none

/-- The configuration of a JSON text. -/
def ofJson (s : String) : Except Error Config :=
  match (Json.parse s).bind ofValue? with
  | some c => .ok c
  | none => .error .json

end Config

end Netconf
