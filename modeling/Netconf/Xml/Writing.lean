import Netconf.Capability.Basic
import Netconf.Error
import Netconf.Xml.Reference
import Netconf.Xml.Scope

/-!
# Writing trees as XML

A branch is written with the declarations of its bindings and those that its names need besides.
Towards a peer with an older data model, nodes that the peer does not know are left out, and values
that it does not know are refused.
-/

namespace Netconf.Xml

/-- How a tree is written. -/
structure Layout where
  /-- Whether children stand on lines of their own, indented by two blanks per level. -/
  pretty : Bool := false
  /-- The capabilities of the peer, if it limits what is written. -/
  peer : Option Capabilities := none

/-! ## Revisions -/

/-- The revision records that concern a node: those of its own schema for a container, and else
those that the schema of its parent has for its name. -/
def revisionsOf (above : Lineage) (e : Element) : List Revision :=
  match e.kind with
  | .container s => s.revisions
  | _ => (((above.head?.bind fun p => p.kind.schema?).map fun s => s.leafHistory e.name)).getD []

/-- How many siblings have the name of a node, itself included. -/
def entryCount (above : Lineage) (siblings : List Element) (name : String) : Nat :=
  if above.isEmpty then 1 else (siblings.filter fun s => s.name == name).length

/-- What a record newer than the peer means for a node: whether the node is left out. -/
def judge (path peer : String) (count : Nat) (value : Option Value) (r : Revision) :
    Except RevisionError Bool :=
  match r.change with
  | .nodeAdded => .ok true
  | .maxElements most =>
    if most < count then .error (.tooMany path count peer most) else .ok false
  | .enumAdded v =>
    if value.any fun w => w.wire == v then .error (.enum path v peer) else .ok false
  | .bitsAdded b =>
    if (Text.words ((value.map Value.wire).getD "")).contains b then .error (.bit path b peer)
    else .ok false
  | .other => .ok false

/-- What records mean for a node, in order, up to the first that leaves it out. -/
def judgeAll (path peer : String) (count : Nat) (value : Option Value) :
    List Revision → Except RevisionError Bool
  | [] => .ok false
  | r :: rs =>
    match judge path peer count value r with
    | .error e => .error e
    | .ok true => .ok true
    | .ok false => judgeAll path peer count value rs

/-- Is a node left out for the peer? -/
def leavesOut (l : Layout) (defaults : Bindings) (above : Lineage) (siblings : List Element)
    (e : Element) : Except RevisionError Bool :=
  match l.peer.bind fun caps => e.ns.bind caps.revision? with
  | none => .ok false
  | some peer =>
    let newer := (revisionsOf above e).filter fun r => r.isAfter peer
    let line : Lineage := e :: above
    judgeAll (line.path defaults) peer (entryCount above siblings e.name) e.value newer

/-! ## Elements -/

/-- The end of a line, in the pretty layout. -/
def lineEnd (l : Layout) : String := if l.pretty then "\n" else ""

/-- The indentation of a level, in the pretty layout. -/
def indent (l : Layout) (depth : Nat) : String :=
  if l.pretty then String.ofList (List.replicate (2 * depth) ' ') else ""

/-- An attribute with a blank in front. -/
def attributeText (name value : String) : String :=
  " " ++ name ++ "=\"" ++ escapeAttribute value ++ "\""

/-- A start tag up to its closing sign. -/
def Tag.text (t : Tag) : String :=
  "<" ++ t.name ++ String.join (t.declared.map fun b => attributeText b.declaration b.ns)
    ++ String.join (t.attributes.map fun a => attributeText a.1 a.2)

/-- An element from its parts: the start tag, the text of the value, and the text of the children
if it has any. -/
def elementText (l : Layout) (depth : Nat) (t : Tag) (value : Option Value)
    (children : Option String) : String :=
  indent l depth ++ t.text ++
    match value, children with
    | none, none => "/>"
    | value, children =>
      ">" ++ ((value.map fun v => escapeText v.wire).getD "")
        ++ ((children.map fun c => c ++ lineEnd l ++ indent l depth).getD "")
        ++ "</" ++ t.name ++ ">"

mutual

/-- The text of a branch, empty if it is left out. `above` are the ancestors of its top, `siblings`
the children of the parent, and `scope` the bindings of the open elements. -/
def writeBranch (l : Layout) (defaults : Bindings) (above : Lineage) (siblings : List Element)
    (scope : Scope) (depth : Nat) : Branch → Except RevisionError String
  | .mk _ e children =>
    match leavesOut l defaults above siblings e with
    | .error err => .error err
    | .ok true => .ok ""
    | .ok false =>
      let tag := Tag.ofElement scope above defaults e
      match writeAll l defaults (e :: above) (children.map Branch.element) tag.scope (depth + 1)
          children with
      | .error err => .error err
      | .ok body =>
        .ok (elementText l depth tag e.value (if children.isEmpty then none else some body))

/-- The texts of branches, each on a line of its own in the pretty layout. -/
def writeAll (l : Layout) (defaults : Bindings) (above : Lineage) (siblings : List Element)
    (scope : Scope) (depth : Nat) : List Branch → Except RevisionError String
  | [] => .ok ""
  | b :: bs =>
    match writeBranch l defaults above siblings scope depth b with
    | .error err => .error err
    | .ok text =>
      match writeAll l defaults above siblings scope depth bs with
      | .error err => .error err
      | .ok others => .ok (lineEnd l ++ text ++ others)

end

end Netconf.Xml

namespace Netconf.Tree

/-- The XML text of the branch at a node. -/
def encode (t : Tree) (id : NodeId) (l : Xml.Layout) : Except RevisionError String :=
  let siblings := ((t.parent? id).map fun p => (t.children p).map t.element).getD []
  Xml.writeBranch l t.defaults.bindings (t.lineage id).tail siblings [] 0 (t.branch id)

/-- The XML text of the branch at a node, on one line. -/
def toXml (t : Tree) (id : NodeId) : String := (t.encode id {}).toOption.getD ""

/-- The XML text of the branch at a node, each element on a line of its own. -/
def toPrettyXml (t : Tree) (id : NodeId) : String :=
  (t.encode id { pretty := true }).toOption.getD ""

end Netconf.Tree
