import Netconf.Text.Cut
import Netconf.Tree.Structure
import Netconf.Xml.Markup
import Netconf.Xml.Reference

/-!
# Reading XML into trees

The items of an XML text build a tree: each tag makes a node, in the order of the tags, below the
innermost element that is open. Declarations of namespaces become bindings. The texts directly
inside an element, trimmed and joined, are its value. The first element is the root of the
document.
-/

namespace Netconf.Xml

/-! ## Names and attributes -/

/-- A name cut at its first colon: the label, empty if there is none, and the local name. -/
def splitName (name : List Char) : String × String :=
  match Text.cut ':' name with
  | some (label, rest) => (String.ofList label, String.ofList rest)
  | none => ("", String.ofList name)

/-- An attribute as it stands in a tag, its references replaced. -/
structure RawAttribute where
  /-- The name, with its label. -/
  key : List Char
  /-- The value. -/
  value : String
  deriving DecidableEq

/-- Reads a quoted value behind its `=`: the value and the text behind the closing quote. -/
def readQuotedValue (cs : List Char) : Option (List Char × List Char) :=
  match cs.dropWhile isSpace with
  | q :: more =>
    if q = '"' ∨ q = '\'' then
      match more.dropWhile fun c => c != q with
      | _ :: rest => some (more.takeWhile fun c => c != q, rest)
      | [] => none
    else none
  | [] => none

/-- Reads the attributes of a tag, at most `n`; `keys` are those read already. The first fault in
the order of the text is reported. -/
def readAttributesFor :
    Nat → List (List Char) → List Char → Except ParseError (List RawAttribute)
  | 0, _, _ => .ok []
  | n + 1, keys, cs =>
    match cs.dropWhile isSpace with
    | [] => .ok []
    | c :: more =>
      let inKey (d : Char) : Bool := d != '=' && !isSpace d
      let key := c :: more.takeWhile inKey
      match (more.dropWhile inKey).dropWhile isSpace with
      | '=' :: afterEq =>
        if keys.contains key then .error .attribute
        else
          match readQuotedValue afterEq with
          | none => .error .attribute
          | some (raw, rest) =>
            match unescape raw with
            | none => .error .attributeValue
            | some value =>
              match readAttributesFor n (key :: keys) rest with
              | .error e => .error e
              | .ok others => .ok (⟨key, String.ofList value⟩ :: others)
      | _ => .error .attribute

/-- Reads the attributes of a tag. -/
def readAttributes (cs : List Char) : Except ParseError (List RawAttribute) :=
  readAttributesFor (cs.length + 1) [] cs

namespace RawAttribute

/-- The binding that an attribute declares, if it is a declaration. -/
def binding? (a : RawAttribute) : Option Binding :=
  if a.key = "xmlns".toList then some ⟨"", a.value⟩
  else ("xmlns:".toList.isPrefixOf? a.key).map fun label => ⟨String.ofList label, a.value⟩

end RawAttribute

/-- The bindings that the attributes of a tag declare. -/
def declaredBindings (attributes : List RawAttribute) : Bindings :=
  .ofList (attributes.filterMap RawAttribute.binding?)

/-! ## Elements -/

/-- What a label means at a new element: what the element declares, or else what it means at the
parent or by default. The empty namespace is none. -/
def resolve (t : Tree) (declared : Bindings) (parent : Option NodeId) (label : String) :
    Option String :=
  if label = "xml" then some nsXml
  else
    let inherited : Option String :=
      match parent with
      | some p => t.nsOf? p label
      | none => t.defaults.bindings.ns? label
    ((declared.ns? label).or inherited).filter fun ns => ns != ""

/-- Gives a new element an attribute of its tag; declarations are no attributes. -/
def addAttribute (t : Tree) (declared : Bindings) (parent : Option NodeId) (e : Element)
    (a : RawAttribute) : Except ParseError Element :=
  if a.binding?.isSome then .ok e
  else
    let (label, name) := splitName a.key
    if label = "" then .ok (e.setAttribute name a.value)
    else
      match resolve t declared parent label with
      | some ns => .ok (e.setAttributeIn ns name a.value)
      | none => .error (.unboundLabel label)

/-- Gives a new element the attributes of its tag. -/
def addAttributes (t : Tree) (declared : Bindings) (parent : Option NodeId) (e : Element) :
    List RawAttribute → Except ParseError Element
  | [] => .ok e
  | a :: as =>
    match addAttribute t declared parent e a with
    | .error err => .error err
    | .ok e => addAttributes t declared parent e as

/-- The element of a tag, read below a parent. -/
def readElement (t : Tree) (schema : Option Schema) (parent : Option NodeId)
    (name attributes : List Char) : Except ParseError Element :=
  match readAttributes attributes with
  | .error err => .error err
  | .ok attributes =>
    let (label, localName) := splitName name
    let declared := declaredBindings attributes
    let ns := resolve t declared parent label
    if ns.isNone && label != "" then .error (.unboundLabel label)
    else
      let plain : Element := { ns := ns, name := localName }
      match addAttributes t declared parent (plain.bindAll declared) attributes with
      | .error err => .error err
      | .ok e =>
        match schema with
        | some s => .ok { e with kind := s.kindOf ns localName (parent.map t.kind) }
        | none => .ok e

/-! ## Documents -/

/-- A document being read. -/
structure Draft where
  /-- The tree read so far. -/
  tree : Tree
  /-- The open elements with the names of their tags, the innermost first. -/
  openElements : List (NodeId × List Char) := []
  /-- The first element. -/
  root : Option NodeId := none

namespace Draft

/-- The innermost open element. -/
def parent? (s : Draft) : Option NodeId := s.openElements.head?.map (·.1)

/-- Adds the element of a tag below the innermost open element. -/
def addElement (s : Draft) (schema : Option Schema) (name attributes : List Char) :
    Except Error (NodeId × Draft) :=
  match readElement s.tree schema s.parent? name attributes with
  | .error err => .error (.parse err)
  | .ok e =>
    let (t, id) := s.tree.create e
    let root := s.root.or (some id)
    match s.parent? with
    | none => .ok (id, { s with tree := t, root })
    | some p =>
      match t.append p id with
      | .error err => .error err
      | .ok t => .ok (id, { s with tree := t, root })

/-- Adds a text to the value of the innermost open element; outside all elements a text is
dropped. -/
def addText (s : Draft) (cs : List Char) : Draft :=
  let text := String.ofList (Text.strip cs)
  match s.parent? with
  | none => s
  | some p =>
    if text = "" then s
    else
      let before := ((s.tree.value? p).map Value.wire).getD ""
      { s with tree := s.tree.setValue p (.text (before ++ text)) }

/-- Adds an item. -/
def add (schema : Option Schema) (s : Draft) : Markup → Except Error Draft
  | .opening name attributes =>
    match s.addElement schema name attributes with
    | .error err => .error err
    | .ok (id, s) => .ok { s with openElements := (id, name) :: s.openElements }
  | .single name attributes =>
    match s.addElement schema name attributes with
    | .error err => .error err
    | .ok (_, s) => .ok s
  | .closing name =>
    match s.openElements with
    | (_, opened) :: others =>
      if opened = name then .ok { s with openElements := others } else .error (.parse .markup)
    | [] => .error (.parse .markup)
  | .text cs =>
    match unescape cs with
    | some text => .ok (s.addText text)
    | none => .error (.parse .text)
  | .literal cs => .ok (s.addText cs)

/-- Adds items one after the other. -/
def addAll (schema : Option Schema) (s : Draft) : List Markup → Except Error Draft
  | [] => .ok s
  | m :: ms =>
    match s.add schema m with
    | .error err => .error err
    | .ok s => addAll schema s ms

/-- The document at the end of its text. -/
def finish (s : Draft) (complete : Bool) : Except Error Document :=
  if !complete then .error (.parse .markup)
  else
    match s.openElements, s.root with
    | (id, _) :: _, _ => .error (.parse (.unclosed (s.tree.name id)))
    | [], none => .error (.parse .noRoot)
    | [], some root => .ok ⟨s.tree, root⟩

end Draft

/-- Reads a document over a registry of default bindings, giving its nodes the kinds of a schema. -/
def parse (defaults : Registry) (schema : Option Schema) (xml : String) : Except Error Document :=
  let scanned := scan xml.toList
  match Draft.addAll schema { tree := .empty defaults } scanned.items with
  | .error err => .error err
  | .ok s => s.finish scanned.complete

end Netconf.Xml
