import Netconf.Binding
import Netconf.Schema
import Netconf.Value

/-!
# Elements

What a node of a configuration tree carries by itself: its namespace and name, its value, its
attributes, the bindings declared on it and its kind. Where the node stands in a tree is not part
of it. The module also holds the rules for attributes: attributes are unique by namespace and name,
and the attributes that declare namespaces become bindings.
-/

namespace Netconf

/-- The number of a node's slot in its tree. -/
abbrev NodeId := Nat

/-- An attribute of an element. -/
structure Attribute where
  /-- The namespace; an attribute written without a label has none. -/
  ns : Option String
  /-- The local name. -/
  name : String
  /-- The value. -/
  value : String
  deriving DecidableEq, Inhabited

/-- What a node carries by itself. -/
structure Element where
  /-- The namespace, if it has one. -/
  ns : Option String := none
  /-- The local name. -/
  name : String := ""
  /-- The value, if it has one. -/
  value : Option Value := none
  /-- The attributes in order. -/
  attributes : List Attribute := []
  /-- The bindings declared here. -/
  bindings : Bindings := {}
  /-- What the data model knows about the node. -/
  kind : Kind := .plain
  deriving DecidableEq, Inhabited

/-- The marks of the nodes of an edit: what is to be done with the node. -/
inductive Operation where
  /-- The node must be new. -/
  | create
  /-- The node is to go. -/
  | delete
  /-- The node takes the place of the one that is there. -/
  | replace
  /-- The node is joined with the one that is there. -/
  | merge
  deriving DecidableEq, Inhabited

namespace Operation

/-- The word for an operation. -/
def name : Operation → String
  | .create => "create"
  | .delete => "delete"
  | .replace => "replace"
  | .merge => "merge"

/-- The operation of a word. -/
def ofName? (s : String) : Option Operation :=
  [create, delete, replace, merge].find? fun o => o.name == s

end Operation

namespace Element

/-- Two elements are alike when namespace, name and value are the same. -/
def alike (a b : Element) : Bool :=
  a.name == b.name && a.ns == b.ns && sameValue a.value b.value

/-- Do two elements have the same namespace and name? -/
def sameName (a b : Element) : Bool := a.name == b.name && a.ns == b.ns

/-! ## Bindings -/

/-- Binds a label on the element, giving up an earlier binding of it. -/
def bind (e : Element) (b : Binding) : Element := { e with bindings := e.bindings.set b }

/-- Binds labels on the element, giving up earlier bindings of them. -/
def bindAll (e : Element) (m : Bindings) : Element := { e with bindings := e.bindings.setAll m }

/-- Adds the bindings whose labels are not bound on the element. -/
def mergeBindings (e : Element) (m : Bindings) : Element :=
  { e with bindings := e.bindings.merge m }

/-- Binds a label to the element's own namespace, if it has one. -/
def bindOwn (e : Element) (label : String) : Element :=
  match e.ns with
  | some ns => e.bind ⟨label, ns⟩
  | none => e

/-! ## Attributes -/

/-- Is it the attribute of this namespace and name? -/
def isAttribute (ns : Option String) (name : String) (a : Attribute) : Bool :=
  a.ns == ns && a.name == name

/-- Gives an attribute its value: in its place if it is there, else as the last one. -/
def putAttribute (attributes : List Attribute) (a : Attribute) : List Attribute :=
  if attributes.any (isAttribute a.ns a.name) then
    attributes.map fun b => if isAttribute a.ns a.name b then a else b
  else attributes ++ [a]

/-- Sets an attribute without namespace. The names `xmlns` and `xmlns:` with a label declare a
binding instead. -/
def setAttribute (e : Element) (name value : String) : Element :=
  if name = "xmlns" then e.bind ⟨"", value⟩
  else
    match "xmlns:".toList.isPrefixOf? name.toList with
    | some label => e.bind ⟨String.ofList label, value⟩
    | none => { e with attributes := putAttribute e.attributes ⟨none, name, value⟩ }

/-- Sets an attribute in a namespace. In the namespace of declarations it declares a binding,
under its own name or as `setAttribute` does. -/
def setAttributeIn (e : Element) (ns name value : String) : Element :=
  if ns = nsXmlns then
    if "xmlns".toList.isPrefixOf name.toList then e.setAttribute name value
    else e.bind ⟨name, value⟩
  else { e with attributes := putAttribute e.attributes ⟨some ns, name, value⟩ }

/-- The first attribute with a name, in any namespace. -/
def attribute? (e : Element) (name : String) : Option Attribute :=
  e.attributes.find? fun a => a.name == name

/-- The attribute with a name in a namespace. -/
def attributeIn? (e : Element) (ns name : String) : Option Attribute :=
  e.attributes.find? (isAttribute (some ns) name)

/-- The element without the first attribute with a name, in any namespace. -/
def eraseAttribute (e : Element) (name : String) : Element :=
  { e with attributes := e.attributes.eraseP fun a => a.name == name }

/-- The element without the attribute with a name in a namespace. -/
def eraseAttributeIn (e : Element) (ns name : String) : Element :=
  { e with attributes := e.attributes.eraseP (isAttribute (some ns) name) }

/-! ## Marks -/

/-- The name of the attribute that marks the nodes of an edit. -/
def markName : String := "operation"

/-- Marks the element with an operation. -/
def mark (e : Element) (o : Operation) : Element := e.setAttributeIn nsNetconf markName o.name

/-- The text of the element's mark. -/
def markText? (e : Element) : Option String :=
  (e.attributeIn? nsNetconf markName).map (·.value)

/-- The element without its mark. -/
def unmark (e : Element) : Element := e.eraseAttributeIn nsNetconf markName

/-! ## Keys -/

/-- Is `name` the name of one of the element's key leaves? -/
def hasKey (e : Element) (name : String) : Bool := e.kind.keys.contains name

end Element

end Netconf
