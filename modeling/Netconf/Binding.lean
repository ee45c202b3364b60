/-!
# Namespace bindings

A binding gives a namespace a short name, its *label*; the empty label is the default namespace.
`Bindings` is an ordered set of bindings with at most one binding per label, as declared on one
element: a default binding stands first and the others in the order in which they were first made.
A `Registry` holds the bindings that apply where no element declares one.
-/

namespace Netconf

/-- The namespace of the protocol's own elements. -/
def nsNetconf : String := "urn:ietf:params:xml:ns:netconf:base:1.0"

/-- The namespace of partial locks. -/
def nsPartialLock : String := "urn:ietf:params:xml:ns:netconf:partial-lock:1.0"

/-- The namespace of notifications. -/
def nsNotification : String := "urn:ietf:params:xml:ns:netconf:notification:1.0"

/-- The namespace of the declarations of namespaces. -/
def nsXmlns : String := "http://www.w3.org/2000/xmlns/"

/-- The namespace that the label `xml` always has. -/
def nsXml : String := "http://www.w3.org/XML/1998/namespace"

/-- A label bound to a namespace. -/
structure Binding where
  /-- The short name; empty for the default namespace. -/
  label : String
  /-- The namespace. -/
  ns : String
  deriving DecidableEq, Inhabited

namespace Binding

/-- Does it declare the default namespace? -/
def isDefault (b : Binding) : Bool := b.label == ""

/-- The name of the attribute that declares the binding. -/
def declaration (b : Binding) : String :=
  if b.isDefault then "xmlns" else "xmlns:" ++ b.label

end Binding

/-- Bindings in order, at most one per label, a default binding first. -/
structure Bindings where
  /-- The bindings in order. -/
  toList : List Binding := []
  deriving DecidableEq, Inhabited

namespace Bindings

/-- No binding at all. -/
def empty : Bindings := {}

/-- The namespace bound to a label. -/
def ns? (m : Bindings) (label : String) : Option String :=
  (m.toList.find? fun b => b.label == label).map (·.ns)

/-- The first label bound to a namespace. -/
def label? (m : Bindings) (ns : String) : Option String :=
  (m.toList.find? fun b => b.ns == ns).map (·.label)

/-- Is the label bound? -/
def binds (m : Bindings) (label : String) : Bool := (m.ns? label).isSome

/-- The bindings with a new one: a default binding goes to the front, any other to the end. -/
def insert (m : Bindings) (b : Binding) : Bindings :=
  ⟨if b.isDefault then b :: m.toList else m.toList ++ [b]⟩

/-- Adds a binding unless its label is bound already. -/
def add (m : Bindings) (b : Binding) : Bindings :=
  if m.binds b.label then m else m.insert b

/-- Binds a label; a binding that it has is overwritten in its place. -/
def set (m : Bindings) (b : Binding) : Bindings :=
  if m.binds b.label then ⟨m.toList.map fun c => if c.label == b.label then b else c⟩
  else m.insert b

/-- Adds the bindings of another set whose labels are not bound here. -/
def merge (m other : Bindings) : Bindings := other.toList.foldl add m

/-- Binds every label of another set as it is bound there. -/
def setAll (m other : Bindings) : Bindings := other.toList.foldl set m

/-- The binding of a label, and the bindings without it. -/
def erase (m : Bindings) (label : String) : Option Binding × Bindings :=
  (m.toList.find? fun b => b.label == label, ⟨m.toList.filter fun b => b.label != label⟩)

/-- The bindings of a list, a later one overwriting an earlier one of the same label. -/
def ofList (bs : List Binding) : Bindings := bs.foldl set empty

end Bindings

/-- Default bindings shared by all that hold the registry of the same number. Bindings are only
ever added to it. -/
structure Registry where
  /-- The number of the registry; holders of the same number share it. -/
  id : Nat := 0
  /-- Its current bindings. -/
  bindings : Bindings := {}
  deriving DecidableEq, Inhabited

namespace Registry

/-- The bindings that every new registry starts with. -/
def standardBindings : Bindings :=
  .ofList [⟨"nc", nsNetconf⟩, ⟨"pl", nsPartialLock⟩, ⟨"ncn", nsNotification⟩]

/-- A new registry of the given number. -/
def standard (id : Nat) : Registry := ⟨id, standardBindings⟩

/-- Adds a binding unless its label is registered already; tells whether it was added. -/
def register (r : Registry) (b : Binding) : Bool × Registry :=
  if r.bindings.binds b.label then (false, r) else (true, { r with bindings := r.bindings.add b })

/-- The newer state of the same registry; another registry is left as it is. -/
def refresh (r newer : Registry) : Registry := if r.id = newer.id then newer else r

end Registry

end Netconf
