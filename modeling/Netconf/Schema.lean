/-!
# Schemas

What a data model says about the nodes of a tree: which leaves are the keys of a list entry, which
children an entry has, and since when. A `Schema` maps a namespace and a name to the kind that its
nodes have; a node whose name is not registered is a leaf when the schema of its parent names it.
-/

namespace Netconf

/-- How a schema node changed in a later revision of its data model. -/
inductive Change where
  /-- The node did not exist before. -/
  | nodeAdded
  /-- More entries became possible; older peers accept at most this many. -/
  | maxElements (most : Nat)
  /-- The value became possible. -/
  | enumAdded (value : String)
  /-- The bit became possible. -/
  | bitsAdded (bit : String)
  /-- A change that needs no care. -/
  | other
  deriving DecidableEq, Inhabited

/-- One record of a revision history. -/
structure Revision where
  /-- What changed. -/
  change : Change
  /-- The date of the revision, year first. -/
  introduced : String
  deriving DecidableEq, Inhabited

/-- Is the revision later than the one that a peer has? Dates compare as texts. -/
def Revision.isAfter (r : Revision) (peer : String) : Bool := decide (peer < r.introduced)

/-- What is known about a container or list entry. -/
structure ContainerSchema where
  /-- The names of the key leaves, in key order. -/
  keys : List String := []
  /-- The names of all children in schema order. -/
  children : List String := []
  /-- The revision history of the container itself. -/
  revisions : List Revision := []
  /-- The revision histories of its leaves, by leaf name. -/
  leafRevisions : List (String × List Revision) := []
  deriving DecidableEq, Inhabited

/-- The revision history of a leaf. -/
def ContainerSchema.leafHistory (s : ContainerSchema) (leaf : String) : List Revision :=
  (s.leafRevisions.lookup leaf).getD []

/-- What the data model knows about a node. -/
inductive Kind where
  /-- Nothing. -/
  | plain
  /-- It is a container or a list entry. -/
  | container (schema : ContainerSchema)
  /-- It is a leaf. -/
  | leaf
  deriving DecidableEq, Inhabited

namespace Kind

/-- Is it a container or a list entry? -/
def isContainer : Kind → Bool
  | .container _ => true
  | _ => false

/-- Is it a leaf? -/
def isLeaf : Kind → Bool
  | .leaf => true
  | _ => false

/-- The schema of a container. -/
def schema? : Kind → Option ContainerSchema
  | .container s => some s
  | _ => none

/-- The key names; there are none but for a container. -/
def keys (k : Kind) : List String := (k.schema?.map (·.keys)).getD []

end Kind

/-- A registered kind: the nodes of this namespace and name have it. -/
structure SchemaEntry where
  /-- The namespace. -/
  ns : String
  /-- The name. -/
  name : String
  /-- The kind. -/
  kind : Kind
  deriving DecidableEq

/-- The registered kinds, one per namespace and name. -/
structure Schema where
  /-- The entries, in no order that matters. -/
  entries : List SchemaEntry := []
  deriving DecidableEq, Inhabited

namespace Schema

/-- Registers a kind; an earlier one for the same namespace and name is given up. -/
def register (s : Schema) (e : SchemaEntry) : Schema :=
  ⟨e :: s.entries.filter fun o => !(o.ns == e.ns && o.name == e.name)⟩

/-- The number of registered kinds. -/
def size (s : Schema) : Nat := s.entries.length

/-- The kind registered for a namespace and name. -/
def find? (s : Schema) (ns name : String) : Option Kind :=
  (s.entries.find? fun e => e.ns == ns && e.name == name).map (·.kind)

/-- The kind of a node, given the kind of its parent. -/
def kindOf (s : Schema) (ns : Option String) (name : String) (parent : Option Kind) : Kind :=
  match ns.bind fun n => s.find? n name with
  | some kind => kind
  | none =>
    match parent.bind Kind.schema? with
    | some schema => if schema.children.contains name then .leaf else .plain
    | none => .plain

end Schema

end Netconf
