import Netconf.Tree.Basic

/-!
# Comparing nodes

Whether two nodes are the same node of two configurations, and if so whether they are equal. The
kind of the first node decides: containers are the same entry when they are alike and their keys
are, leaves when they have the same name, and nodes without schema when they are alike. What is
compared of a node is its entry: the node and its children, attributes apart.
-/

namespace Netconf

/-- How two nodes stand to each other. -/
inductive Likeness where
  /-- They are not the same node. -/
  | different
  /-- They are the same node with other content. -/
  | changed
  /-- They are the same node, and nothing that is compared differs. -/
  | equal
  deriving DecidableEq, Inhabited

namespace Entry

/-- Are the keys of a list of names alike on both sides, or missing on both? -/
def sameKeys (keys : List String) (a b : Entry) : Bool :=
  keys.all fun key =>
    match a.member? key, b.member? key with
    | some x, some y => x.alike y
    | none, none => true
    | _, _ => false

/-- Adds a name to the end of a list unless it is there already. -/
def addName (names : List String) (name : String) : List String :=
  if names.contains name then names else names ++ [name]

/-- The names of children that are no keys: the declared ones, then those present on either side. -/
def otherNames (s : ContainerSchema) (a b : Entry) : List String :=
  let present := (a.members ++ b.members).map (·.name)
  ((s.children ++ present).filter fun n => !s.keys.contains n).foldl addName []

/-- Do the children of a name match: are they as many on both sides, and has each child on the
first side one on the second that is like it? -/
def sameMembers (a b : Entry) (name : String) : Bool :=
  let xs := a.membersNamed name
  let ys := b.membersNamed name
  xs.length == ys.length && xs.all fun x => ys.any fun y => x.alike y

/-- Compares two nodes. -/
def compare (a b : Entry) : Likeness :=
  match a.element.kind with
  | .container s =>
    if !a.element.alike b.element then .different
    else if !sameKeys s.keys a b then .different
    else if (otherNames s a b).all (sameMembers a b) then .equal
    else .changed
  | .leaf =>
    if !a.element.sameName b.element then .different
    else if sameValue a.element.value b.element.value then .equal
    else .changed
  | .plain => if a.element.alike b.element then .equal else .different

/-- Are two nodes the same node, changed or not? -/
def matchesEntry (a b : Entry) : Bool := a.compare b != .different

end Entry

/-- Compares a node of one tree with a node of another. -/
def Tree.compare (ta : Tree) (a : NodeId) (tb : Tree) (b : NodeId) : Likeness :=
  (ta.entry a).compare (tb.entry b)

end Netconf
