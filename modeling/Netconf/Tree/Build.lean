import Netconf.Tree.Copy
import Netconf.Tree.Mark
import Netconf.Tree.Structure

/-!
# Changes of a tree that may fail

A change that consists of several parts may fail after some of them were done. What was made before
the failure stays in its slots, so `Build` keeps the tree also when it fails.
-/

namespace Netconf

/-- A change of a tree that may fail and keeps what it did before failing. -/
abbrev Build := EStateM Error Tree

namespace Build

/-- Runs a change on a tree: the outcome, and the tree in either case. -/
def on {α : Type} (t : Tree) (b : Build α) : Except Error α × Tree :=
  match b t with
  | .ok a t => (.ok a, t)
  | .error e t => (.error e, t)

/-- Changes the tree, giving a result. -/
def change {α : Type} (f : Tree → Tree × α) : Build α := fun t => .ok (f t).2 (f t).1

/-- Changes the tree, unless that fails; then the tree stays as it is. -/
def attempt (f : Tree → Except Error Tree) : Build Unit := fun t =>
  match f t with
  | .ok t => .ok () t
  | .error e => .error e t

/-- Makes a node that stands alone. -/
def create (e : Element) : Build NodeId := change fun t => t.create e

/-- Appends a copy of a branch; its top stands alone. -/
def addCopy (b : Branch) : Build NodeId := change fun t => t.addCopy b

/-- Puts a node behind the children of another. -/
def append (parent child : NodeId) : Build Unit := attempt fun t => t.append parent child

/-- Changes what a node carries by itself. -/
def modifyElement (id : NodeId) (f : Element → Element) : Build Unit :=
  change fun t => (t.modifyElement id f, ())

/-- Marks a node. -/
def mark (id : NodeId) (o : Operation) : Build Unit := modifyElement id fun e => e.mark o

end Build

end Netconf
