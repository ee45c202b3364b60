import Netconf.Tree.Lineage

/-!
# Scopes

While a tree is written as XML, a scope holds the bindings declared on each open element, the
innermost first. The name of an element or attribute in a namespace needs a label that means the
namespace there. `Scope.choose` finds one: a label that is in scope, or else one that it declares on
the innermost element, so that labels chosen before keep their meaning.
-/

namespace Netconf.Xml

/-- The bindings of the open elements, the innermost first. -/
abbrev Scope := List Bindings

namespace Scope

/-- The namespace that a label means in a scope. -/
def ns? (s : Scope) (label : String) : Option String := s.findSome? fun m => m.ns? label

/-- Can the binding be used: is it for the namespace, not the default one unless that is allowed,
and not hidden further in? -/
def usable (s : Scope) (ns : String) (allowDefault : Bool) (b : Binding) : Bool :=
  b.ns == ns && (allowDefault || !b.isDefault) && s.ns? b.label == some ns

/-- A label in scope for a namespace. -/
def label? (s : Scope) (ns : String) (allowDefault : Bool) : Option String :=
  (s.findSome? fun m => m.toList.find? (usable s ns allowDefault)).map (·.label)

/-- The number of bindings of a scope. -/
def count (s : Scope) : Nat := (s.flatMap Bindings.toList).length

/-- The made-up label of a number. -/
def madeUp (i : Nat) : String := "ns" ++ toString i

/-- The first made-up label that is not in scope. Among one more than there are bindings, one is
free. -/
def freeLabel (s : Scope) : String :=
  madeUp (((List.range (s.count + 1)).find? fun i => (s.ns? (madeUp i)).isNone).getD 0)

/-- Declares a binding on the innermost element. -/
def declare (s : Scope) (b : Binding) : Scope :=
  match s with
  | [] => []
  | current :: others => current.set b :: others

/-- The label to declare for a namespace: the one that the tree suggests, if it is not in scope
already; for an element the default namespace, unless the element binds it; a made-up one else. -/
def newLabel (s : Scope) (suggested : Option String) (forElement : Bool) : String :=
  match suggested.filter fun l => (forElement || l != "") && (s.ns? l).isNone with
  | some l => l
  | none =>
    if forElement && s.head?.any (fun m => !m.binds "") then "" else s.freeLabel

/-- A label for a namespace, and the scope in which it means the namespace. -/
def choose (s : Scope) (suggested : Option String) (ns : String) (forElement : Bool) :
    String × Scope :=
  if ns = nsXml then ("xml", s)
  else
    match s.label? ns forElement with
    | some l => (l, s)
    | none =>
      let l := s.newLabel suggested forElement
      (l, s.declare ⟨l, ns⟩)

end Scope

/-- A name with its label in front. -/
def withLabel (label name : String) : String := if label = "" then name else label ++ ":" ++ name

/-- A start tag: its name, its attributes in order, and the scope inside the element. -/
structure Tag where
  /-- The name with its label. -/
  name : String
  /-- The names with their labels, and the values. -/
  attributes : List (String × String)
  /-- The scope inside the element; its innermost bindings are declared by the tag. -/
  scope : Scope
  deriving Inhabited

namespace Tag

/-- The name of the element of a lineage, and the scope that its own bindings and its name make. An
element without namespace takes a default namespace back. -/
def nameIn (s : Scope) (line : Lineage) (defaults : Bindings) (e : Element) : String × Scope :=
  let inner : Scope := e.bindings :: s
  match e.ns with
  | some ns =>
    let (label, inner) := inner.choose (line.label? defaults ns) ns true
    (withLabel label e.name, inner)
  | none =>
    if (inner.ns? "").any fun d => d != "" then (e.name, inner.declare ⟨"", ""⟩)
    else (e.name, inner)

/-- The names and values of attributes, and the scope that their names make. -/
def attributesIn (line : Lineage) (defaults : Bindings) :
    Scope → List Attribute → List (String × String) × Scope
  | s, [] => ([], s)
  | s, a :: as =>
    let (name, s) : String × Scope :=
      match a.ns with
      | some ns =>
        let (label, s) := s.choose (line.label? defaults ns) ns false
        (withLabel label a.name, s)
      | none => (a.name, s)
    let (others, s) := attributesIn line defaults s as
    ((name, a.value) :: others, s)

/-- The start tag of an element inside a scope; `above` are the ancestors of the element. -/
def ofElement (s : Scope) (above : Lineage) (defaults : Bindings) (e : Element) : Tag :=
  let line : Lineage := e :: above
  let (name, s) := nameIn s line defaults e
  let (attributes, s) := attributesIn line defaults s e.attributes
  { name, attributes, scope := s }

/-- The bindings that the tag declares. -/
def declared (t : Tag) : List Binding := (t.scope.head?.map Bindings.toList).getD []

end Tag

end Netconf.Xml
