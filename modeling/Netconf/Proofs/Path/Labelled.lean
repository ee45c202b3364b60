import Netconf.Proofs.Path.Positional
import Netconf.Proofs.Tree.Reachable

/-!
# Names with labels

A name with a label stands for children of a node in two places: a step with the name selects them,
and in a predicate `count` counts them and the name by itself yields the value of the first. Both
compare the namespace of a child with what the label means where the child stands. They differ where
the label means nothing there and the child has no namespace: the step passes such a child over, and
the predicate counts it. Apart from these children both go by the same nodes in the same order
(`select_childrenNamed`).
-/

namespace Netconf.Path

variable {s : Situation} {label name : String} {c : NodeId}

/-- The step to the children with a name and a label. -/
def Step.labelled (label name : String) : Step :=
  { axis := .child, label := some label, name := some name }

namespace Situation

/-- The children of the node with a name that have no namespace and where the label means
nothing. -/
def strays (s : Situation) (label name : String) : List NodeId :=
  (s.tree.children s.node).filter fun c =>
    s.tree.name c == name && (s.tree.ns? c).isNone && (s.tree.nsOf? c label).isNone

/-- The strays are the counted children where the label means nothing. -/
theorem strays_eq (s : Situation) (label name : String) :
    s.strays label name =
      (s.childrenNamed (some label) name).filter fun c => !(s.tree.nsOf? c label).isSome := by
  rw [strays, childrenNamed, List.filter_filter]
  refine List.filter_congr fun c _ => ?_
  cases hmeans : s.tree.nsOf? c label <;> cases s.tree.ns? c <;> simp [hmeans]

/-- A counted child is a stray or the label means something there. -/
theorem isSome_iff_not_mem_strays (hc : c ∈ s.childrenNamed (some label) name) :
    (s.tree.nsOf? c label).isSome = decide (c ∉ s.strays label name) := by
  rw [strays_eq, Bool.eq_iff_iff, decide_eq_true_iff, List.mem_filter]
  simp [hc, Option.isSome_iff_ne_none]

end Situation

/-- The step to the children with a name and a label selects those of the counted children where the
label means something. -/
theorem Step.select_labelled (s : Situation) (label name : String) :
    (Step.labelled label name).select s.tree [s.node] =
      .ok ((s.childrenNamed (some label) name).filter fun c =>
        (s.tree.nsOf? c label).isSome) := by
  have haxis : (Step.labelled label name).axis ≠ .root := by simp [labelled]
  have haccepts : (s.tree.children s.node).filter ((Step.labelled label name).accepts s.tree) =
      (s.childrenNamed (some label) name).filter fun c => (s.tree.nsOf? c label).isSome := by
    rw [Situation.childrenNamed, List.filter_filter]
    refine List.filter_congr fun c _ => ?_
    simp only [accepts, labelled]
    cases s.tree.name c == name <;> simp [Bool.and_comm]
  rw [select_singleton haxis]
  exact congrArg Except.ok haccepts

/-- In a predicate a name with a label counts the children that a step with it selects, and besides
these the children with the name that have no namespace and where the label means nothing. So both
go by the same children just when there are no such strays, and then the value of the name in a
predicate is that of the first child that the step selects. -/
theorem select_childrenNamed (s : Situation) (label name : String) :
    ∃ selected, (Step.labelled label name).select s.tree [s.node] = .ok selected ∧
      selected = (s.childrenNamed (some label) name).filter (· ∉ s.strays label name) ∧
      s.strays label name ⊆ s.childrenNamed (some label) name ∧
      (Expr.call .count [.child (some label) name]).eval s =
        .ok (.integer (selected.length + (s.strays label name).length)) ∧
      (Expr.child (some label) name).eval s =
        .ok (.ofValue? ((s.childrenNamed (some label) name).head?.bind s.tree.value?)) ∧
      (s.childrenNamed (some label) name = selected ↔ s.strays label name = []) := by
  refine ⟨_, Step.select_labelled s label name, ?_, ?_, ?_, ?_, ?_⟩
  · exact List.filter_congr fun c hc => Situation.isSome_iff_not_mem_strays hc
  · rw [Situation.strays_eq]
    exact List.filter_subset_self _
  · have hcount : (s.childrenNamed (some label) name).length = _ :=
      List.length_eq_length_filter_add fun c => (s.tree.nsOf? c label).isSome
    rw [Expr.eval, hcount, Situation.strays_eq, Int.natCast_add]
  · rw [Expr.eval]
  · rw [eq_comm, List.filter_eq_self, Situation.strays_eq, List.filter_eq_nil_iff]
    simp [Option.isSome_iff_ne_none]

/-- An element with a child that has no namespace. -/
def unlabelled : Tree :=
  ((Tree.empty (.standard 0)).addCopy (.mk 0 { name := "a" } [.mk 0 { name := "b" } []])).1

/-- A predicate counts a child by a name with a label that means nothing. A step with this name does
not select it. -/
theorem query_counts_stray :
    Xml.parse (.standard 0) none "<a><b/></a>" = .ok ⟨unlabelled, 0⟩ ∧ unlabelled.Reachable ∧
      unlabelled.query 0 "zz:b" = .ok [] ∧ unlabelled.query 0 ".[count(zz:b) = 1]" = .ok [0] := by
  have hdocument : Xml.parse (.standard 0) none "<a><b/></a>" = .ok ⟨unlabelled, 0⟩ := rfl
  have htokens : tokensOf ".[count(zz:b) = 1]" = .ok [.dot, .openBracket, .atom "count", .openParen,
      .atom "zz", .colon, .atom "b", .closeParen, .comparison .eq, .integer 1, .closeBracket] := rfl
  let one : Expr :=
    .binary (.compare .eq) (.call .count [.child (some "zz") "b"]) (.literal (.integer 1))
  have hpath : Path.parse ".[count(zz:b) = 1]" =
      .ok ⟨".[count(zz:b) = 1]", [{ axis := .self, predicates := [one] }]⟩ :=
    parse_of_tokens htokens rfl
  refine ⟨hdocument, .parsed hdocument, rfl, ?_⟩
  rw [Tree.query, hpath]
  rfl

end Netconf.Path
