import Netconf.Proofs.Value
import Netconf.Proofs.Xml.Conveyed

/-!
# Written branches read back

Every branch of a reachable tree that XML can carry is read back from its text as it was, in both
layouts (`Tree.Reachable.parse_toXml`): at every node, in the order of siblings, the namespace and
name, the value and the attributes are the same, whatever labels are bound in the branch, above it
and in the registry, hidden or missing.
-/

namespace Netconf

/-! ## The same content -/

/-- Two elements say the same: only their bindings and kinds may differ, and the form of a value. -/
structure Element.SameContent (e f : Element) : Prop where
  /-- The namespaces are the same, or both have none. -/
  ns : f.ns = e.ns
  /-- The names are the same. -/
  name : f.name = e.name
  /-- The values are the same, or both have none. -/
  value : sameValue f.value e.value = true
  /-- The attributes are the same, in the same order. -/
  attributes : f.attributes = e.attributes

/-- Elements that show the same say the same. -/
theorem Element.sameContent_of_shown {e f : Element} (h : f.shown = e.shown) :
    e.SameContent f := by
  unfold Element.shown at h
  simp only [Element.mk.injEq] at h
  obtain ⟨hns, hname, hvalue, hattributes, -⟩ := h
  refine ⟨hns, hname, (sameValue_iff _ _).2 ?_, hattributes⟩
  have hshown : ∀ v : Option Value, wire? (v.map fun w => .text w.wire) = wire? v := fun v => by
    cases v <;> rfl
  have hwire := congrArg wire? hvalue
  rwa [hshown, hshown] at hwire

namespace Branch

mutual

/-- Two branches say the same at every node, in the order of siblings. -/
def SameContent : Branch → Branch → Prop
  | .mk _ e bs, .mk _ f cs => e.SameContent f ∧ SameContentOfAll bs cs

/-- Branches say the same, one after the other. -/
def SameContentOfAll : List Branch → List Branch → Prop
  | [], [] => True
  | b :: bs, c :: cs => b.SameContent c ∧ SameContentOfAll bs cs
  | _, _ => False

end

/-- Branches that show the same say the same. -/
theorem sameContent_of_shown {b c : Branch} (h : c.shown = b.shown) : b.SameContent c := by
  refine (Branch.mutualInduction (P := fun b => ∀ c : Branch, c.shown = b.shown → b.SameContent c)
    (Q := fun bs => ∀ cs : List Branch, cs.map shown = bs.map shown → SameContentOfAll bs cs)
    ?_ ?_ ?_).1 b c h
  · rintro i e bs ih ⟨j, f, cs⟩ h
    rw [shown_mk, shown_mk, Branch.mk.injEq] at h
    exact ⟨Element.sameContent_of_shown h.2.1, ih cs h.2.2⟩
  · intro cs h
    rw [List.map_eq_nil_iff.1 h]
    trivial
  · intro b bs ihb ihbs cs h
    cases cs with
    | nil => cases h
    | cons c cs =>
      obtain ⟨hc, hcs⟩ := List.cons.inj h
      exact ⟨ihb c hc, ihbs cs hcs⟩

end Branch

namespace Xml

open Netconf.Tree

/-! ## Documents -/

/-- What is read of a legible branch shows the same. -/
theorem shown_mapElements_asHeard {b : Branch} (h : b.All fun c => c.element.Legible) :
    (b.bare.mapElements asHeard).shown = b.shown := by
  induction b using Branch.induction with
  | step id e bs ih =>
    have hall : e.Legible ∧ ∀ c ∈ bs, c.All fun c => c.element.Legible := Branch.all_iff.1 h
    obtain ⟨he, hbs⟩ := hall
    have hchildren : bs.map (fun c => (c.bare.mapElements asHeard).shown) = bs.map Branch.shown :=
      List.map_congr_left fun c hc => ih c hc (hbs c hc)
    rw [Branch.bare_mk, Branch.mapElements_mk, Branch.shown_mk, Branch.shown_mk, shown_asHeard he,
      List.map_map, List.map_map, ← hchildren]
    rfl

/-- The text of a branch is read as a document with this branch. -/
theorem exists_parse {l : Layout} (hpeer : l.peer = none) {defaults : Bindings}
    (hdefaults : defaults.Legible) {b : Branch} (hb : Writable b)
    (hlegible : b.All fun c => c.element.Legible) {above : Lineage}
    (habove : ∀ q ∈ above, q.bindings.Legible) (siblings : List Element) (r : Nat) :
    ∃ text, writeBranch l defaults above siblings [] 0 b = .ok text ∧
      ∃ d, parse (.standard r) none text = .ok d ∧ b.SameContent (d.tree.branch d.root) := by
  obtain ⟨text, htext⟩ := exists_writeBranch hpeer b above siblings [] 0
  refine ⟨text, htext, ?_⟩
  obtain ⟨id, e, children⟩ := b
  have hall : (e.Orderly ∧ e.Nameable) ∧ ∀ c ∈ children, Writable c := Branch.all_iff.1 hb
  obtain ⟨he, hchildren⟩ := hall
  obtain ⟨body, hbody, hnone, rfl⟩ := exists_of_writeBranch (leavesOut_eq hpeer ..) htext
  have hscope : Scope.Sound [] := fun _ hm => nomatch hm
  have hannounces := announces_ofElement hdefaults he habove hscope
  have hinside := (conveys_written hdefaults).2 children hchildren
    (List.forall_mem_cons.2 ⟨he.2.labels, habove⟩) hannounces.tells.sound hbody
  rw [keptAll_eq hpeer] at hinside
  have hnone' : body = none → children.map (fun b => b.bare.mapElements asHeard) = [] := fun h => by
    rw [hnone h, List.map_nil]
  obtain ⟨d, hparse, hshown⟩ := exists_parse_elementText body hnone' hinside hannounces r
  refine ⟨d, hparse, Branch.sameContent_of_shown ?_⟩
  rw [hshown, ← shown_mapElements_asHeard hlegible, Branch.bare_mk, Branch.mapElements_mk,
    List.map_map]
  rfl

end Xml

/-! ## Reachable trees -/

namespace Tree

variable {t : Tree} {id : NodeId}

/-- XML can carry the branch at a node as it is: its elements are legible, and the labels bound
above it and in the registry may be bound. -/
structure Legible (t : Tree) (id : NodeId) : Prop where
  /-- The elements of the branch are legible. -/
  branch : (t.branch id).All fun b => b.element.Legible
  /-- The labels bound on the node and its ancestors may be bound. -/
  above : ∀ e ∈ t.lineage id, e.bindings.Legible
  /-- The labels of the registry may be bound. -/
  registry : t.defaults.bindings.Legible

/-- A legible branch of an orderly tree is writable. -/
theorem Legible.writable (h : t.Legible id) (ht : t.Orderly) : Xml.Writable (t.branch id) :=
  Xml.writable_of (ht.branch id) (Branch.All.imp (fun _ hb => hb.nameable) h.branch)

/-- Both texts of a legible branch of a reachable tree are read as a document that says the same at
every node, in the order of siblings. -/
theorem Reachable.parse_toXml (h : Reachable t) (hid : t.Legible id) (r : Nat) :
    (∃ d, Xml.parse (.standard r) none (t.toXml id) = .ok d ∧
        (t.branch id).SameContent (d.tree.branch d.root)) ∧
      ∃ d, Xml.parse (.standard r) none (t.toPrettyXml id) = .ok d ∧
        (t.branch id).SameContent (d.tree.branch d.root) := by
  have hwritten : ∀ l : Xml.Layout, l.peer = none →
      ∃ d, Xml.parse (.standard r) none ((t.encode id l).toOption.getD "") = .ok d ∧
        (t.branch id).SameContent (d.tree.branch d.root) := by
    intro l hpeer
    obtain ⟨text, htext, hread⟩ := Xml.exists_parse hpeer hid.registry (hid.writable h.orderly)
      hid.branch
      (fun q hq => hid.above q (List.mem_of_mem_tail hq))
      (((t.parent? id).map fun p => (t.children p).map t.element).getD []) r
    rw [show t.encode id l = .ok text from htext]
    exact hread
  exact ⟨hwritten {} rfl, hwritten { pretty := true } rfl⟩

/-- An element whose own default binding is for another namespace than its own, with an attribute
in a namespace that nothing binds, around an element without namespace. -/
def hiddenNames : Tree :=
  (Call.append 0 1).run
    ((Call.create none "b" (some (.text "1 < 2"))).run
      ((Call.changeElement 0 (.setAttributeIn "urn:d" "x" "\"&\"")).run
        ((Call.changeElement 0 (.bind ⟨"", "urn:c"⟩)).run
          ((Call.create (some "urn:a") "a" none).run (.empty (.standard 0))))))

/-- The two elements are made by five calls. -/
theorem reachable_hiddenNames : Reachable hiddenNames := by
  have hnone : ∀ {c : Call}, c.sources = [] → ∀ src ∈ c.sources, Reachable src.tree :=
    fun h src hsrc => by rw [h] at hsrc; cases hsrc
  have hroots : ∀ {c : Call}, c.sources = [] → ∀ src ∈ c.sources, src.root < src.tree.size :=
    fun h src hsrc => by rw [h] at hsrc; cases hsrc
  exact .call _ (.call _ (.call _ (.call _ (.call _ (.empty _) (by simp [Call.ids]) (hnone rfl)
    (hroots rfl)) (by decide) (hnone rfl) (hroots rfl)) (by decide) (hnone rfl) (hroots rfl))
    (by simp [Call.ids]) (hnone rfl) (hroots rfl)) (by decide) (hnone rfl) (hroots rfl)

/-- The two elements are read back from both of their texts. -/
theorem parse_toXml_hiddenNames :
    hiddenNames.Legible 0 ∧
      (∃ d, Xml.parse (.standard 1) none (hiddenNames.toXml 0) = .ok d ∧
        (hiddenNames.branch 0).SameContent (d.tree.branch d.root)) ∧
      ∃ d, Xml.parse (.standard 1) none (hiddenNames.toPrettyXml 0) = .ok d ∧
        (hiddenNames.branch 0).SameContent (d.tree.branch d.root) := by
  have hlegible : hiddenNames.Legible 0 :=
    ⟨by decide +kernel, by decide +kernel, by decide +kernel⟩
  exact ⟨hlegible, Reachable.parse_toXml reachable_hiddenNames hlegible 1⟩

end Tree

end Netconf
