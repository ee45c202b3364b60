import Netconf.Proofs.Edit.Materials
import Netconf.Proofs.Session.Answers
import Netconf.Proofs.Tree.Regular

/-!
# Trees that a program holds

Calls are made on trees that were read or started empty, but also on edits that were made between
trees, and on the data that a session takes out of replies. `Tree.Held` are all the trees that come
about, by any of these ways after another. An invariant of elements holds of all elements of such a
tree (`Tree.Held.each`), so that its elements are regular, whatever was done to them and to the
trees that they were copied from. A node of such a tree has at most one mark, which is the one that
was set last (`Tree.Held.regular_and_marks`).
-/

namespace Netconf.Tree

variable {P : Element → Prop} {t : Tree} {x : NodeId}

/-- The trees that a program comes to hold. -/
inductive Held : Tree → Prop where
  /-- An empty tree. -/
  | empty (r : Registry) : Held (.empty r)
  /-- A tree that was read. -/
  | parsed {r : Registry} {schema : Option Schema} {xml : String} {d : Document}
    (h : Xml.parse r schema xml = .ok d) : Held d.tree
  /-- What a call leaves of a tree, whether it succeeds or fails. -/
  | call {t : Tree} (c : Call) (ht : Held t) (htrees : ∀ src ∈ c.sources, Held src.tree) :
    Held (c.run t)
  /-- An explicit edit between nodes. -/
  | explicitEdit {ta tb : Tree} {a b : NodeId} {d : Document} (ha : Held ta) (hb : Held tb)
    (h : ta.explicitEdit a tb b = .ok (some d)) : Held d.tree
  /-- A merging edit between nodes. -/
  | mergingEdit {ta tb : Tree} {a b : NodeId} {d : Document} (ha : Held ta) (hb : Held tb)
    (h : ta.mergingEdit a tb b = .ok d) : Held d.tree
  /-- An explicit edit between sets of nodes. -/
  | explicitEditOfSets {ta tb : Tree} {as bs : List NodeId} {edit : Tree × List NodeId}
    (ha : Held ta) (hb : Held tb) (h : ta.explicitEditOfSets as tb bs = .ok edit) : Held edit.1
  /-- A merging edit between sets of nodes. -/
  | mergingEditOfSets {ta tb : Tree} {as bs : List NodeId} {edit : Tree × List NodeId}
    (ha : Held ta) (hb : Held tb) (h : ta.mergingEditOfSets as tb bs = .ok edit) : Held edit.1
  /-- A reply out of which the children of an element were taken. -/
  | taken {d : Document} (hd : Held d.tree) (id : NodeId) : Held (Session.takeChildren d id).tree

/-- Every reachable tree is held. -/
theorem Reachable.held (h : Reachable t) : Held t := by
  induction h with
  | empty r => exact .empty r
  | parsed h => exact .parsed h
  | call c _ _ _ _ ih ihtrees => exact .call c ih ihtrees

/-! ## Invariants -/

/-- Taking nodes away and adding bindings on them keeps an invariant of elements. -/
theorem Each.foldl_released (hP : Element.Invariant P) (h : t.Each P) (scope : Bindings)
    (ids : List NodeId) : (ids.foldl (released scope) t).Each P := by
  induction ids generalizing t with
  | nil => exact h
  | cons c ids ih =>
    have hdetached : (t.detach c).Each P := h.detachAll [c]
    exact ih (hdetached.modifyElement c fun _ he => hP.apply he (.mergeBindings scope))

/-- An invariant of elements holds of all elements of every tree that a program holds. -/
theorem Held.each (hP : Element.Invariant P) (h : Held t) : t.Each P := by
  induction h with
  | empty r => exact .empty hP r
  | parsed h => exact Xml.each_parse hP h
  | call c _ _ ih ihtrees => exact c.each_run hP ih ihtrees
  | explicitEdit _ _ h iha ihb => exact iha.explicitEdit hP ihb h
  | mergingEdit _ _ h iha ihb => exact iha.mergingEdit hP ihb h
  | explicitEditOfSets _ _ h iha ihb => exact iha.explicitEditOfSets hP ihb h
  | mergingEditOfSets _ _ h iha ihb => exact iha.mergingEditOfSets hP ihb h
  | taken _ id ih =>
    rw [Session.takeChildren_eq]
    exact ih.foldl_released hP _ _

/-! ## Marks -/

/-- Of several marks that are set on a node the last one is read. -/
theorem markText?_foldl_mark (hx : x < t.size) (os : List Operation) :
    (os.foldl (fun t o => t.mark x o) t).markText? x =
      (os.getLast?.map Operation.name).or (t.markText? x) := by
  have hsize : ∀ (os : List Operation) (t : Tree),
      (os.foldl (fun t o => t.mark x o) t).size = t.size := by
    intro os
    induction os with
    | nil => exact fun _ => rfl
    | cons o os ih => exact fun t => (ih _).trans (t.size_modifyElement x _)
  rcases List.eq_nil_or_concat os with rfl | ⟨os, o, rfl⟩
  · rfl
  · rw [List.concat_eq_append, List.foldl_append, List.foldl_cons, List.foldl_nil,
      List.getLast?_concat, markText?, mark, element_modifyElement,
      if_pos ⟨rfl, (hsize os t).symm ▸ hx⟩, Element.markText?_mark]
    rfl

/-- On every node of every tree that a program holds, labels are bound once, attributes are there
once, declarations are bindings and never attributes, and a default binding is the first one. So
the node has at most one mark. After marks were set on it the last of them is read, and after its
mark was taken away there is none. -/
theorem Held.regular_and_marks (h : Held t) (x : NodeId) :
    (t.element x).Regular ∧ (t.element x).marks.length ≤ 1 ∧
      (x < t.size → ∀ os : List Operation, (os.foldl (fun t o => t.mark x o) t).markText? x =
        (os.getLast?.map Operation.name).or (t.markText? x)) ∧
      ((t.unmark x).element x).marks = [] ∧ (t.unmark x).markText? x = none := by
  have hregular := h.each Element.invariant_regular
  have hnone : (t.unmark x).markText? x = none := by
    rw [markText?, unmark, element_modifyElement]
    split
    · exact (hregular x).markText?_unmark
    · next hout =>
      have hnode : t.node x = default := node_of_size_le (Nat.le_of_not_lt fun hx => hout ⟨rfl, hx⟩)
      rw [element, hnode]
      rfl
  refine ⟨hregular x, (hregular x).length_marks_le, fun hx os => markText?_foldl_mark hx os, ?_,
    hnone⟩
  rw [markText?, Element.markText?_eq, Option.map_eq_none_iff] at hnone
  exact List.head?_eq_none_iff.1 hnone

/-- A server with an attribute, two bindings and a port. -/
def server (port : String) : Tree :=
  let top : Element :=
    { ns := some "urn:s", name := "server", attributes := [⟨none, "id", "a"⟩],
      bindings := ⟨[⟨"", "urn:s"⟩, ⟨"p", "urn:p"⟩]⟩ }
  let leaf : Element := { ns := some "urn:s", name := "port", value := some (.text port) }
  ((Tree.empty (.standard 0)).addCopy (.mk 0 top [.mk 1 leaf []])).1

/-- The server is read from a text that declares the default namespace last. -/
theorem parse_server :
    Xml.parse (.standard 0) none
        "<server xmlns:p=\"urn:p\" id=\"a\" xmlns=\"urn:s\"><port>22</port></server>" =
      .ok ⟨server "22", 0⟩ := rfl

/-- So is the server with another port. -/
theorem parse_server_moved :
    Xml.parse (.standard 0) none
        "<server xmlns:p=\"urn:p\" id=\"a\" xmlns=\"urn:s\"><port>830</port></server>" =
      .ok ⟨server "830", 0⟩ := rfl

/-- In the edit between the two servers, the port to be deleted has its mark and no other one. -/
theorem regular_and_marks_server : ∃ d : Document,
    (server "22").explicitEdit 0 (server "830") 0 = .ok (some d) ∧ Held d.tree ∧
      (d.tree.element 0).Regular ∧ (d.tree.element 1).marks.length ≤ 1 ∧ 1 < d.tree.size ∧
      d.tree.markText? 1 = some "delete" ∧
      ((d.tree.mark 1 .replace).mark 1 .merge).markText? 1 = some "merge" ∧
      (d.tree.unmark 1).markText? 1 = none := by
  have hbefore : Held (server "22") := .parsed parse_server
  have hafter : Held (server "830") := .parsed parse_server_moved
  refine ⟨_, rfl, ?_⟩
  have hheld := Held.explicitEdit hbefore hafter (a := 0) (b := 0) rfl
  obtain ⟨htop, -⟩ := hheld.regular_and_marks 0
  obtain ⟨-, hone, hmarks, -, hnone⟩ := hheld.regular_and_marks 1
  exact ⟨hheld, htop, hone, by decide +kernel, by decide +kernel,
    hmarks (by decide +kernel) [.replace, .merge], hnone⟩

end Netconf.Tree
