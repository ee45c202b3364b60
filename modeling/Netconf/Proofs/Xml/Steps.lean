import Netconf.Proofs.Tree.Joined
import Netconf.Proofs.Tree.Lineages
import Netconf.Proofs.Tree.Operations
import Netconf.Proofs.Xml.Standings

/-!
# Steps of reading

An item of a text makes one of four steps of a document that is being read, or it is an error of the
text (`Draft.Sound.add_cases`). A new node can always be put in its place, so nothing but the text
can be wrong. What the tag of an element reads as depends on what was read before, but on no value
and on nothing that comes later (`readElement_of_retains`).
-/

namespace Netconf

namespace Element

/-- An element without its value. -/
def withoutValue (e : Element) : Element := { e with value := none }

/-- An element that has no value is the same without. -/
theorem withoutValue_of_none {e : Element} (h : e.value = none) : e.withoutValue = e := by
  rw [withoutValue, ← h]

/-- Setting an attribute keeps the value. -/
theorem value_setAttribute (e : Element) (name value : String) :
    (e.setAttribute name value).value = e.value := by
  unfold setAttribute
  split
  · rfl
  · split <;> rfl

/-- Setting an attribute in a namespace keeps the value. -/
theorem value_setAttributeIn (e : Element) (ns name value : String) :
    (e.setAttributeIn ns name value).value = e.value := by
  unfold setAttributeIn
  split
  · split
    · exact value_setAttribute e name value
    · rfl
  · rfl

end Element

namespace Tree

variable {t t' : Tree}

/-! ## Reading on -/

/-- What was read stays as it was while more is read, apart from values and new children. -/
structure Retains (t t' : Tree) : Prop where
  /-- The links are those of a forest. -/
  forest : t'.Forest
  /-- No slot is gone. -/
  size_le : t.size ≤ t'.size
  /-- The old slots have their parents. -/
  parent? : ∀ x < t.size, t'.parent? x = t.parent? x
  /-- The old slots carry what they carried, apart from values. -/
  element : ∀ x < t.size, (t'.element x).withoutValue = (t.element x).withoutValue
  /-- The default bindings stay. -/
  defaults : t'.defaults = t.defaults

/-- One more node. -/
theorem Joined.retains {parent : Option NodeId} {e : Element} (hj : t.Joined parent e t') :
    t.Retains t' where
  forest := hj.forest
  size_le := hj.size ▸ Nat.le_succ _
  parent? x hx := by rw [hj.parent?, if_neg (Nat.ne_of_lt hx)]
  element x hx := by rw [hj.element, if_neg (Nat.ne_of_lt hx)]
  defaults := hj.defaults

/-- One more value. -/
theorem Forest.retains_setValue (h : t.Forest) (id : Nat) (v : Value) :
    t.Retains (t.setValue id v) where
  forest := h.modifyElement id _
  size_le := Nat.le_of_eq (size_modifyElement t id _).symm
  parent? x _ := parent?_modifyElement t id x _
  element x _ := by
    rw [setValue, element_modifyElement]
    split <;> rfl
  defaults := rfl

/-- Labels mean below an old node what they meant. -/
theorem Retains.inherited (hr : t.Retains t') (h : t.Forest) {parent : Option NodeId}
    (hp : ∀ p ∈ parent, p < t.size) : t'.inherited parent = t.inherited parent := by
  funext label
  cases parent with
  | none => exact congrArg (fun r : Registry => r.bindings.ns? label) hr.defaults
  | some p =>
    refine h.nsOf?_congr hr.forest hr.defaults (fun x hx => ?_) label
    have hlt := h.lt_size_of_above (hp p rfl) hx
    refine ⟨hr.parent? x hlt, ?_⟩
    show (t'.element x).withoutValue.bindings = (t.element x).withoutValue.bindings
    rw [hr.element x hlt]

/-- An old node has its kind. -/
theorem Retains.kind (hr : t.Retains t') {parent : Option NodeId} (hp : ∀ p ∈ parent, p < t.size) :
    parent.map t'.kind = parent.map t.kind := by
  cases parent with
  | none => rfl
  | some p =>
    show some (t'.element p).withoutValue.kind = some (t.element p).withoutValue.kind
    rw [hr.element p (hp p rfl)]

end Tree

namespace Xml

open Netconf.Tree

/-! ## Elements -/

section Congruence

variable {t t' : Tree} {parent : Option NodeId}

/-- What a label means at a new element depends on what labels mean below the parent only. -/
theorem resolve_congr (hns : t'.inherited parent = t.inherited parent) (declared : Bindings) :
    resolve t' declared parent = resolve t declared parent := by
  funext label
  exact congrArg (fun ns => if label = "xml" then some nsXml
    else ((declared.ns? label).or (ns label)).filter fun ns => ns != "") hns

/-- The attributes of a tag depend on what labels mean below the parent only. -/
theorem addAttributes_congr (hns : t'.inherited parent = t.inherited parent) (declared : Bindings)
    (e : Element) (attributes : List RawAttribute) :
    addAttributes t' declared parent e attributes =
      addAttributes t declared parent e attributes := by
  have hadd : addAttribute t' declared parent = addAttribute t declared parent := by
    funext e a
    unfold addAttribute
    rw [resolve_congr hns]
  induction attributes generalizing e with
  | nil => rfl
  | cons a as ih =>
    unfold addAttributes
    rw [hadd]
    simp only [ih]

/-- The element of a tag depends on what labels mean below the parent and on its kind only. -/
theorem readElement_congr (hns : t'.inherited parent = t.inherited parent)
    (hkind : parent.map t'.kind = parent.map t.kind) (schema : Option Schema)
    (name attributes : List Char) :
    readElement t' schema parent name attributes = readElement t schema parent name attributes := by
  unfold readElement
  simp only [resolve_congr hns, addAttributes_congr hns, hkind]

/-- While more is read, the element of a tag below an old parent is the same. -/
theorem readElement_of_retains (hr : t.Retains t') (h : t.Forest) (hp : ∀ p ∈ parent, p < t.size)
    (schema : Option Schema) (name attributes : List Char) :
    readElement t' schema parent name attributes = readElement t schema parent name attributes :=
  readElement_congr (hr.inherited h hp) (hr.kind hp) schema name attributes

/-- Attributes are no value. -/
theorem value_addAttributes {declared : Bindings} {e e' : Element} {attributes : List RawAttribute}
    (h : addAttributes t declared parent e attributes = .ok e') : e'.value = e.value := by
  induction attributes generalizing e with
  | nil => cases h; rfl
  | cons a as ih =>
    unfold addAttributes at h
    split at h
    · cases h
    next e₁ h₁ =>
    refine (ih h).trans ?_
    unfold addAttribute at h₁
    split at h₁
    · cases h₁; rfl
    · dsimp only at h₁
      split at h₁
      · cases h₁; exact Element.value_setAttribute _ _ _
      · split at h₁
        · cases h₁; exact Element.value_setAttributeIn _ _ _ _
        · cases h₁

/-- The element of a tag has no value. -/
theorem value_readElement {schema : Option Schema} {name attributes : List Char} {e : Element}
    (h : readElement t schema parent name attributes = .ok e) : e.value = none := by
  unfold readElement at h
  dsimp only at h
  split at h
  · cases h
  split at h
  · cases h
  split at h
  · cases h
  next h₁ =>
  have hvalue := value_addAttributes h₁
  split at h
  · cases h; exact hvalue
  · cases h; exact hvalue

end Congruence

/-! ## Steps -/

/-- What an item makes of a draft. -/
inductive Draft.Adds (schema : Option Schema) (s : Draft) : Markup → Draft → Prop where
  /-- A tag opens a new element. -/
  | opening {name attributes : List Char} {e : Element} {t : Tree}
    (hread : readElement s.tree schema s.parent? name attributes = .ok e)
    (hjoined : s.tree.Joined s.parent? e t) :
    Adds schema s (.opening name attributes)
      { tree := t, openElements := (s.tree.size, name) :: s.openElements
        root := s.root.or (some s.tree.size) }
  /-- A tag makes a new element that is empty. -/
  | single {name attributes : List Char} {e : Element} {t : Tree}
    (hread : readElement s.tree schema s.parent? name attributes = .ok e)
    (hjoined : s.tree.Joined s.parent? e t) :
    Adds schema s (.single name attributes)
      { s with tree := t, root := s.root.or (some s.tree.size) }
  /-- An end tag closes the innermost element, which has its name. -/
  | closing {id : NodeId} {name : List Char} {others : List (NodeId × List Char)}
    (hopen : s.openElements = (id, name) :: others) :
    Adds schema s (.closing name) { s with openElements := others }
  /-- A run of text is added to the value of the innermost element. -/
  | text {m : Markup} {cs : List Char} (hcs : m.characters? = some cs) :
    Adds schema s m (s.addText cs)

/-- The tag of an element makes a node for it, below the innermost open element, or is an error of
the text. -/
theorem Draft.Sound.addElement_eq {s : Draft} (h : s.Sound) {schema : Option Schema}
    {name attributes : List Char} {e : Element}
    (hread : readElement s.tree schema s.parent? name attributes = .ok e) :
    ∃ t, s.tree.Joined s.parent? e t ∧ s.addElement schema name attributes =
      .ok (s.tree.size, { s with tree := t, root := s.root.or (some s.tree.size) }) := by
  unfold Draft.addElement
  rw [hread]
  dsimp only
  cases hp : s.parent? with
  | none => exact ⟨_, h.forest.joined_create e, rfl⟩
  | some p =>
    obtain ⟨t, ht, hjoined⟩ := h.forest.exists_append (h.parent_lt hp) e
    refine ⟨t, hjoined, ?_⟩
    dsimp only
    rw [ht]
    rfl

/-- Every item makes one of the steps, or it is an error of the text. -/
theorem Draft.Sound.add_cases {s : Draft} (h : s.Sound) (schema : Option Schema) (m : Markup) :
    (∃ e, s.add schema m = .error (.parse e)) ∨
      ∃ s', s.add schema m = .ok s' ∧ s.Adds schema m s' := by
  have htag : ∀ name attributes, (∃ e, s.addElement schema name attributes = .error (.parse e)) ∨
      ∃ e t, readElement s.tree schema s.parent? name attributes = .ok e ∧
        s.tree.Joined s.parent? e t ∧ s.addElement schema name attributes =
          .ok (s.tree.size, { s with tree := t, root := s.root.or (some s.tree.size) }) := by
    intro name attributes
    cases hread : readElement s.tree schema s.parent? name attributes with
    | error e => exact .inl ⟨e, by rw [Draft.addElement, hread]⟩
    | ok e =>
      obtain ⟨t, hjoined, hadd⟩ := h.addElement_eq hread
      exact .inr ⟨e, t, rfl, hjoined, hadd⟩
  cases m with
  | opening name attributes =>
    obtain ⟨e, he⟩ | ⟨e, t, hread, hjoined, hadd⟩ := htag name attributes
    · exact .inl ⟨e, by rw [Draft.add, he]⟩
    · exact .inr ⟨_, by rw [Draft.add, hadd], .opening hread hjoined⟩
  | single name attributes =>
    obtain ⟨e, he⟩ | ⟨e, t, hread, hjoined, hadd⟩ := htag name attributes
    · exact .inl ⟨e, by rw [Draft.add, he]⟩
    · exact .inr ⟨_, by rw [Draft.add, hadd], .single hread hjoined⟩
  | closing name =>
    cases hopen : s.openElements with
    | nil => exact .inl ⟨_, by rw [Draft.add, hopen]⟩
    | cons innermost others =>
      obtain ⟨id, opened⟩ := innermost
      by_cases heq : opened = name
      · subst heq
        exact .inr ⟨_, by rw [Draft.add, hopen]; exact if_pos rfl, .closing hopen⟩
      · exact .inl ⟨_, by rw [Draft.add, hopen]; exact if_neg heq⟩
  | text cs =>
    cases htext : unescape cs with
    | none => exact .inl ⟨_, by rw [Draft.add, htext]⟩
    | some text => exact .inr ⟨_, by rw [Draft.add, htext], .text htext⟩
  | literal cs => exact .inr ⟨_, rfl, .text rfl⟩

end Xml

end Netconf
