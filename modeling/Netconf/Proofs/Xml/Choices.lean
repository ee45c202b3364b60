import Netconf.Proofs.Tree.Labels
import Netconf.Proofs.Xml.Scopes

/-!
# Choosing labels

A label is chosen for a namespace while the labels chosen before are in use. What the choice does to
a scope is said here for any scope, whatever its labels and namespaces are: the label resolves to
the namespace, at most this one binding is added, to the innermost element and under a label that
the element does not bind, and what resolved before resolves as before (`Scope.choose_resolves`).
The only label that may change is the default one, where an element takes it for its own name.

The search for a made-up label has no bound of its own; `Search` is this search, and it ends because
a scope has finitely many bindings.
-/

namespace Netconf.Xml

namespace Scope

variable {s : Scope} {m : Bindings} {label old ns ns' : String}

/-! ## The search for a free label -/

/-- From a number on, the search for a made-up label that is not in scope ends with a label. -/
inductive Search (s : Scope) : Nat → String → Prop
  /-- The label of the number is free. -/
  | found {i : Nat} (hfree : s.ns? (madeUp i) = none) : Search s i (madeUp i)
  /-- The label of the number is in scope, and the search goes on. -/
  | next {i : Nat} {label : String} (htaken : (s.ns? (madeUp i)).isSome = true)
    (hrest : Search s (i + 1) label) : Search s i label

/-- A search ends with one label at most. -/
theorem Search.unique {i : Nat} {l l' : String} (h : s.Search i l) (h' : s.Search i l') :
    l = l' := by
  induction h with
  | found hfree =>
    cases h' with
    | found => rfl
    | next htaken => simp [hfree] at htaken
  | next htaken _ ih =>
    cases h' with
    | found hfree => simp [hfree] at htaken
    | next _ hrest => exact ih hrest

/-- A search that meets only labels in scope before a free one ends with this one. -/
theorem search_of_free {i n : Nat} (hfree : s.ns? (madeUp (i + n)) = none)
    (htaken : ∀ j < n, (s.ns? (madeUp (i + j))).isSome = true) :
    s.Search i (madeUp (i + n)) := by
  induction n generalizing i with
  | zero => exact .found hfree
  | succ n ih =>
    have hshift : ∀ j, i + (j + 1) = i + 1 + j := by omega
    rw [hshift] at hfree ⊢
    refine .next (htaken 0 (Nat.succ_pos n)) (ih hfree fun j hj => ?_)
    rw [← hshift]
    exact htaken (j + 1) (Nat.succ_lt_succ hj)

/-- The search ends, and with the free label only. -/
theorem search_iff (s : Scope) (label : String) : s.Search 0 label ↔ label = s.freeLabel := by
  obtain ⟨i, hi, hfree, htaken⟩ := s.freeLabel_spec
  have hends : s.Search 0 s.freeLabel := by
    rw [hi, ← Nat.zero_add i]
    exact search_of_free ((Nat.zero_add i).symm ▸ hfree) fun j hj =>
      (Nat.zero_add j).symm ▸ htaken j hj
  exact ⟨fun h => h.unique hends, fun h => h ▸ hends⟩

/-! ## One choice -/

/-- The innermost element does not bind the label to declare. -/
theorem ns?_newLabel_head (m : Bindings) (s : Scope) (suggested : Option String)
    (forElement : Bool) : m.ns? (newLabel (m :: s) suggested forElement) = none := by
  rcases newLabel_cases m s suggested forElement with ⟨hfree, -⟩ | ⟨-, hlabel, hdefault⟩
  · rw [ns?_cons, Option.or_eq_none_iff] at hfree
    exact hfree.1
  · rw [hlabel]
    exact hdefault

/-- What resolves in a scope, other than the default label of an element, resolves the same after a
choice. -/
theorem ns?_choose_of_ns? (suggested : Option String) (ns : String) {forElement : Bool}
    (hold : old = "" → forElement = false) (h : s.ns? old = some ns') :
    (s.choose suggested ns forElement).2.ns? old = some ns' := by
  unfold choose
  split
  · exact h
  · split
    · exact h
    · cases s with
      | nil => exact h
      | cons m s =>
        have hother : old ≠ newLabel (m :: s) suggested forElement := by
          intro heq
          rcases newLabel_cases m s suggested forElement with ⟨hfree, -⟩ | ⟨helement, hlabel, -⟩
          · rw [← heq, h] at hfree
            cases hfree
          · exact absurd ((hold (heq.trans hlabel)).symm.trans helement) Bool.noConfusion
        rw [ns?_declare, if_neg hother]
        exact h

/-- The label that is chosen, the bindings of the innermost element after the choice, and what they
are. -/
theorem choose_eq (suggested : Option String) (hns : ns ≠ nsXml) (m : Bindings) (s : Scope)
    (forElement : Bool) :
    ∃ label m', choose (m :: s) suggested ns forElement = (label, m' :: s) ∧
      ns? (m' :: s) label = some ns ∧ (forElement = false → label ≠ "") ∧
      (m' = m ∨ m.ns? label = none ∧ m' = m.insert ⟨label, ns⟩) := by
  unfold choose
  rw [if_neg hns]
  split
  · next l hl =>
    obtain ⟨hresolves, hempty⟩ := label?_spec hl
    exact ⟨l, m, rfl, hresolves, hempty, .inl rfl⟩
  · have hunbound := ns?_newLabel_head m s suggested forElement
    refine ⟨_, m.set ⟨newLabel (m :: s) suggested forElement, ns⟩, rfl, ?_, fun helement => ?_,
      .inr ⟨hunbound, ?_⟩⟩
    · rw [← declare, ns?_declare, if_pos rfl]
    · rcases newLabel_cases m s suggested forElement with ⟨-, hne⟩ | ⟨htrue, -, -⟩
      · exact hne helement
      · exact absurd (helement.symm.trans htrue) Bool.noConfusion
    · unfold Bindings.set
      rw [if_neg (by simp [Bindings.binds, hunbound])]

end Scope

/-! ## The choices of a tag -/

/-- What resolves in a scope resolves the same after the labels of attributes are chosen. -/
theorem Tag.ns?_attributesIn {s : Scope} {old ns' : String} (line : Lineage) (defaults : Bindings)
    (as : List Attribute) (h : s.ns? old = some ns') :
    (attributesIn line defaults s as).2.ns? old = some ns' := by
  induction as generalizing s with
  | nil => exact h
  | cons a as ih =>
    obtain ⟨ns, name, value⟩ := a
    cases ns with
    | none => exact ih h
    | some ns => exact ih (Scope.ns?_choose_of_ns? _ ns (fun _ => rfl) h)

/-- For every scope with an element, every tree, node and namespace but that of `xml`, the search
for a free label ends, and a label is chosen that resolves to the namespace, and that is not the
default one for an attribute. Only the innermost element may have one binding more, of a label that
it did not bind. Each label that resolved before, other than the default one for an element,
resolves to the same namespace; and what resolves after the choice still does after the choices for
all attributes that follow. -/
theorem Scope.choose_resolves (t : Tree) (id : NodeId) {ns : String} (hns : ns ≠ nsXml)
    (m : Bindings) (s : Scope) (forElement : Bool) :
    (∀ label, Search (m :: s) 0 label ↔ label = freeLabel (m :: s)) ∧
    ∃ label m', choose (m :: s) (t.labelOf? id ns) ns forElement = (label, m' :: s) ∧
      ns? (m' :: s) label = some ns ∧
      (forElement = false → label ≠ "") ∧
      (m' = m ∨ m.ns? label = none ∧ m' = m.insert ⟨label, ns⟩) ∧
      (∀ old ns', (old = "" → forElement = false) → ns? (m :: s) old = some ns' →
        ns? (m' :: s) old = some ns') ∧
      ∀ line defaults as old ns', ns? (m' :: s) old = some ns' →
        (Tag.attributesIn line defaults (m' :: s) as).2.ns? old = some ns' := by
  refine ⟨search_iff (m :: s), ?_⟩
  obtain ⟨label, m', hchoose, hresolves, hne, hadded⟩ :=
    choose_eq (t.labelOf? id ns) hns m s forElement
  refine ⟨label, m', hchoose, hresolves, hne, hadded, fun old ns' hold h => ?_,
    fun line defaults as old ns' h => Tag.ns?_attributesIn line defaults as h⟩
  have hkept := ns?_choose_of_ns? (t.labelOf? id ns) ns hold h
  rwa [hchoose] at hkept

/-- Where the inner one of two elements is written inside another that binds `ns0`, the label that
its tree has for a namespace is bound to another one, and the label for an attribute is the second
that is made up. The labels in scope, and that of a second attribute, keep what they resolve to. -/
theorem Scope.choose_resolves_rebound :
    let m : Bindings := ⟨[⟨"p", "urn:y"⟩]⟩
    let outer : Scope := [⟨[⟨"ns0", "urn:z"⟩]⟩]
    let m' : Bindings := ⟨[⟨"p", "urn:y"⟩, ⟨"ns1", "urn:x"⟩]⟩
    Tree.rebound.labelOf? 1 "urn:x" = some "p" ∧ Search (m :: outer) 0 "ns1" ∧
      choose (m :: outer) (Tree.rebound.labelOf? 1 "urn:x") "urn:x" false = ("ns1", m' :: outer) ∧
      ns? (m' :: outer) "ns0" = some "urn:z" ∧
      ns? (Tag.attributesIn (Tree.rebound.lineage 1) {} (m' :: outer) [⟨some "urn:w", "k", ""⟩]).2
        "ns1" = some "urn:x" := by
  intro m outer m'
  have hchoose : choose (m :: outer) (Tree.rebound.labelOf? 1 "urn:x") "urn:x" false =
      ("ns1", m' :: outer) := by decide +kernel
  obtain ⟨hsearch, label, inner, heq, hresolves, -, -, hkept, hlater⟩ :=
    choose_resolves Tree.rebound 1 (by decide : "urn:x" ≠ nsXml) m outer false
  obtain ⟨rfl, htop⟩ := Prod.mk.inj (heq.symm.trans hchoose)
  rw [htop] at hresolves hkept hlater
  exact ⟨by decide +kernel, (hsearch "ns1").2 (by decide +kernel), hchoose,
    hkept "ns0" "urn:z" (fun _ => rfl) (by decide +kernel), hlater _ _ _ "ns1" "urn:x" hresolves⟩

end Netconf.Xml
