import Netconf.Proofs.Xml.Elements
import Netconf.Proofs.Xml.Scanning

/-!
# Trees read from items

The items of a piece of a document, met below an open element, give this element branches as its
last children. `Draft.Gains` says so of a draft and what it becomes, and `Brings` of items: reading
them leads there, from every draft that knows the scope they were written in. `Makes` says the same
of the items of a whole document. There is one rule for each way of putting items together. What
counts of a branch is what it shows (`Branch.shown`): its bindings may be others than those it was
written with, as long as every name means what it meant.
-/

namespace Netconf

/-! ## What is read -/

/-- What XML shows of an element: its namespace and name, the text of its value, and its
attributes. -/
def Element.shown (e : Element) : Element where
  ns := e.ns
  name := e.name
  value := e.value.map fun v => .text v.wire
  attributes := e.attributes

/-- An element with the text of a value. -/
def Element.withText (v : Option Value) (e : Element) : Element :=
  { e with value := v.map fun v => .text v.wire }

/-- What XML shows of a branch. -/
def Branch.shown (b : Branch) : Branch := b.bare.mapElements Element.shown

/-- A branch shows its top and its children. -/
theorem Branch.shown_mk (id : NodeId) (e : Element) (bs : List Branch) :
    (Branch.mk id e bs).shown = .mk 0 e.shown (bs.map Branch.shown) := by
  rw [Branch.shown, bare_mk, mapElements_mk, List.map_map]
  rfl

/-- The numbers of its slots do not show. -/
theorem Branch.shown_bare (b : Branch) : b.bare.shown = b.shown := by
  rw [Branch.shown, bare_bare, Branch.shown]

namespace Tree

variable {t t' : Tree} {p id : Nat}

/-- A change of what a node carries that changes nothing there changes nothing. -/
theorem modifyElement_eq_self {f : Element → Element} (h : f (t.element id) = t.element id) :
    t.modifyElement id f = t := by
  obtain ⟨nodes, defaults⟩ := t
  unfold modifyElement modify
  congr 1
  refine Array.ext (by simp) fun i _ hi => ?_
  rw [Array.getElem_modify]
  split
  · next hid =>
    subst hid
    have hnode : (Tree.mk nodes defaults).element id = nodes[id].element := by
      simp [element, node, Array.getD_eq_getD_getElem?, hi]
    rw [hnode] at h
    rw [h]
  · rfl

/-- The content of a node before its last child is that of the children before. -/
theorem content_of_concat {kids : List NodeId} (h : t.children p = kids ++ [id]) :
    t.content p = kids.map (fun c => (t.branch c).bare) ++ [(t.branch id).bare] := by
  rw [content, h, List.map_append]
  rfl

end Tree

namespace Xml

open Netconf.Tree

/-! ## Drafts -/

/-- Reading below the open element `p` has brought the draft `s` to `s'`: the branches `bs` are
there as the last children of `p`, and everything else is as it was. -/
structure Draft.Gains (s : Draft) (p : Nat) (bs : List Branch) (s' : Draft) : Prop where
  /-- The same elements are open. -/
  openElements : s'.openElements = s.openElements
  /-- The root is the same. -/
  root : s'.root = s.root
  /-- The default bindings are the same. -/
  defaults : s'.tree.defaults = s.tree.defaults
  /-- Only what is below the open element has changed. -/
  confined : s.tree.Confined p s'.tree
  /-- The new children show what the branches show. -/
  exists_content : ∃ new, s'.tree.content p = s.tree.content p ++ new ∧
    new.map Branch.shown = bs.map Branch.shown

/-- A sound draft that reads what is below an open element. -/
structure Draft.At (s : Draft) (p : Nat) (scope : Scope) : Prop where
  /-- The links are those of a forest. -/
  forest : s.tree.Forest
  /-- The open element exists. -/
  lt_size : p < s.tree.size
  /-- It is the innermost one. -/
  parent? : s.parent? = some p
  /-- There is a root. -/
  root : s.root.isSome = true
  /-- The labels mean what they mean in the scope. -/
  knows : Knows s.tree (some p) scope

variable {s s' s'' : Draft} {p : Nat} {bs cs : List Branch} {scope : Scope}

/-- Gaining nothing. -/
theorem Draft.At.gains_nil (h : s.At p scope) : s.Gains p [] s :=
  ⟨rfl, rfl, rfl, h.forest.keeps.confined h.lt_size, [], by simp, rfl⟩

/-- Gaining some branches and then others. -/
theorem Draft.Gains.trans (hat : s.At p scope) (h : s.Gains p bs s') (h' : s'.Gains p cs s'') :
    s.Gains p (bs ++ cs) s'' := by
  obtain ⟨new, hnew, hshown⟩ := h.exists_content
  obtain ⟨new', hnew', hshown'⟩ := h'.exists_content
  refine ⟨h'.openElements.trans h.openElements, h'.root.trans h.root, h'.defaults.trans h.defaults,
    h.confined.trans hat.forest h'.confined, new ++ new', ?_, ?_⟩
  · rw [hnew', hnew, List.append_assoc]
  · rw [List.map_append, List.map_append, hshown, hshown']

/-- After gaining branches the draft is still below the open element, in the same scope. -/
theorem Draft.Gains.at (hat : s.At p scope) (h : s.Gains p bs s') : s'.At p scope where
  forest := h.confined.forest
  lt_size := h.confined.lt hat.lt_size
  parent? := by
    have hparent := hat.parent?
    unfold Draft.parent? at hparent ⊢
    rw [h.openElements, hparent]
  root := by rw [h.root, hat.root]
  knows label hlabel := by
    rw [← hat.knows label hlabel]
    exact h.confined.nsOf? hat.forest hat.lt_size h.defaults label

/-! ## Single items -/

/-- One item, and then the others. -/
theorem Draft.addAll_cons {m : Markup} (h : s.add none m = .ok s') (ms : List Markup) :
    s.addAll none (m :: ms) = s'.addAll none ms := by
  rw [Draft.addAll, h]

/-- The tag of an element makes a node for it as the last child of the open element. -/
theorem Draft.At.exists_addElement (h : s.At p scope) {name attributes : List Char} {e : Element}
    (hread : readElement s.tree none (some p) name attributes = .ok e) :
    ∃ s', s.addElement none name attributes = .ok (s.tree.size, s') ∧
      s'.openElements = s.openElements ∧ s'.root = s.root ∧
      s'.tree.defaults = s.tree.defaults ∧ s.tree.Confined p s'.tree ∧
      s'.tree.children p = s.tree.children p ++ [s.tree.size] ∧
      s'.tree.content p = s.tree.content p ++ [.mk 0 e []] ∧
      s'.tree.element s.tree.size = e ∧ s'.tree.children s.tree.size = [] ∧
      s'.tree.parent? s.tree.size = some p := by
  have hmade := h.forest.keeps_create e
  have hid : s.tree.size < (s.tree.create e).1.size := by simp [Tree.create]
  have hnode : (s.tree.create e).1.element s.tree.size = e := by rw [element_create, if_pos rfl]
  have hchildless : (s.tree.create e).1.children s.tree.size = [] := by
    rw [children_create, Tree.children, node_of_size_le (Nat.le_refl _)]
  have hempty : (s.tree.create e).1.content s.tree.size = [] := by rw [content, hchildless]; rfl
  have halone : (s.tree.create e).1.parent? s.tree.size = none := by
    rw [parent?_create, Tree.parent?, node_of_size_le (Nat.le_refl _)]
  obtain ⟨t', ht', hconfined, hchildren, hcontent⟩ := hmade.exists_insertAt h.forest h.lt_size
    (Nat.le_refl _) hid halone (s.tree.children p).length
  have hins := inserted_of_insertAt (Nat.lt_of_lt_of_le h.lt_size hmade.size_le) hid ht'
  have hput : (s.tree.create e).1.append p s.tree.size = .ok t' := by
    rw [Tree.append, children_create, ht']
  obtain ⟨r, hr⟩ := Option.isSome_iff_exists.1 h.root
  refine ⟨{ s with tree := t', root := s.root }, ?_, rfl, rfl, hins.defaults, hconfined, ?_, ?_, ?_,
    ?_, ?_⟩
  · unfold Draft.addElement
    rw [h.parent?, hread]
    dsimp only
    rw [show (s.tree.create e).2 = s.tree.size from rfl, hput, hr]
    rfl
  · rw [hchildren, Nat.min_self, List.insertIdx_length_self]
  · have hlength : (s.tree.content p).length = (s.tree.children p).length := by
      rw [content, List.length_map]
    rw [hcontent, hlength, Nat.min_self, ← hlength, List.insertIdx_length_self,
      hmade.forest.bare_branch, hnode, hempty]
  · rw [hins.element, hnode]
  · rw [hins.children, if_neg (Nat.ne_of_gt h.lt_size), hchildless]
  · rw [hins.parent?, if_pos rfl]

/-- The items give an open element without value the text of a value. -/
def BringsText (items : List Markup) (v : Option Value) : Prop :=
  ∀ ⦃s : Draft⦄ ⦃id : Nat⦄, s.parent? = some id → (s.tree.element id).value = none →
    ∀ ms, s.addAll none (items ++ ms) =
      Draft.addAll none { s with tree := s.tree.modifyElement id (Element.withText v) } ms

/-- No items bring no text. -/
theorem bringsText_nil : BringsText [] none := by
  intro s id _ hvalue ms
  have hsame : s.tree.modifyElement id (Element.withText none) = s.tree :=
    modifyElement_eq_self (by rw [Element.withText, Option.map_none, ← hvalue])
  rw [hsame]
  rfl

/-- What is read of a text between tags: the text without the blanks at its ends, and nothing if
it is blank. -/
def heard (s : String) : Option Value :=
  if Text.trim s = "" then none else some (.text (Text.trim s))

/-- An item brings what is read of its text. -/
theorem bringsText_item {raw : List Char} {text : String} (hraw : unescape raw = some text.toList) :
    BringsText [.text raw] (heard text) := by
  intro s id hparent hvalue ms
  have hadd : s.add none (.text raw) = .ok (s.addText text.toList) := by rw [Draft.add, hraw]
  rw [List.singleton_append, Draft.addAll_cons hadd]
  unfold Draft.addText heard
  rw [hparent]
  dsimp only
  rw [show String.ofList (Text.strip text.toList) = Text.trim text from rfl]
  split
  · exact bringsText_nil hparent hvalue ms
  · rw [show s.tree.value? id = none from hvalue, Option.map_none, Option.getD_none,
      String.empty_append]
    rfl

/-- An end tag closes the open element of its name. -/
theorem Draft.addAll_closing {id : NodeId} {name : List Char} {others : List (NodeId × List Char)}
    (h : s.openElements = (id, name) :: others) (ms : List Markup) :
    s.addAll none (.closing name :: ms) =
      Draft.addAll none { s with openElements := others } ms := by
  refine Draft.addAll_cons ?_ ms
  unfold Draft.add
  rw [h]
  dsimp only
  rw [if_pos rfl]

/-! ## Items that bring branches -/

/-- The items, met in a scope, give the open element the branches as its last children. -/
def Brings (scope : Scope) (items : List Markup) (bs : List Branch) : Prop :=
  ∀ ⦃s : Draft⦄ ⦃p : Nat⦄, s.At p scope →
    ∃ s', s.Gains p bs s' ∧ ∀ ms, s.addAll none (items ++ ms) = s'.addAll none ms

/-- No items bring nothing. -/
theorem brings_nil (scope : Scope) : Brings scope [] [] :=
  fun s _ hat => ⟨s, hat.gains_nil, fun _ => rfl⟩

/-- Items one after the other bring their branches one after the other. -/
theorem Brings.append {items others : List Markup} (h : Brings scope items bs)
    (h' : Brings scope others cs) : Brings scope (items ++ others) (bs ++ cs) := by
  intro s p hat
  obtain ⟨s₁, hgains, hread⟩ := h hat
  obtain ⟨s', hgains', hread'⟩ := h' (hgains.at hat)
  refine ⟨s', hgains.trans hat hgains', fun ms => ?_⟩
  rw [List.append_assoc, hread, hread']

/-- Between the tags of a node its value is read, and then its children. -/
theorem exists_inside {id : Nat} (hat : s.At id scope)
    {name : List Char} {others : List (NodeId × List Char)}
    (hopen : s.openElements = (id, name) :: others)
    (hvalue : (s.tree.element id).value = none) (hchildless : s.tree.children id = [])
    {texts items : List Markup} {v : Option Value} {children : List Branch}
    (htexts : BringsText texts v) (hitems : Brings scope items children) :
    ∃ s' : Draft, s'.openElements = others ∧ s'.root = s.root ∧
      s'.tree.defaults = s.tree.defaults ∧
      (s.tree.modifyElement id (Element.withText v)).Confined id s'.tree ∧
      (s'.tree.content id).map Branch.shown = children.map Branch.shown ∧
      ∀ ms, s.addAll none (texts ++ items ++ [.closing name] ++ ms) = s'.addAll none ms := by
  have hvalued : Draft.At { s with tree := s.tree.modifyElement id (Element.withText v) }
      id scope := by
    refine ⟨hat.forest.modifyElement id _, ?_, hat.parent?, hat.root, fun label hlabel => ?_⟩
    · show id < (s.tree.modifyElement id _).size
      rw [size_modifyElement]
      exact hat.lt_size
    · rw [← hat.knows label hlabel]
      exact hat.forest.nsOf?_modifyElement id (f := Element.withText v) (fun _ => rfl)
        id label
  obtain ⟨s', hgains, hread⟩ := hitems hvalued
  obtain ⟨new, hnew, hshown⟩ := hgains.exists_content
  have hempty : (s.tree.modifyElement id (Element.withText v)).content id = [] := by
    rw [content, children_modifyElement, hchildless]
    rfl
  refine ⟨{ s' with openElements := others }, rfl, hgains.root, hgains.defaults, hgains.confined,
    ?_, fun ms => ?_⟩
  · show (s'.tree.content id).map _ = _
    rw [hnew]
    show (((s.tree.modifyElement id (Element.withText v)).content id) ++ new).map _ = _
    rw [hempty, List.nil_append, hshown]
  · rw [List.append_assoc, List.append_assoc, htexts hat.parent? hvalue, hread]
    exact Draft.addAll_closing (hgains.openElements.trans hopen) ms

/-- What the children of a node were stays when its new last child is given a value and
children. -/
theorem content_of_last {t t₁ t' : Tree} {p id : Nat} {kids : List NodeId} {e : Element}
    (h : t₁.Forest) (hkids : t₁.children p = kids ++ [id])
    (hcontent : t₁.content p = t.content p ++ [.mk 0 e []]) (f : Element → Element)
    (hinside : (t₁.modifyElement id f).Confined id t') :
    t₁.Confined p t' ∧
      t'.content p = t.content p ++ [.mk 0 (f (t₁.element id)) (t'.content id)] := by
  have hsplit : t₁.children p = kids ++ id :: [] := hkids
  obtain ⟨hvalued, hvaluedContent⟩ := h.confined_modifyElement hsplit f
  have hkids' : (t₁.modifyElement id f).children p = kids ++ [id] := by
    rw [children_modifyElement, hkids]
  have hmem : id ∈ (t₁.modifyElement id f).children p := by
    rw [hkids']
    exact List.mem_append_right _ List.mem_cons_self
  have hid : id < t₁.size := h.child_lt (hkids ▸ List.mem_append_right _ List.mem_cons_self)
  -- the branches in front of the last child are the same in all three trees
  have hbefore : kids.map (fun c => (t₁.branch c).bare) = t.content p := by
    rw [content_of_concat hkids] at hcontent
    exact List.append_inj_left' hcontent rfl
  have hsame : kids.map (fun c => ((t₁.modifyElement id f).branch c).bare) = t.content p := by
    rw [content_of_concat hkids', hbefore] at hvaluedContent
    exact List.append_inj_left' hvaluedContent rfl
  refine ⟨hvalued.trans h (hinside.of_child hvalued.forest hmem), ?_⟩
  rw [hinside.content_of_child hvalued.forest hkids', hsame, element_modifyElement,
    if_pos ⟨rfl, hid⟩]
  rfl

/-- What is read of an element shows what the element shows with the value that is read. -/
theorem shown_withText (v : Option Value) (e : Element) (bindings : Bindings) :
    (Element.withText v
        { ns := e.ns, name := e.name, attributes := e.attributes, bindings }).shown
      = Element.shown { e with value := v } := by
  unfold Element.withText Element.shown
  cases v <;> rfl

/-- A new open element knows the scope that its tag makes. -/
theorem at_of_opened (s : Draft) {inner : Scope} {id : Nat} {e : Element} (hforest : s.tree.Forest)
    (hid : id < s.tree.size) (hroot : s.root.isSome = true) (helement : s.tree.element id = e)
    (hmeans : ∀ label, inner.ns? label = (e.bindings.ns? label).or (scope.ns? label))
    (hknows : Knows s.tree (s.tree.parent? id) scope) (name : List Char) :
    Draft.At { s with openElements := (id, name) :: s.openElements } id inner := by
  refine ⟨hforest, hid, rfl, hroot, fun label hlabel => ?_⟩
  show s.tree.nsOf? id label = _
  rw [hforest.nsOf?_eq id, helement, hmeans]
  rw [hmeans] at hlabel
  cases hbound : e.bindings.ns? label with
  | some ns => rfl
  | none =>
    rw [hbound, Option.none_or] at hlabel
    rw [Option.none_or, Option.none_or, hknows label hlabel]

section Tags

variable {t : Tag} {e : Element} (htells : t.Tells scope e) (hname : isName e.name = true)
  (horderly : e.Orderly)
include htells hname horderly

/-- The tag of an empty element brings the element. -/
theorem brings_single :
    Brings scope [.single t.name.toList (t.pairs.flatMap attributeChars)]
      [.mk 0 { e with value := none } []] := by
  intro s p hat
  obtain ⟨bindings, -, hread⟩ := htells.readElement_eq hname horderly hat.knows
  obtain ⟨s₁, hadded, hopen, hroot, hdef, hconfined, -, hcontent, -⟩ := hat.exists_addElement hread
  refine ⟨s₁, ⟨hopen, hroot, hdef, hconfined, _, hcontent, ?_⟩, fun ms => ?_⟩
  · rw [List.map_singleton, List.map_singleton, Branch.shown_mk, Branch.shown_mk]
    rfl
  · refine Draft.addAll_cons ?_ ms
    rw [Draft.add, hadded]

/-- Tags around the items of a value and of children bring the element with this value and these
children. -/
theorem Brings.enclosed {texts items : List Markup} {v : Option Value} {children : List Branch}
    (htexts : BringsText texts v) (hitems : Brings t.scope items children) :
    Brings scope (.opening t.name.toList (t.pairs.flatMap attributeChars) ::
        (texts ++ items ++ [.closing t.name.toList]))
      [.mk 0 { e with value := v } children] := by
  intro s p hat
  obtain ⟨bindings, hmeans, hread⟩ := htells.readElement_eq hname horderly hat.knows
  obtain ⟨s₁, hadded, hopen, hroot, hdef, hconfined, hkids, hcontent, helement, hchildless,
    hparent⟩ := hat.exists_addElement hread
  have hid : s.tree.size < s₁.tree.size :=
    hconfined.forest.child_lt (hkids ▸ List.mem_append_right _ List.mem_cons_self)
  have hknows : Knows s₁.tree (s₁.tree.parent? s.tree.size) scope := fun label hlabel => by
    rw [hparent, ← hat.knows label hlabel]
    exact hconfined.nsOf? hat.forest hat.lt_size hdef label
  have hat₁ := at_of_opened s₁ hconfined.forest hid (hroot ▸ hat.root) helement hmeans hknows
    t.name.toList
  obtain ⟨s', hopen', hroot', hdef', hinside, hshown, hreads⟩ := exists_inside hat₁ rfl
    (by show (s₁.tree.element s.tree.size).value = none; rw [helement]) hchildless htexts hitems
  obtain ⟨hconfined', hcontent'⟩ := content_of_last hconfined.forest hkids hcontent
    (Element.withText v) hinside
  refine ⟨s', ⟨hopen'.trans hopen, hroot'.trans hroot, hdef'.trans hdef,
    hconfined.trans hat.forest hconfined', _, hcontent', ?_⟩, fun ms => ?_⟩
  · rw [List.map_singleton, List.map_singleton, Branch.shown_mk, Branch.shown_mk, hshown,
      helement, shown_withText]
  · refine (Draft.addAll_cons ?_ _).trans (hreads ms)
    rw [Draft.add, hadded]

end Tags

/-! ## Documents -/

/-- Read as a whole, the items make a document that shows the branch. -/
def Makes (defaults : Registry) (items : List Markup) (b : Branch) : Prop :=
  ∃ (s : Draft) (root : NodeId), Draft.addAll none { tree := .empty defaults } items = .ok s ∧
    s.openElements = [] ∧ s.root = some root ∧ (s.tree.branch root).shown = b.shown

section Roots

variable {defaults : Registry} {name attributes : List Char} {e : Element} {bindings : Bindings}
  (hread : readElement (.empty defaults) none none name attributes =
    .ok { ns := e.ns, name := e.name, attributes := e.attributes, bindings := bindings })
include hread

/-- The first tag makes the root. -/
theorem addElement_root :
    Draft.addElement { tree := .empty defaults } none name attributes =
      .ok (0, {
        tree := ((Tree.empty defaults).create
          { ns := e.ns, name := e.name, attributes := e.attributes, bindings := bindings }).1
        root := some 0 }) := by
  unfold Draft.addElement
  rw [show Draft.parent? { tree := .empty defaults } = none from rfl, hread]
  rfl

/-- The tag of an empty element makes a document of this element. -/
theorem makes_single :
    Makes defaults [.single name attributes] (.mk 0 { e with value := none } []) := by
  have hforest := (forest_empty defaults).create
    { ns := e.ns, name := e.name, attributes := e.attributes, bindings := bindings }
  refine ⟨_, 0, Draft.addAll_cons (by rw [Draft.add, addElement_root hread]) [], rfl, rfl, ?_⟩
  rw [← Branch.shown_bare, hforest.bare_branch, Branch.shown_mk, Branch.shown_mk]
  rfl

/-- Tags around the items of a value and of children make a document of the element with this
value and these children. -/
theorem Makes.enclosed {outer inner : Scope} (hknows : Knows (.empty defaults) none outer)
    (hmeans : ∀ label, inner.ns? label = (bindings.ns? label).or (outer.ns? label))
    {texts items : List Markup} {v : Option Value} {children : List Branch}
    (htexts : BringsText texts v) (hitems : Brings inner items children) :
    Makes defaults (.opening name attributes :: (texts ++ items ++ [.closing name]))
      (.mk 0 { e with value := v } children) := by
  let top : Element :=
    { ns := e.ns, name := e.name, attributes := e.attributes, bindings := bindings }
  let made : Tree := ((Tree.empty defaults).create top).1
  have hforest : made.Forest := (forest_empty _).create top
  have hid : 0 < made.size := by simp [made, Tree.create]
  have helement : made.element 0 = top := (element_create _ _).trans (if_pos rfl)
  have hchildless : made.children 0 = [] := (children_create _ _).trans rfl
  have hknows' : Knows made (made.parent? 0) outer := fun label hlabel => by
    rw [parent?_create]
    exact hknows label hlabel
  have hat := at_of_opened { tree := made, root := some 0 } hforest hid rfl helement hmeans
    hknows' name
  obtain ⟨s, hopen, hroot, -, hinside, hshown, hreads⟩ := exists_inside hat rfl
    (by show (made.element 0).value = none; rw [helement]) hchildless htexts hitems
  refine ⟨s, 0, ?_, hopen, hroot, ?_⟩
  · have hall := hreads []
    rw [List.append_nil] at hall
    exact (Draft.addAll_cons (by rw [Draft.add, addElement_root hread]) _).trans hall
  · have htop : s.tree.element 0 = Element.withText v (made.element 0) := by
      rw [hinside.element_top, element_modifyElement, if_pos ⟨rfl, hid⟩]
    rw [← Branch.shown_bare, hinside.forest.bare_branch, Branch.shown_mk, Branch.shown_mk, hshown,
      htop, helement, shown_withText]

end Roots

/-- A text that gives the items of a document is read as it. -/
theorem Makes.exists_parse {defaults : Registry} {items : List Markup} {b : Branch}
    (h : Makes defaults items b) {text : String} (hscans : Scans text.toList items)
    (hhead : text.toList.head? = some '<') :
    ∃ d, parse defaults none text = .ok d ∧ (d.tree.branch d.root).shown = b.shown := by
  have hmark : text.toList.head? ≠ some byteOrderMark := by
    rw [hhead]
    decide
  obtain ⟨s, root, hadd, hopen, hroot, hshown⟩ := h
  refine ⟨⟨s.tree, root⟩, ?_, hshown⟩
  unfold parse
  rw [hscans.scan_eq hmark]
  dsimp only
  rw [hadd]
  dsimp only
  unfold Draft.finish
  rw [hopen, hroot]
  rfl

/-- The standard registry has no default binding, so a reader knows the empty scope. -/
theorem knows_standard (r : Nat) : Knows (.empty (.standard r)) none [] := by
  rintro label (rfl | hlabel)
  · rfl
  · cases hlabel

end Xml

end Netconf
