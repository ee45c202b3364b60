import Netconf.Proofs.Text.Tame
import Netconf.Proofs.Xml.Tags

/-!
# Encoded trees hold no marker

The text of a branch is sealed (`sealed_writeBranch`): wherever its names are guarded, its values,
its namespaces and the values of its attributes may be anything. They are escaped, and where a tag
closes, a quote or a name stands in front of the closing sign.

The labels in the tags are those of the tree and of its registry, or made up while writing, with
digits only (`guarded_choose`). So scopes are followed through the writing, as bindings are
declared.
-/

namespace Netconf

/-- The labels of bindings are guarded. -/
def Bindings.Guarded (m : Bindings) : Prop := ∀ label ∈ m.labels, Text.Guarded label

/-- The names of an element are guarded: its own, those of its attributes and the labels that it
binds. -/
structure Element.Guarded (e : Element) : Prop where
  /-- Its own name is guarded. -/
  name : Text.Guarded e.name
  /-- The names of its attributes are. -/
  attributes : ∀ a ∈ e.attributes, Text.Guarded a.name
  /-- The labels that it binds are. -/
  bindings : e.bindings.Guarded

/-- The names in the branch at a node are guarded, and so are the labels that the ancestors and the
registry bind. -/
structure Tree.GuardedAt (t : Tree) (id : NodeId) : Prop where
  /-- The names of the elements of the branch are guarded. -/
  branch : (t.branch id).All fun b => b.element.Guarded
  /-- The labels that the ancestors bind are. -/
  ancestors : ∀ p ∈ (t.lineage id).tail, p.bindings.Guarded
  /-- The labels of the registry are. -/
  registry : t.defaults.bindings.Guarded

/-! ## Guarded labels -/

/-- A bound label more that is guarded. -/
theorem Bindings.Guarded.set {m : Bindings} (h : m.Guarded) {b : Binding}
    (hb : Text.Guarded b.label) : (m.set b).Guarded := by
  intro label hlabel
  rcases Bindings.mem_labels_set.1 hlabel with hold | rfl
  · exact h label hold
  · exact hb

/-- A new binding with a guarded label. -/
theorem Bindings.Guarded.add {m : Bindings} (h : m.Guarded) {b : Binding}
    (hb : Text.Guarded b.label) : (m.add b).Guarded := by
  have hset := h.set hb
  unfold Bindings.set at hset
  unfold Bindings.add
  split
  · exact h
  · next hnew => rwa [if_neg hnew] at hset

/-- A registry with a guarded label more. -/
theorem Bindings.Guarded.register {r : Registry} (h : r.bindings.Guarded) {b : Binding}
    (hb : Text.Guarded b.label) : (r.register b).2.bindings.Guarded := by
  unfold Registry.register
  split
  · exact h
  · exact h.add hb

/-- A registry stays the same one when a binding is added. -/
theorem Registry.id_register (r : Registry) (b : Binding) : (r.register b).2.id = r.id := by
  unfold Registry.register
  split <;> rfl

/-- A branch is the same with other default bindings. -/
theorem Tree.branch_refresh (t : Tree) (newer : Registry) (id : NodeId) :
    (t.refresh newer).branch id = t.branch id := by
  have hto : ∀ depth id, (t.refresh newer).branchTo depth id = t.branchTo depth id := by
    intro depth
    induction depth with
    | zero => exact fun _ => rfl
    | succ depth ih =>
      intro id
      rw [branchTo, branchTo, funext ih]
      rfl
  exact hto t.size id

/-- So is a lineage. -/
theorem Tree.lineage_refresh (t : Tree) (newer : Registry) (id : NodeId) :
    (t.refresh newer).lineage id = t.lineage id := by
  have hup : ∀ steps id, (t.refresh newer).upwardFor steps id = t.upwardFor steps id := by
    intro steps
    induction steps with
    | zero => exact fun _ => rfl
    | succ steps ih =>
      intro id
      rw [upwardFor, upwardFor, funext ih]
      rfl
  exact congrArg (List.map t.element) (hup t.size id)

/-- A tree takes over a new default binding, if it shares the registry, and keeps guarded names. -/
theorem Tree.GuardedAt.register {t : Tree} {r : Registry} {id : NodeId}
    (h : (t.refresh r).GuardedAt id) {b : Binding} (hb : Text.Guarded b.label) :
    (t.refresh (r.register b).2).GuardedAt id := by
  have hbranch := h.branch
  have hancestors := h.ancestors
  rw [Tree.branch_refresh] at hbranch
  rw [Tree.lineage_refresh] at hancestors
  refine ⟨by rwa [Tree.branch_refresh], by rwa [Tree.lineage_refresh], ?_⟩
  have hregistry : (t.defaults.refresh r).bindings.Guarded := h.registry
  change (t.defaults.refresh (r.register b).2).bindings.Guarded
  unfold Registry.refresh at hregistry ⊢
  rw [Registry.id_register]
  split at hregistry
  · next hsame =>
    rw [if_pos hsame]
    exact hregistry.register hb
  · next hother => rwa [if_neg hother]

namespace Xml

open Text (Tame Sealed)

/-- The labels of a scope are guarded. -/
def Scope.Guarded (s : Scope) : Prop := ∀ m ∈ s, m.Guarded

variable {s : Scope} {defaults : Bindings} {line above : Lineage} {l : Layout}

/-- A scope stays guarded when a guarded label is declared. -/
theorem Scope.Guarded.declare (h : s.Guarded) {b : Binding} (hb : Text.Guarded b.label) :
    (s.declare b).Guarded := by
  cases s with
  | nil => exact h
  | cons m s =>
    obtain ⟨hm, hs⟩ := List.forall_mem_cons.1 h
    exact List.forall_mem_cons.2 ⟨hm.set hb, hs⟩

/-- A made-up label is guarded. -/
theorem guarded_madeUp (i : Nat) : Text.Guarded (Scope.madeUp i) :=
  Text.Guarded.append (by decide) (Text.guarded_decimal i)

/-- A label in scope for a namespace is guarded. -/
theorem Scope.Guarded.label? (h : s.Guarded) {ns label : String} {allowDefault : Bool}
    (hlabel : s.label? ns allowDefault = some label) : Text.Guarded label := by
  unfold Scope.label? at hlabel
  obtain ⟨b, hb, rfl⟩ := Option.map_eq_some_iff.1 hlabel
  obtain ⟨m, hm, hfind⟩ := List.exists_of_findSome?_eq_some hb
  exact h m hm _ (List.mem_map_of_mem (List.mem_of_find?_eq_some hfind))

/-- A label to declare is guarded if the suggested one is. -/
theorem guarded_newLabel {suggested : Option String} (hs : ∀ l ∈ suggested, Text.Guarded l)
    (forElement : Bool) : Text.Guarded (s.newLabel suggested forElement) := by
  unfold Scope.newLabel
  split
  · next label hlabel => exact hs label (Option.filter_eq_some_iff.1 hlabel).1
  · split
    · decide
    · exact guarded_madeUp _

/-- The label that is chosen for a namespace is guarded, and so is the scope in which it means the
namespace. -/
theorem guarded_choose {suggested : Option String} (h : s.Guarded)
    (hs : ∀ l ∈ suggested, Text.Guarded l) (ns : String) (forElement : Bool) :
    Text.Guarded (s.choose suggested ns forElement).1
      ∧ (s.choose suggested ns forElement).2.Guarded := by
  unfold Scope.choose
  split
  · exact ⟨(by decide : Text.Guarded "xml"), h⟩
  · split
    · next label hlabel => exact ⟨h.label? hlabel, h⟩
    · have hnew := guarded_newLabel (s := s) hs forElement
      exact ⟨hnew, h.declare hnew⟩

/-- A label that a lineage suggests for a namespace is guarded. -/
theorem guarded_of_mem_label? (hline : ∀ e ∈ line, e.bindings.Guarded)
    (hdefaults : defaults.Guarded) (ns : String) :
    ∀ label ∈ line.label? defaults ns, Text.Guarded label :=
  Lineage.of_mem_label? hline hdefaults ns

/-- A name with a label in front is guarded if both are. -/
theorem guarded_withLabel {label name : String} (hlabel : Text.Guarded label)
    (hname : Text.Guarded name) : Text.Guarded (withLabel label name) := by
  unfold withLabel
  split
  · exact hname
  · exact (hlabel.append (by decide)).append hname

/-! ## Tags -/

/-- The names of a tag are guarded, and so are the labels of the scope inside. -/
structure Tag.Guarded (t : Tag) : Prop where
  /-- The name is guarded. -/
  name : Text.Guarded t.name
  /-- The names of the attributes are. -/
  attributes : ∀ p ∈ t.attributes, Text.Guarded p.1
  /-- The labels of the scope inside are. -/
  scope : t.scope.Guarded

/-- The name of an element in its tag is guarded, and so is the scope that it makes. -/
theorem guarded_nameIn {e : Element} (he : e.Guarded) (hs : s.Guarded)
    (hline : ∀ p ∈ line, p.bindings.Guarded) (hdefaults : defaults.Guarded) :
    Text.Guarded (Tag.nameIn s line defaults e).1 ∧ (Tag.nameIn s line defaults e).2.Guarded := by
  have hinner : Scope.Guarded (e.bindings :: s) := List.forall_mem_cons.2 ⟨he.bindings, hs⟩
  unfold Tag.nameIn
  dsimp only
  split
  · next ns _ =>
    obtain ⟨hlabel, hscope⟩ :=
      guarded_choose hinner (guarded_of_mem_label? hline hdefaults ns) ns true
    exact ⟨guarded_withLabel hlabel he.name, hscope⟩
  · split
    · exact ⟨he.name, hinner.declare (by decide)⟩
    · exact ⟨he.name, hinner⟩

/-- The names of attributes in a tag are guarded, and so is the scope that they make. -/
theorem guarded_attributesIn (hline : ∀ p ∈ line, p.bindings.Guarded)
    (hdefaults : defaults.Guarded) {as : List Attribute} (has : ∀ a ∈ as, Text.Guarded a.name)
    (hs : s.Guarded) :
    (∀ p ∈ (Tag.attributesIn line defaults s as).1, Text.Guarded p.1)
      ∧ (Tag.attributesIn line defaults s as).2.Guarded := by
  induction as generalizing s with
  | nil => exact ⟨by simp [Tag.attributesIn], hs⟩
  | cons a as ih =>
    obtain ⟨ha, has⟩ := List.forall_mem_cons.1 has
    unfold Tag.attributesIn
    dsimp only
    cases hns : a.ns with
    | none =>
      obtain ⟨hnames, hscope⟩ := ih has hs
      exact ⟨List.forall_mem_cons.2 ⟨ha, hnames⟩, hscope⟩
    | some ns =>
      obtain ⟨hlabel, hchosen⟩ :=
        guarded_choose hs (guarded_of_mem_label? hline hdefaults ns) ns false
      obtain ⟨hnames, hscope⟩ := ih has hchosen
      exact ⟨List.forall_mem_cons.2 ⟨guarded_withLabel hlabel ha, hnames⟩, hscope⟩

/-- The tag of a guarded element is guarded. -/
theorem guarded_ofElement {e : Element} (he : e.Guarded) (hs : s.Guarded)
    (habove : ∀ p ∈ above, p.bindings.Guarded) (hdefaults : defaults.Guarded) :
    (Tag.ofElement s above defaults e).Guarded := by
  have hline : ∀ p ∈ e :: above, p.bindings.Guarded :=
    List.forall_mem_cons.2 ⟨he.bindings, habove⟩
  obtain ⟨hname, hinner⟩ := guarded_nameIn he hs hline hdefaults
  obtain ⟨hnames, hscope⟩ := guarded_attributesIn hline hdefaults he.attributes hinner
  exact ⟨hname, hnames, hscope⟩

/-- The names that a guarded tag writes are guarded. -/
theorem Tag.Guarded.pairs {t : Tag} (h : t.Guarded) : ∀ p ∈ t.pairs, Text.Guarded p.1 := by
  intro p hp
  rcases List.mem_append.1 hp with hp | hp
  · obtain ⟨b, hb, rfl⟩ := List.mem_map.1 hp
    have hlabel : Text.Guarded b.label := by
      unfold Tag.declared at hb
      cases hscope : t.scope with
      | nil => simp [hscope] at hb
      | cons m s =>
        have hm : b ∈ m.toList := by simpa [hscope] using hb
        exact h.scope m (hscope ▸ List.mem_cons_self) _ (List.mem_map_of_mem hm)
    change Text.Guarded b.declaration
    unfold Binding.declaration
    split
    · decide
    · exact Text.Guarded.append (by decide) hlabel
  · exact h.attributes p hp

/-- An attribute with a guarded name is sealed, whatever its value is. -/
theorem sealed_attributeChars {p : String × String} (h : Text.Guarded p.1) :
    Sealed (attributeChars p) := by
  have hname : Sealed ([' '] ++ p.1.toList) := Sealed.append (by decide) h.sealed
  have hquote : Sealed (([' '] ++ p.1.toList) ++ ['=', '"']) := hname.append (by decide)
  have hvalue : Tame ((([' '] ++ p.1.toList) ++ ['=', '"']) ++ escape true p.2.toList) :=
    hquote.tame.append (Text.tame_escape true _)
  have hend : Sealed ['"'] := by decide
  have hclosed := hvalue.append_sealed hend (by simp)
  simpa [attributeChars] using hclosed

/-- A start tag without its closing sign is sealed. -/
theorem Tag.Guarded.sealed {t : Tag} (h : t.Guarded) :
    Sealed (t.name.toList ++ t.pairs.flatMap attributeChars) :=
  h.name.sealed.append (Text.sealed_flatMap fun p hp => sealed_attributeChars (h.pairs p hp))

/-! ## Elements -/

/-- The end of a line is sealed. -/
theorem sealed_lineEnd (l : Layout) : Sealed (lineEnd l).toList := by
  unfold lineEnd
  split <;> decide

/-- An indentation is sealed. -/
theorem sealed_indent (l : Layout) (depth : Nat) : Sealed (indent l depth).toList := by
  unfold indent
  split
  · rw [String.toList_ofList]
    refine ⟨Text.tame_of_ne fun c hc => ?_, fun hlast => ?_⟩
    · rw [List.eq_of_mem_replicate hc]
      decide
    · have hblank := List.eq_of_mem_replicate (List.mem_of_mem_getLast? hlast)
      exact absurd hblank (by decide)
  · decide

/-- An element with a guarded tag is sealed if its children are. -/
theorem sealed_elementText {t : Tag} (ht : t.Guarded) (depth : Nat) (value : Option Value)
    {children : Option String} (hchildren : ∀ c ∈ children, Sealed c.toList) :
    Sealed (elementText l depth t value children).toList := by
  have hopen : Sealed t.text.toList := by
    have hsign : Sealed ['<'] := by decide
    rw [Tag.toList_text]
    exact hsign.append ht.sealed
  have hstart := (sealed_indent l depth).append hopen
  unfold elementText
  rw [String.toList_append, String.toList_append]
  split
  · exact hstart.append (by decide)
  · -- the start tag is closed behind its name or a quote
    have hclose : Sealed (t.text.toList ++ ['>']) := by
      rw [Tag.toList_text]
      exact ht.sealed.close
    have hvalue : Tame ((value.map fun v => escapeText v.wire).getD "").toList := by
      cases value with
      | none => decide
      | some v =>
        change Tame (String.ofList (escape false v.wire.toList)).toList
        rw [String.toList_ofList]
        exact Text.tame_escape false _
    have hbelow :
        Tame ((children.map fun c => c ++ lineEnd l ++ indent l depth).getD "").toList := by
      cases children with
      | none => exact (by decide : Tame "".toList)
      | some c =>
        change Tame (c ++ lineEnd l ++ indent l depth).toList
        rw [String.toList_append, String.toList_append]
        exact (((hchildren c rfl).append (sealed_lineEnd l)).append (sealed_indent l depth)).tame
    have hslash : Sealed ['/'] := by decide
    have hend : Sealed ('<' :: ('/' :: t.name.toList) ++ ['>']) :=
      (hslash.append ht.name.sealed).close
    have hall := (((sealed_indent l depth).append hclose).tame.append hvalue).append hbelow
    have hsealed := hall.append_sealed hend (by simp)
    simpa [String.toList_append] using hsealed

/-- The text of a branch with guarded names is sealed. -/
theorem sealed_writeBranch (hdefaults : defaults.Guarded) {b : Branch}
    (hb : b.All fun b => b.element.Guarded) : ∀ {above : Lineage} {siblings : List Element}
      {s : Scope} {depth : Nat} {text : String}, (∀ p ∈ above, p.bindings.Guarded) → s.Guarded →
      writeBranch l defaults above siblings s depth b = .ok text → Sealed text.toList := by
  refine (Branch.mutualInduction
    (P := fun b => (b.All fun b => b.element.Guarded) → ∀ {above : Lineage}
      {siblings : List Element} {s : Scope} {depth : Nat} {text : String},
      (∀ p ∈ above, p.bindings.Guarded) → s.Guarded →
      writeBranch l defaults above siblings s depth b = .ok text → Sealed text.toList)
    (Q := fun bs => (∀ b ∈ bs, b.All fun b => b.element.Guarded) → ∀ {above : Lineage}
      {siblings : List Element} {s : Scope} {depth : Nat} {text : String},
      (∀ p ∈ above, p.bindings.Guarded) → s.Guarded →
      writeAll l defaults above siblings s depth bs = .ok text → Sealed text.toList)
    ?_ ?_ ?_).1 b hb
  · intro id e children ih hb above siblings s depth text habove hs h
    have hall : e.Guarded ∧ ∀ c ∈ children, c.All fun b => b.element.Guarded :=
      Branch.all_iff.1 hb
    have htag := guarded_ofElement hall.1 hs habove hdefaults
    have hline : ∀ p ∈ e :: above, p.bindings.Guarded :=
      List.forall_mem_cons.2 ⟨hall.1.bindings, habove⟩
    rw [writeBranch] at h
    split at h
    · cases h
    · obtain rfl := Except.ok.inj h
      decide
    · dsimp only at h
      split at h
      · cases h
      · next body hbody =>
        obtain rfl := Except.ok.inj h
        refine sealed_elementText htag depth e.value fun c hc => ?_
        split at hc
        · cases hc
        · obtain rfl := Option.some.inj hc
          exact ih hall.2 hline htag.scope hbody
  · intro _ above siblings s depth text _ _ h
    obtain rfl := Except.ok.inj h
    decide
  · intro b bs ihb ihbs hbs above siblings s depth text habove hs h
    obtain ⟨hb, hbs⟩ := List.forall_mem_cons.1 hbs
    rw [writeAll] at h
    split at h
    · cases h
    · next first hfirst =>
      split at h
      · cases h
      · next others hothers =>
        obtain rfl := Except.ok.inj h
        rw [String.toList_append, String.toList_append]
        have hline := (sealed_lineEnd l).append (ihb hb habove hs hfirst)
        exact hline.append (ihbs hbs habove hs hothers)

end Xml

/-- The text of a branch with guarded names in a tree is sealed. -/
theorem Tree.GuardedAt.sealed_encode {t : Tree} {id : NodeId} (h : t.GuardedAt id) {l : Xml.Layout}
    {text : String} (htext : t.encode id l = .ok text) : Text.Sealed text.toList :=
  Xml.sealed_writeBranch h.registry h.branch h.ancestors
    (fun _ hm => absurd hm List.not_mem_nil) htext

end Netconf
