import Netconf.Proofs.Session.Documents

/-!
# Bodies convey their parts

The body of a request conveys the parts of its command (`Terms.conveys_body`), wherever the label of
the protocol speaks for its namespace and no default namespace is bound. Bodies are put together
from elements that differ only in their names, so there is one rule for each form of an element
(`Speaks.conveys_parts`, `Speaks.conveys_text`, `Speaks.conveys_declares`), and a body is conveyed
by the rules for its elements. Texts need no condition. The names in the nodes that a command takes
must be such that they can be written.
-/

namespace Netconf

open Xml (Scope Conveys Announces Tag)

/-! ## Elements of messages -/

namespace Xml.Announces

variable {scope : Scope} {t : Tag} {e : Element} {name attributes content : String}

/-- An element conveys itself with what its content conveys. -/
theorem conveys_elementOf (h : Announces scope t e name attributes) (hvalue : e.value = none)
    {bs : List Branch} (hcontent : Conveys t.scope content bs) :
    Conveys scope (elementOf name attributes content) [.mk 0 e bs] := by
  have hall := h.conveys_enclosed "" hcontent
  have hheard : heard "" = e.value := by rw [hvalue]; decide
  rw [hheard, show escapeText "" = "" from rfl, String.empty_append] at hall
  exact hall

/-- An element with an escaped text conveys itself with what is read of the text. -/
theorem conveys_elementOf_text (h : Announces scope t e name attributes) (text : String) :
    Conveys scope (elementOf name attributes (escapeText text))
      [.mk 0 { e with value := heard text } []] := by
  have hall := h.conveys_enclosed text (conveys_nil t.scope)
  rw [String.append_empty] at hall
  exact hall

/-- An element without content conveys itself. -/
theorem conveys_emptyElement (h : Announces scope t e name attributes) (hvalue : e.value = none) :
    Conveys scope (emptyElement name attributes) [.mk 0 e []] := by
  have hall := h.conveys_single
  rw [← hvalue] at hall
  exact hall

end Xml.Announces

/-! ## Labels of messages -/

/-- In a scope the label can be used for elements of a namespace. -/
structure Speaks (scope : Scope) (label ns : String) : Prop where
  /-- The scope is sound. -/
  sound : scope.Sound
  /-- The label, if there is one, can stand in front of a name. -/
  label_spec : label = "" ∨ Xml.isName label = true ∧ label ≠ "xmlns"
  /-- It means the namespace. -/
  means : scope.means label = some ns
  /-- The namespace is not that of declarations. -/
  ns_ne : ns ≠ nsXmlns

/-- A label that a message may declare for a namespace, which is written as it is. -/
structure Declarable (label ns : String) : Prop where
  /-- The label is a name. -/
  isName : Xml.isName label = true
  /-- It is not reserved. -/
  ne_xml : label ≠ "xml"
  /-- It is not that of declarations. -/
  ne_xmlns : label ≠ "xmlns"
  /-- The namespace is not empty. -/
  ns_ne_empty : ns ≠ ""
  /-- The namespace is not that of declarations. -/
  ns_ne : ns ≠ nsXmlns
  /-- The namespace holds no markup. -/
  escape : Xml.escape true ns.toList = ns.toList

instance (label ns : String) : Decidable (Declarable label ns) :=
  decidable_of_iff
    (Xml.isName label = true ∧ label ≠ "xml" ∧ label ≠ "xmlns" ∧ ns ≠ "" ∧ ns ≠ nsXmlns ∧
      Xml.escape true ns.toList = ns.toList)
    ⟨fun h => ⟨h.1, h.2.1, h.2.2.1, h.2.2.2.1, h.2.2.2.2.1, h.2.2.2.2.2⟩,
      fun h => ⟨h.isName, h.ne_xml, h.ne_xmlns, h.ns_ne_empty, h.ns_ne, h.escape⟩⟩

/-- The tag of an element of a message: it binds `m`, and its attributes have its label. -/
def partTag (scope : Scope) (m : Bindings) (label name : String)
    (attributes : List (String × String)) : Tag where
  name := Xml.withLabel label name
  attributes := attributes.map fun a => (Xml.withLabel label a.1, a.2)
  scope := m :: scope

/-- The element of a message, with attributes in its namespace. -/
def partElement (ns name : String) (attributes : List (String × String)) : Element where
  ns := some ns
  name := name
  attributes := attributes.map fun a => ⟨some ns, a.1, a.2⟩

namespace Speaks

variable {scope : Scope} {m : Bindings} {label ns : String}

/-- The tag of an element of a message announces the element. -/
theorem announces (h : Speaks (m :: scope) label ns) {name : String}
    {tagName : String} (hname : Xml.isName name = true ∧ tagName = Xml.withLabel label name)
    (attributes : List (String × String))
    (hattributes : ∀ a ∈ attributes, label ≠ "" ∧ Xml.isName a.1 = true)
    (hnodup : (attributes.map (·.1)).Nodup) {text : String}
    (htext : text.toList =
      (partTag scope m label name attributes).pairs.flatMap Xml.attributeChars) :
    Announces scope (partTag scope m label name attributes) (partElement ns name attributes) tagName
      text where
  name := hname.2.symm
  attributes := htext
  tells := by
    refine ⟨⟨label, rfl, h.means, h.label_spec.imp_right fun hlabel => ⟨hlabel.1, rfl⟩⟩, ?_,
      h.sound, m, rfl⟩
    refine List.forall₂_map_left_iff.2 (List.forall₂_map_right_iff.2 (List.forall₂_same.2 ?_))
    intro a ha
    obtain ⟨hne, haName⟩ := hattributes a ha
    obtain ⟨hlabel, hdeclares⟩ := h.label_spec.resolve_left hne
    exact .labelled a.2 haName hlabel hdeclares h.means
  isName := hname.1
  orderly := by
    refine ⟨List.nodup_nil, ?_, fun a ha hnone => ?_, fun a ha => ?_⟩
    · have hnames : (partElement ns name attributes).attributeNames
          = (attributes.map (·.1)).map fun name => (some ns, name) := by
        simp [partElement, Element.attributeNames, Function.comp_def]
      rw [hnames]
      exact hnodup.map fun _ _ heq => (Prod.mk.inj heq).2
    · obtain ⟨p, -, rfl⟩ := List.mem_map.1 ha
      cases hnone
    · obtain ⟨p, -, rfl⟩ := List.mem_map.1 ha
      exact fun heq => h.ns_ne (Option.some.inj heq)

/-- The label means the same inside an element that binds another one, or none. -/
theorem inside (h : Speaks scope label ns)
    (hm : m.labels.Nodup ∧ ∀ l ∈ m.labels, Xml.isLabel l = true) (hfree : m.ns? label = none) :
    Speaks (m :: scope) label ns where
  sound := List.forall_mem_cons.2 ⟨hm, h.sound⟩
  label_spec := h.label_spec
  means := by
    rw [Scope.means, Scope.ns?_cons, hfree, Option.none_or]
    exact h.means
  ns_ne := h.ns_ne

/-- A label speaks for the namespace that an element binds it to. -/
theorem declared (h : Declarable label ns) (hscope : scope.Sound) :
    Speaks (⟨[⟨label, ns⟩]⟩ :: scope) label ns where
  sound := by
    have hlabel : Xml.isLabel label = true :=
      Xml.isLabel_iff.2 (Or.inr ⟨h.isName, h.ne_xml, h.ne_xmlns⟩)
    exact List.forall_mem_cons.2
      ⟨⟨List.nodup_singleton _, List.forall_mem_singleton.2 hlabel⟩, hscope⟩
  label_spec := Or.inr ⟨h.isName, h.ne_xmlns⟩
  means := by
    refine Scope.means_of_ns? h.ne_xml h.ns_ne_empty ?_
    rw [Scope.ns?_cons]
    simp [Bindings.ns?]
  ns_ne := h.ns_ne

/-- Names without label speak for the namespace that an element binds as the default one. -/
theorem default (hscope : scope.Sound) (hns : ns ≠ "" ∧ ns ≠ nsXmlns) :
    Speaks (⟨[⟨"", ns⟩]⟩ :: scope) "" ns where
  sound := List.forall_mem_cons.2 ⟨⟨List.nodup_singleton _,
    List.forall_mem_singleton.2 (by decide : Xml.isLabel "" = true)⟩, hscope⟩
  label_spec := Or.inl rfl
  means := by
    refine Scope.means_of_ns? (by decide) hns.1 ?_
    rw [Scope.ns?_cons]
    simp [Bindings.ns?]
  ns_ne := hns.2

/-- An element that binds nothing conveys in its scope what is conveyed around it. -/
theorem conveys_unbound {content : String} {bs : List Branch} (h : Conveys scope content bs) :
    Conveys (.empty :: scope) content bs := by
  refine h.mono fun label _ => ?_
  rw [Scope.ns?_cons]
  rfl

section Elements

variable (h : Speaks scope label ns) {name tagName : String}
  (hname : Xml.isName name = true ∧ tagName = Xml.withLabel label name)
include h hname

/-- The tag of an element that binds nothing announces the element. -/
theorem announces_unbound (attributes : List (String × String))
    (hattributes : ∀ a ∈ attributes, label ≠ "" ∧ Xml.isName a.1 = true)
    (hnodup : (attributes.map (·.1)).Nodup) {text : String}
    (htext : text.toList = (attributes.map fun a => (Xml.withLabel label a.1, a.2)).flatMap
      Xml.attributeChars) :
    Announces scope (partTag scope .empty label name attributes) (partElement ns name attributes)
      tagName text := by
  have hinside : Speaks (.empty :: scope) label ns := h.inside (by decide) rfl
  exact hinside.announces hname attributes hattributes hnodup htext

/-- The tag of an element without attributes announces the element. -/
theorem announces_bare :
    Announces scope (partTag scope .empty label name []) (partElement ns name []) tagName "" :=
  h.announces_unbound hname [] nofun List.nodup_nil rfl

/-- An element that binds nothing conveys itself with what its content conveys. -/
theorem conveys_parts {content : String} {bs : List Branch} (hcontent : Conveys scope content bs) :
    Conveys scope (elementOf tagName "" content) [.ofParts ns name bs] :=
  (h.announces_bare hname).conveys_elementOf rfl (conveys_unbound hcontent)

/-- An element with an escaped text conveys itself with what is read of the text. -/
theorem conveys_text (text : String) :
    Conveys scope (elementOf tagName "" (Xml.escapeText text)) [.ofText ns name text] :=
  (h.announces_bare hname).conveys_elementOf_text text

/-- An element without content conveys itself. -/
theorem conveys_empty : Conveys scope (emptyElement tagName "") [.ofParts ns name []] :=
  (h.announces_bare hname).conveys_emptyElement rfl

/-- An element with a number conveys itself with the number. -/
theorem conveys_number (n : Nat) :
    Conveys scope (elementOf tagName "" (toString n)) [.ofText ns name (toString n)] := by
  have hescape : Xml.escapeText (toString n) = toString n := by
    rw [Xml.escapeText, Xml.escape_decimal, String.ofList_toList]
  have htext := h.conveys_text hname (toString n)
  rwa [hescape] at htext

omit hname in
/-- The tag of a filter of a type announces the filter. -/
theorem announces_filter (hlabel : label ≠ "") (htag : tagName = Xml.withLabel label "filter")
    (type : String) {text : String}
    (htext : text.toList = Xml.attributeChars (Xml.withLabel label "type", type)) :
    Announces scope (partTag scope .empty label "filter" [("type", type)])
      (partElement ns "filter" [("type", type)]) tagName text :=
  h.announces_unbound ⟨by decide, htag⟩ _
    (List.forall_mem_singleton.2 ⟨hlabel, (by decide : Xml.isName "type" = true)⟩)
    (List.nodup_singleton _) (by simpa using htext)

/-- An element with a text, if there is one, conveys the part of the text. -/
theorem conveys_optionalText (text : Option String) :
    Conveys scope (Terms.optionalText tagName text) (optionalParts ns name text) := by
  cases text with
  | none => exact Xml.conveys_nil scope
  | some s => exact h.conveys_text hname s

end Elements

section Declarations

variable (h : Declarable label ns) (hscope : scope.Sound) {name tagName : String}
  (hname : Xml.isName name = true ∧ tagName = Xml.withLabel label name)
include h hscope hname

/-- The tag of an element that declares its own label announces the element. -/
theorem announces_declares :
    Announces scope (partTag scope ⟨[⟨label, ns⟩]⟩ label name []) (partElement ns name []) tagName
      (Terms.declares label ns) := by
  refine (declared h hscope).announces hname [] nofun List.nodup_nil ?_
  have hdeclaration : (Binding.mk label ns).declaration = "xmlns:" ++ label := by
    have hne : (label == "") = false := by simpa using Xml.ne_empty_of_isName h.isName
    rw [Binding.declaration, Binding.isDefault, hne]
    rfl
  have hpairs : (partTag scope ⟨[⟨label, ns⟩]⟩ label name []).pairs =
      [("xmlns:" ++ label, ns)] := by
    rw [← hdeclaration]
    rfl
  rw [hpairs]
  simp [Terms.declares, Xml.attributeChars, h.escape]

/-- An element that declares its own label conveys itself with what its content conveys. -/
theorem conveys_declares {content : String} {bs : List Branch}
    (hcontent : Conveys (⟨[⟨label, ns⟩]⟩ :: scope) content bs) :
    Conveys scope (elementOf tagName (Terms.declares label ns) content) [.ofParts ns name bs] :=
  (announces_declares h hscope hname).conveys_elementOf rfl hcontent

end Declarations

/-- An element that binds a label leaves it at that there is no default namespace. -/
theorem default_inside (hlabel : label ≠ "") (hdefault : scope.ns? "" = none) :
    Scope.ns? (⟨[⟨label, ns⟩]⟩ :: scope) "" = none := by
  have hfree : Bindings.ns? ⟨[⟨label, ns⟩]⟩ "" = none := by simp [Bindings.ns?, hlabel]
  rw [Scope.ns?_cons, hfree, hdefault]
  rfl

end Speaks

/-! ## Selected nodes -/

/-- XML can carry the names in the selected nodes, with the default bindings in their newest
state. -/
def Selection.Nameable (defaults : Registry) (s : Selection) : Prop :=
  s.tree.Orderly ∧ ∀ id ∈ s.nodes, (s.tree.refresh defaults).Nameable id

namespace Terms

/-- What is there for a selection: what is kept of its nodes for the peer, their values as they are
read. -/
def kept (t : Terms) (s : Selection) : List Branch :=
  s.nodes.flatMap fun id => (s.tree.refresh t.defaults).kept id { peer := some t.capabilities }

variable {t : Terms} {scope : Scope} {text : String}

/-- Encoded nodes convey what is kept of them. -/
theorem conveys_encode (hdefault : scope.ns? "" = none) {s : Selection}
    (hs : s.Nameable t.defaults) (h : t.encode s = .ok text) : Conveys scope text (t.kept s) := by
  obtain ⟨tree, ids⟩ := s
  obtain ⟨horderly, hids⟩ := hs
  unfold encode at h
  unfold kept
  dsimp only at horderly hids h ⊢
  induction ids generalizing text with
  | nil =>
    obtain rfl := Except.ok.inj h
    exact Xml.conveys_nil scope
  | cons id ids ih =>
    obtain ⟨hid, hids⟩ := List.forall_mem_cons.1 hids
    unfold encodeAll at h
    split at h
    · cases h
    · next first hfirst =>
      split at h
      · cases h
      · next others hothers =>
        obtain rfl := Except.ok.inj h
        have hone := (hid.conveys_encode horderly hfirst).anywhere hdefault
        exact hone.append (ih hothers hids)

/-! ## Parts of bodies -/

/-- The label of partial locks may be declared. -/
theorem declarable_pl : Declarable "pl" nsPartialLock := by decide +kernel

/-- The label of notifications may be declared. -/
theorem declarable_ncn : Declarable "ncn" nsNotification := by decide +kernel

/-- The label of actions may be declared. -/
theorem declarable_nca : Declarable "nca" nsActions := by decide +kernel

/-- The label of transactions may be declared. -/
theorem declarable_nctr : Declarable "nctr" nsTransactions := by decide +kernel

section Bodies

variable (hnc : Speaks scope "nc" nsNetconf) (hdefault : scope.ns? "" = none)

section Parts

include hnc

/-- The element of a datastore conveys its part. -/
theorem conveys_datastoreText (d : Datastore) : Conveys scope (datastoreText d) [d.part] :=
  hnc.conveys_empty (by cases d <;> decide)

/-- The element of a URL conveys the URL. -/
theorem conveys_urlText {url : String} (h : t.urlText url = .ok text) :
    Conveys scope text [.ofText nsNetconf "url" url] := by
  obtain ⟨_, -, h⟩ := bind_eq_ok.1 h
  obtain rfl := Except.ok.inj h
  exact hnc.conveys_text (by decide) url

/-- The element of a target conveys its part. -/
theorem conveys_targetText {target : Target} (h : t.targetText target = .ok text) :
    Conveys scope text [target.part] := by
  cases target with
  | datastore d =>
    obtain ⟨_, -, h⟩ := bind_eq_ok.1 h
    obtain rfl := Except.ok.inj h
    exact conveys_datastoreText hnc d
  | url url => exact conveys_urlText hnc h

/-- The options of an edit convey their parts. -/
theorem conveys_optionsText (h : t.optionsText = .ok text) :
    Conveys scope text t.options.parts := by
  unfold optionsText at h
  obtain ⟨-, h⟩ := of_guard h
  obtain ⟨-, h⟩ := of_guard h
  obtain rfl := Except.ok.inj h
  exact ((hnc.conveys_optionalText (by decide) _).append
    (hnc.conveys_optionalText (by decide) _)).append (hnc.conveys_optionalText (by decide) _)

/-- The target of an edit or a lock conveys its part. -/
theorem conveys_targetElement (d : Datastore) :
    Conveys scope (elementOf "nc:target" "" (datastoreText d))
      [.ofParts nsNetconf "target" [d.part]] :=
  hnc.conveys_parts (by decide) (conveys_datastoreText hnc d)

/-- The body of an edit conveys its parts. -/
theorem conveys_editText {target : Datastore} {config : String} {part : Branch}
    (hconfig : Conveys scope config [part]) (h : t.editText target config = .ok text) :
    Conveys scope text (t.options.editParts target part) := by
  obtain ⟨_, -, h⟩ := bind_eq_ok.1 h
  obtain ⟨options, hoptions, h⟩ := bind_eq_ok.1 h
  obtain rfl := Except.ok.inj h
  exact hnc.conveys_parts (by decide)
    (((conveys_targetElement hnc target).append (conveys_optionsText hnc hoptions)).append hconfig)

/-- A lock operation on a whole datastore conveys its parts. -/
theorem conveys_lockText {tagName name : String}
    (hname : Xml.isName name = true ∧ tagName = Xml.withLabel "nc" name) {target : Datastore}
    (h : t.lockText tagName target = .ok text) : Conveys scope text (target.lockParts name) := by
  obtain ⟨_, -, h⟩ := bind_eq_ok.1 h
  obtain rfl := Except.ok.inj h
  exact hnc.conveys_parts hname (conveys_targetElement hnc target)

/-- A filter in the full path language conveys its expression. -/
theorem conveys_xpathFilter (expression : String) :
    Conveys scope (emptyElement "nc:filter"
        (" nc:type=\"xpath\" nc:select=\"" ++ Xml.escapeAttribute expression ++ "\""))
      [.ofFilter nsNetconf "xpath" [⟨some nsNetconf, "select", expression⟩] none []] := by
  have hnames : ∀ a ∈ [("type", "xpath"), ("select", expression)],
      "nc" ≠ "" ∧ Xml.isName a.1 = true := by
    simp only [List.forall_mem_cons]
    decide
  have htext : (" nc:type=\"xpath\" nc:select=\"" ++ Xml.escapeAttribute expression ++ "\"").toList
      = ([("type", "xpath"), ("select", expression)].map fun a =>
          (Xml.withLabel "nc" a.1, a.2)).flatMap Xml.attributeChars := by
    simp [Xml.attributeChars, Xml.withLabel, Xml.escapeAttribute, Xml.escape, Xml.escapeChar]
  have hannounces := hnc.announces_unbound (by decide : Xml.isName "filter" = true ∧
    "nc:filter" = Xml.withLabel "nc" "filter") _ hnames (by simp) htext
  exact hannounces.conveys_emptyElement rfl

end Parts

include hnc hdefault

/-- The element of a source conveys its part. -/
theorem conveys_sourceText {source : Source}
    (hnameable : ∀ s ∈ source.selection?.toList, s.Nameable t.defaults)
    (h : t.sourceText source = .ok text) : Conveys scope text [source.part t.kept] := by
  cases source with
  | datastore d =>
    obtain ⟨_, -, h⟩ := bind_eq_ok.1 h
    obtain rfl := Except.ok.inj h
    exact conveys_datastoreText hnc d
  | url url => exact conveys_urlText hnc h
  | config s =>
    obtain ⟨config, hconfig, h⟩ := bind_eq_ok.1 h
    obtain rfl := Except.ok.inj h
    exact hnc.conveys_parts (by decide)
      (conveys_encode hdefault (hnameable s List.mem_cons_self) hconfig)

/-- The filter of a retrieval conveys its parts. -/
theorem conveys_filterText {filter : Filter}
    (hnameable : ∀ s ∈ filter.selection?.toList, s.Nameable t.defaults)
    (h : t.filterText filter = .ok text) : Conveys scope text (filter.parts t.kept) := by
  cases filter with
  | all =>
    obtain rfl := Except.ok.inj h
    exact Xml.conveys_nil scope
  | subtree s =>
    obtain ⟨nodes, hnodes, h⟩ := bind_eq_ok.1 h
    obtain rfl := Except.ok.inj h
    have hinside := conveys_encode hdefault (hnameable s List.mem_cons_self) hnodes
    have hannounces := hnc.announces_filter (by decide) (by decide : "nc:filter" = _) "subtree"
      (by decide : " nc:type=\"subtree\"".toList = _)
    exact hannounces.conveys_elementOf rfl (Speaks.conveys_unbound hinside)
  | xpath expression =>
    obtain ⟨_, -, h⟩ := bind_eq_ok.1 h
    obtain rfl := Except.ok.inj h
    exact conveys_xpathFilter hnc expression

omit hnc in
/-- The filter of a subscription conveys its parts. -/
theorem conveys_subscriptionFilterText (hncn : Speaks scope "ncn" nsNotification)
    {filter : Filter} (hnameable : ∀ s ∈ filter.selection?.toList, s.Nameable t.defaults)
    (h : t.subscriptionFilterText filter = .ok text) :
    Conveys scope text (filter.subscriptionParts t.kept) := by
  cases filter with
  | all =>
    obtain rfl := Except.ok.inj h
    exact Xml.conveys_nil scope
  | subtree s =>
    obtain ⟨nodes, hnodes, h⟩ := bind_eq_ok.1 h
    obtain rfl := Except.ok.inj h
    have hinside := conveys_encode hdefault (hnameable s List.mem_cons_self) hnodes
    have hannounces := hncn.announces_filter (by decide) (by decide : "ncn:filter" = _) "subtree"
      (by decide : " ncn:type=\"subtree\"".toList = _)
    exact hannounces.conveys_elementOf rfl (Speaks.conveys_unbound hinside)
  | xpath expression =>
    obtain ⟨_, -, h⟩ := bind_eq_ok.1 h
    obtain rfl := Except.ok.inj h
    have hannounces := hncn.announces_filter (by decide) (by decide : "ncn:filter" = _) "xpath"
      (by decide : " ncn:type=\"xpath\"".toList = _)
    exact hannounces.conveys_elementOf_text expression

end Bodies

/-- What asks for the streams of notifications conveys its parts. -/
theorem conveys_streams (h : t.encode t.streamsSelection = .ok text) :
    Conveys [] text streamsParts := by
  obtain rfl := Except.ok.inj (encode_streamsSelection.symm.trans h)
  have htop : Speaks streamsTopTag.scope "" nsNotificationStreams :=
    Speaks.default (fun _ hm => nomatch hm) (by decide)
  have hbelow : Speaks streamsChildTag.scope "" nsNotificationStreams := htop.inside (by decide) rfl
  have hchild : Announces streamsTopTag.scope streamsChildTag
      (partElement nsNotificationStreams "streams" []) streamsChildTag.name
      streamsChildTag.attributesText :=
    hbelow.announces (by decide) [] nofun List.nodup_nil String.toList_ofList
  have hparent : Announces [] streamsTopTag (partElement nsNotificationStreams "netconf" [])
      streamsTopTag.name streamsTopTag.attributesText :=
    htop.announces (by decide) [] nofun List.nodup_nil String.toList_ofList
  let l : Xml.Layout := { peer := some t.capabilities }
  have hone := Xml.conveys_elementText (l := l) none (fun _ => rfl) (Xml.conveys_nil _) hchild 1
  rw [Xml.asHeard_eq_self rfl] at hone
  have hinside := ((Xml.conveys_lineEnd l _).append hone).append (Xml.conveys_nil _)
  have hall := Xml.conveys_elementText (l := l) (some _) nofun hinside hparent 0
  rw [Xml.asHeard_eq_self rfl] at hall
  exact hall.append (Xml.conveys_nil _)

/-! ## Bodies -/

/-- The body of a request conveys the parts of its command. -/
theorem conveys_body (hnc : Speaks scope "nc" nsNetconf) (hdefault : scope.ns? "" = none)
    {c : Command} (hnameable : ∀ s ∈ c.selections, s.Nameable t.defaults)
    (h : t.body c = .ok text) : Conveys scope text (c.parts t.options t.kept) := by
  cases c with
  | get filter =>
    obtain ⟨filterText, hfilter, h⟩ := bind_eq_ok.1 h
    obtain rfl := Except.ok.inj h
    exact hnc.conveys_parts (by decide) (conveys_filterText hnc hdefault hnameable hfilter)
  | getConfig source filter =>
    obtain ⟨_, -, h⟩ := bind_eq_ok.1 h
    obtain ⟨filterText, hfilter, h⟩ := bind_eq_ok.1 h
    obtain rfl := Except.ok.inj h
    have hsource : Conveys scope (elementOf "nc:source" "" (datastoreText source))
        [.ofParts nsNetconf "source" [source.part]] :=
      hnc.conveys_parts (by decide) (conveys_datastoreText hnc source)
    exact hnc.conveys_parts (by decide)
      (hsource.append (conveys_filterText hnc hdefault hnameable hfilter))
  | editConfig target config =>
    obtain ⟨configText, hconfig, h⟩ := bind_eq_ok.1 h
    have hencoded := conveys_encode hdefault (hnameable config List.mem_cons_self) hconfig
    exact conveys_editText hnc (hnc.conveys_parts (by decide) hencoded) h
  | editConfigUrl target url =>
    obtain ⟨urlText, hurl, h⟩ := bind_eq_ok.1 h
    exact conveys_editText hnc (conveys_urlText hnc hurl) h
  | copyConfig source target =>
    obtain ⟨targetText, htarget, h⟩ := bind_eq_ok.1 h
    obtain ⟨sourceText, hsource, h⟩ := bind_eq_ok.1 h
    obtain rfl := Except.ok.inj h
    have hto : Conveys scope (elementOf "nc:target" "" targetText)
        [.ofParts nsNetconf "target" [target.part]] :=
      hnc.conveys_parts (by decide) (conveys_targetText hnc htarget)
    have hfrom : Conveys scope (elementOf "nc:source" "" sourceText)
        [.ofParts nsNetconf "source" [source.part t.kept]] :=
      hnc.conveys_parts (by decide) (conveys_sourceText hnc hdefault hnameable hsource)
    exact hnc.conveys_parts (by decide) (hto.append hfrom)
  | deleteConfig target =>
    unfold body at h
    obtain ⟨-, h⟩ := of_guard h
    obtain ⟨targetText, htarget, h⟩ := bind_eq_ok.1 h
    obtain rfl := Except.ok.inj h
    exact hnc.conveys_parts (by decide)
      (hnc.conveys_parts (by decide) (conveys_targetText hnc htarget))
  | lock target => exact conveys_lockText hnc (by decide) h
  | unlock target => exact conveys_lockText hnc (by decide) h
  | partialLock selects =>
    obtain ⟨_, -, h⟩ := bind_eq_ok.1 h
    obtain rfl := Except.ok.inj h
    refine Speaks.conveys_declares declarable_pl hnc.sound (by decide) ?_
    exact Xml.conveys_join selects fun s _ =>
      (Speaks.declared declarable_pl hnc.sound).conveys_text (by decide) s
  | partialUnlock lockId =>
    obtain ⟨_, -, h⟩ := bind_eq_ok.1 h
    obtain rfl := Except.ok.inj h
    exact Speaks.conveys_declares declarable_pl hnc.sound (by decide)
      ((Speaks.declared declarable_pl hnc.sound).conveys_number (by decide) lockId)
  | commit =>
    obtain ⟨_, -, h⟩ := bind_eq_ok.1 h
    obtain rfl := Except.ok.inj h
    exact hnc.conveys_empty (by decide)
  | confirmedCommit seconds =>
    obtain ⟨_, -, h⟩ := bind_eq_ok.1 h
    obtain ⟨_, -, h⟩ := bind_eq_ok.1 h
    obtain rfl := Except.ok.inj h
    have hconfirmed : Conveys scope (emptyElement "nc:confirmed" "")
        [.ofParts nsNetconf "confirmed" []] := hnc.conveys_empty (by decide)
    exact hnc.conveys_parts (by decide)
      (hconfirmed.append (hnc.conveys_number (by decide) seconds))
  | discardChanges =>
    obtain ⟨_, -, h⟩ := bind_eq_ok.1 h
    obtain rfl := Except.ok.inj h
    exact hnc.conveys_empty (by decide)
  | validate source =>
    obtain ⟨_, -, h⟩ := bind_eq_ok.1 h
    obtain ⟨sourceText, hsource, h⟩ := bind_eq_ok.1 h
    obtain rfl := Except.ok.inj h
    exact hnc.conveys_parts (by decide)
      (hnc.conveys_parts (by decide) (conveys_sourceText hnc hdefault hnameable hsource))
  | createSubscription stream filter start stop =>
    obtain ⟨_, -, h⟩ := bind_eq_ok.1 h
    obtain ⟨filterText, hfilter, h⟩ := bind_eq_ok.1 h
    obtain rfl := Except.ok.inj h
    refine Speaks.conveys_declares declarable_ncn hnc.sound (by decide) ?_
    have hncn := Speaks.declared declarable_ncn hnc.sound
    have hinside := conveys_subscriptionFilterText
      (Speaks.default_inside (by decide : "ncn" ≠ "") hdefault) hncn hnameable hfilter
    exact (((hncn.conveys_optionalText (by decide) stream).append hinside).append
      (hncn.conveys_optionalText (by decide) start)).append
      (hncn.conveys_optionalText (by decide) stop)
  | getStreams =>
    obtain ⟨filterText, hfilter, h⟩ := bind_eq_ok.1 h
    obtain rfl := Except.ok.inj h
    obtain ⟨nodes, hnodes, hfilter⟩ := bind_eq_ok.1 hfilter
    obtain rfl := Except.ok.inj hfilter
    have hannounces := hnc.announces_filter (by decide) (by decide : "nc:filter" = _) "subtree"
      (by decide : " nc:type=\"subtree\"".toList = _)
    have hinside := Speaks.conveys_unbound ((conveys_streams hnodes).anywhere hdefault)
    exact hnc.conveys_parts (by decide) (hannounces.conveys_elementOf rfl hinside)
  | action tree node =>
    obtain ⟨data, hdata, h⟩ := bind_eq_ok.1 h
    obtain rfl := Except.ok.inj h
    refine Speaks.conveys_declares declarable_nca hnc.sound (by decide) ?_
    have hencoded : Conveys (⟨[⟨"nca", nsActions⟩]⟩ :: scope) data (t.kept ⟨tree, [node]⟩) :=
      conveys_encode (Speaks.default_inside (by decide) hdefault)
        (hnameable _ List.mem_cons_self) hdata
    exact (Speaks.declared declarable_nca hnc.sound).conveys_parts (by decide) hencoded
  | rpc tree node => exact conveys_encode hdefault (hnameable _ List.mem_cons_self) h
  | startTransaction target =>
    obtain rfl := Except.ok.inj h
    refine Speaks.conveys_declares declarable_nctr hnc.sound (by decide) ?_
    have hinside := conveys_datastoreText (hnc.inside (m := ⟨[⟨"nctr", nsTransactions⟩]⟩)
      (by decide) rfl) target
    exact (Speaks.declared declarable_nctr hnc.sound).conveys_parts (by decide) hinside
  | transaction step =>
    obtain rfl := Except.ok.inj h
    exact (Speaks.announces_declares declarable_nctr hnc.sound
      (by cases step <;> decide)).conveys_emptyElement rfl
  | closeSession =>
    obtain rfl := Except.ok.inj h
    exact hnc.conveys_empty (by decide)
  | killSession sessionId =>
    unfold body at h
    obtain ⟨-, h⟩ := of_guard h
    obtain rfl := Except.ok.inj h
    exact hnc.conveys_parts (by decide) (hnc.conveys_number (by decide) sessionId)

end Terms

end Netconf
