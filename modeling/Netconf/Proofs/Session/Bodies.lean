import Netconf.Proofs.Session.Courses
import Netconf.Proofs.Session.Gates
import Netconf.Proofs.Xml.Guarded

/-!
# Requests hold no marker

Whatever texts a command is given, its request is sealed (`sealed_request`), and so is the hello of
a client (`sealed_helloText`): texts are escaped, numbers are digits, and everything else in a
request is the protocol's own. Only the nodes that a command takes (`Command.selections`) must have
guarded names, since names are written as they are.

Bodies are put together from elements, so the proofs follow `elementOf`: it is sealed as soon as its
name and attributes are sealed and its content is tame.
-/

namespace Netconf

open Text (Tame Sealed)

/-- The nodes that a filter describes, if it describes any. -/
def Filter.selection? : Filter → Option Selection
  | .subtree s => some s
  | _ => none

/-- The nodes that a source consists of, if it consists of nodes. -/
def Source.selection? : Source → Option Selection
  | .config s => some s
  | _ => none

/-- The nodes that a command takes. -/
def Command.selections : Command → List Selection
  | get filter => filter.selection?.toList
  | getConfig _ filter => filter.selection?.toList
  | editConfig _ config => [config]
  | copyConfig source _ => source.selection?.toList
  | validate source => source.selection?.toList
  | createSubscription _ filter _ _ => filter.selection?.toList
  | action tree node => [⟨tree, [node]⟩]
  | rpc tree node => [⟨tree, [node]⟩]
  | _ => []

/-- Selected nodes have guarded names, with the default bindings in their newest state. -/
def Selection.Guarded (defaults : Registry) (s : Selection) : Prop :=
  ∀ id ∈ s.nodes, (s.tree.refresh defaults).GuardedAt id

/-! ## Elements of bodies -/

/-- An escaped text is tame. -/
theorem tame_escapeText (s : String) : Tame (Xml.escapeText s).toList := by
  rw [Xml.escapeText, String.toList_ofList]
  exact Text.tame_escape false _

/-- An escaped value of an attribute is tame. -/
theorem tame_escapeAttribute (s : String) : Tame (Xml.escapeAttribute s).toList := by
  rw [Xml.escapeAttribute, String.toList_ofList]
  exact Text.tame_escape true _

/-- Sealed texts one behind the other are sealed. -/
theorem sealed_append {s t : String} (hs : Sealed s.toList) (ht : Sealed t.toList) :
    Sealed (s ++ t).toList := by
  rw [String.toList_append]
  exact hs.append ht

/-- Any number of sealed texts one behind the other are sealed. -/
theorem sealed_join {texts : List String} (h : ∀ s ∈ texts, Sealed s.toList) :
    Sealed (String.join texts).toList := by
  induction texts with
  | nil => decide
  | cons s texts ih =>
    obtain ⟨hs, htexts⟩ := List.forall_mem_cons.1 h
    rw [String.join_cons]
    exact sealed_append hs (ih htexts)

/-- A tame value is sealed by the quote behind it. -/
theorem sealed_quoted {start value : String} (hstart : Sealed start.toList)
    (hvalue : Tame value.toList) : Sealed (start ++ value ++ "\"").toList := by
  rw [String.toList_append, String.toList_append]
  exact (hstart.tame.append hvalue).append_sealed (by decide) (by decide)

/-- A start tag with sealed attributes is sealed. -/
theorem sealed_startTag {name attributes : String} (hname : Text.Guarded name)
    (hattributes : Sealed attributes.toList) :
    Sealed ("<" ++ name ++ attributes ++ ">").toList := by
  have hclosed := (hname.sealed.append hattributes).close
  simpa [String.toList_append] using hclosed

/-- An element is sealed if its content is tame. -/
theorem sealed_elementOf {name attributes content : String} (hname : Text.Guarded name)
    (hattributes : Sealed attributes.toList) (hcontent : Tame content.toList) :
    Sealed (elementOf name attributes content).toList := by
  -- the content may end with a bracket, but the end tag does not begin with the closing sign
  have hend : Sealed ("</" ++ name ++ ">").toList := by
    have hslash : Sealed ['/'] := by decide
    have hclosed := (hslash.append hname.sealed).close
    simpa [String.toList_append] using hclosed
  have hstart := (sealed_startTag hname hattributes).tame.append hcontent
  have hall := hstart.append_sealed hend (by simp)
  simpa [elementOf, String.toList_append] using hall

/-- An element without content is sealed. -/
theorem sealed_emptyElement {name attributes : String} (hname : Text.Guarded name)
    (hattributes : Sealed attributes.toList) :
    Sealed (emptyElement name attributes).toList := by
  have hsign : Sealed ['<'] := by decide
  have hall := ((hsign.append hname.sealed).append hattributes).append
    (by decide : Sealed ['/', '>'])
  simpa [emptyElement, String.toList_append] using hall

namespace Terms

/-- The declaration of a label is sealed, if its namespace is tame. -/
theorem sealed_declares {label ns : String} (hlabel : Text.Guarded label) (hns : Tame ns.toList) :
    Sealed (declares label ns).toList := by
  have hstart : Sealed " xmlns:".toList := by decide
  have hequals : Sealed "=\"".toList := by decide
  exact sealed_quoted (sealed_append (sealed_append hstart hlabel.sealed) hequals) hns

/-- The element of a datastore is sealed. -/
theorem sealed_datastoreText (d : Datastore) : Sealed (datastoreText d).toList :=
  sealed_emptyElement (by cases d <;> decide) (by decide)

/-- An element with a text is sealed. -/
theorem sealed_optionalText {name : String} (hname : Text.Guarded name) (text : Option String) :
    Sealed (optionalText name text).toList := by
  cases text with
  | none => exact (by decide : Sealed "".toList)
  | some s => exact sealed_elementOf hname (by decide) (tame_escapeText s)

variable {t : Terms} {text : String}

/-- Encoded nodes with guarded names are sealed. -/
theorem sealed_encodeAll {tree : Tree} {ids : List NodeId}
    (hids : ∀ id ∈ ids, (tree.refresh t.defaults).GuardedAt id)
    (h : t.encodeAll tree ids = .ok text) : Sealed text.toList := by
  induction ids generalizing text with
  | nil =>
    obtain rfl := Except.ok.inj h
    decide
  | cons id ids ih =>
    obtain ⟨hid, hids⟩ := List.forall_mem_cons.1 hids
    unfold encodeAll at h
    split at h
    · cases h
    · next first hfirst =>
      split at h
      · cases h
      · next others hothers =>
        obtain rfl := Except.ok.inj h
        exact sealed_append (hid.sealed_encode hfirst) (ih hids hothers)

/-- A selection with guarded names is sealed. -/
theorem sealed_encode {s : Selection} (hs : s.Guarded t.defaults) (h : t.encode s = .ok text) :
    Sealed text.toList :=
  sealed_encodeAll hs h

/-- The element of a URL is sealed. -/
theorem sealed_urlText {url : String} (h : t.urlText url = .ok text) : Sealed text.toList := by
  obtain ⟨_, -, h⟩ := bind_eq_ok.1 h
  obtain rfl := Except.ok.inj h
  exact sealed_elementOf (by decide) (by decide) (tame_escapeText url)

/-- The element of a target is sealed. -/
theorem sealed_targetText {target : Target} (h : t.targetText target = .ok text) :
    Sealed text.toList := by
  cases target with
  | datastore d =>
    obtain ⟨_, -, h⟩ := bind_eq_ok.1 h
    obtain rfl := Except.ok.inj h
    exact sealed_datastoreText d
  | url url => exact sealed_urlText h

/-- The element of a source is sealed. -/
theorem sealed_sourceText {source : Source}
    (hguarded : ∀ s ∈ source.selection?.toList, s.Guarded t.defaults)
    (h : t.sourceText source = .ok text) : Sealed text.toList := by
  cases source with
  | datastore d =>
    obtain ⟨_, -, h⟩ := bind_eq_ok.1 h
    obtain rfl := Except.ok.inj h
    exact sealed_datastoreText d
  | url url => exact sealed_urlText h
  | config s =>
    obtain ⟨config, hconfig, h⟩ := bind_eq_ok.1 h
    obtain rfl := Except.ok.inj h
    have hencoded := sealed_encode (hguarded s List.mem_cons_self) hconfig
    exact sealed_elementOf (by decide) (by decide) hencoded.tame

/-- The filter of a retrieval is sealed. -/
theorem sealed_filterText {filter : Filter}
    (hguarded : ∀ s ∈ filter.selection?.toList, s.Guarded t.defaults)
    (h : t.filterText filter = .ok text) : Sealed text.toList := by
  cases filter with
  | all =>
    obtain rfl := Except.ok.inj h
    decide
  | subtree s =>
    obtain ⟨nodes, hnodes, h⟩ := bind_eq_ok.1 h
    obtain rfl := Except.ok.inj h
    have hencoded := sealed_encode (hguarded s List.mem_cons_self) hnodes
    exact sealed_elementOf (by decide) (by decide) hencoded.tame
  | xpath expression =>
    obtain ⟨_, -, h⟩ := bind_eq_ok.1 h
    obtain rfl := Except.ok.inj h
    exact sealed_emptyElement (by decide)
      (sealed_quoted (by decide) (tame_escapeAttribute expression))

/-- The filter of a subscription is sealed. -/
theorem sealed_subscriptionFilterText {filter : Filter}
    (hguarded : ∀ s ∈ filter.selection?.toList, s.Guarded t.defaults)
    (h : t.subscriptionFilterText filter = .ok text) : Sealed text.toList := by
  cases filter with
  | all =>
    obtain rfl := Except.ok.inj h
    decide
  | subtree s =>
    obtain ⟨nodes, hnodes, h⟩ := bind_eq_ok.1 h
    obtain rfl := Except.ok.inj h
    have hencoded := sealed_encode (hguarded s List.mem_cons_self) hnodes
    exact sealed_elementOf (by decide) (by decide) hencoded.tame
  | xpath expression =>
    obtain ⟨_, -, h⟩ := bind_eq_ok.1 h
    obtain rfl := Except.ok.inj h
    exact sealed_elementOf (by decide) (by decide) (tame_escapeText expression)

/-- The options of an edit are sealed. -/
theorem sealed_optionsText (h : t.optionsText = .ok text) : Sealed text.toList := by
  unfold optionsText at h
  obtain ⟨-, h⟩ := of_guard h
  obtain ⟨-, h⟩ := of_guard h
  obtain rfl := Except.ok.inj h
  have hoperation := sealed_optionalText (by decide : Text.Guarded "nc:default-operation")
    (t.options.defaultOperation.map (·.name))
  have htest := sealed_optionalText (by decide : Text.Guarded "nc:test-option")
    (t.options.testOption.map (·.name))
  have herror := sealed_optionalText (by decide : Text.Guarded "nc:error-option")
    (t.options.errorOption.map (·.name))
  exact sealed_append (sealed_append hoperation htest) herror

/-- The target in a body is sealed. -/
theorem sealed_datastoreElement {name : String} (hname : Text.Guarded name) (d : Datastore) :
    Sealed (elementOf name "" (datastoreText d)).toList :=
  sealed_elementOf hname (by decide) (sealed_datastoreText d).tame

/-- The body of an edit is sealed if what is loaded is. -/
theorem sealed_editText {target : Datastore} {config : String} (hconfig : Sealed config.toList)
    (h : t.editText target config = .ok text) : Sealed text.toList := by
  obtain ⟨_, -, h⟩ := bind_eq_ok.1 h
  obtain ⟨options, hoptions, h⟩ := bind_eq_ok.1 h
  obtain rfl := Except.ok.inj h
  have htarget := sealed_datastoreElement (by decide : Text.Guarded "nc:target") target
  have hcontent := sealed_append (sealed_append htarget (sealed_optionsText hoptions)) hconfig
  exact sealed_elementOf (by decide) (by decide) hcontent.tame

/-- The body of a lock operation is sealed. -/
theorem sealed_lockText {name : String} (hname : Text.Guarded name) {target : Datastore}
    (h : t.lockText name target = .ok text) : Sealed text.toList := by
  obtain ⟨_, -, h⟩ := bind_eq_ok.1 h
  obtain rfl := Except.ok.inj h
  exact sealed_elementOf hname (by decide) (sealed_datastoreElement (by decide) target).tame

/-! ## The streams of notifications -/

/-- A node of which the data model says nothing is not left out. -/
theorem leavesOut_of_plain {l : Xml.Layout} {defaults : Bindings} {above : Lineage}
    {siblings : List Element} {e : Element} (h : Xml.revisionsOf above e = []) :
    Xml.leavesOut l defaults above siblings e = .ok false := by
  unfold Xml.leavesOut
  split
  · rfl
  · rw [h]
    rfl

/-- The top of the nodes that ask for the streams of notifications. It binds its namespace. -/
def streamsTop : Element where
  ns := some nsNotificationStreams
  name := "netconf"
  bindings := ⟨[⟨"", nsNotificationStreams⟩]⟩

/-- The node below it. -/
def streamsChild : Element where
  ns := some nsNotificationStreams
  name := "streams"

/-- The tag of the top, whatever the default bindings are. -/
def streamsTopTag : Xml.Tag where
  name := "netconf"
  attributes := []
  scope := [streamsTop.bindings]

/-- The tag of the node below it. -/
def streamsChildTag : Xml.Tag where
  name := "streams"
  attributes := []
  scope := [.empty, streamsTop.bindings]

/-- The labels that the nodes need are bound by the top, so their text does not depend on the
default bindings. -/
theorem encode_streamsSelection :
    let l : Xml.Layout := { peer := some t.capabilities }
    let below := Xml.lineEnd l ++ Xml.elementText l 1 streamsChildTag none none ++ ""
    t.encode t.streamsSelection
      = .ok (Xml.elementText l 0 streamsTopTag none (some below) ++ "") := by
  intro l below
  have hbranch : (t.streamsSelection.tree.refresh t.defaults).branch 0
      = .mk 0 streamsTop [.mk 1 streamsChild []] := rfl
  have hlineage : ((t.streamsSelection.tree.refresh t.defaults).lineage 0).tail = [] := rfl
  have htop : ∀ d, Xml.Tag.ofElement [] [] d streamsTop = streamsTopTag := fun _ => rfl
  have hchild : ∀ d, Xml.Tag.ofElement streamsTopTag.scope [streamsTop] d streamsChild
      = streamsChildTag := fun _ => rfl
  -- both nodes are written as they are, since no data model says anything of them
  have htext : (t.streamsSelection.tree.refresh t.defaults).encode 0 l
      = .ok (Xml.elementText l 0 streamsTopTag none (some below)) := by
    unfold Tree.encode
    rw [hbranch, hlineage]
    dsimp only
    rw [Xml.writeBranch, leavesOut_of_plain rfl]
    dsimp only
    rw [htop, Xml.writeAll, Xml.writeBranch, leavesOut_of_plain rfl]
    dsimp only
    rw [hchild, Xml.writeAll, Xml.writeAll]
    rfl
  have hone : t.encode t.streamsSelection = t.encodeAll t.streamsSelection.tree [0] := rfl
  rw [hone, encodeAll, htext, encodeAll]

/-- The filter for the streams of notifications is sealed. -/
theorem sealed_streams (h : t.encode t.streamsSelection = .ok text) : Sealed text.toList := by
  have hscope : ∀ label ∈ streamsTop.bindings.labels, Text.Guarded label := by decide
  have hempty : ∀ label ∈ Bindings.empty.labels, Text.Guarded label := by decide
  have htop : streamsTopTag.Guarded :=
    ⟨by decide, by decide, List.forall_mem_singleton.2 hscope⟩
  have hchild : streamsChildTag.Guarded :=
    ⟨by decide, by decide, List.forall_mem_cons.2 ⟨hempty, List.forall_mem_singleton.2 hscope⟩⟩
  obtain rfl := Except.ok.inj (encode_streamsSelection.symm.trans h)
  refine sealed_append (Xml.sealed_elementText htop 0 none fun c hc => ?_) (by decide)
  obtain rfl := Option.some.inj hc
  have hinside :
      Sealed (Xml.elementText { peer := some t.capabilities } 1 streamsChildTag none none).toList :=
    Xml.sealed_elementText hchild 1 none fun _ h => nomatch h
  exact sealed_append (sealed_append (Xml.sealed_lineEnd _) hinside) (by decide)

/-! ## Bodies -/

/-- The body of a request is sealed, if the nodes that its command takes have guarded names. -/
theorem sealed_body {c : Command} (hguarded : ∀ s ∈ c.selections, s.Guarded t.defaults)
    (h : t.body c = .ok text) : Sealed text.toList := by
  have hbare : Sealed "".toList := by decide
  cases c with
  | get filter =>
    obtain ⟨filterText, hfilter, h⟩ := bind_eq_ok.1 h
    obtain rfl := Except.ok.inj h
    exact sealed_elementOf (by decide) hbare (sealed_filterText hguarded hfilter).tame
  | getConfig source filter =>
    obtain ⟨_, -, h⟩ := bind_eq_ok.1 h
    obtain ⟨filterText, hfilter, h⟩ := bind_eq_ok.1 h
    obtain rfl := Except.ok.inj h
    have hsource := sealed_datastoreElement (by decide : Text.Guarded "nc:source") source
    exact sealed_elementOf (by decide) hbare
      (sealed_append hsource (sealed_filterText hguarded hfilter)).tame
  | editConfig target config =>
    obtain ⟨configText, hconfig, h⟩ := bind_eq_ok.1 h
    have hencoded := sealed_encode (hguarded config List.mem_cons_self) hconfig
    exact sealed_editText (sealed_elementOf (by decide) hbare hencoded.tame) h
  | editConfigUrl target url =>
    obtain ⟨urlText, hurl, h⟩ := bind_eq_ok.1 h
    exact sealed_editText (sealed_urlText hurl) h
  | copyConfig source target =>
    obtain ⟨targetText, htarget, h⟩ := bind_eq_ok.1 h
    obtain ⟨sourceText, hsource, h⟩ := bind_eq_ok.1 h
    obtain rfl := Except.ok.inj h
    have hto := sealed_elementOf (by decide : Text.Guarded "nc:target") hbare
      (sealed_targetText htarget).tame
    have hfrom := sealed_elementOf (by decide : Text.Guarded "nc:source") hbare
      (sealed_sourceText hguarded hsource).tame
    exact sealed_elementOf (by decide) hbare (sealed_append hto hfrom).tame
  | deleteConfig target =>
    unfold body at h
    obtain ⟨-, h⟩ := of_guard h
    obtain ⟨targetText, htarget, h⟩ := bind_eq_ok.1 h
    obtain rfl := Except.ok.inj h
    have hto := sealed_elementOf (by decide : Text.Guarded "nc:target") hbare
      (sealed_targetText htarget).tame
    exact sealed_elementOf (by decide) hbare hto.tame
  | lock target => exact sealed_lockText (by decide) h
  | unlock target => exact sealed_lockText (by decide) h
  | partialLock selects =>
    obtain ⟨_, -, h⟩ := bind_eq_ok.1 h
    obtain rfl := Except.ok.inj h
    refine sealed_elementOf (by decide) (sealed_declares (by decide) (by decide +kernel))
      (sealed_join fun s hs => ?_).tame
    obtain ⟨select, -, rfl⟩ := List.mem_map.1 hs
    exact sealed_elementOf (by decide) hbare (tame_escapeText select)
  | partialUnlock lockId =>
    obtain ⟨_, -, h⟩ := bind_eq_ok.1 h
    obtain rfl := Except.ok.inj h
    have hnumber := sealed_elementOf (by decide : Text.Guarded "pl:lock-id") hbare
      (Text.guarded_decimal lockId).sealed.tame
    exact sealed_elementOf (by decide) (sealed_declares (by decide) (by decide +kernel))
      hnumber.tame
  | commit =>
    obtain ⟨_, -, h⟩ := bind_eq_ok.1 h
    obtain rfl := Except.ok.inj h
    decide
  | confirmedCommit seconds =>
    obtain ⟨_, -, h⟩ := bind_eq_ok.1 h
    obtain ⟨_, -, h⟩ := bind_eq_ok.1 h
    obtain rfl := Except.ok.inj h
    have hconfirmed := sealed_emptyElement (by decide : Text.Guarded "nc:confirmed") hbare
    have htimeout := sealed_elementOf (by decide : Text.Guarded "nc:confirm-timeout") hbare
      (Text.guarded_decimal seconds).sealed.tame
    exact sealed_elementOf (by decide) hbare (sealed_append hconfirmed htimeout).tame
  | discardChanges =>
    obtain ⟨_, -, h⟩ := bind_eq_ok.1 h
    obtain rfl := Except.ok.inj h
    decide
  | validate source =>
    obtain ⟨_, -, h⟩ := bind_eq_ok.1 h
    obtain ⟨sourceText, hsource, h⟩ := bind_eq_ok.1 h
    obtain rfl := Except.ok.inj h
    have hfrom := sealed_elementOf (by decide : Text.Guarded "nc:source") hbare
      (sealed_sourceText hguarded hsource).tame
    exact sealed_elementOf (by decide) hbare hfrom.tame
  | createSubscription stream filter start stop =>
    obtain ⟨_, -, h⟩ := bind_eq_ok.1 h
    obtain ⟨filterText, hfilter, h⟩ := bind_eq_ok.1 h
    obtain rfl := Except.ok.inj h
    have hstream := sealed_optionalText (by decide : Text.Guarded "ncn:stream") stream
    have hstart := sealed_optionalText (by decide : Text.Guarded "ncn:startTime") start
    have hstop := sealed_optionalText (by decide : Text.Guarded "ncn:stopTime") stop
    have hfiltered := sealed_append hstream (sealed_subscriptionFilterText hguarded hfilter)
    exact sealed_elementOf (by decide) (sealed_declares (by decide) (by decide +kernel))
      (sealed_append (sealed_append hfiltered hstart) hstop).tame
  | getStreams =>
    obtain ⟨filterText, hfilter, h⟩ := bind_eq_ok.1 h
    obtain rfl := Except.ok.inj h
    obtain ⟨nodes, hnodes, hfilter⟩ := bind_eq_ok.1 hfilter
    obtain rfl := Except.ok.inj hfilter
    have hinside := sealed_elementOf (by decide : Text.Guarded "nc:filter")
      (by decide : Sealed " nc:type=\"subtree\"".toList) (sealed_streams hnodes).tame
    exact sealed_elementOf (by decide) hbare hinside.tame
  | action tree node =>
    obtain ⟨data, hdata, h⟩ := bind_eq_ok.1 h
    obtain rfl := Except.ok.inj h
    have hencoded := sealed_encodeAll (hguarded _ List.mem_cons_self) hdata
    have hinside := sealed_elementOf (by decide : Text.Guarded "nca:data") hbare hencoded.tame
    exact sealed_elementOf (by decide) (sealed_declares (by decide) (by decide +kernel))
      hinside.tame
  | rpc tree node => exact sealed_encodeAll (hguarded _ List.mem_cons_self) h
  | startTransaction target =>
    obtain rfl := Except.ok.inj h
    have htarget := sealed_datastoreElement (by decide : Text.Guarded "nctr:target") target
    exact sealed_elementOf (by decide) (sealed_declares (by decide) (by decide +kernel))
      htarget.tame
  | transaction step =>
    obtain rfl := Except.ok.inj h
    exact sealed_emptyElement (by cases step <;> decide)
      (sealed_declares (by decide) (by decide +kernel))
  | closeSession =>
    obtain rfl := Except.ok.inj h
    decide
  | killSession sessionId =>
    unfold body at h
    obtain ⟨-, h⟩ := of_guard h
    obtain rfl := Except.ok.inj h
    have hnumber := sealed_elementOf (by decide : Text.Guarded "nc:session-id") hbare
      (Text.guarded_decimal sessionId).sealed.tame
    exact sealed_elementOf (by decide) hbare hnumber.tame

end Terms

/-! ## Messages -/

/-- The envelope of a request is sealed if its body is. -/
theorem sealed_envelope {messageId : Nat} {asked : Option Bool} {body : String}
    (hbody : Sealed body.toList) : Sealed (envelope messageId asked body).toList := by
  have hns := Terms.sealed_declares (by decide : Text.Guarded "nc")
    (by decide +kernel : Tame nsNetconf.toList)
  have hnumber := sealed_quoted
    (sealed_append hns (by decide +kernel : Sealed " nc:message-id=\"".toList))
    (Text.guarded_decimal messageId).sealed.tame
  refine sealed_elementOf (by decide) (sealed_append hnumber ?_) hbody.tame
  cases asked with
  | none => decide
  | some on => cases on <;> decide +kernel

/-- The hello of a client is sealed, whatever its capabilities are. -/
theorem sealed_helloText (capabilities : List String) :
    Sealed (helloText capabilities).toList := by
  have hbare : Sealed "".toList := by decide
  have hlines : Sealed (String.join ((capBase :: capabilities).map fun text =>
      elementOf "capability" "" (Xml.escapeText text) ++ "\n")).toList := by
    refine sealed_join fun line hline => ?_
    obtain ⟨text, -, rfl⟩ := List.mem_map.1 hline
    have helement := sealed_elementOf (by decide : Text.Guarded "capability") hbare
      (tame_escapeText text)
    exact sealed_append helement (by decide)
  have hlist := sealed_elementOf (by decide : Text.Guarded "capabilities") hbare hlines.tame
  exact sealed_elementOf (by decide) (by decide +kernel) hlist.tame

namespace Session

/-- The binding that an extension brings has a guarded label. -/
theorem guarded_extension {t : Terms} {c : Command} {b : Binding}
    (h : t.extension c = .ok (some b)) : Text.Guarded b.label := by
  cases c with
  | action tree node =>
    obtain ⟨_, -, h⟩ := bind_eq_ok.1 h
    obtain rfl := Option.some.inj (Except.ok.inj h)
    decide
  | startTransaction target =>
    obtain ⟨_, -, h⟩ := bind_eq_ok.1 h
    obtain ⟨_, -, h⟩ := bind_eq_ok.1 h
    obtain rfl := Option.some.inj (Except.ok.inj h)
    decide
  | transaction step =>
    obtain ⟨_, -, h⟩ := bind_eq_ok.1 h
    obtain rfl := Option.some.inj (Except.ok.inj h)
    decide
  | _ => cases h

/-- Names that are guarded stay so while a command is prepared. -/
theorem guarded_prepared {c : Command} {s : Session} {selection : Selection}
    (h : selection.Guarded s.defaults) : selection.Guarded (s.prepared c).defaults := by
  have hdefaults : (s.prepared c).defaults = s.preparedDefaults c := rfl
  rw [hdefaults]
  unfold preparedDefaults
  split
  · next b hb =>
    cases b with
    | none => exact h
    | some b => exact fun id hid => (h id hid).register (guarded_extension hb)
  · exact h

/-- The message of a request is sealed, if the nodes that its command takes have guarded names. -/
theorem sealed_request {c : Command} {s : Session} {r : Request} (hr : s.request? c = some r)
    (hguarded : ∀ selection ∈ c.selections, selection.Guarded s.defaults) :
    Sealed r.text.toList := by
  obtain ⟨-, hbody, -⟩ := request?_eq_some hr
  -- the body is made with the default bindings that the preparation leaves
  have hprepared : ∀ selection ∈ c.selections, selection.Guarded (s.prepared c).defaults :=
    fun selection hselection => guarded_prepared (hguarded selection hselection)
  exact sealed_envelope (Terms.sealed_body hprepared (preparedBody_eq_ok.1 hbody).2)

end Session

end Netconf
