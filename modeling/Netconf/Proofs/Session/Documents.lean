import Netconf.Proofs.Session.Bodies
import Netconf.Proofs.Xml.Conveyed

/-!
# The documents of messages

What a reader should find in the message of a command, or in the hello of a client: a document in
which every text stands at a place of its own (`Command.document`, `helloDocument`). Texts are the
values of elements, without the blanks at their ends, or else the attribute of a filter that holds
its expression. The outline of a document, which leaves the texts out, is that of the command with
all its texts empty (`Command.outline_document`), and so are the places of the texts
(`Command.spoken_blank`), where they are found again (`Command.spoken_document`).
-/

namespace Netconf

/-! ## Outlines and places -/

/-- An element without its texts: the value and those of the attributes. -/
def Element.outline (e : Element) : Element where
  ns := e.ns
  name := e.name
  attributes := e.attributes.map fun a => { a with value := "" }

namespace Branch

/-- A branch without its texts: the namespaces and names of its elements and their attributes, in
order. -/
def outline (b : Branch) : Branch := b.shown.mapElements Element.outline

/-- A branch outlines its top and its children. -/
theorem outline_mk (id : NodeId) (e : Element) (bs : List Branch) :
    (Branch.mk id e bs).outline = .mk 0 e.outline (bs.map outline) := by
  rw [outline, shown_mk, mapElements_mk, List.map_map]
  rfl

/-- The branch at the end of a way down, which says of each child how many siblings it passes. -/
def at? : List Nat → Branch → Option Branch
  | [], b => some b
  | i :: is, b => b.children[i]?.bind (at? is)

/-- What is at the end of a way shows what the branch shows there. -/
theorem at?_shown (way : List Nat) (b : Branch) : b.shown.at? way = (b.at? way).map shown := by
  induction way generalizing b with
  | nil => rfl
  | cons i is ih =>
    obtain ⟨id, e, bs⟩ := b
    rw [shown_mk, at?, at?, children, children, List.getElem?_map]
    cases bs[i]? with
    | none => rfl
    | some c => exact ih c

/-- A child of the only child of a branch, found behind its siblings. -/
theorem at?_child (e : Element) (ns name : String) (before : List Branch) (c : Branch)
    (after : List Branch) :
    (mk 0 e [mk 0 { ns := some ns, name } (before ++ c :: after)]).at? [0, before.length]
      = some c := by
  show ((before ++ c :: after)[before.length]?).bind (at? []) = some c
  rw [List.getElem?_append_right (Nat.le_refl _), Nat.sub_self]
  rfl

end Branch

/-- A text in a document, with the way down to the element that says it. -/
inductive Spoken where
  /-- The text of an element. -/
  | text (way : List Nat) (s : String)
  /-- The expression of a filter, which is an attribute. -/
  | select (way : List Nat) (s : String)

namespace Spoken

/-- The place of a text, without the text. -/
def blank : Spoken → Spoken
  | text way _ => text way ""
  | select way _ => select way ""

/-- The text is found at its place: as the value of the element, without the blanks at its ends and
not at all if it is blank, or exactly as it is, as an attribute. -/
def FoundIn (b : Branch) : Spoken → Prop
  | text way s => ∃ c, b.at? way = some c ∧
    c.element.value.map Value.wire = if Text.trim s = "" then none else some (Text.trim s)
  | select way s => ∃ c, b.at? way = some c ∧
    (c.element.attributeIn? nsNetconf "select").map (·.value) = some s

/-- What a branch shows is enough to find texts in it. -/
theorem foundIn_shown (p : Spoken) (b : Branch) : p.FoundIn b.shown ↔ p.FoundIn b := by
  have hvalue : ∀ c : Branch,
      c.shown.element.value.map Value.wire = c.element.value.map Value.wire := by
    rintro ⟨id, e, bs⟩
    rw [Branch.shown_mk, Branch.element, Branch.element, Element.shown]
    cases e.value <;> rfl
  have hattribute : ∀ c : Branch, c.shown.element.attributeIn? nsNetconf "select" =
      c.element.attributeIn? nsNetconf "select" := by
    rintro ⟨id, e, bs⟩
    rw [Branch.shown_mk]
    rfl
  cases p <;> simp [FoundIn, Branch.at?_shown, hvalue, hattribute]

end Spoken

/-! ## Parts of documents -/

/-- An element of a message with its children. -/
def Branch.ofParts (ns name : String) (children : List Branch) : Branch :=
  .mk 0 { ns := some ns, name } children

/-- An element of a message with a text. -/
def Branch.ofText (ns name text : String) : Branch :=
  .mk 0 { ns := some ns, name, value := Xml.heard text } []

/-- A filter of a type. -/
def Branch.ofFilter (ns type : String) (more : List Attribute) (value : Option Value)
    (children : List Branch) : Branch :=
  .mk 0 { ns := some ns, name := "filter", value, attributes := ⟨some ns, "type", type⟩ :: more }
    children

/-- The part of a datastore. -/
def Datastore.part (d : Datastore) : Branch := .ofParts nsNetconf d.name []

/-- The part of a target. -/
def Target.part : Target → Branch
  | .datastore d => d.part
  | .url u => .ofText nsNetconf "url" u

/-- The target with its text empty. -/
def Target.blank : Target → Target
  | .datastore d => .datastore d
  | .url _ => .url ""

/-- The text of a target, whose part is at the end of a way. -/
def Target.spoken (way : List Nat) : Target → List Spoken
  | .datastore _ => []
  | .url u => [.text way u]

/-- The part of a source; `nodes` is what is there for a selection. -/
def Source.part (nodes : Selection → List Branch) : Source → Branch
  | .datastore d => d.part
  | .url u => .ofText nsNetconf "url" u
  | .config s => .ofParts nsNetconf "config" (nodes s)

/-- The source with its text empty. -/
def Source.blank : Source → Source
  | .url _ => .url ""
  | source => source

/-- The text of a source, whose part is at the end of a way. -/
def Source.spoken (way : List Nat) : Source → List Spoken
  | .url u => [.text way u]
  | _ => []

/-- The parts of the filter of a retrieval. -/
def Filter.parts (nodes : Selection → List Branch) : Filter → List Branch
  | all => []
  | subtree s => [.ofFilter nsNetconf "subtree" [] none (nodes s)]
  | xpath expression =>
    [.ofFilter nsNetconf "xpath" [⟨some nsNetconf, "select", expression⟩] none []]

/-- The parts of the filter of a subscription. -/
def Filter.subscriptionParts (nodes : Selection → List Branch) : Filter → List Branch
  | all => []
  | subtree s => [.ofFilter nsNotification "subtree" [] none (nodes s)]
  | xpath expression => [.ofFilter nsNotification "xpath" [] (Xml.heard expression) []]

/-- The filter with its text empty. -/
def Filter.blank : Filter → Filter
  | xpath _ => xpath ""
  | filter => filter

/-- The text of a filter, if it has one. -/
def Filter.expression? : Filter → Option String
  | xpath expression => some expression
  | _ => none

/-- How many parts a filter has. -/
def Filter.count : Filter → Nat
  | all => 0
  | _ => 1

/-- The part of a text, if there is one. -/
def optionalParts (ns name : String) (text : Option String) : List Branch :=
  text.toList.map (.ofText ns name)

/-- The parts of the options of an edit. -/
def EditOptions.parts (o : EditOptions) : List Branch :=
  optionalParts nsNetconf "default-operation" (o.defaultOperation.map (·.name))
    ++ optionalParts nsNetconf "test-option" (o.testOption.map (·.name))
    ++ optionalParts nsNetconf "error-option" (o.errorOption.map (·.name))

/-- The parts of an edit. -/
def EditOptions.editParts (o : EditOptions) (target : Datastore) (config : Branch) : List Branch :=
  [.ofParts nsNetconf "edit-config"
    (.ofParts nsNetconf "target" [target.part] :: o.parts ++ [config])]

/-- The parts of a lock operation on a whole datastore. -/
def Datastore.lockParts (d : Datastore) (name : String) : List Branch :=
  [.ofParts nsNetconf name [.ofParts nsNetconf "target" [d.part]]]

/-- What asks for the streams of notifications. -/
def streamsParts : List Branch :=
  [.ofParts nsNotificationStreams "netconf" [.ofParts nsNotificationStreams "streams" []]]

/-! ## Requests -/

namespace Command

/-- What is inside the request for a command. -/
def parts (o : EditOptions) (nodes : Selection → List Branch) : Command → List Branch
  | get filter => [.ofParts nsNetconf "get" (filter.parts nodes)]
  | getConfig source filter =>
    [.ofParts nsNetconf "get-config"
      (.ofParts nsNetconf "source" [source.part] :: filter.parts nodes)]
  | editConfig target config => o.editParts target (.ofParts nsNetconf "config" (nodes config))
  | editConfigUrl target url => o.editParts target (.ofText nsNetconf "url" url)
  | copyConfig source target =>
    [.ofParts nsNetconf "copy-config"
      [.ofParts nsNetconf "target" [target.part],
        .ofParts nsNetconf "source" [source.part nodes]]]
  | deleteConfig target =>
    [.ofParts nsNetconf "delete-config" [.ofParts nsNetconf "target" [target.part]]]
  | lock target => target.lockParts "lock"
  | unlock target => target.lockParts "unlock"
  | partialLock selects =>
    [.ofParts nsPartialLock "partial-lock" (selects.map (.ofText nsPartialLock "select"))]
  | partialUnlock lockId =>
    [.ofParts nsPartialLock "partial-unlock" [.ofText nsPartialLock "lock-id" (toString lockId)]]
  | commit => [.ofParts nsNetconf "commit" []]
  | confirmedCommit seconds =>
    [.ofParts nsNetconf "commit"
      [.ofParts nsNetconf "confirmed" [],
        .ofText nsNetconf "confirm-timeout" (toString seconds)]]
  | discardChanges => [.ofParts nsNetconf "discard-changes" []]
  | validate source =>
    [.ofParts nsNetconf "validate" [.ofParts nsNetconf "source" [source.part nodes]]]
  | createSubscription stream filter start stop =>
    [.ofParts nsNotification "create-subscription"
      (optionalParts nsNotification "stream" stream ++ filter.subscriptionParts nodes
        ++ optionalParts nsNotification "startTime" start
        ++ optionalParts nsNotification "stopTime" stop)]
  | getStreams =>
    [.ofParts nsNetconf "get" [.ofFilter nsNetconf "subtree" [] none streamsParts]]
  | action tree node =>
    [.ofParts nsActions "action" [.ofParts nsActions "data" (nodes ⟨tree, [node]⟩)]]
  | rpc tree node => nodes ⟨tree, [node]⟩
  | startTransaction target =>
    [.ofParts nsTransactions "start-transaction"
      [.ofParts nsTransactions "target" [target.part]]]
  | transaction step => [.ofParts nsTransactions step.name []]
  | closeSession => [.ofParts nsNetconf "close-session" []]
  | killSession sessionId =>
    [.ofParts nsNetconf "kill-session" [.ofText nsNetconf "session-id" (toString sessionId)]]

/-- The command with all its texts empty. What is left are the operation, its options, the nodes
that it takes, and the number of texts. -/
def blank : Command → Command
  | get filter => get filter.blank
  | getConfig source filter => getConfig source filter.blank
  | editConfigUrl target _ => editConfigUrl target ""
  | copyConfig source target => copyConfig source.blank target.blank
  | deleteConfig target => deleteConfig target.blank
  | partialLock selects => partialLock (selects.map fun _ => "")
  | validate source => validate source.blank
  | createSubscription stream filter start stop =>
    createSubscription (stream.map fun _ => "") filter.blank (start.map fun _ => "")
      (stop.map fun _ => "")
  | c => c

/-- The texts of a command, each with its place in the document of the request. -/
def spoken (o : EditOptions) : Command → List Spoken
  | get filter => filter.expression?.toList.map (.select [0, 0])
  | getConfig _ filter => filter.expression?.toList.map (.select [0, 1])
  | editConfigUrl _ url => [.text [0, o.parts.length + 1] url]
  | copyConfig source target => target.spoken [0, 0, 0] ++ source.spoken [0, 1, 0]
  | deleteConfig target => target.spoken [0, 0, 0]
  | partialLock selects => selects.mapIdx fun i s => .text [0, i] s
  | validate source => source.spoken [0, 0, 0]
  | createSubscription stream filter start stop =>
    -- each of the four parts stands behind those that are there
    let atFilter := stream.toList.length
    let atStart := atFilter + filter.count
    let atStop := atStart + start.toList.length
    stream.toList.map (.text [0, 0]) ++ filter.expression?.toList.map (.text [0, atFilter])
      ++ start.toList.map (.text [0, atStart]) ++ stop.toList.map (.text [0, atStop])
  | _ => []

end Command

/-- The envelope of a request, with its attributes. -/
def envelopeElement (number : Nat) (asked : Option Bool) : Element where
  ns := some nsNetconf
  name := "rpc"
  attributes := ⟨some nsNetconf, "message-id", toString number⟩ ::
    asked.toList.map fun on =>
      ⟨some capWithDefaults, "with-defaults", if on then "true" else "false"⟩

/-- The document of the request for a command; `nodes` is what is there for a selection. -/
def Command.document (c : Command) (o : EditOptions) (nodes : Selection → List Branch)
    (number : Nat) (asked : Option Bool) : Branch :=
  .mk 0 (envelopeElement number asked) (c.parts o nodes)

section Texts

variable (o : EditOptions) (nodes : Selection → List Branch) (number : Nat) (asked : Option Bool)

/-- An element with children outlines them. -/
@[simp]
theorem Branch.outline_ofParts (ns name : String) (bs : List Branch) :
    (ofParts ns name bs).outline = ofParts ns name (bs.map outline) := by
  rw [ofParts, outline_mk]
  rfl

/-- The text of an element is not in its outline. -/
@[simp]
theorem Branch.outline_ofText (ns name text : String) :
    (ofText ns name text).outline = ofParts ns name [] := by
  rw [ofText, outline_mk]
  rfl

/-- The texts of parts are not in their outlines. -/
@[simp]
theorem outline_optionalParts (ns name : String) (text : Option String) :
    (optionalParts ns name (text.map fun _ => "")).map Branch.outline
      = (optionalParts ns name text).map Branch.outline := by
  cases text <;> simp [optionalParts]

/-- The text of a target is not in its outline. -/
@[simp]
theorem Target.outline_part (t : Target) : t.blank.part.outline = t.part.outline := by
  cases t <;> simp [blank, part]

/-- The text of a source is not in its outline. -/
@[simp]
theorem Source.outline_part (s : Source) :
    (s.blank.part nodes).outline = (s.part nodes).outline := by
  cases s <;> simp [blank, part]

/-- The expression of a filter is not in its outline. -/
@[simp]
theorem Filter.outline_parts (f : Filter) :
    (f.blank.parts nodes).map Branch.outline = (f.parts nodes).map Branch.outline := by
  cases f <;> simp [blank, parts, Branch.ofFilter, Branch.outline_mk, Element.outline]

/-- The expression of a filter is not in its outline. -/
@[simp]
theorem Filter.outline_subscriptionParts (f : Filter) :
    (f.blank.subscriptionParts nodes).map Branch.outline
      = (f.subscriptionParts nodes).map Branch.outline := by
  cases f <;> simp [blank, subscriptionParts, Branch.ofFilter, Branch.outline_mk, Element.outline]

/-- The value of an element with a text is what is read of the text. -/
theorem Branch.value_ofText (ns name text : String) :
    (ofText ns name text).element.value = Xml.heard text := by
  rw [ofText, element]

/-- A text is found at the end of a way to an element with what is read of the text as its value. -/
theorem Spoken.text_foundIn {b c : Branch} {way : List Nat} {s : String} (h : b.at? way = some c)
    (hvalue : c.element.value = Xml.heard s) : (Spoken.text way s).FoundIn b := by
  refine ⟨c, h, ?_⟩
  rw [hvalue, Xml.heard]
  split <;> rfl

/-- A text that may be there is found behind the parts in front of it. -/
theorem optional_foundIn (e : Element) (ns name : String) (parts before after : List Branch)
    {part : String → Branch} (hpart : ∀ s, (part s).element.value = Xml.heard s)
    (text : Option String) {n : Nat} (hparts : parts = before ++ (text.toList.map part ++ after))
    (hn : before.length = n) :
    ∀ p ∈ text.toList.map (Spoken.text [0, n]), p.FoundIn (.mk 0 e [.ofParts ns name parts]) := by
  subst hparts hn
  cases text with
  | none => exact List.forall_mem_nil _
  | some s =>
    have hat := Branch.at?_child e ns name before (part s) after
    exact List.forall_mem_singleton.2 (Spoken.text_foundIn hat (hpart s))

/-- The number of parts of a text that may be there. -/
theorem length_optionalParts (ns name : String) (text : Option String) :
    (optionalParts ns name text).length = text.toList.length :=
  List.length_map ..

/-- The number of parts of a filter. -/
theorem Filter.length_subscriptionParts (f : Filter) :
    (f.subscriptionParts nodes).length = f.count := by
  cases f <;> rfl

/-- The places of the text of a target do not depend on the text. -/
@[simp]
theorem Target.spoken_blank (t : Target) (way : List Nat) :
    t.blank.spoken way = (t.spoken way).map Spoken.blank := by
  cases t <;> rfl

/-- The places of the text of a source do not depend on the text. -/
@[simp]
theorem Source.spoken_blank (s : Source) (way : List Nat) :
    s.blank.spoken way = (s.spoken way).map Spoken.blank := by
  cases s <;> rfl

/-- The text of a target is found in its part. -/
theorem Target.spoken_part {t : Target} {way : List Nat} {b : Branch}
    (h : b.at? way = some t.part) : ∀ p ∈ t.spoken way, p.FoundIn b := by
  cases t with
  | datastore d => exact List.forall_mem_nil _
  | url u => exact List.forall_mem_singleton.2 (Spoken.text_foundIn h (Branch.value_ofText ..))

/-- The text of a source is found in its part. -/
theorem Source.spoken_part {s : Source} {way : List Nat} {b : Branch}
    (h : b.at? way = some (s.part nodes)) : ∀ p ∈ s.spoken way, p.FoundIn b := by
  cases s with
  | url u => exact List.forall_mem_singleton.2 (Spoken.text_foundIn h (Branch.value_ofText ..))
  | _ => exact List.forall_mem_nil _

namespace Command

/-- The outline of a document does not depend on the texts of the command, nor on the number of the
request. -/
theorem outline_document (c : Command) :
    (c.document o nodes number asked).outline = (c.blank.document o nodes 0 asked).outline := by
  have hparts : (c.blank.parts o nodes).map Branch.outline
      = (c.parts o nodes).map Branch.outline := by
    cases c <;> simp [blank, parts, EditOptions.editParts, Function.comp_def]
  rw [document, document, Branch.outline_mk, Branch.outline_mk, hparts]
  rfl

/-- The document of a command that takes no nodes does not depend on what is there for nodes, and
that of another one only on what is there for its own. -/
theorem document_congr {c : Command} {nodes' : Selection → List Branch}
    (h : ∀ s ∈ c.selections, nodes s = nodes' s) :
    c.document o nodes number asked = c.document o nodes' number asked := by
  have hfilter : ∀ f : Filter, (∀ s ∈ f.selection?.toList, nodes s = nodes' s) →
      f.parts nodes = f.parts nodes' ∧ f.subscriptionParts nodes = f.subscriptionParts nodes' := by
    intro f hf
    cases f with
    | subtree s => simp [Filter.parts, Filter.subscriptionParts, hf s List.mem_cons_self]
    | _ => exact ⟨rfl, rfl⟩
  have hsource : ∀ source : Source, (∀ s ∈ source.selection?.toList, nodes s = nodes' s) →
      source.part nodes = source.part nodes' := by
    intro source hsource
    cases source with
    | config s => simp [Source.part, hsource s List.mem_cons_self]
    | _ => rfl
  have hparts : c.parts o nodes = c.parts o nodes' := by
    cases c with
    | get filter => rw [parts, parts, (hfilter filter h).1]
    | getConfig source filter => rw [parts, parts, (hfilter filter h).1]
    | editConfig target config => rw [parts, parts, h config List.mem_cons_self]
    | copyConfig source target => rw [parts, parts, hsource source h]
    | validate source => rw [parts, parts, hsource source h]
    | createSubscription stream filter start stop => rw [parts, parts, (hfilter filter h).2]
    | action tree node => rw [parts, parts, h _ List.mem_cons_self]
    | rpc tree node => rw [parts, parts, h _ List.mem_cons_self]
    | _ => rfl
  rw [document, document, hparts]

/-- The places of the texts do not depend on the texts. -/
theorem spoken_blank (c : Command) : c.blank.spoken o = (c.spoken o).map Spoken.blank := by
  cases c with
  | get filter => cases filter <;> rfl
  | getConfig source filter => cases filter <;> rfl
  | partialLock selects =>
    refine List.ext_getElem? fun i => ?_
    simp only [blank, spoken, List.getElem?_mapIdx, List.getElem?_map, Option.map_map]
    rfl
  | createSubscription stream filter start stop =>
    cases stream <;> cases filter <;> cases start <;> cases stop <;> rfl
  | _ => simp [blank, spoken, Spoken.blank]

/-- The texts of a command are found at their places in the document of the request. -/
theorem spoken_document (c : Command) :
    ∀ p ∈ c.spoken o, p.FoundIn (c.document o nodes number asked) := by
  cases c with
  | get filter =>
    cases filter with
    | xpath expression => exact List.forall_mem_singleton.2 ⟨_, rfl, rfl⟩
    | _ => exact List.forall_mem_nil _
  | getConfig source filter =>
    cases filter with
    | xpath expression => exact List.forall_mem_singleton.2 ⟨_, rfl, rfl⟩
    | _ => exact List.forall_mem_nil _
  | editConfigUrl target url =>
    have hat : ((editConfigUrl target url).document o nodes number asked).at?
        [0, o.parts.length + 1] = some (.ofText nsNetconf "url" url) :=
      Branch.at?_child _ _ _ (_ :: o.parts) _ []
    exact List.forall_mem_singleton.2 (Spoken.text_foundIn hat (Branch.value_ofText ..))
  | copyConfig source target =>
    exact List.forall_mem_append.2 ⟨Target.spoken_part rfl, Source.spoken_part nodes rfl⟩
  | deleteConfig target => exact Target.spoken_part rfl
  | partialLock selects =>
    intro p hp
    obtain ⟨i, hi, rfl⟩ := List.mem_mapIdx.1 hp
    have hat : ((partialLock selects).document o nodes number asked).at? [0, i]
        = some (.ofText nsPartialLock "select" selects[i]) := by
      show ((selects.map (.ofText nsPartialLock "select"))[i]?).bind (Branch.at? []) = _
      rw [List.getElem?_map, List.getElem?_eq_getElem hi]
      rfl
    exact Spoken.text_foundIn hat (Branch.value_ofText ..)
  | validate source => exact Source.spoken_part nodes rfl
  | createSubscription stream filter start stop =>
    have hfound := optional_foundIn (envelopeElement number asked) nsNotification
      "create-subscription"
      (optionalParts nsNotification "stream" stream ++ filter.subscriptionParts nodes
        ++ optionalParts nsNotification "startTime" start
        ++ optionalParts nsNotification "stopTime" stop)
    have htext := Branch.value_ofText nsNotification
    have hstream := hfound [] (filter.subscriptionParts nodes
        ++ (optionalParts nsNotification "startTime" start
          ++ optionalParts nsNotification "stopTime" stop))
      (htext "stream") stream (by simp only [optionalParts, List.append_assoc, List.nil_append]) rfl
    have hstart := hfound
      (optionalParts nsNotification "stream" stream ++ filter.subscriptionParts nodes)
      (optionalParts nsNotification "stopTime" stop) (htext "startTime") start
      (by simp only [optionalParts, List.append_assoc])
      (by rw [List.length_append, length_optionalParts, filter.length_subscriptionParts])
    have hstop := hfound
      (optionalParts nsNotification "stream" stream ++ filter.subscriptionParts nodes
        ++ optionalParts nsNotification "startTime" start) [] (htext "stopTime") stop
      (by simp only [optionalParts, List.append_assoc, List.append_nil])
      (by rw [List.length_append, List.length_append, length_optionalParts, length_optionalParts,
        filter.length_subscriptionParts])
    have hfilter : ∀ p ∈ filter.expression?.toList.map (Spoken.text [0, stream.toList.length]),
        p.FoundIn ((createSubscription stream filter start stop).document o nodes number
          asked) := by
      cases filter with
      | xpath expression =>
        have hxpath : ∀ s,
            (Branch.ofFilter nsNotification "xpath" [] (Xml.heard s) []).element.value
              = Xml.heard s := fun s => by rw [Branch.ofFilter, Branch.element]
        exact hfound (optionalParts nsNotification "stream" stream)
          (optionalParts nsNotification "startTime" start
            ++ optionalParts nsNotification "stopTime" stop) hxpath (some expression)
          (by simp only [Filter.subscriptionParts, Option.toList_some, List.map_singleton,
            List.append_assoc]) (length_optionalParts ..)
      | _ => exact List.forall_mem_nil _
    exact List.forall_mem_append.2 ⟨List.forall_mem_append.2 ⟨List.forall_mem_append.2
      ⟨hstream, hfilter⟩, hstart⟩, hstop⟩
  | _ => exact List.forall_mem_nil _

end Command

end Texts

/-! ## Hello -/

/-- The document of the hello of a client with capabilities of its own. -/
def helloDocument (capabilities : List String) : Branch :=
  .ofParts nsNetconf "hello"
    [.ofParts nsNetconf "capabilities"
      ((capBase :: capabilities).map (.ofText nsNetconf "capability"))]

/-- The own capabilities of a client, each with its place in the document of the hello. -/
def helloSpoken (capabilities : List String) : List Spoken :=
  capabilities.mapIdx fun i s => .text [0, i + 1] s

/-- The outline of a hello depends on the number of the own capabilities only. -/
theorem outline_helloDocument (capabilities : List String) :
    (helloDocument capabilities).outline
      = (helloDocument (List.replicate capabilities.length "")).outline := by
  simp [helloDocument, Function.comp_def]

/-- The own capabilities are found at their places in the document of the hello. -/
theorem spoken_helloDocument (capabilities : List String) :
    ∀ p ∈ helloSpoken capabilities, p.FoundIn (helloDocument capabilities) := by
  intro p hp
  obtain ⟨i, hi, rfl⟩ := List.mem_mapIdx.1 hp
  have hat : (helloDocument capabilities).at? [0, i + 1]
      = some (.ofText nsNetconf "capability" capabilities[i]) := by
    show ((capabilities.map (.ofText nsNetconf "capability"))[i]?).bind (Branch.at? []) = _
    rw [List.getElem?_map, List.getElem?_eq_getElem hi]
    rfl
  exact Spoken.text_foundIn hat (Branch.value_ofText ..)

end Netconf
