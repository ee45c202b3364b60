import Netconf.Proofs.Session.Conveyance
import Netconf.Proofs.Session.Framing
import Netconf.Proofs.Xml.RoundTrip

/-!
# Texts keep the structure of messages

Whatever texts a command is given, its request is read as the document of the command, and so is the
hello of a client with any capabilities (`Session.texts_keep_structure`): escapes keep the texts
out of the markup, and the reader finds each one at its place. The envelope of a request declares
the labels that its body relies on (`speaks_envelope`), and the rest is conveyed by the body.
-/

namespace Netconf

open Xml (Scope Conveys)

/-! ## Envelopes -/

/-- The bindings that the envelope of a request declares. -/
def envelopeBindings (asked : Option Bool) : Bindings :=
  ⟨⟨"nc", nsNetconf⟩ :: asked.toList.map fun _ => ⟨"ncwd", capWithDefaults⟩⟩

/-- A declaration with its namespace, as it stands in a tag. -/
def declarationPair (b : Binding) : String × String := (b.declaration, b.ns)

/-- The declarations and attributes of the envelope of a request, in order. -/
def envelopePairs (number : Nat) (asked : Option Bool) : List (String × String) :=
  declarationPair ⟨"nc", nsNetconf⟩ :: (Xml.withLabel "nc" "message-id", toString number) ::
    asked.toList.flatMap fun on =>
      [declarationPair ⟨"ncwd", capWithDefaults⟩,
        (Xml.withLabel "ncwd" "with-defaults", if on then "true" else "false")]

/-- The names in the envelope of a request are names with labels. -/
theorem isKey_envelopePairs (number : Nat) (asked : Option Bool) :
    ∀ p ∈ envelopePairs number asked, Xml.IsKey p.1 := by
  have hnc : Xml.IsKey (Binding.mk "nc" nsNetconf).declaration :=
    Xml.isKey_declaration (by decide)
  have hncwd : Xml.IsKey (Binding.mk "ncwd" capWithDefaults).declaration :=
    Xml.isKey_declaration (by decide)
  have hnumber : Xml.IsKey (Xml.withLabel "nc" "message-id") :=
    Xml.isKey_withLabel (Or.inr (by decide)) (by decide)
  have hasked : Xml.IsKey (Xml.withLabel "ncwd" "with-defaults") :=
    Xml.isKey_withLabel (Or.inr (by decide)) (by decide)
  cases asked with
  | none => exact List.forall_mem_cons.2 ⟨hnc, List.forall_mem_singleton.2 hnumber⟩
  | some on =>
    exact List.forall_mem_cons.2 ⟨hnc, List.forall_mem_cons.2 ⟨hnumber,
      List.forall_mem_cons.2 ⟨hncwd, List.forall_mem_singleton.2 hasked⟩⟩⟩

/-- No name stands in the envelope of a request twice. -/
theorem nodup_envelopePairs (number : Nat) (asked : Option Bool) :
    ((envelopePairs number asked).map (·.1)).Nodup := by
  cases asked with
  | none =>
    show [(Binding.mk "nc" nsNetconf).declaration, Xml.withLabel "nc" "message-id"].Nodup
    decide
  | some on =>
    show [(Binding.mk "nc" nsNetconf).declaration, Xml.withLabel "nc" "message-id",
      (Binding.mk "ncwd" capWithDefaults).declaration, Xml.withLabel "ncwd" "with-defaults"].Nodup
    decide

/-- The labels of the envelope mean what it declares them for. -/
theorem means_envelope (asked : Option Bool) :
    Scope.means [envelopeBindings asked] "nc" = some nsNetconf ∧
      (asked.isSome = true →
        Scope.means [envelopeBindings asked] "ncwd" = some capWithDefaults) := by
  rcases asked with _ | _ | _ <;> decide +kernel

/-- The number of a request is read as an attribute. -/
theorem readsAs_number (number : Nat) (asked : Option Bool) :
    Xml.ReadsAs [envelopeBindings asked] ⟨some nsNetconf, "message-id", toString number⟩
      (Xml.withLabel "nc" "message-id", toString number) :=
  .labelled _ (by decide) (by decide) (by decide) (means_envelope asked).1

/-- What is asked about default values is read as an attribute. -/
theorem readsAs_asked (on : Bool) :
    Xml.ReadsAs [envelopeBindings (some on)]
      ⟨some capWithDefaults, "with-defaults", if on then "true" else "false"⟩
      (Xml.withLabel "ncwd" "with-defaults", if on then "true" else "false") :=
  .labelled _ (by decide) (by decide) (by decide) ((means_envelope (some on)).2 rfl)

/-- The declarations of the envelope are read. -/
theorem declaredBindings_envelope (number : Nat) (asked : Option Bool) :
    Xml.declaredBindings ((envelopePairs number asked).map Xml.rawOf) = envelopeBindings asked := by
  have hdeclared : ∀ b, (Xml.rawOf (declarationPair b)).binding? = some b := fun b =>
    Xml.binding?_declaration b b.ns
  have hnumber := (readsAs_number number asked).binding?_eq_none
  unfold Xml.declaredBindings envelopePairs
  cases asked with
  | none =>
    simp only [List.map_cons, List.filterMap_cons, hdeclared, hnumber]
    rfl
  | some on =>
    have hasked := (readsAs_asked on).binding?_eq_none
    simp only [Option.toList_some, List.flatMap_singleton, List.map_cons, List.filterMap_cons,
      hdeclared, hnumber, hasked]
    rfl

/-- The envelope of a request is read as its element. -/
theorem readElement_envelope {tree : Tree} {parent : Option NodeId}
    (hknows : Xml.Knows tree parent []) (number : Nat) (asked : Option Bool) :
    Xml.readElement tree none parent (Xml.withLabel "nc" "rpc").toList
        ((envelopePairs number asked).flatMap Xml.attributeChars) =
      .ok { envelopeElement number asked with bindings := envelopeBindings asked } := by
  have hresolve : Xml.resolve tree (envelopeBindings asked) parent "nc" = some nsNetconf :=
    (hknows.resolve_eq (fun _ => rfl) (Or.inr (by rw [(means_envelope asked).1]; rfl))).trans
      (means_envelope asked).1
  have hdeclared : ∀ (b : Binding) (e : Element) (rest : List Xml.RawAttribute),
      Xml.addAttributes tree (envelopeBindings asked) parent e
          (Xml.rawOf (declarationPair b) :: rest) =
        Xml.addAttributes tree (envelopeBindings asked) parent e rest := fun b =>
    Xml.addAttributes_declared [b]
  have hnumber : ∀ e : Element, (some nsNetconf, "message-id") ∉ e.attributeNames →
      Xml.addAttribute tree (envelopeBindings asked) parent e
          (Xml.rawOf (Xml.withLabel "nc" "message-id", toString number)) =
        .ok { e with attributes :=
          e.attributes ++ [⟨some nsNetconf, "message-id", toString number⟩] } := fun e hnew =>
    (readsAs_number number asked).addAttribute_eq hknows (fun _ => rfl)
      (by decide : some nsNetconf ≠ some nsXmlns) hnew
  unfold Xml.readElement
  rw [Xml.readAttributes_written (isKey_envelopePairs number asked)
    (nodup_envelopePairs number asked)]
  dsimp only
  rw [Xml.splitName_withLabel (Or.inr (by decide)) (by decide), declaredBindings_envelope]
  dsimp only
  rw [hresolve, envelopePairs, List.map_cons, List.map_cons, hdeclared, Xml.addAttributes,
    hnumber _ (by exact List.not_mem_nil)]
  cases asked with
  | none => rfl
  | some on =>
    have hasked : ∀ e : Element, (some capWithDefaults, "with-defaults") ∉ e.attributeNames →
        Xml.addAttribute tree (envelopeBindings (some on)) parent e
          (Xml.rawOf (Xml.withLabel "ncwd" "with-defaults", if on then "true" else "false")) =
        .ok { e with attributes := e.attributes ++
          [⟨some capWithDefaults, "with-defaults", if on then "true" else "false"⟩] } :=
      fun e hnew => (readsAs_asked on).addAttribute_eq hknows (fun _ => rfl)
        (by decide : some capWithDefaults ≠ some nsXmlns) hnew
    have hnew : (some capWithDefaults, "with-defaults") ∉ [(some nsNetconf, "message-id")] := by
      decide
    dsimp only
    rw [Option.toList_some, List.flatMap_singleton, List.map_cons, List.map_cons, hdeclared,
      Xml.addAttributes, hasked _ (by exact hnew)]
    rfl

/-- The attributes of the envelope are written as its declarations and attributes. -/
theorem toList_envelopeAttributes (number : Nat) (asked : Option Bool) :
    (Terms.declares "nc" nsNetconf ++ " nc:message-id=\"" ++ toString number ++ "\""
        ++ (match asked with
          | some on =>
            Terms.declares "ncwd" capWithDefaults ++ " ncwd:with-defaults=\""
              ++ (if on then "true" else "false") ++ "\""
          | none => "")).toList
      = (envelopePairs number asked).flatMap Xml.attributeChars := by
  have hns : Xml.escape true nsNetconf.toList = nsNetconf.toList := by decide +kernel
  have hcap : Xml.escape true capWithDefaults.toList = capWithDefaults.toList := by decide +kernel
  have hword : ∀ on : Bool, Xml.escape true (if on then "true" else "false").toList
      = (if on then "true" else "false").toList := by decide
  have hdigits : Xml.escape true (Nat.toDigits 10 number) = Nat.toDigits 10 number := by
    rw [← Text.toList_decimal, Xml.escape_decimal]
  have hnumber : Xml.withLabel "nc" "message-id" = "nc:message-id" := by decide
  have hasked : Xml.withLabel "ncwd" "with-defaults" = "ncwd:with-defaults" := by decide
  have hdeclared : ∀ ns, declarationPair ⟨"nc", ns⟩ = ("xmlns:nc", ns) ∧
      declarationPair ⟨"ncwd", ns⟩ = ("xmlns:ncwd", ns) := fun _ => ⟨rfl, rfl⟩
  cases asked with
  | none =>
    simp [envelopePairs, Xml.attributeChars, Terms.declares, hns, hdigits, hnumber, hdeclared]
  | some on =>
    simp [envelopePairs, Xml.attributeChars, Terms.declares, hns, hcap, hword, hdigits, hnumber,
      hasked, hdeclared]

/-- A request is read as its envelope around what its body conveys. -/
theorem exists_parse_envelope (n : Nat) {number : Nat} {asked : Option Bool} {body : String}
    {bs : List Branch} (hbody : Conveys [envelopeBindings asked] body bs) :
    ∃ d, Xml.parse (.standard n) none (envelope number asked body) = .ok d ∧
      (d.tree.branch d.root).shown = (Branch.mk 0 (envelopeElement number asked) bs).shown := by
  have hknows := Xml.knows_standard n
  have hparsed := Xml.exists_parse_enclosed (e := envelopeElement number asked)
    (Xml.isKey_withLabel (Or.inr (by decide)) (by decide)) (isKey_envelopePairs number asked)
    (toList_envelopeAttributes number asked) (readElement_envelope hknows number asked) hknows
    (Scope.ns?_cons _ _) "" hbody
  have hname : Xml.withLabel "nc" "rpc" = "nc:rpc" := by decide
  have hheard : Xml.heard "" = none := by decide
  rw [hname, hheard, show Xml.escapeText "" = "" from rfl, String.empty_append] at hparsed
  exact hparsed

/-! ## Requests -/

/-- The label of the protocol is bound in an envelope, and no default namespace is. -/
theorem speaks_envelope (asked : Option Bool) :
    Speaks [envelopeBindings asked] "nc" nsNetconf ∧
      Scope.ns? [envelopeBindings asked] "" = none := by
  have hsound : (envelopeBindings asked).labels.Nodup ∧
      ∀ label ∈ (envelopeBindings asked).labels, Xml.isLabel label = true := by
    rcases asked with _ | _ | _ <;> decide
  have hdefault : Scope.ns? [envelopeBindings asked] "" = none := by
    rcases asked with _ | _ | _ <;> decide
  exact ⟨⟨List.forall_mem_singleton.2 hsound, Or.inr (by decide), (means_envelope asked).1,
    by decide⟩, hdefault⟩

/-- The request of a command is read as its document. -/
theorem Session.exists_parse_request {s : Session} {c : Command} {r : Request}
    (hr : s.request? c = some r)
    (hnameable : ∀ selection ∈ c.selections, selection.Nameable (s.prepared c).defaults) (n : Nat) :
    ∃ d, Xml.parse (.standard n) none r.text = .ok d ∧
      (d.tree.branch d.root).shown
        = (c.document s.options (s.prepared c).terms.kept r.number r.asked).shown := by
  obtain ⟨-, hbody, -⟩ := request?_eq_some hr
  obtain ⟨hnc, hdefault⟩ := speaks_envelope r.asked
  exact exists_parse_envelope n
    (Terms.conveys_body hnc hdefault hnameable (preparedBody_eq_ok.1 hbody).2)

/-! ## Hello -/

/-- The hello of a client is read as its document. -/
theorem exists_parse_hello (capabilities : List String) (n : Nat) :
    ∃ d, Xml.parse (.standard n) none (helloText capabilities) = .ok d ∧
      (d.tree.branch d.root).shown = (helloDocument capabilities).shown := by
  have hspeaks : Speaks [⟨[⟨"", nsNetconf⟩]⟩] "" nsNetconf :=
    Speaks.default (fun _ hm => nomatch hm) (by decide)
  have hline : ∀ text, Conveys [⟨[⟨"", nsNetconf⟩]⟩]
      (elementOf "capability" "" (Xml.escapeText text) ++ "\n")
      [.ofText nsNetconf "capability" text] := fun text =>
    (hspeaks.conveys_text (by decide) text).append
      (Xml.conveys_blanks _ (List.forall_mem_singleton.2 rfl))
  have hinside : Conveys [⟨[⟨"", nsNetconf⟩]⟩] _
      [.ofParts nsNetconf "capabilities" ((capBase :: capabilities).map
        (.ofText nsNetconf "capability"))] :=
    hspeaks.conveys_parts (by decide : Xml.isName "capabilities" = true ∧ "capabilities" = _)
      (Xml.conveys_join (capBase :: capabilities) fun text _ => hline text)
  have hannounces := hspeaks.announces (by decide : Xml.isName "hello" = true ∧ "hello" = _) []
    nofun List.nodup_nil
    (by decide +kernel : (" xmlns=\"" ++ nsNetconf ++ "\"").toList = _)
  have hparsed := hannounces.exists_parse n "" hinside
  have hheard : Xml.heard "" = none := by decide
  rw [hheard, show Xml.escapeText "" = "" from rfl, String.empty_append] at hparsed
  exact hparsed

/-- Adding members one by one, each unless it is there, keeps them apart and forgets none. -/
theorem nodup_foldl_distinct (xs seen : List String) (h : seen.Nodup) :
    (xs.foldl (fun seen x => if seen.contains x then seen else seen ++ [x]) seen).Nodup ∧
      ∀ y, y ∈ xs.foldl (fun seen x => if seen.contains x then seen else seen ++ [x]) seen ↔
        y ∈ seen ∨ y ∈ xs := by
  induction xs generalizing seen with
  | nil => exact ⟨h, by simp⟩
  | cons x xs ih =>
    rw [List.foldl_cons]
    split
    · next hx =>
      have hmem : x ∈ seen := by simpa using hx
      refine ⟨(ih seen h).1, fun y => ((ih seen h).2 y).trans ?_⟩
      rw [List.mem_cons]
      exact ⟨Or.imp_right Or.inr, by rintro (hy | rfl | hy) <;> simp [*]⟩
    · next hx =>
      have hnew : x ∉ seen := by simpa using hx
      have hnodup : (seen ++ [x]).Nodup := by
        rw [List.nodup_append_comm]
        exact List.nodup_cons.2 ⟨hnew, h⟩
      refine ⟨(ih _ hnodup).1, fun y => ((ih _ hnodup).2 y).trans ?_⟩
      rw [List.mem_append, List.mem_singleton, List.mem_cons, or_assoc]

/-- The distinct members of a list are those of the list, each once. -/
theorem distinct_spec (xs : List String) : (distinct xs).Nodup ∧ ∀ y, y ∈ distinct xs ↔ y ∈ xs := by
  have hall := nodup_foldl_distinct xs [] List.nodup_nil
  exact ⟨hall.1, fun y => (hall.2 y).trans (by simp)⟩

/-! ## Texts and structure -/

namespace Session

/-- Carrying out a command adds the frame of its request. -/
theorem addsFrame_perform {s : Session} {c : Command} {r : Request} (hr : s.request? c = some r) :
    s.transport.AddsFrame r.text (runOn (perform c) s).2.transport :=
  ((course_perform c s).sameOutput hr).addsFrame

/-- No text that a command is given changes the structure of its request, and no capability that of
the hello. The request is what carrying out the command writes. It is read as the document of the
command; its outline is that of the document with all texts empty, whatever stands for nodes that
the command does not take, and every text is found at its place, which does not depend on the texts
either. The hello is what opening a session writes. It is read as the document of the distinct
capabilities of the client, with an outline that depends on their number. -/
theorem texts_keep_structure {s : Session} {c : Command} {r : Request}
    (hr : s.request? c = some r)
    (hnameable : ∀ selection ∈ c.selections, selection.Nameable (s.prepared c).defaults)
    (config : Config) (n : Nat) :
    s.transport.AddsFrame r.text (runOn (perform c) s).2.transport ∧
    (∃ d, Xml.parse (.standard n) none r.text = .ok d ∧
      (d.tree.branch d.root).shown
        = (c.document s.options (s.prepared c).terms.kept r.number r.asked).shown ∧
      (∀ nodes : Selection → List Branch,
        (∀ selection ∈ c.selections, (s.prepared c).terms.kept selection = nodes selection) →
          (d.tree.branch d.root).outline
            = (c.blank.document s.options nodes 0 r.asked).outline) ∧
      ∀ p ∈ c.spoken s.options, p.FoundIn (d.tree.branch d.root)) ∧
    c.blank.spoken s.options = (c.spoken s.options).map Spoken.blank ∧
    (∀ (transport : Transport) (defaults : Registry), transport.AddsFrame (ownHello config)
      (connect transport config defaults).2.transport) ∧
    (∃ d, Xml.parse (.standard n) none (ownHello config) = .ok d ∧
      (d.tree.branch d.root).shown = (helloDocument (distinct config.capabilities)).shown ∧
      (d.tree.branch d.root).outline
        = (helloDocument (List.replicate (distinct config.capabilities).length "")).outline ∧
      ∀ p ∈ helloSpoken (distinct config.capabilities), p.FoundIn (d.tree.branch d.root)) ∧
    (distinct config.capabilities).Nodup ∧
      ∀ text, text ∈ distinct config.capabilities ↔ text ∈ config.capabilities := by
  obtain ⟨d, hparse, hshown⟩ := exists_parse_request hr hnameable n
  obtain ⟨d', hparse', hshown'⟩ := exists_parse_hello (distinct config.capabilities) n
  refine ⟨addsFrame_perform hr, ⟨d, hparse, hshown, fun nodes hnodes => ?_, fun p hp => ?_⟩,
    c.spoken_blank s.options, fun transport => addsFrame_connect transport config,
    ⟨d', hparse', hshown', ?_, fun p hp => ?_⟩, distinct_spec config.capabilities⟩
  · rw [Branch.outline, hshown, ← Branch.outline, Command.document_congr _ _ _ _ hnodes,
      Command.outline_document]
  · rw [← Spoken.foundIn_shown, hshown, Spoken.foundIn_shown]
    exact c.spoken_document _ _ _ _ p hp
  · rw [Branch.outline, hshown', ← Branch.outline, outline_helloDocument]
  · rw [← Spoken.foundIn_shown, hshown', Spoken.foundIn_shown]
    exact spoken_helloDocument _ p hp

/-- A text that looks like markup, a reference and the end of a literal section, with blanks at
its ends. -/
def oddText : String := " </x><y a=\"1'>&lt;&amp;]]>\t"

/-- A session with a server that can do what the commands below need. -/
def oddSession : Session where
  stage := .established
  capabilities :=
    { features := [.base, .xpath, .notification], url := true, urlSchemes := ["file"] }
  defaults := .standard 1
  withDefaults := some true

/-- A command that takes a text and nodes. -/
def oddCopy : Command := .copyConfig (.config ⟨Tree.hiddenNames, [0]⟩) (.url ("file:" ++ oddText))

/-- A command that takes four texts, one of them blank. -/
def oddSubscription : Command :=
  .createSubscription (some oddText) (.xpath oddText) (some " \n") (some oddText)

/-- A command with a text that becomes an attribute. -/
def oddGet : Command := .get (.xpath oddText)

/-- A client with capabilities of its own, two of them the same. -/
def oddConfig : Config where
  capabilities := [oddText, "urn:example?a=1&b=<2>", oddText]

/-- The names in the nodes of the first command can be written. -/
theorem nameable_oddCopy :
    ∀ selection ∈ oddCopy.selections,
      selection.Nameable (oddSession.prepared oddCopy).defaults := by
  refine List.forall_mem_singleton.2 ⟨Tree.reachable_hiddenNames.orderly,
    List.forall_mem_singleton.2 ⟨?_, ?_, ?_⟩⟩
  · decide +kernel
  · decide +kernel
  · decide +kernel

/-- Odd texts are found at their places in the requests and in the hello, and these are what is
written. -/
theorem texts_keep_structure_oddTexts :
    (∃ r, oddSession.request? oddCopy = some r ∧
      (∀ selection ∈ oddCopy.selections,
        selection.Nameable (oddSession.prepared oddCopy).defaults) ∧
      ∃ d, Xml.parse (.standard 1) none r.text = .ok d ∧
        (Spoken.text [0, 0, 0] ("file:" ++ oddText)).FoundIn (d.tree.branch d.root)) ∧
    (∃ r, oddSession.request? oddSubscription = some r ∧
      ∃ d, Xml.parse (.standard 1) none r.text = .ok d ∧
        ∀ p ∈ [Spoken.text [0, 0] oddText, .text [0, 1] oddText, .text [0, 2] " \n",
          .text [0, 3] oddText], p.FoundIn (d.tree.branch d.root)) ∧
    (∃ r, oddSession.request? oddGet = some r ∧
      (runOn (perform oddGet) oddSession).2.transport.outbound.written =
        Outbound.framed [r.text] ∧
      ∃ d, Xml.parse (.standard 1) none r.text = .ok d ∧
        (Spoken.select [0, 0] oddText).FoundIn (d.tree.branch d.root)) ∧
    (connect {} oddConfig (.standard 1)).2.transport.outbound.written =
      Outbound.framed [ownHello oddConfig] ∧
    ∃ d, Xml.parse (.standard 1) none (ownHello oddConfig) = .ok d ∧
      ∀ p ∈ [Spoken.text [0, 1] oddText, .text [0, 2] "urn:example?a=1&b=<2>"],
        p.FoundIn (d.tree.branch d.root) := by
  obtain ⟨r₁, hr₁⟩ : ∃ r, oddSession.request? oddCopy = some r :=
    Option.isSome_iff_exists.1 (by decide +kernel)
  obtain ⟨r₂, hr₂⟩ : ∃ r, oddSession.request? oddSubscription = some r :=
    Option.isSome_iff_exists.1 (by decide +kernel)
  obtain ⟨r₃, hr₃⟩ : ∃ r, oddSession.request? oddGet = some r :=
    Option.isSome_iff_exists.1 (by decide +kernel)
  obtain ⟨-, ⟨d₁, hparse₁, -, -, hfound₁⟩, -, hopened, ⟨d, hparse, -, -, hfound⟩, -⟩ :=
    texts_keep_structure hr₁ nameable_oddCopy oddConfig 1
  obtain ⟨-, ⟨d₂, hparse₂, -, -, hfound₂⟩, -⟩ := texts_keep_structure hr₂ nofun oddConfig 1
  obtain ⟨hwritten, ⟨d₃, hparse₃, -, -, hfound₃⟩, -⟩ := texts_keep_structure hr₃ nofun oddConfig 1
  exact ⟨⟨r₁, hr₁, nameable_oddCopy, d₁, hparse₁, hfound₁ _ List.mem_cons_self⟩,
    ⟨r₂, hr₂, d₂, hparse₂, hfound₂⟩,
    ⟨r₃, hr₃, (hwritten rfl rfl).trans String.empty_append, d₃, hparse₃,
      hfound₃ _ List.mem_cons_self⟩,
    (hopened {} (.standard 1) rfl rfl).trans String.empty_append, d, hparse, hfound⟩

end Session

end Netconf
