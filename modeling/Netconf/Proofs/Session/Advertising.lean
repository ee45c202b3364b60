import Netconf.Proofs.Capability.Listing
import Netconf.Proofs.Session.Gates
import Netconf.Proofs.Tree.Slots

/-!
# Advertising one capability more

A server whose hello has one capability string more has the same features and more, and tells the
same revisions and more. So the requests that could be made for it before can still be made, with
two exceptions (`Session.supports_concat`). A string that lists schemes takes the place of the lists
in front of it, so that a URL whose scheme is not listed again is refused from then on. And a string
of a data model can tell a revision that was not known before, so that a tree may turn out to hold
what the peer does not know.

What a request depends on is followed through its parts as in the module on gates. `Follows` says
how an outcome towards the second server goes with the outcome towards the first, and each part of a
body has one lemma that says that it follows.
-/

namespace Netconf

/-! ## Capability sets -/

namespace Capabilities

/-- Adding a string takes no feature away. -/
theorem has_add_of_has {c : Capabilities} {f : Feature} (raw : String) (h : c.has f = true) :
    (c.add raw).has f = true := by
  rw [has_add, h, Bool.true_or]

/-- Adding a string does not end the use of URLs. -/
theorem url_add_of_url {c : Capabilities} (raw : String) (h : c.url = true) :
    (c.add raw).url = true := by
  rw [url_add, h, Bool.true_or]

/-- A URI that is listed stays listed. -/
theorem hasUri_add_of_hasUri {c : Capabilities} {uri : String} (raw : String)
    (h : c.hasUri uri = true) : (c.add raw).hasUri uri = true := by
  unfold hasUri at h ⊢
  rw [all_add, List.any_append, h, Bool.true_or]

/-- A revision that is told stays the same: it is that of the first data model of the URI. -/
theorem revision?_add_of_revision? {c : Capabilities} {uri r : String} (raw : String)
    (h : c.revision? uri = some r) : (c.add raw).revision? uri = some r := by
  unfold revision? at h ⊢
  obtain ⟨a, hfirst, hr⟩ := Option.bind_eq_some_iff.1 h
  rw [data_add, List.find?_append, hfirst]
  exact hr

/-- What one server can do, another can do as well. Of URLs this says only whether there are any
that can be used. -/
structure Covers (caps' caps : Capabilities) : Prop where
  /-- The features are there. -/
  features : ∀ f, caps.has f = true → caps'.has f = true
  /-- URLs can be used. -/
  url : caps.url = true → caps'.url = true
  /-- The URIs are listed. -/
  uris : ∀ uri, caps.hasUri uri = true → caps'.hasUri uri = true
  /-- The revisions are told. -/
  revisions : ∀ uri r, caps.revision? uri = some r → caps'.revision? uri = some r

/-- With one string more a server can do what it could do. -/
theorem covers_add (caps : Capabilities) (raw : String) : (caps.add raw).Covers caps where
  features _ := has_add_of_has raw
  url := url_add_of_url raw
  uris _ := hasUri_add_of_hasUri raw
  revisions _ _ := revision?_add_of_revision? raw

/-- A server that can do as much and tells other revisions tells one that the first does not. -/
theorem Covers.exists_revision {caps caps' : Capabilities} (hmore : caps'.Covers caps)
    (h : caps.revision? ≠ caps'.revision?) :
    ∃ uri r, caps.revision? uri = none ∧ caps'.revision? uri = some r := by
  obtain ⟨uri, huri⟩ := Function.ne_iff.1 h
  cases hr : caps.revision? uri with
  | some r => exact absurd (hr.trans (hmore.revisions uri r hr).symm) huri
  | none =>
    obtain ⟨r, hr'⟩ := Option.ne_none_iff_exists'.1 (hr ▸ huri).symm
    exact ⟨uri, r, hr, hr'⟩

/-- A scheme that could be used can still be used unless the string lists schemes without it. -/
theorem hasScheme_add_iff {c : Capabilities} {scheme : String} (raw : String)
    (h : c.hasScheme scheme = true) :
    (c.add raw).hasScheme scheme = true ↔ ∀ list, schemes? raw = some list → scheme ∈ list := by
  unfold hasScheme at h ⊢
  obtain ⟨hurl, hscheme⟩ := Bool.and_eq_true_iff.1 h
  rw [url_add_of_url raw hurl, Bool.true_and, urlSchemes_add]
  cases schemes? raw with
  | none => simpa using hscheme
  | some list => simp

/-- Does a string list schemes, and not the one of a URL? -/
def Drops (raw url : String) : Prop :=
  ∃ list, schemes? raw = some list ∧ ∀ scheme ∈ list, ¬ (scheme ++ ":").toList <+: url.toList

/-- A URL starts with a scheme that can be used. -/
theorem acceptsUrl_iff {c : Capabilities} {url : String} :
    c.acceptsUrl url = true ↔ ∃ scheme ∈ c.urlSchemes, (scheme ++ ":").toList <+: url.toList := by
  simp only [acceptsUrl, List.any_eq_true, List.isPrefixOf_iff_prefix]

/-- A URL that could be used can still be used unless the string drops it. -/
theorem acceptsUrl_add_iff {c : Capabilities} {url : String} (raw : String)
    (h : c.acceptsUrl url = true) : (c.add raw).acceptsUrl url = true ↔ ¬ Drops raw url := by
  rw [acceptsUrl_iff] at h ⊢
  rw [urlSchemes_add]
  unfold Drops
  cases schemes? raw with
  | none => simpa using h
  | some list => simp

end Capabilities

/-! ## Outcomes towards two servers -/

section

variable {α β : Type} {same : Prop}

/-- An outcome towards one server follows that towards another: a result stays a result, and trees
that were encoded may only turn out to hold what the peer does not know. Where the peers are the
`same`, the result is the same. -/
def Follows (same : Prop) (x y : Except Error α) : Prop :=
  ∀ a, x = .ok a → y = .ok a ∨ ¬ same ∧ ((∃ b, y = .ok b) ∨ ∃ e, y = .error (.revision e))

/-- What does not depend on the server follows itself. -/
theorem Follows.refl (x : Except Error α) : Follows same x x := fun _ h => .inl h

/-- Texts that are made of the same parts. -/
theorem Follows.of_imp {a b : α} (h : same → a = b) : Follows same (.ok a) (.ok b) := by
  intro r hr
  cases hr
  by_cases hsame : same
  · exact .inl (by rw [h hsame])
  · exact .inr ⟨hsame, .inl ⟨b, rfl⟩⟩

/-- One computation after another. -/
theorem Follows.bind {x y : Except Error α} {f g : α → Except Error β} (h : Follows same x y)
    (hnext : ∀ a b, (same → a = b) → Follows same (f a) (g b)) :
    Follows same (x >>= f) (y >>= g) := by
  intro r hr
  obtain ⟨a, hx, hf⟩ := bind_eq_ok.1 hr
  obtain hy | ⟨hsame, ⟨b, hy⟩ | ⟨e, hy⟩⟩ := h a hx
  · rw [hy]
    exact hnext a a (fun _ => rfl) r hf
  · rw [hy]
    exact hnext a b (fun h => absurd h hsame) r hf
  · rw [hy]
    exact .inr ⟨hsame, .inr ⟨e, rfl⟩⟩

/-- A text around another. -/
theorem Follows.map {x y : Except Error α} (f : α → β) (h : Follows same x y) :
    Follows same (x >>= fun a => pure (f a)) (y >>= fun a => pure (f a)) :=
  Follows.bind h fun _ _ hab => Follows.of_imp fun hsame => congrArg f (hab hsame)

/-- A check in front. -/
theorem Follows.check {x y : Except Error Unit} {f g : Unit → Except Error β}
    (h : x = .ok () → y = .ok ()) (hnext : Follows same (f ()) (g ())) :
    Follows same (x >>= f) (y >>= g) := by
  intro r hr
  obtain ⟨_, hx, hf⟩ := bind_eq_ok.1 hr
  rw [h hx]
  exact hnext r hf

/-- A check in front, under a condition. -/
theorem Follows.guard {p : Prop} [Decidable p] {x y : Except Error Unit}
    {f g : Unit → Except Error β} (h : x = .ok () → y = .ok ())
    (hnext : Follows same (f ()) (g ())) :
    Follows same (if p then x >>= f else f ()) (if p then y >>= g else g ()) := by
  split
  · exact Follows.check h hnext
  · exact hnext

end

/-! ## Encoding -/

/-- What is written for a peer depends on the revisions that it tells. -/
theorem Xml.writeBranch_congr {caps caps' : Capabilities} (h : caps.revision? = caps'.revision?)
    (defaults : Bindings) (above : Lineage) (siblings : List Element) (scope : Scope) (depth : Nat)
    (b : Branch) :
    writeBranch { peer := some caps } defaults above siblings scope depth b =
      writeBranch { peer := some caps' } defaults above siblings scope depth b := by
  have hleft (above : Lineage) (siblings : List Element) (e : Element) :
      leavesOut { peer := some caps } defaults above siblings e =
        leavesOut { peer := some caps' } defaults above siblings e := by
    simp only [leavesOut, Option.bind_some, h]
  refine (Branch.mutualInduction
    (P := fun b => ∀ above siblings scope depth,
      writeBranch { peer := some caps } defaults above siblings scope depth b =
        writeBranch { peer := some caps' } defaults above siblings scope depth b)
    (Q := fun bs => ∀ above siblings scope depth,
      writeAll { peer := some caps } defaults above siblings scope depth bs =
        writeAll { peer := some caps' } defaults above siblings scope depth bs) ?_ ?_ ?_).1 b above
    siblings scope depth
  · intro id e children ih above siblings scope depth
    rw [writeBranch, writeBranch, hleft]
    dsimp only
    rw [ih]
    rfl
  · intro above siblings scope depth
    rfl
  · intro b bs ihb ihbs above siblings scope depth
    rw [writeAll, writeAll, ihb, ihbs]
    rfl

namespace Terms

variable {t : Terms} {caps : Capabilities}

/-- The same terms towards another server. -/
def towards (t : Terms) (caps : Capabilities) : Terms := { t with capabilities := caps }

/-- Encoding fails only for what the peer does not know. -/
theorem encodeAll_cases (t : Terms) (tree : Tree) (ids : List NodeId) :
    (∃ text, t.encodeAll tree ids = .ok text) ∨
      ∃ e, t.encodeAll tree ids = .error (.revision e) := by
  induction ids with
  | nil => exact .inl ⟨"", rfl⟩
  | cons id ids ih =>
    rw [encodeAll]
    split
    · exact .inr ⟨_, rfl⟩
    · obtain ⟨others, hothers⟩ | ⟨e, he⟩ := ih
      · exact .inl ⟨_, by rw [hothers]⟩
      · exact .inr ⟨e, by rw [he]⟩

/-- Trees are encoded in the same way for a server that tells the same revisions. -/
theorem encodeAll_congr (h : t.capabilities.revision? = caps.revision?) (tree : Tree)
    (ids : List NodeId) : (t.towards caps).encodeAll tree ids = t.encodeAll tree ids := by
  induction ids with
  | nil => rfl
  | cons id ids ih =>
    rw [encodeAll, encodeAll, ih]
    simp only [Tree.encode, Xml.writeBranch_congr h]
    rfl

/-- The encoded trees follow. -/
theorem encodeAll_follows (t : Terms) (caps : Capabilities) (tree : Tree) (ids : List NodeId) :
    Follows (t.capabilities.revision? = caps.revision?) (t.encodeAll tree ids)
      ((t.towards caps).encodeAll tree ids) := by
  intro text htext
  by_cases hsame : t.capabilities.revision? = caps.revision?
  · exact .inl ((encodeAll_congr hsame tree ids).trans htext)
  · exact .inr ⟨hsame, encodeAll_cases _ tree ids⟩

/-! ## Bodies -/

section

variable (hmore : ∀ f, t.capabilities.has f = true → caps.has f = true)
include hmore

/-- A required feature is still there. -/
theorem require_towards {f : Feature} (h : t.require f = .ok ()) :
    (t.towards caps).require f = .ok () :=
  require_eq_ok.2 (hmore f (require_eq_ok.1 h))

/-- So is what the use of a datastore needs. -/
theorem requireDatastore_towards {d : Datastore} {write : Bool}
    (h : t.requireDatastore d write = .ok ()) :
    (t.towards caps).requireDatastore d write = .ok () :=
  requireDatastore_eq_ok.2 fun f hf => hmore f (requireDatastore_eq_ok.1 h f hf)

/-- The binding of an extension is still brought. -/
theorem extension_towards {c : Command} {b : Option Binding} (h : t.extension c = .ok b) :
    (t.towards caps).extension c = .ok b := by
  cases c with
  | action tree node =>
    obtain ⟨_, hactions, hb⟩ := bind_eq_ok.1 h
    exact bind_eq_ok.2 ⟨(), require_towards hmore hactions, hb⟩
  | startTransaction target =>
    obtain ⟨_, htarget, h⟩ := bind_eq_ok.1 h
    obtain ⟨_, htransactions, hb⟩ := bind_eq_ok.1 h
    exact bind_eq_ok.2 ⟨(), requireDatastore_towards hmore htarget,
      bind_eq_ok.2 ⟨(), require_towards hmore htransactions, hb⟩⟩
  | transaction step =>
    obtain ⟨_, htransactions, hb⟩ := bind_eq_ok.1 h
    exact bind_eq_ok.2 ⟨(), require_towards hmore htransactions, hb⟩
  | _ => exact h

/-- The options of an edit follow. -/
theorem optionsText_follows {same : Prop} :
    Follows same t.optionsText (t.towards caps).optionsText := by
  unfold optionsText
  exact Follows.guard (require_towards hmore)
    (Follows.guard (require_towards hmore) (Follows.refl _))

/-- An edit follows if what it loads does. -/
theorem editText_follows {same : Prop} {target : Datastore} {config config' : String}
    (h : same → config = config') :
    Follows same (t.editText target config) ((t.towards caps).editText target config') := by
  refine Follows.check (requireDatastore_towards hmore) ?_
  refine Follows.bind (optionsText_follows hmore) fun options options' hoptions => ?_
  exact Follows.of_imp fun hsame => by rw [hoptions hsame, h hsame]

/-- A filter follows. -/
theorem filterText_follows (filter : Filter) :
    Follows (t.capabilities.revision? = caps.revision?) (t.filterText filter)
      ((t.towards caps).filterText filter) := by
  cases filter with
  | all => exact Follows.refl _
  | subtree s => exact Follows.map _ (encodeAll_follows t caps s.tree s.nodes)
  | xpath expression => exact Follows.check (require_towards hmore) (Follows.refl _)

/-- The filter of a subscription follows. -/
theorem subscriptionFilterText_follows (filter : Filter) :
    Follows (t.capabilities.revision? = caps.revision?) (t.subscriptionFilterText filter)
      ((t.towards caps).subscriptionFilterText filter) := by
  cases filter with
  | all => exact Follows.refl _
  | subtree s => exact Follows.map _ (encodeAll_follows t caps s.tree s.nodes)
  | xpath expression => exact Follows.check (require_towards hmore) (Follows.refl _)

/-- A lock operation follows. -/
theorem lockText_follows {same : Prop} (name : String) (target : Datastore) :
    Follows same (t.lockText name target) ((t.towards caps).lockText name target) :=
  Follows.check (requireDatastore_towards hmore) (Follows.refl _)

/-- A target follows if the server can use its URL. -/
theorem targetText_follows {same : Prop} {target : Target}
    (hurl : ∀ url ∈ target.url?, (t.towards caps).requireUrl url = .ok ()) :
    Follows same (t.targetText target) ((t.towards caps).targetText target) := by
  cases target with
  | datastore d => exact Follows.check (requireDatastore_towards hmore) (Follows.refl _)
  | url url => exact Follows.check (fun _ => hurl url rfl) (Follows.refl _)

/-- A source follows if the server can use its URL. -/
theorem sourceText_follows {source : Source}
    (hurl : ∀ url ∈ source.url?, (t.towards caps).requireUrl url = .ok ()) :
    Follows (t.capabilities.revision? = caps.revision?) (t.sourceText source)
      ((t.towards caps).sourceText source) := by
  cases source with
  | datastore d => exact Follows.check (requireDatastore_towards hmore) (Follows.refl _)
  | url url => exact Follows.check (fun _ => hurl url rfl) (Follows.refl _)
  | config s => exact Follows.map _ (encodeAll_follows t caps s.tree s.nodes)

/-- The body of a request follows if the server can use the URLs of the command. -/
theorem body_follows {c : Command}
    (hurls : ∀ url ∈ c.urls, (t.towards caps).requireUrl url = .ok ()) :
    Follows (t.capabilities.revision? = caps.revision?) (t.body c) ((t.towards caps).body c) := by
  cases c with
  | get filter => exact Follows.map _ (filterText_follows hmore filter)
  | getConfig source filter =>
    refine Follows.check (requireDatastore_towards hmore) ?_
    exact Follows.map _ (filterText_follows hmore filter)
  | editConfig target config =>
    refine Follows.bind (encodeAll_follows t caps config.tree config.nodes)
      fun text text' htext => ?_
    exact editText_follows hmore fun hsame => by rw [htext hsame]
  | editConfigUrl target url =>
    have hurl : (t.towards caps).requireUrl url = .ok () := hurls url (List.mem_singleton.2 rfl)
    refine Follows.bind (Follows.check (fun _ => hurl) (Follows.refl _)) fun text text' htext => ?_
    exact editText_follows hmore htext
  | copyConfig source target =>
    refine Follows.bind (targetText_follows hmore fun url hurl =>
      hurls url (List.mem_append_right _ (Option.mem_toList.2 hurl))) fun place place' hplace => ?_
    refine Follows.bind (sourceText_follows hmore fun url hurl =>
      hurls url (List.mem_append_left _ (Option.mem_toList.2 hurl))) fun text text' htext => ?_
    exact Follows.of_imp fun hsame => by rw [hplace hsame, htext hsame]
  | deleteConfig target =>
    unfold body
    refine Follows.guard id ?_
    exact Follows.map _ (targetText_follows hmore fun url hurl =>
      hurls url (Option.mem_toList.2 hurl))
  | lock target => exact lockText_follows hmore _ target
  | unlock target => exact lockText_follows hmore _ target
  | partialLock selects => exact Follows.check (require_towards hmore) (Follows.refl _)
  | partialUnlock lockId => exact Follows.check (require_towards hmore) (Follows.refl _)
  | commit => exact Follows.check (require_towards hmore) (Follows.refl _)
  | confirmedCommit seconds =>
    refine Follows.check (require_towards hmore) ?_
    exact Follows.check (require_towards hmore) (Follows.refl _)
  | discardChanges => exact Follows.check (require_towards hmore) (Follows.refl _)
  | validate source =>
    refine Follows.check (require_towards hmore) ?_
    exact Follows.map _ (sourceText_follows hmore fun url hurl =>
      hurls url (Option.mem_toList.2 hurl))
  | createSubscription stream filter start stop =>
    refine Follows.check (require_towards hmore) ?_
    exact Follows.map _ (subscriptionFilterText_follows hmore filter)
  | getStreams => exact Follows.map _ (filterText_follows hmore _)
  | action tree node => exact Follows.map _ (encodeAll_follows t caps tree [node])
  | rpc tree node => exact encodeAll_follows t caps tree [node]
  | startTransaction target => exact Follows.refl _
  | transaction step => exact Follows.refl _
  | closeSession => exact Follows.refl _
  | killSession sessionId => exact Follows.refl _

end

/-! ## URLs that cannot be used any more -/

section

variable (hurl : caps.url = true)
include hurl

/-- A server that can use URLs is required to accept the one that is named. -/
theorem requireUrl_towards (url : String) :
    (t.towards caps).requireUrl url =
      if caps.acceptsUrl url then .ok () else .error (.session (.urlScheme url)) := by
  unfold requireUrl towards
  dsimp only
  rw [hurl]
  rfl

/-- A URL that the server does not accept is refused. -/
theorem urlText_towards {url : String} (h : caps.acceptsUrl url = false) :
    (t.towards caps).urlText url = .error (.session (.urlScheme url)) := by
  unfold urlText
  rw [requireUrl_towards hurl, h]
  rfl

/-- A target is refused if the server does not accept its URL. -/
theorem targetText_towards {target : Target} {url : String} (htarget : target.url? = some url)
    (h : caps.acceptsUrl url = false) :
    (t.towards caps).targetText target = .error (.session (.urlScheme url)) := by
  cases target with
  | datastore d => cases htarget
  | url other =>
    obtain rfl := Option.some.inj htarget
    exact urlText_towards hurl h

/-- A source is refused if the server does not accept its URL. -/
theorem sourceText_towards {source : Source} {url : String} (hsource : source.url? = some url)
    (h : caps.acceptsUrl url = false) :
    (t.towards caps).sourceText source = .error (.session (.urlScheme url)) := by
  cases source with
  | datastore d => cases hsource
  | url other =>
    obtain rfl := Option.some.inj hsource
    exact urlText_towards hurl h
  | config s => cases hsource

/-- A command that could be sent is refused if the server does not accept a URL that it names. -/
theorem body_towards (hmore : ∀ f, t.capabilities.has f = true → caps.has f = true) {c : Command}
    {text url : String} (hbody : t.body c = .ok text) (hmem : url ∈ c.urls)
    (h : caps.acceptsUrl url = false) :
    ∃ url ∈ c.urls, (t.towards caps).body c = .error (.session (.urlScheme url)) := by
  cases c with
  | editConfigUrl target other =>
    obtain rfl := List.mem_singleton.1 hmem
    refine ⟨_, hmem, ?_⟩
    rw [body, urlText_towards hurl h]
    rfl
  | copyConfig source target =>
    obtain ⟨place, hplace, -⟩ := bind_eq_ok.1 hbody
    by_cases htarget : ∃ other ∈ target.url?, caps.acceptsUrl other = false
    · obtain ⟨other, hother, hno⟩ := htarget
      refine ⟨other, List.mem_append_right _ (Option.mem_toList.2 hother), ?_⟩
      rw [body, targetText_towards hurl hother hno]
      rfl
    · -- the target is written before the source is refused
      have haccepted : ∀ other ∈ target.url?, (t.towards caps).requireUrl other = .ok () := by
        intro other hother
        rw [requireUrl_towards hurl, if_pos]
        simpa using fun hno => htarget ⟨other, hother, hno⟩
      have hfollows : Follows True (t.targetText target) ((t.towards caps).targetText target) :=
        targetText_follows hmore haccepted
      have hwritten : (t.towards caps).targetText target = .ok place :=
        (hfollows place hplace).resolve_right (by simp)
      have hsource : url ∈ source.url?.toList :=
        (List.mem_append.1 hmem).resolve_right fun hother =>
          htarget ⟨url, Option.mem_toList.1 hother, h⟩
      refine ⟨url, hmem, ?_⟩
      rw [body, hwritten, sourceText_towards hurl (Option.mem_toList.1 hsource) h]
      rfl
  | deleteConfig target =>
    refine ⟨url, hmem, ?_⟩
    have hdatastore : target ≠ .datastore .running := (deleteConfig_ok hbody).1
    rw [body, if_neg hdatastore, targetText_towards hurl (Option.mem_toList.1 hmem) h]
    rfl
  | validate source =>
    refine ⟨url, hmem, ?_⟩
    obtain ⟨_, hvalidate, -⟩ := bind_eq_ok.1 hbody
    rw [body, require_towards hmore hvalidate, sourceText_towards hurl (Option.mem_toList.1 hmem) h]
    rfl
  | _ => cases hmem

end

end Terms

/-! ## Sessions -/

namespace Session

/-- The same session with another server. -/
def towards (s : Session) (caps : Capabilities) : Session := { s with capabilities := caps }

/-- Where a body could be prepared, preparing it for a server that can do more is making it for that
server. -/
theorem preparedBody_towards {c : Command} {s : Session} {caps : Capabilities} {body : String}
    (hmore : caps.Covers s.capabilities) (h : s.preparedBody c = .ok body) :
    (s.towards caps).preparedBody c = ((s.prepared c).terms.towards caps).body c := by
  obtain ⟨⟨b, hb⟩, -⟩ := preparedBody_eq_ok.1 h
  have hextension : (s.towards caps).terms.extension c = .ok b :=
    Terms.extension_towards hmore.features hb
  unfold preparedBody prepared preparedDefaults
  rw [hextension, hb]
  rfl

section

open Capabilities

variable {c : Command} {s : Session} {body : String}

/-- Asking for default values goes on as before once the server can do more. -/
theorem reportDefaults_towards {caps : Capabilities} (hmore : caps.Covers s.capabilities)
    (on : Bool) (h : (runOn (reportDefaults on) s).1 = .ok ()) :
    (runOn (reportDefaults on) (s.towards caps)).1 = .ok () := by
  rw [runOn_reportDefaults] at h ⊢
  split at h
  · next hhas =>
    have hstill : (s.towards caps).capabilities.has .withDefaults = true :=
      hmore.features _ hhas
    rw [if_pos hstill]
  · cases h

/-- A URL that a command could name is accepted once the server has one string more, unless the
string drops it. -/
theorem acceptsUrl_of_preparedBody (raw : String) (h : s.preparedBody c = .ok body) {url : String}
    (hmem : url ∈ c.urls) :
    (s.capabilities.add raw).url = true ∧
      ((s.capabilities.add raw).acceptsUrl url = true ↔ ¬ Drops raw url) := by
  obtain ⟨hurl, hscheme⟩ := (admits_of_preparedBody h).urls url hmem
  exact ⟨url_add_of_url raw hurl, acceptsUrl_add_iff raw (acceptsUrl_iff.2 hscheme)⟩

/-- A command that could be sent goes on once the server has one string more, as before where the
revisions are the same, if the string drops no URL of the command. -/
theorem preparedBody_follows (raw : String) (h : s.preparedBody c = .ok body)
    (hurls : ∀ url ∈ c.urls, ¬ Drops raw url) :
    Follows (s.capabilities.revision? = (s.capabilities.add raw).revision?) (s.preparedBody c)
      ((s.towards (s.capabilities.add raw)).preparedBody c) := by
  have hmore := s.capabilities.covers_add raw
  have hbody := (preparedBody_eq_ok.1 h).2
  have haccepted : ∀ url ∈ c.urls,
      ((s.prepared c).terms.towards (s.capabilities.add raw)).requireUrl url = .ok () := by
    intro url hmem
    obtain ⟨hurl, haccepts⟩ := acceptsUrl_of_preparedBody raw h hmem
    rw [Terms.requireUrl_towards hurl, if_pos (haccepts.2 (hurls url hmem))]
  -- the preparation adds a binding only, so the body follows as it does for the terms
  rw [preparedBody_towards hmore h, h, ← hbody]
  exact Terms.body_follows hmore.features haccepted

/-- A command that could be sent is refused once the server has one string more, if the string drops
a URL of the command. -/
theorem preparedBody_refused {raw : String} (h : s.preparedBody c = .ok body)
    (hdrops : ∃ url ∈ c.urls, Drops raw url) :
    ∃ url ∈ c.urls, (s.towards (s.capabilities.add raw)).preparedBody c =
      .error (.session (.urlScheme url)) := by
  obtain ⟨url, hmem, hdrops⟩ := hdrops
  have hmore := s.capabilities.covers_add raw
  obtain ⟨hurl, haccepts⟩ := acceptsUrl_of_preparedBody raw h hmem
  have hno : (s.capabilities.add raw).acceptsUrl url = false := by
    simpa using fun hyes => haccepts.1 hyes hdrops
  rw [preparedBody_towards hmore h]
  exact Terms.body_towards hurl hmore.features (preparedBody_eq_ok.1 h).2 hmem hno

/-- A server whose hello has one capability string more can do what it could do before, tells the
revisions that it told before, and can use the schemes of URLs that it could use, unless the string
lists schemes without them. A session can ask it for default values as before. And a command that
could be sent before is refused for a URL just when the string drops one that the command names.
Otherwise its request is the same as before, unless a revision is told that was not told before:
then trees may be encoded in another way, or turn out to hold what the peer does not know. -/
theorem supports_concat (uris : List String) (further : String) :
    (ofUris (uris ++ [further])).Covers (ofUris uris) ∧
      (∀ scheme, (ofUris uris).hasScheme scheme = true →
        ((ofUris (uris ++ [further])).hasScheme scheme = true ↔
          ∀ list, schemes? (Text.trim further) = some list → scheme ∈ list)) ∧
      ∀ s : Session, s.capabilities = ofUris uris →
        (∀ on, (runOn (reportDefaults on) s).1 = .ok () →
          (runOn (reportDefaults on) (s.towards (ofUris (uris ++ [further])))).1 = .ok ()) ∧
        ∀ c body, s.preparedBody c = .ok body →
          ((∃ url ∈ c.urls, (s.towards (ofUris (uris ++ [further]))).preparedBody c =
              .error (.session (.urlScheme url))) ↔
            ∃ url ∈ c.urls, Drops (Text.trim further) url) ∧
          ((∀ url ∈ c.urls, ¬ Drops (Text.trim further) url) →
            (s.towards (ofUris (uris ++ [further]))).preparedBody c = .ok body ∨
              (∃ uri r, (ofUris uris).revision? uri = none ∧
                  (ofUris (uris ++ [further])).revision? uri = some r) ∧
                ((∃ other, (s.towards (ofUris (uris ++ [further]))).preparedBody c = .ok other) ∨
                  ∃ e, (s.towards (ofUris (uris ++ [further]))).preparedBody c =
                    .error (.revision e))) := by
  rw [ofUris_concat]
  have hmore := (ofUris uris).covers_add (Text.trim further)
  refine ⟨hmore, fun scheme => hasScheme_add_iff _, fun s hs => ?_⟩
  rw [← hs] at hmore ⊢
  refine ⟨fun on => reportDefaults_towards hmore on, fun c body h => ⟨⟨?_, preparedBody_refused h⟩,
    fun hurls => ?_⟩⟩
  · rintro ⟨url, -, hrefused⟩
    by_contra hdrops
    have hurls : ∀ url ∈ c.urls, ¬ Drops (Text.trim further) url := fun url hmem hurl =>
      hdrops ⟨url, hmem, hurl⟩
    have hfollows := preparedBody_follows (Text.trim further) h hurls body h
    rw [hrefused] at hfollows
    simp at hfollows
  · exact (preparedBody_follows (Text.trim further) h hurls body h).imp_right fun hother =>
      ⟨hmore.exists_revision hother.1, hother.2⟩

/-- The hello of a server that can use files. -/
def fileUris : List String := [capBase, standardUri "candidate", capUrlSchemes ++ "file"]

/-- The use of web pages in the early form, which lists its schemes as the query. -/
def webUri : String := earlyUri "url" ++ "?http"

/-- A session with the server that can use files. -/
def fileSession : Session := { stage := .established, capabilities := ofUris fileUris }

/-- With the use of web pages the server can be asked to commit as before, but no longer to delete a
file. -/
theorem supports_concat_webUri :
    fileSession.capabilities = ofUris fileUris ∧
      (∃ body, fileSession.preparedBody .commit = .ok body ∧
        (fileSession.towards (ofUris (fileUris ++ [webUri]))).preparedBody .commit = .ok body) ∧
      (∃ body, fileSession.preparedBody (.deleteConfig (.url "file:///cfg")) = .ok body) ∧
      Drops (Text.trim webUri) "file:///cfg" ∧
      ∃ url ∈ (Command.deleteConfig (.url "file:///cfg")).urls,
        (fileSession.towards (ofUris (fileUris ++ [webUri]))).preparedBody
            (.deleteConfig (.url "file:///cfg")) = .error (.session (.urlScheme url)) := by
  have hcommands := ((supports_concat fileUris webUri).2.2 fileSession rfl).2
  obtain ⟨commit, hcommit⟩ : ∃ body, fileSession.preparedBody .commit = .ok body := ⟨_, rfl⟩
  obtain ⟨delete, hdelete⟩ :
      ∃ body, fileSession.preparedBody (.deleteConfig (.url "file:///cfg")) = .ok body := ⟨_, rfl⟩
  have hlists : schemes? (Text.trim webUri) = some ["http"] := by decide +kernel
  have hdrops : Drops (Text.trim webUri) "file:///cfg" := ⟨["http"], hlists, by decide⟩
  have hdata : (ofUris (fileUris ++ [webUri])).data = [] := by decide +kernel
  have hsame := ((hcommands .commit commit hcommit).2 nofun).resolve_right fun hother => by
    obtain ⟨⟨uri, r, -, hr⟩, -⟩ := hother
    rw [revision?, hdata] at hr
    cases hr
  refine ⟨rfl, ⟨commit, hcommit, hsame⟩, ⟨delete, hdelete⟩, hdrops, ?_⟩
  exact (hcommands _ delete hdelete).1.2 ⟨_, List.mem_singleton.2 rfl, hdrops⟩

/-- A server that can use files can no longer do so once it can use web pages as well, and a session
is refused what it could ask for. -/
theorem ofUris_loses_scheme :
    (ofUris fileUris).hasScheme "file" = true ∧
      (ofUris (fileUris ++ [webUri])).hasScheme "file" = false ∧
      (fileSession.preparedBody (.deleteConfig (.url "file:///cfg"))).isOk = true ∧
      ((fileSession.towards (ofUris (fileUris ++ [webUri]))).preparedBody
        (.deleteConfig (.url "file:///cfg"))).isOk = false := by
  decide +kernel

end

end Session

end Netconf
