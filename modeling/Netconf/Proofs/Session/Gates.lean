import Netconf.Proofs.Session.Refusals
import Netconf.Proofs.Tree.Outcome

/-!
# Gates

What a command asks of the server is written down apart from the code: `Needs` gives the features,
`Command.urls` the URLs, and `Capabilities.Admits` says that a server has them all. `Run.gated` says
that over every run each request is admitted by the hello of the server, and that a refused activity
leaves the transport as it was and uses up no number.

The preconditions stand in `Terms.body` and `Terms.extension`, in the order in which the code checks
them. Each lemma below follows one kind of need through all commands: the datastores they use, those
they change, the URLs, the filters and the options of edits.
-/

namespace Netconf

/-! ## What commands need -/

/-- The datastore of a source, if it is one. -/
def Source.datastore? : Source → Option Datastore
  | .datastore d => some d
  | _ => none

/-- The URL of a source, if it is one. -/
def Source.url? : Source → Option String
  | .url u => some u
  | _ => none

/-- The datastore of a target, if it is one. -/
def Target.datastore? : Target → Option Datastore
  | .datastore d => some d
  | .url _ => none

/-- The URL of a target, if it is one. -/
def Target.url? : Target → Option String
  | .url u => some u
  | .datastore _ => none

namespace Command

/-- The datastores that a command names. -/
def uses : Command → List Datastore
  | getConfig source _ => [source]
  | editConfig target _ => [target]
  | editConfigUrl target _ => [target]
  | copyConfig source target => source.datastore?.toList ++ target.datastore?.toList
  | deleteConfig target => target.datastore?.toList
  | lock target => [target]
  | unlock target => [target]
  | validate source => source.datastore?.toList
  | startTransaction target => [target]
  | _ => []

/-- The datastores that a command edits or copies to. -/
def changes : Command → List Datastore
  | editConfig target _ => [target]
  | editConfigUrl target _ => [target]
  | copyConfig _ target => target.datastore?.toList
  | _ => []

/-- The URLs that a command names. -/
def urls : Command → List String
  | editConfigUrl _ url => [url]
  | copyConfig source target => source.url?.toList ++ target.url?.toList
  | deleteConfig target => target.url?.toList
  | validate source => source.url?.toList
  | _ => []

/-- The filter of a retrieval or of a subscription. -/
def filter? : Command → Option Filter
  | get filter => some filter
  | getConfig _ filter => some filter
  | createSubscription _ filter _ _ => some filter
  | _ => none

/-- Is a command an edit, which takes the options of edits? -/
def isEdit : Command → Bool
  | editConfig _ _ => true
  | editConfigUrl _ _ => true
  | _ => false

end Command

/-- The features that a command needs of the server, given the options of edits. -/
inductive Needs (options : EditOptions) : Command → Feature → Prop where
  /-- A commit is about the candidate datastore. -/
  | commit : Needs options .commit .candidate
  /-- So is a commit that must be confirmed. -/
  | confirmedCommit (seconds : Nat) : Needs options (.confirmedCommit seconds) .candidate
  /-- A commit that must be confirmed is a feature of its own. -/
  | confirmation (seconds : Nat) : Needs options (.confirmedCommit seconds) .confirmedCommit
  /-- What is given up is the candidate datastore. -/
  | discardChanges : Needs options .discardChanges .candidate
  /-- The candidate datastore is used. -/
  | candidate {c : Command} (h : .candidate ∈ c.uses) : Needs options c .candidate
  /-- The startup datastore is used. -/
  | startup {c : Command} (h : .startup ∈ c.uses) : Needs options c .startup
  /-- The running datastore is edited or copied to. -/
  | writableRunning {c : Command} (h : .running ∈ c.changes) : Needs options c .writableRunning
  /-- Validation is a feature of its own. -/
  | validate (source : Source) : Needs options (.validate source) .validate
  /-- An edit with a test option may be validated. -/
  | testOption {c : Command} (hedit : c.isEdit = true) (h : options.testOption.isSome = true) :
    Needs options c .validate
  /-- An edit may be undone on an error. -/
  | rollbackOnError {c : Command} (hedit : c.isEdit = true)
    (h : options.errorOption = some .rollbackOnError) : Needs options c .rollbackOnError
  /-- A filter is an expression. -/
  | xpath {c : Command} {expression : String} (h : c.filter? = some (.xpath expression)) :
    Needs options c .xpath
  /-- Notifications are a feature of their own. -/
  | createSubscription (stream : Option String) (filter : Filter) (start stop : Option String) :
    Needs options (.createSubscription stream filter start stop) .notification
  /-- Locking parts is a feature of its own. -/
  | partialLock (selects : List String) : Needs options (.partialLock selects) .partialLock
  /-- Partial locks are given back only where they can be taken. -/
  | partialUnlock (lockId : Nat) : Needs options (.partialUnlock lockId) .partialLock
  /-- Actions are a feature of their own. -/
  | action (tree : Tree) (node : NodeId) : Needs options (.action tree node) .actions
  /-- Transactions are a feature of their own. -/
  | startTransaction (target : Datastore) : Needs options (.startTransaction target) .transactions
  /-- So are the other operations of transactions. -/
  | transaction (step : TransactionStep) : Needs options (.transaction step) .transactions

/-- A server with these capabilities can be asked for a command: it has the features that the
command needs, and it can use URLs of the schemes that the command names. -/
structure Capabilities.Admits (caps : Capabilities) (options : EditOptions) (c : Command) :
    Prop where
  /-- The features are there. -/
  features : ∀ f, Needs options c f → caps.has f = true
  /-- The URLs have schemes that the server can use. -/
  urls : ∀ url ∈ c.urls, caps.url = true
    ∧ ∃ scheme ∈ caps.urlSchemes, (scheme ++ ":").toList <+: url.toList

/-! ## What the preconditions check -/

/-- What is checked under a condition in front of a computation that succeeds, succeeds where the
condition holds. -/
theorem of_guard {α : Type} {p : Prop} [Decidable p] {x : Except Error Unit}
    {next : Unit → Except Error α} {a : α} (h : (if p then x >>= next else next ()) = .ok a) :
    (p → x = .ok ()) ∧ next () = .ok a := by
  split at h
  · obtain ⟨_, hx, hnext⟩ := bind_eq_ok.1 h
    exact ⟨fun _ => hx, hnext⟩
  · next hp => exact ⟨fun h => absurd h hp, h⟩

namespace Terms

variable {t : Terms} {text : String}

/-- A required feature is there. -/
theorem require_eq_ok {f : Feature} {u : Unit} :
    t.require f = .ok u ↔ t.capabilities.has f = true := by
  unfold require
  split <;> simp_all

/-- A feature that is required first is there. -/
theorem has_of_require_bind {α : Type} {f : Feature} {next : Unit → Except Error α} {a : α}
    (h : (t.require f >>= next) = .ok a) : t.capabilities.has f = true := by
  obtain ⟨_, hrequire, -⟩ := bind_eq_ok.1 h
  exact require_eq_ok.1 hrequire

/-- What the use of a datastore needs is there. -/
theorem requireDatastore_eq_ok {d : Datastore} {write : Bool} {u : Unit} :
    t.requireDatastore d write = .ok u ↔ ∀ f ∈ d.feature? write, t.capabilities.has f = true := by
  unfold requireDatastore requireIf
  split
  · next h => simp [require_eq_ok, h]
  · next h => simp [h]

/-- A URL is written only if the server can use it. -/
theorem urlText_ok {url : String} (h : t.urlText url = .ok text) :
    t.capabilities.url = true
      ∧ ∃ scheme ∈ t.capabilities.urlSchemes, (scheme ++ ":").toList <+: url.toList := by
  obtain ⟨_, hrequire, -⟩ := bind_eq_ok.1 h
  unfold requireUrl at hrequire
  split at hrequire
  · cases hrequire
  · next hurl =>
    split at hrequire
    · next haccepts =>
      obtain ⟨scheme, hscheme, hstart⟩ := List.any_eq_true.1 haccepts
      exact ⟨by simpa using hurl, scheme, hscheme, List.isPrefixOf_iff_prefix.1 hstart⟩
    · cases hrequire

/-- A target that is a datastore is required for writing, and one that is a URL to be usable. -/
theorem targetText_ok {target : Target} (h : t.targetText target = .ok text) :
    (∀ d ∈ target.datastore?, ∀ f ∈ d.feature? true, t.capabilities.has f = true)
      ∧ ∀ url ∈ target.url?, ∃ text, t.urlText url = .ok text := by
  cases target with
  | datastore d =>
    obtain ⟨_, hrequire, -⟩ := bind_eq_ok.1 h
    simpa [Target.datastore?, Target.url?] using requireDatastore_eq_ok.1 hrequire
  | url url => exact ⟨by simp [Target.datastore?], by simpa [Target.url?] using ⟨text, h⟩⟩

/-- A source that is a datastore is required for reading, and one that is a URL to be usable. -/
theorem sourceText_ok {source : Source} (h : t.sourceText source = .ok text) :
    (∀ d ∈ source.datastore?, ∀ f ∈ d.feature? false, t.capabilities.has f = true)
      ∧ ∀ url ∈ source.url?, ∃ text, t.urlText url = .ok text := by
  cases source with
  | datastore d =>
    obtain ⟨_, hrequire, -⟩ := bind_eq_ok.1 h
    simpa [Source.datastore?, Source.url?] using requireDatastore_eq_ok.1 hrequire
  | url url => exact ⟨by simp [Source.datastore?], by simpa [Source.url?] using ⟨text, h⟩⟩
  | config s => exact ⟨by simp [Source.datastore?], by simp [Source.url?]⟩

/-- An edit is made only of a datastore that can be written, with options that the server has. -/
theorem editText_ok {target : Datastore} {config : String}
    (h : t.editText target config = .ok text) :
    (∀ f ∈ target.feature? true, t.capabilities.has f = true)
      ∧ (t.options.testOption.isSome = true → t.capabilities.has .validate = true)
      ∧ (t.options.errorOption = some .rollbackOnError →
          t.capabilities.has .rollbackOnError = true) := by
  obtain ⟨_, htarget, h⟩ := bind_eq_ok.1 h
  obtain ⟨_, hoptions, -⟩ := bind_eq_ok.1 h
  unfold optionsText at hoptions
  obtain ⟨htest, hoptions⟩ := of_guard hoptions
  obtain ⟨hundo, -⟩ := of_guard hoptions
  exact ⟨requireDatastore_eq_ok.1 htarget, fun h => require_eq_ok.1 (htest h),
    fun h => require_eq_ok.1 (hundo h)⟩

/-- A filter by an expression is written only for a server that has them. -/
theorem filterText_ok {filter : Filter} (h : t.filterText filter = .ok text) {expression : String}
    (hfilter : filter = .xpath expression) : t.capabilities.has .xpath = true := by
  subst hfilter
  exact has_of_require_bind h

/-- The filter of a subscription likewise. -/
theorem subscriptionFilterText_ok {filter : Filter} (h : t.subscriptionFilterText filter = .ok text)
    {expression : String} (hfilter : filter = .xpath expression) :
    t.capabilities.has .xpath = true := by
  subst hfilter
  exact has_of_require_bind h

/-- The running datastore is not deleted, and another one is required for writing. -/
theorem deleteConfig_ok {target : Target} (h : t.body (.deleteConfig target) = .ok text) :
    target ≠ .datastore .running ∧ ∃ text, t.targetText target = .ok text := by
  unfold body at h
  obtain ⟨hrunning, h⟩ := of_guard h
  obtain ⟨_, htarget, -⟩ := bind_eq_ok.1 h
  refine ⟨fun heq => ?_, _, htarget⟩
  cases hrunning heq

/-! ## Needs along all commands -/

variable {c : Command}

/-- The datastores that a command changes can be written. -/
theorem changes_ok (h : t.body c = .ok text) {d : Datastore} (hd : d ∈ c.changes) :
    ∀ f ∈ d.feature? true, t.capabilities.has f = true := by
  cases c with
  | editConfig target config =>
    obtain rfl := List.mem_singleton.1 hd
    obtain ⟨_, -, h⟩ := bind_eq_ok.1 h
    exact (editText_ok h).1
  | editConfigUrl target url =>
    obtain rfl := List.mem_singleton.1 hd
    obtain ⟨_, -, h⟩ := bind_eq_ok.1 h
    exact (editText_ok h).1
  | copyConfig source target =>
    obtain ⟨_, htarget, -⟩ := bind_eq_ok.1 h
    exact (targetText_ok htarget).1 d (Option.mem_toList.1 hd)
  | _ => cases hd

/-- What reading a datastore needs, writing it needs as well. -/
theorem feature?_of_read {d : Datastore} {f : Feature} (h : f ∈ d.feature? false) :
    f ∈ d.feature? true := by
  cases d with
  | running => cases h
  | startup => exact h
  | candidate => exact h

/-- The datastores that a command uses are there. A transaction checks its own before its body is
made. -/
theorem uses_ok (h : t.body c = .ok text) (hstart : ∀ target, c ≠ .startTransaction target)
    {d : Datastore} (hd : d ∈ c.uses) : ∀ f ∈ d.feature? false, t.capabilities.has f = true := by
  cases c with
  | getConfig source filter =>
    obtain rfl := List.mem_singleton.1 hd
    obtain ⟨_, hsource, -⟩ := bind_eq_ok.1 h
    exact requireDatastore_eq_ok.1 hsource
  | editConfig target config => exact fun f hf => changes_ok h hd f (feature?_of_read hf)
  | editConfigUrl target url => exact fun f hf => changes_ok h hd f (feature?_of_read hf)
  | copyConfig source target =>
    obtain ⟨_, -, hsource⟩ := bind_eq_ok.1 h
    obtain ⟨_, hsource, -⟩ := bind_eq_ok.1 hsource
    rcases List.mem_append.1 hd with hd | hd
    · exact (sourceText_ok hsource).1 d (Option.mem_toList.1 hd)
    · exact fun f hf => changes_ok h hd f (feature?_of_read hf)
  | deleteConfig target =>
    obtain ⟨-, _, htarget⟩ := deleteConfig_ok h
    exact fun f hf =>
      (targetText_ok htarget).1 d (Option.mem_toList.1 hd) f (feature?_of_read hf)
  | lock target =>
    obtain rfl := List.mem_singleton.1 hd
    obtain ⟨_, htarget, -⟩ := bind_eq_ok.1 h
    exact requireDatastore_eq_ok.1 htarget
  | unlock target =>
    obtain rfl := List.mem_singleton.1 hd
    obtain ⟨_, htarget, -⟩ := bind_eq_ok.1 h
    exact requireDatastore_eq_ok.1 htarget
  | validate source =>
    obtain ⟨_, -, hsource⟩ := bind_eq_ok.1 h
    obtain ⟨_, hsource, -⟩ := bind_eq_ok.1 hsource
    exact (sourceText_ok hsource).1 d (Option.mem_toList.1 hd)
  | startTransaction target => exact absurd rfl (hstart target)
  | _ => cases hd

/-- The server can use the URLs that a command names. -/
theorem urls_ok (h : t.body c = .ok text) {url : String} (hurl : url ∈ c.urls) :
    t.capabilities.url = true
      ∧ ∃ scheme ∈ t.capabilities.urlSchemes, (scheme ++ ":").toList <+: url.toList := by
  cases c with
  | editConfigUrl target other =>
    obtain rfl := List.mem_singleton.1 hurl
    obtain ⟨_, htext, -⟩ := bind_eq_ok.1 h
    exact urlText_ok htext
  | copyConfig source target =>
    obtain ⟨_, htarget, h⟩ := bind_eq_ok.1 h
    obtain ⟨_, hsource, -⟩ := bind_eq_ok.1 h
    rcases List.mem_append.1 hurl with hurl | hurl
    · obtain ⟨_, htext⟩ := (sourceText_ok hsource).2 url (Option.mem_toList.1 hurl)
      exact urlText_ok htext
    · obtain ⟨_, htext⟩ := (targetText_ok htarget).2 url (Option.mem_toList.1 hurl)
      exact urlText_ok htext
  | deleteConfig target =>
    obtain ⟨-, _, htarget⟩ := deleteConfig_ok h
    obtain ⟨_, htext⟩ := (targetText_ok htarget).2 url (Option.mem_toList.1 hurl)
    exact urlText_ok htext
  | validate source =>
    obtain ⟨_, -, h⟩ := bind_eq_ok.1 h
    obtain ⟨_, hsource, -⟩ := bind_eq_ok.1 h
    obtain ⟨_, htext⟩ := (sourceText_ok hsource).2 url (Option.mem_toList.1 hurl)
    exact urlText_ok htext
  | _ => cases hurl

/-- The server has expressions as filters if a command uses one. -/
theorem xpath_ok (h : t.body c = .ok text) {expression : String}
    (hfilter : c.filter? = some (.xpath expression)) : t.capabilities.has .xpath = true := by
  cases c with
  | get filter =>
    obtain ⟨_, htext, -⟩ := bind_eq_ok.1 h
    exact filterText_ok htext (Option.some.inj hfilter)
  | getConfig source filter =>
    obtain ⟨_, -, h⟩ := bind_eq_ok.1 h
    obtain ⟨_, htext, -⟩ := bind_eq_ok.1 h
    exact filterText_ok htext (Option.some.inj hfilter)
  | createSubscription stream filter start stop =>
    obtain ⟨_, -, h⟩ := bind_eq_ok.1 h
    obtain ⟨_, htext, -⟩ := bind_eq_ok.1 h
    exact subscriptionFilterText_ok htext (Option.some.inj hfilter)
  | _ => cases hfilter

/-- The server has what the options of an edit need. -/
theorem edit_ok (h : t.body c = .ok text) (hedit : c.isEdit = true) :
    (t.options.testOption.isSome = true → t.capabilities.has .validate = true)
      ∧ (t.options.errorOption = some .rollbackOnError →
          t.capabilities.has .rollbackOnError = true) := by
  cases c with
  | editConfig target config =>
    obtain ⟨_, -, h⟩ := bind_eq_ok.1 h
    exact (editText_ok h).2
  | editConfigUrl target url =>
    obtain ⟨_, -, h⟩ := bind_eq_ok.1 h
    exact (editText_ok h).2
  | _ => cases hedit

/-- The server has the datastore of a transaction, and transactions. -/
theorem startTransaction_ok {target : Datastore} {b : Option Binding}
    (h : t.extension (.startTransaction target) = .ok b) :
    (∀ f ∈ target.feature? false, t.capabilities.has f = true)
      ∧ t.capabilities.has .transactions = true := by
  obtain ⟨_, htarget, h⟩ := bind_eq_ok.1 h
  obtain ⟨_, htransactions, -⟩ := bind_eq_ok.1 h
  exact ⟨requireDatastore_eq_ok.1 htarget, require_eq_ok.1 htransactions⟩

end Terms

namespace Session

/-- A command whose preconditions were checked is admitted by the capabilities of the server. -/
theorem admits_of_preparedBody {c : Command} {s : Session} {body : String}
    (h : s.preparedBody c = .ok body) : s.capabilities.Admits s.options c := by
  obtain ⟨⟨b, hextension⟩, hbody⟩ := preparedBody_eq_ok.1 h
  -- preparing changes neither the capabilities nor the options
  refine ⟨fun f hneeds => ?_, fun url hurl => Terms.urls_ok hbody hurl⟩
  have huse {d : Datastore} (hd : d ∈ c.uses) :
      ∀ f ∈ d.feature? false, s.capabilities.has f = true := by
    by_cases hstart : ∃ target, c = .startTransaction target
    · obtain ⟨target, rfl⟩ := hstart
      obtain rfl := List.mem_singleton.1 hd
      exact (Terms.startTransaction_ok hextension).1
    · exact Terms.uses_ok hbody (not_exists.1 hstart) hd
  cases hneeds with
  | commit => exact Terms.has_of_require_bind hbody
  | confirmedCommit seconds => exact Terms.has_of_require_bind hbody
  | confirmation seconds =>
    obtain ⟨_, -, hbody⟩ := bind_eq_ok.1 hbody
    exact Terms.has_of_require_bind hbody
  | discardChanges => exact Terms.has_of_require_bind hbody
  | candidate h => exact huse h _ rfl
  | startup h => exact huse h _ rfl
  | writableRunning h => exact Terms.changes_ok hbody h _ rfl
  | validate source => exact Terms.has_of_require_bind hbody
  | testOption hedit h => exact (Terms.edit_ok hbody hedit).1 h
  | rollbackOnError hedit h => exact (Terms.edit_ok hbody hedit).2 h
  | xpath h => exact Terms.xpath_ok hbody h
  | createSubscription stream filter start stop => exact Terms.has_of_require_bind hbody
  | partialLock selects => exact Terms.has_of_require_bind hbody
  | partialUnlock lockId => exact Terms.has_of_require_bind hbody
  | action tree node => exact Terms.has_of_require_bind hextension
  | startTransaction target => exact (Terms.startTransaction_ok hextension).2
  | transaction step => exact Terms.has_of_require_bind hextension

/-! ## Gates over runs -/

/-- What a turn has to do with the capabilities of the server. -/
structure Turn.Gated (caps : Capabilities) (turn : Turn) : Prop where
  /-- A command becomes a request only if the server can be asked for it. -/
  admitted : ∀ c r, turn.activity = .command c → turn.request? = some r →
    caps.Admits turn.session.options c
  /-- A request says something of default values only if the server can report them. -/
  defaults : ∀ r, turn.request? = some r → r.asked.isSome = true → caps.has .withDefaults = true
  /-- Without a request nothing is handed to the transport. -/
  silent : turn.request? = none →
    turn.after.transport.outbound = turn.session.transport.outbound
      ∧ turn.after.transport.pending = turn.session.transport.pending
  /-- An activity that is refused leaves the transport alone and uses up no number. -/
  refused : ∀ e, turn.outcome = .error e → e.isRefusal = true →
    turn.request? = none ∧ turn.after.transport = turn.session.transport
      ∧ turn.after.messageId = turn.session.messageId

/-- A request asks for default values only where the session does. -/
theorem isSome_withDefaults_of_request {a : Activity} {s : Session} {r : Request}
    (hr : a.request? s = some r) (hasked : r.asked.isSome = true) :
    s.withDefaults.isSome = true := by
  obtain ⟨c, -, hrequest⟩ := Activity.exists_of_request? hr
  obtain ⟨-, -, -, hdefaults⟩ := request?_eq_some hrequest
  rw [hdefaults] at hasked
  split at hasked
  · exact hasked
  · cases hasked

/-- Over every run of an opened session, with the capabilities that the server's hello lists, each
request is admitted, and a refused activity leaves the transport alone and uses up no number. -/
theorem Run.gated {transport : Transport} {config : Config} {defaults : Registry}
    {s₀ s : Session} {turns : List Turn}
    (hopen : connect transport config defaults = (.ok (), s₀)) (hrun : Run s₀ turns s) :
    ∃ message d hello, transport.inbound.readMessage.1 = .ok message
      ∧ Xml.parse defaults none message = .ok d ∧ readHello d = .ok hello
      ∧ ∀ turn ∈ turns, turn.Gated hello.capabilities := by
  obtain ⟨hello, hopened⟩ := connect_ok hopen
  obtain ⟨message, d, hmessage, hdoc, hhello⟩ := hopened.message
  refine ⟨message, d, hello, hmessage, hdoc, hhello, fun turn hturn => ?_⟩
  obtain ⟨hcaps, hdefaults⟩ := Run.hello hopened hrun turn hturn
  have hstep := step_act turn.activity turn.session
  refine ⟨?_, ?_, fun hr => ⟨(hstep.silent hr).outbound, (hstep.silent hr).pending⟩, ?_⟩
  · intro c r hactivity hr
    rw [Turn.request?, hactivity] at hr
    rw [← hcaps]
    exact admits_of_preparedBody (request?_eq_some hr).2.1
  · intro r hr hasked
    exact hdefaults (isSome_withDefaults_of_request hr hasked)
  · intro e houtcome he
    have herror : Step turn.session turn.activity (.error e) turn.after := houtcome ▸ hstep
    obtain ⟨hnone, defaults, hafter⟩ := herror.refused he
    exact ⟨hnone, by rw [hafter], by rw [hafter]⟩

/-- Commands for a server that has the candidate datastore only: one that is admitted, one that
needs the startup datastore, and one that is never admitted. -/
def gatedActivities : List Activity :=
  [.command .commit, .command (.lock .startup), .command (.deleteConfig (.datastore .running))]

/-- The turns of these commands, a reply to the first being on its way. -/
def gatedTurns : List Turn :=
  takeTurns (expectingSession [served (okReply "1")]) gatedActivities

/-- Only the admitted command becomes a request. -/
theorem Run.gated_gatedTurns :
    connect candidateServer {} (.standard 0) = (.ok (), candidateSession)
      ∧ (∃ s, Run candidateSession gatedTurns s)
      ∧ gatedTurns.map (·.outcome.isOk) = [true, false, false]
      ∧ gatedTurns.map (·.request?.isSome) = [true, false, false]
      ∧ ∃ message d hello, candidateServer.inbound.readMessage.1 = .ok message
        ∧ Xml.parse (.standard 0) none message = .ok d ∧ readHello d = .ok hello
        ∧ ∀ turn ∈ gatedTurns, turn.Gated hello.capabilities := by
  have hrun : Run candidateSession gatedTurns
      (behindTurns (expectingSession [served (okReply "1")]) gatedActivities) :=
    (Run.expecting _).taking gatedActivities
  have heval : gatedTurns.map (·.outcome.isOk) = [true, false, false]
      ∧ gatedTurns.map (·.request?.isSome) = [true, false, false] := by decide +kernel
  exact ⟨connect_candidateServer, ⟨_, hrun⟩, heval.1, heval.2,
    Run.gated connect_candidateServer hrun⟩

end Session

end Netconf
