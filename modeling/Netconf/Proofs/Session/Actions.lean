import Netconf.Session.Exchange

/-!
# Actions on transports and sessions

An action keeps its state also when it fails, so `runOn` gives its outcome and the state that it
leaves in either case. The equations below say what the actions on a transport and the parts of an
exchange do; what is built from them is taken apart by `runOn_bind`.
-/

namespace Netconf

section

variable {σ α β : Type}

/-- Runs an action: its outcome, and the state that it leaves. -/
def runOn (x : EStateM Error σ α) (s : σ) : Except Error α × σ :=
  match x s with
  | .ok a s => (.ok a, s)
  | .error e s => (.error e, s)

/-- An action without a result that does not fail ends well. -/
theorem eq_ok_of_isOk {x : Except Error Unit} (h : x.isOk = true) : x = .ok () := by
  cases x with
  | ok _ => rfl
  | error _ => cases h

/-- A result that is there already. -/
@[simp] theorem runOn_pure (a : α) (s : σ) :
    runOn (pure a : EStateM Error σ α) s = (.ok a, s) := rfl

/-- A failure leaves the state as it is. -/
@[simp] theorem runOn_throw (e : Error) (s : σ) :
    runOn (throw e : EStateM Error σ α) s = (.error e, s) := rfl

/-- Reading the state. -/
@[simp] theorem runOn_get (s : σ) : runOn (get : EStateM Error σ σ) s = (.ok s, s) := rfl

/-- Replacing the state. -/
@[simp] theorem runOn_set (s' s : σ) :
    runOn (set s' : EStateM Error σ PUnit) s = (.ok ⟨⟩, s') := rfl

/-- Changing the state. -/
@[simp] theorem runOn_modify (f : σ → σ) (s : σ) :
    runOn (modify f : EStateM Error σ PUnit) s = (.ok ⟨⟩, f s) := rfl

/-- One action after the other; the second is left out if the first fails. -/
theorem runOn_bind (x : EStateM Error σ α) (f : α → EStateM Error σ β) (s : σ) :
    runOn (x >>= f) s =
      match runOn x s with
      | (.ok a, s') => runOn (f a) s'
      | (.error e, s') => (.error e, s') := by
  unfold runOn
  simp only [bind, EStateM.bind]
  cases x s <;> rfl

/-- What follows an action that succeeds. -/
theorem runOn_bind_of_ok {x : EStateM Error σ α} {f : α → EStateM Error σ β} {s s' : σ} {a : α}
    (h : runOn x s = (.ok a, s')) : runOn (x >>= f) s = runOn (f a) s' := by
  rw [runOn_bind, h]

/-- Two actions that succeed one after the other succeed each. -/
theorem exists_of_runOn_bind {x : EStateM Error σ α} {f : α → EStateM Error σ β} {s s' : σ} {b : β}
    (h : runOn (x >>= f) s = (.ok b, s')) :
    ∃ a t, runOn x s = (.ok a, t) ∧ runOn (f a) t = (.ok b, s') := by
  rw [runOn_bind] at h
  obtain ⟨outcome, t, hx⟩ : ∃ outcome t, runOn x s = (outcome, t) := ⟨_, _, rfl⟩
  rw [hx] at h
  cases outcome with
  | ok a => exact ⟨a, t, hx, h⟩
  | error e => cases h

/-- An action whose result is turned into another. -/
theorem runOn_bind_pure (x : EStateM Error σ α) (f : α → β) (s : σ) :
    runOn (x >>= fun a => pure (f a)) s = ((runOn x s).1.map f, (runOn x s).2) := by
  rw [runOn_bind]
  cases runOn x s with
  | mk outcome s' => cases outcome <;> rfl

/-- An action whose result is dropped. -/
theorem runOn_drop (x : EStateM Error σ α) (s : σ) :
    runOn (x >>= fun _ => pure ()) s = ((runOn x s).1.map fun _ => (), (runOn x s).2) :=
  runOn_bind_pure x (fun _ => ()) s

/-- Nothing follows an action that fails. -/
theorem runOn_bind_of_error {x : EStateM Error σ α} {f : α → EStateM Error σ β} {s s' : σ}
    {e : Error} (h : runOn x s = (.error e, s')) : runOn (x >>= f) s = (.error e, s') := by
  rw [runOn_bind, h]

end

/-! ## Transports -/

namespace Transport

/-- Hands a message over to a transport: it is added to what is being put together, and sent. -/
def handOver (text : String) : Channel Unit := do
  print text
  flush

/-- Only a closed transport refuses to be used. -/
theorem runOn_requireOpen (t : Transport) :
    runOn requireOpen t
      = (if t.closed then .error (.session .transportClosed) else .ok (), t) := by
  cases h : t.closed <;> simp [requireOpen, runOn, h]

/-- A closed transport takes no message. Another one writes it behind what was put together
before, and starts anew. -/
theorem runOn_handOver (text : String) (t : Transport) :
    runOn (handOver text) t =
      if t.closed then (.error (.session .transportClosed), t)
      else runOn (send (t.pending ++ text)) { t with pending := "" } := by
  cases h : t.closed <;> simp [handOver, print, flush, runOn_bind, runOn_requireOpen, h]

/-- A message is written, and shown to the subscribers when all of it was. -/
theorem runOn_send (text : String) (t : Transport) :
    runOn (send text) t =
      match t.outbound.writeMessage text with
      | (.ok _, outbound) =>
        (.ok (), { t with outbound }.notify .outbound (text ++ endOfMessage ++ "\n"))
      | (.error e, outbound) => (.error e, { t with outbound }) := by
  unfold runOn send
  split
  · next h => split at h <;> simp_all
  · next h => split at h <;> simp_all

/-- A closed transport brings no message. From another one the next message is read, and shown to
the subscribers. -/
theorem runOn_receive (t : Transport) :
    runOn receive t =
      if t.closed then (.error (.session .transportClosed), t)
      else
        match t.inbound.readMessage with
        | (.ok message, inbound) =>
          (.ok message, { t with inbound }.notify .inbound message)
        | (.error e, inbound) => (.error e, { t with inbound }) := by
  cases h : t.closed with
  | true => simp [receive, requireOpen, runOn, bind, EStateM.bind, h]
  | false =>
    simp only [receive, requireOpen, runOn, bind, EStateM.bind, h, Bool.false_eq_true, if_false]
    cases hread : t.inbound.readMessage with
    | mk outcome inbound => cases outcome <;> rfl

/-- A message that comes is the next of the stream. -/
theorem receive_outcome (t : Transport) :
    (runOn receive t).1
      = if t.closed then .error (.session .transportClosed) else t.inbound.readMessage.1 := by
  rw [runOn_receive]
  split
  · rfl
  · split <;> simp_all

/-- Receiving takes one message off the stream, or leaves the stream as it is. -/
theorem receive_inbound (t : Transport) :
    (runOn receive t).2.inbound = if t.closed then t.inbound else t.inbound.readMessage.2 := by
  rw [runOn_receive]
  split
  · rfl
  · split <;> simp_all [notify]

/-- Asking whether bytes are there leaves an open transport as it is, and a closed one refuses. -/
theorem runOn_ready (t : Transport) :
    runOn ready t =
      if t.closed then (.error (.session .transportClosed), t)
      else (.ok t.inbound.hasBytes, t) := by
  unfold ready requireOpen runOn
  simp only [bind, EStateM.bind]
  cases t.closed <;> rfl

/-- Receiving changes the stream to read from and the events only. -/
theorem receive_frame (t : Transport) :
    ∃ inbound events, (runOn receive t).2 = { t with inbound, events } := by
  rw [runOn_receive]
  split
  · exact ⟨t.inbound, t.events, rfl⟩
  · split <;> exact ⟨_, _, rfl⟩

/-- Nothing was written, and nothing was added to what is being put together. -/
structure SameOutput (t t' : Transport) : Prop where
  /-- Nothing was written. -/
  outbound : t'.outbound = t.outbound
  /-- Nothing was added. -/
  pending : t'.pending = t.pending

/-- Where nothing happened, nothing was written. -/
theorem SameOutput.refl (t : Transport) : t.SameOutput t := ⟨rfl, rfl⟩

/-- Where nothing was written before and nothing afterwards, nothing was written. -/
theorem SameOutput.trans {t t' t'' : Transport} (h : t.SameOutput t') (h' : t'.SameOutput t'') :
    t.SameOutput t'' :=
  ⟨h'.outbound.trans h.outbound, h'.pending.trans h.pending⟩

/-- Receiving writes nothing. -/
theorem sameOutput_receive (t : Transport) : t.SameOutput (runOn receive t).2 := by
  obtain ⟨_, _, h⟩ := receive_frame t
  rw [h]
  exact ⟨rfl, rfl⟩

/-- Handing a message over changes the stream to write to, what is being put together and the
events only. -/
theorem handOver_frame (text : String) (t : Transport) :
    ∃ outbound pending events,
      (runOn (handOver text) t).2 = { t with outbound, pending, events } := by
  rw [runOn_handOver]
  split
  · exact ⟨t.outbound, t.pending, t.events, rfl⟩
  · rw [runOn_send]
    split <;> exact ⟨_, _, _, rfl⟩

/-- Handing a message over reads nothing. -/
@[simp] theorem handOver_inbound (text : String) (t : Transport) :
    (runOn (handOver text) t).2.inbound = t.inbound := by
  obtain ⟨_, _, _, h⟩ := handOver_frame text t
  rw [h]

/-- Handing a message over closes nothing. -/
@[simp] theorem handOver_closed (text : String) (t : Transport) :
    (runOn (handOver text) t).2.closed = t.closed := by
  obtain ⟨_, _, _, h⟩ := handOver_frame text t
  rw [h]

/-- Only an open transport takes a message. -/
theorem open_of_handOver_ok {text : String} {t t' : Transport}
    (h : runOn (handOver text) t = (.ok (), t')) : t.closed = false := by
  rw [runOn_handOver] at h
  split at h
  · cases h
  · next hopen => simpa using hopen

/-- A message that is received once another was handed over is the next of the stream. -/
theorem readMessage_of_exchange {text message : String} {t t' t'' : Transport}
    (hwrite : runOn (handOver text) t = (.ok (), t'))
    (hread : runOn receive t' = (.ok message, t'')) :
    t.inbound.readMessage = (.ok message, t''.inbound) := by
  have ht' : t' = (runOn (handOver text) t).2 := by rw [hwrite]
  have hopen : t'.closed = false := by
    rw [ht', handOver_closed]
    exact open_of_handOver_ok hwrite
  have hinbound : t'.inbound = t.inbound := by rw [ht', handOver_inbound]
  have hmessage := receive_outcome t'
  have hrest := receive_inbound t'
  rw [hread, hopen, hinbound] at hmessage hrest
  exact Prod.ext hmessage.symm hrest.symm

end Transport

namespace Session

/-- An outcome that is taken over leaves the session as it is. -/
@[simp] theorem runOn_ofExcept {α : Type} (outcome : Except Error α) (s : Session) :
    runOn (ofExcept outcome) s = (outcome, s) := by
  cases outcome <;> rfl

/-- An action on the transport changes nothing else of the session. -/
theorem runOn_onTransport {α : Type} (c : Channel α) (s : Session) :
    runOn (onTransport c) s =
      ((runOn c s.transport).1, { s with transport := (runOn c s.transport).2 }) := by
  unfold runOn onTransport
  cases c s.transport <;> rfl

/-- An action on the transport that succeeds on a session succeeds on its transport. -/
theorem exists_of_onTransport {α : Type} {c : Channel α} {s s' : Session} {a : α}
    (h : runOn (onTransport c) s = (.ok a, s')) :
    ∃ t, runOn c s.transport = (.ok a, t) ∧ s' = { s with transport := t } := by
  rw [runOn_onTransport] at h
  obtain ⟨hoc, hs⟩ := Prod.mk.inj h
  exact ⟨_, Prod.ext hoc rfl, hs.symm⟩

/-- Reading a message as a document leaves the session as it is. -/
theorem runOn_readDocument (message : String) (s : Session) :
    runOn (readDocument message) s = (Xml.parse s.defaults s.schema message, s) := by
  unfold readDocument
  rw [runOn_bind_of_ok (runOn_get s), runOn_ofExcept]

/-- Two actions on the transport are one. -/
theorem onTransport_bind {α β : Type} (c : Channel α) (f : α → Channel β) :
    onTransport (c >>= f) = onTransport c >>= fun a => onTransport (f a) := by
  funext s
  simp only [onTransport, bind, EStateM.bind]
  cases c s.transport <;> rfl

end Session

end Netconf
