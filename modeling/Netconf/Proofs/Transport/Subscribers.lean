import Netconf.Proofs.Frame.Messages
import Netconf.Proofs.Session.Actions
import Netconf.Proofs.Text.Cuts

/-!
# What subscribers see

What passes on a transport is read off the activities and their outcomes alone (`passed`): a flush
sends the text that was put together since the one before, with the marker and a line end behind it,
and receiving brings a message. `Shows` says what one turn does to the transport, and everything
about whole runs follows by induction on the activities. `subscribers_see` says that exactly what
passed was written, and was shown to the subscribers that were there: to raw ones in lines, and to
the others message by message.
-/

namespace Netconf.Transport

/-! ## Activities -/

/-- What can be done with a transport. -/
inductive Activity where
  /-- A text is added to the message being put together. -/
  | print (text : String)
  /-- A text and a line end are added. -/
  | writeLine (text : String)
  /-- The message is sent. -/
  | flush
  /-- A message is waited for. -/
  | receive
  /-- It is asked whether bytes are there. -/
  | ready
  /-- The bytes that have arrived are dropped. -/
  | discard
  /-- A subscriber is added. -/
  | subscribe (raw : Bool)
  /-- The transport is closed. -/
  | close
  deriving DecidableEq

namespace Activity

/-- The effect of an activity on the transport, with the message that it brings, if it brings
one. -/
def act : Activity → Channel (Option String)
  | print text => Transport.print text >>= fun _ => pure none
  | writeLine text => Transport.writeLine text >>= fun _ => pure none
  | flush => Transport.flush >>= fun _ => pure none
  | receive => Transport.receive >>= fun message => pure (some message)
  | ready => Transport.ready >>= fun _ => pure none
  | discard => Transport.discard >>= fun _ => pure none
  | subscribe raw => Transport.subscribe raw >>= fun _ => pure none
  | close => Transport.close >>= fun _ => pure none

/-- Does an activity put a message together or send it? -/
def isOutput : Activity → Bool
  | print _ => true
  | writeLine _ => true
  | flush => true
  | _ => false

/-- Does an activity need an open transport? -/
def needsOpen (a : Activity) : Bool := a.isOutput || a = receive || a = ready

/-- The subscriber that an activity adds, if it adds one. -/
def subscriber? : Activity → Option Bool
  | subscribe raw => some raw
  | _ => none

end Activity

/-- Something that was done with a transport, and how it ended. -/
structure Turn where
  /-- The activity. -/
  activity : Activity
  /-- The outcome: the message that was brought, if there is one, or an error. -/
  outcome : Except Error (Option String)

/-- The turns of activities one after the other. -/
def turns (t : Transport) : List Activity → List Turn
  | [] => []
  | a :: as => ⟨a, (runOn a.act t).1⟩ :: turns (runOn a.act t).2 as

/-- The transport behind activities one after the other. -/
def behind (t : Transport) : List Activity → Transport
  | [] => t
  | a :: as => behind (runOn a.act t).2 as

/-- Behind the first activities the others go on. -/
theorem behind_append (t : Transport) (as bs : List Activity) :
    t.behind (as ++ bs) = (t.behind as).behind bs := by
  induction as generalizing t with
  | nil => rfl
  | cons a as ih => exact ih _

/-- The turns of the first activities come first. -/
theorem turns_append (t : Transport) (as bs : List Activity) :
    t.turns (as ++ bs) = t.turns as ++ (t.behind as).turns bs := by
  induction as generalizing t with
  | nil => rfl
  | cons a as ih => rw [List.cons_append, turns, turns, behind, ih, List.cons_append]

/-! ## What passes -/

/-- A text that passed in a direction. -/
structure Passage where
  /-- The direction. -/
  direction : Direction
  /-- The text. -/
  text : String
  deriving DecidableEq

/-- The texts of a direction. -/
def textsOf (d : Direction) (ps : List Passage) : List String :=
  (ps.filter fun p => p.direction = d).map (·.text)

/-- The texts of a direction, of passages one after the other. -/
theorem textsOf_append (d : Direction) (ps qs : List Passage) :
    textsOf d (ps ++ qs) = textsOf d ps ++ textsOf d qs := by
  rw [textsOf, List.filter_append, List.map_append, textsOf, textsOf]

namespace Turn

/-- The text that is put together behind a turn, when this text was put together before. -/
def together (text : String) (turn : Turn) : String :=
  match turn.activity, turn.outcome with
  | .print more, .ok _ => text ++ more
  | .writeLine more, .ok _ => text ++ more ++ "\n"
  | .flush, .ok _ => ""
  | _, _ => text

/-- The message that a turn brought. -/
def message? (turn : Turn) : Option String :=
  match turn.activity, turn.outcome with
  | .receive, .ok message => message
  | _, _ => none

/-- What passes in a turn, when this text was put together before. -/
def passage? (text : String) (turn : Turn) : Option Passage :=
  match turn.activity, turn.outcome with
  | .flush, .ok _ => some ⟨.outbound, text ++ endOfMessage ++ "\n"⟩
  | _, _ => turn.message?.map (⟨.inbound, ·⟩)

end Turn

/-- What passes in turns, when this text was put together before them. -/
def passed (text : String) : List Turn → List Passage
  | [] => []
  | turn :: turns => (turn.passage? text).toList ++ passed (turn.together text) turns

/-- What a subscriber saw. -/
def seen (t : Transport) (n : Nat) : List Passage :=
  (t.events.filter fun e => e.subscriber = n).map fun e => ⟨e.direction, e.text⟩

/-- The pieces in which a subscriber sees what passes. -/
def Passage.pieces (raw : Bool) (p : Passage) : List Passage :=
  (seenBy raw p.text).map (⟨p.direction, ·⟩)

/-! ## What an activity does -/

/-- A closed transport takes no text. Another one has it behind what was put together. -/
theorem runOn_print (text : String) (t : Transport) :
    runOn (print text) t =
      if t.closed then (.error (.session .transportClosed), t)
      else (.ok (), { t with pending := t.pending ++ text }) := by
  unfold print
  rw [runOn_bind, runOn_requireOpen]
  by_cases hclosed : t.closed = true
  · rw [if_pos hclosed, if_pos hclosed]
  · rw [if_neg hclosed, if_neg hclosed]
    exact runOn_modify _ t

/-- A text and a line end are one text. -/
theorem writeLine_eq (text : String) (t : Transport) :
    runOn (writeLine text) t = runOn (print (text ++ "\n")) t := by
  unfold writeLine
  rw [runOn_bind, runOn_print, runOn_print]
  by_cases hclosed : t.closed = true
  · rw [if_pos hclosed, if_pos hclosed]
  · rw [if_neg hclosed, if_neg hclosed]
    dsimp only
    rw [runOn_print, if_neg hclosed, String.append_assoc]

/-- A closed transport sends nothing. Another one sends what was put together, and starts anew. -/
theorem runOn_flush (t : Transport) :
    runOn flush t =
      if t.closed then (.error (.session .transportClosed), t)
      else runOn (send t.pending) { t with pending := "" } := by
  unfold flush
  rw [runOn_bind, runOn_requireOpen]
  by_cases hclosed : t.closed = true
  · rw [if_pos hclosed, if_pos hclosed]
  · rw [if_neg hclosed, if_neg hclosed]
    dsimp only
    rw [runOn_bind_of_ok (runOn_get t), runOn_bind_of_ok (runOn_set _ t)]

/-- A closed transport refuses what needs an open one. -/
theorem runOn_act_of_closed {t : Transport} {a : Activity} (hclosed : t.closed = true)
    (ha : a.needsOpen = true) : runOn a.act t = (.error (.session .transportClosed), t) := by
  cases a with
  | print text => rw [Activity.act, runOn_bind_pure, runOn_print, if_pos hclosed]; rfl
  | writeLine text =>
    rw [Activity.act, runOn_bind_pure, writeLine_eq, runOn_print, if_pos hclosed]; rfl
  | flush => rw [Activity.act, runOn_bind_pure, runOn_flush, if_pos hclosed]; rfl
  | receive => rw [Activity.act, runOn_bind_pure, runOn_receive, if_pos hclosed]; rfl
  | ready => rw [Activity.act, runOn_bind_pure, runOn_ready, if_pos hclosed]; rfl
  | _ => cases ha

/-- What a turn does to a transport. -/
structure Shows (t : Transport) (turn : Turn) (t' : Transport) : Prop where
  /-- The text put together is that of the turn. -/
  pending : t'.pending = turn.together t.pending
  /-- What passes out is written. -/
  written : t'.outbound.written =
    t.outbound.written ++ String.join (textsOf .outbound (turn.passage? t.pending).toList)
  /-- What passes is shown to the subscribers. -/
  events : t'.events =
    t.events ++ (turn.passage? t.pending).toList.flatMap fun p =>
      eventsFrom 0 p.direction p.text t.subscribers
  /-- The subscribers stay, and one may be added. -/
  subscribers : t'.subscribers = t.subscribers ++ turn.activity.subscriber?.toList
  /-- Only closing closes the transport. -/
  closed : t'.closed = (t.closed || turn.activity = .close)
  /-- An open transport takes all output. -/
  taken : t.closed = false → turn.activity.isOutput = true → turn.outcome = .ok none

/-- A turn in which nothing passes. -/
theorem Shows.of_none {t t' : Transport} {turn : Turn} (hpassage : turn.passage? t.pending = none)
    (hpending : t'.pending = turn.together t.pending)
    (hwritten : t'.outbound.written = t.outbound.written) (hevents : t'.events = t.events)
    (hsubscribers : t'.subscribers = t.subscribers ++ turn.activity.subscriber?.toList)
    (hclosed : t'.closed = (t.closed || turn.activity = .close))
    (htaken : t.closed = false → turn.activity.isOutput = true → turn.outcome = .ok none) :
    Shows t turn t' where
  pending := hpending
  written := by rw [hwritten, hpassage]; exact String.append_empty.symm
  events := by rw [hevents, hpassage]; exact (List.append_nil _).symm
  subscribers := hsubscribers
  closed := hclosed
  taken := htaken

/-- A turn that is refused on a closed transport. -/
theorem Shows.of_closed {t : Transport} {a : Activity} {e : Error} (hclosed : t.closed = true)
    (ha : a.needsOpen = true) : Shows t ⟨a, .error e⟩ t := by
  have hstays : t.closed = (t.closed || a = .close) := by rw [hclosed, Bool.true_or]
  have htaken : t.closed = false → a.isOutput = true →
      (⟨a, .error e⟩ : Turn).outcome = .ok none := by
    rw [hclosed]
    nofun
  cases a with
  | discard => cases ha
  | subscribe raw => cases ha
  | close => cases ha
  | _ => exact .of_none rfl rfl rfl rfl (List.append_nil _).symm hstays htaken

/-- Every activity shows what passes, if the stream to write to does not fail. -/
theorem shows_act (t : Transport) (a : Activity)
    (hwriter : a = .flush → (runOn a.act t).1 ≠ .error .io) :
    Shows t ⟨a, (runOn a.act t).1⟩ (runOn a.act t).2 := by
  -- a closed transport is done with at once, so that each activity below meets an open one
  by_cases hrefused : a.needsOpen = true ∧ t.closed = true
  · rw [runOn_act_of_closed hrefused.2 hrefused.1]
    exact .of_closed hrefused.2 hrefused.1
  have hopen (ha : a.needsOpen = true) : ¬ t.closed = true := fun h => hrefused ⟨ha, h⟩
  have hsame : t.subscribers = t.subscribers ++ [] := (List.append_nil _).symm
  have hstays : t.closed = (t.closed || false) := (Bool.or_false _).symm
  cases a with
  | print text =>
    rw [Activity.act, runOn_bind_pure, runOn_print, if_neg (hopen rfl)]
    exact .of_none rfl rfl rfl rfl hsame hstays fun _ _ => rfl
  | writeLine text =>
    rw [Activity.act, runOn_bind_pure, writeLine_eq, runOn_print, if_neg (hopen rfl)]
    exact .of_none rfl String.append_assoc.symm rfl rfl hsame hstays fun _ _ => rfl
  | flush =>
    rw [Activity.act, runOn_bind_pure, runOn_flush, if_neg (hopen rfl), runOn_send] at hwriter ⊢
    dsimp only at hwriter ⊢
    cases hwrite : t.outbound.writeMessage t.pending with
    | mk outcome outbound =>
      rw [hwrite] at hwriter
      cases outcome with
      | ok _ =>
        refine ⟨rfl, ?_, ?_, hsame, hstays, fun _ _ => rfl⟩
        · exact Outbound.written_of_writeMessage hwrite
        · exact (congrArg (t.events ++ ·) (List.flatMap_singleton ..)).symm
      | error e =>
        -- writing fails only because the stream does
        obtain rfl := Outbound.writeAll_error hwrite
        exact absurd rfl (hwriter rfl)
  | receive =>
    rw [Activity.act, runOn_bind_pure, runOn_receive, if_neg (hopen rfl)]
    cases t.inbound.readMessage with
    | mk outcome inbound =>
      cases outcome with
      | ok message =>
        refine ⟨rfl, ?_, ?_, hsame, hstays, nofun⟩
        · exact String.append_empty.symm
        · exact (congrArg (t.events ++ ·) (List.flatMap_singleton ..)).symm
      | error e => exact .of_none rfl rfl rfl rfl hsame hstays nofun
  | ready =>
    rw [Activity.act, runOn_bind_pure, runOn_ready, if_neg (hopen rfl)]
    exact .of_none rfl rfl rfl rfl hsame hstays nofun
  | discard => exact .of_none rfl rfl rfl rfl hsame hstays nofun
  | subscribe raw => exact .of_none rfl rfl rfl rfl rfl hstays nofun
  | close => exact .of_none rfl rfl rfl rfl hsame (Bool.or_true _).symm nofun

/-! ## Runs -/

/-- The stream to write to does not fail in the turns. -/
def Unfailing (t : Transport) (as : List Activity) : Prop :=
  ∀ turn ∈ t.turns as, turn.activity = .flush → turn.outcome ≠ .error .io

variable {t : Transport} {a : Activity} {as bs : List Activity}

/-- The stream does not fail if it fails neither in the first turn nor in the others. -/
theorem unfailing_cons :
    t.Unfailing (a :: as) ↔
      (a = .flush → (runOn a.act t).1 ≠ .error .io) ∧ (runOn a.act t).2.Unfailing as := by
  simp only [Unfailing, turns, List.forall_mem_cons]

/-- The stream does not fail if it fails neither in the first turns nor in those behind them. -/
theorem unfailing_append :
    t.Unfailing (as ++ bs) ↔ t.Unfailing as ∧ (t.behind as).Unfailing bs := by
  simp only [Unfailing, turns_append, List.forall_mem_append]

/-- What passes in turns is what passes in the first ones, and then in the others. -/
theorem passed_append (text : String) (xs ys : List Turn) :
    passed text (xs ++ ys) = passed text xs ++ passed (xs.foldl Turn.together text) ys := by
  induction xs generalizing text with
  | nil => rfl
  | cons x xs ih => rw [List.cons_append, passed, passed, ih, List.append_assoc, List.foldl_cons]

/-- The text that is put together behind turns is read off the turns. -/
theorem pending_behind (h : t.Unfailing as) :
    (t.behind as).pending = (t.turns as).foldl Turn.together t.pending := by
  induction as generalizing t with
  | nil => rfl
  | cons a as ih =>
    obtain ⟨ha, has⟩ := unfailing_cons.1 h
    rw [behind, ih has, (shows_act t a ha).pending]
    rfl

/-- What passes out is written. -/
theorem written_behind (h : t.Unfailing as) :
    (t.behind as).outbound.written =
      t.outbound.written ++ String.join (textsOf .outbound (passed t.pending (t.turns as))) := by
  induction as generalizing t with
  | nil => exact String.append_empty.symm
  | cons a as ih =>
    obtain ⟨ha, has⟩ := unfailing_cons.1 h
    have hshows := shows_act t a ha
    rw [behind, ih has, hshows.written, hshows.pending, turns, passed, textsOf_append,
      String.join_append, String.append_assoc]

/-! ## Single subscribers -/

/-- The events of a message are for the subscribers from the first number on. -/
theorem of_mem_eventsFrom {k : Nat} {d : Direction} {message : String} {subscribers : List Bool}
    {e : Event} (h : e ∈ eventsFrom k d message subscribers) :
    k ≤ e.subscriber ∧ e.subscriber < k + subscribers.length := by
  induction subscribers generalizing k with
  | nil => cases h
  | cons raw others ih =>
    rw [List.length_cons]
    rcases List.mem_append.1 h with h | h
    · obtain ⟨text, -, rfl⟩ := List.mem_map.1 h
      exact ⟨Nat.le_refl _, by dsimp only; omega⟩
    · have := ih h
      omega

/-- The events of a message for one of the subscribers are the pieces in which it sees it. -/
theorem filter_eventsFrom (k : Nat) (d : Direction) (message : String) {i : Nat}
    {subscribers : List Bool} {raw : Bool} (h : subscribers[i]? = some raw) :
    (eventsFrom k d message subscribers).filter (fun e => e.subscriber = k + i) =
      (seenBy raw message).map (⟨k + i, d, ·⟩) := by
  induction subscribers generalizing k i with
  | nil => cases h
  | cons first others ih =>
    rw [eventsFrom, List.filter_append]
    cases i with
    | zero =>
      -- the events of the other subscribers have higher numbers
      obtain rfl := Option.some.inj h
      have hothers : (eventsFrom (k + 1) d message others).filter
          (fun e => e.subscriber = k + 0) = [] := by
        rw [List.filter_eq_nil_iff]
        intro e he
        have := (of_mem_eventsFrom he).1
        simp only [decide_eq_true_eq]
        omega
      rw [hothers, List.append_nil, List.filter_eq_self.2]
      · rfl
      · exact List.forall_mem_map.2 fun text _ => by simp
    | succ i =>
      have hfirst : ((seenBy first message).map fun text => (⟨k, d, text⟩ : Event)).filter
          (fun e => e.subscriber = k + (i + 1)) = [] := by
        rw [List.filter_eq_nil_iff]
        exact List.forall_mem_map.2 fun text _ => by simp
      have hplace : k + (i + 1) = k + 1 + i := by omega
      rw [hfirst, List.nil_append, hplace]
      exact ih (k + 1) h

/-- What passes is seen in pieces. -/
theorem pieces_eventsFrom {n : Nat} {subscribers : List Bool} {raw : Bool}
    (h : subscribers[n]? = some raw) (p : Passage) :
    ((eventsFrom 0 p.direction p.text subscribers).filter fun e => e.subscriber = n).map
        (fun e => (⟨e.direction, e.text⟩ : Passage)) = p.pieces raw := by
  have hevents := filter_eventsFrom 0 p.direction p.text h
  rw [Nat.zero_add] at hevents
  rw [hevents, List.map_map]
  rfl

/-- A subscriber sees what passes in its pieces. -/
theorem seen_behind {n : Nat} {raw : Bool} (h : t.Unfailing as)
    (hn : t.subscribers[n]? = some raw) :
    (t.behind as).seen n =
      t.seen n ++ (passed t.pending (t.turns as)).flatMap (Passage.pieces raw) := by
  induction as generalizing t with
  | nil => exact (List.append_nil _).symm
  | cons a as ih =>
    obtain ⟨ha, has⟩ := unfailing_cons.1 h
    have hshows := shows_act t a ha
    have hstays : (runOn a.act t).2.subscribers[n]? = some raw := by
      rw [hshows.subscribers, List.getElem?_append_left (List.getElem?_eq_some_iff.1 hn).1, hn]
    have hfirst : (runOn a.act t).2.seen n =
        t.seen n ++ ((⟨a, (runOn a.act t).1⟩ : Turn).passage? t.pending).toList.flatMap
          (Passage.pieces raw) := by
      rw [seen, hshows.events, List.filter_append, List.map_append, seen]
      congr 1
      cases Turn.passage? t.pending ⟨a, (runOn a.act t).1⟩ with
      | none => rfl
      | some p =>
        rw [Option.toList_some, List.flatMap_singleton, List.flatMap_singleton]
        exact pieces_eventsFrom hn p
    rw [behind, ih has hstays, hfirst, hshows.pending, turns, passed, List.flatMap_append,
      List.append_assoc]

/-- All events are for subscribers of the transport, so that there is none yet with the number that
the next subscriber gets. -/
def Numbered (t : Transport) : Prop := ∀ e ∈ t.events, e.subscriber < t.subscribers.length

/-- All events stay to be for subscribers of the transport. -/
theorem Numbered.behind (hnumbered : t.Numbered) (h : t.Unfailing as) :
    (t.behind as).Numbered := by
  induction as generalizing t with
  | nil => exact hnumbered
  | cons a as ih =>
    obtain ⟨ha, has⟩ := unfailing_cons.1 h
    refine ih (fun e he => ?_) has
    have hshows := shows_act t a ha
    rw [hshows.subscribers, List.length_append]
    rw [hshows.events] at he
    rcases List.mem_append.1 he with he | he
    · exact Nat.lt_add_right _ (hnumbered e he)
    · obtain ⟨p, -, he⟩ := List.mem_flatMap.1 he
      have := (of_mem_eventsFrom he).2
      omega

/-- Nobody saw anything before being added. -/
theorem Numbered.seen_new (hnumbered : t.Numbered) : t.seen t.subscribers.length = [] := by
  rw [seen, List.map_eq_nil_iff, List.filter_eq_nil_iff]
  intro e he
  have := hnumbered e he
  simp only [decide_eq_true_eq]
  omega

/-! ## Texts of a direction -/

/-- The pieces of what passes in a direction are those of its texts. -/
theorem textsOf_pieces (d : Direction) (raw : Bool) (ps : List Passage) :
    textsOf d (ps.flatMap (Passage.pieces raw)) = (textsOf d ps).flatMap (seenBy raw) := by
  induction ps with
  | nil => rfl
  | cons p ps ih =>
    rw [List.flatMap_cons, textsOf_append, ih]
    by_cases hd : p.direction = d
    · have hpieces : textsOf d (p.pieces raw) = seenBy raw p.text := by
        simp [textsOf, Passage.pieces, List.filter_map, Function.comp_def, hd]
      have htexts : textsOf d (p :: ps) = p.text :: textsOf d ps := by simp [textsOf, hd]
      rw [hpieces, htexts, List.flatMap_cons]
    · have hpieces : textsOf d (p.pieces raw) = [] := by
        simp [textsOf, Passage.pieces, List.filter_map, Function.comp_def, hd]
      have htexts : textsOf d (p :: ps) = textsOf d ps := by simp [textsOf, hd]
      rw [hpieces, htexts, List.nil_append]

/-- Lines are put together to the text. -/
theorem join_seenBy_raw (text : String) : String.join (seenBy true text) = text := by
  rw [← String.toList_inj, String.toList_join]
  simp [seenBy, List.flatMap_map, Text.flatten_lines]

/-- The lines of texts are put together to the texts. -/
theorem join_flatMap_seenBy_raw (texts : List String) :
    String.join (texts.flatMap (seenBy true)) = String.join texts := by
  induction texts with
  | nil => rfl
  | cons text texts ih =>
    rw [List.flatMap_cons, String.join_append, join_seenBy_raw, ih, String.join_cons]

/-- The messages that are brought pass in. -/
theorem textsOf_inbound_passed (text : String) (turns : List Turn) :
    textsOf .inbound (passed text turns) = turns.filterMap Turn.message? := by
  induction turns generalizing text with
  | nil => rfl
  | cons turn turns ih =>
    have hturn : textsOf .inbound (turn.passage? text).toList = turn.message?.toList := by
      unfold Turn.passage?
      split
      · next hactivity houtcome => simp [textsOf, Turn.message?, hactivity]
      · cases turn.message? <;> rfl
    rw [passed, textsOf_append, hturn, ih, List.filterMap_cons]
    cases turn.message? <;> rfl

/-- What passes out ends with a line end. -/
theorem exists_of_mem_outbound_passed {text : String} {turns : List Turn} {framed : String}
    (h : framed ∈ textsOf .outbound (passed text turns)) : ∃ message, framed = message ++ "\n" := by
  induction turns generalizing text with
  | nil => cases h
  | cons turn turns ih =>
    rw [passed, textsOf_append] at h
    rcases List.mem_append.1 h with h | h
    · unfold Turn.passage? at h
      split at h
      · obtain rfl := List.mem_singleton.1 h
        exact ⟨_, rfl⟩
      · cases hmessage : turn.message? <;> rw [hmessage] at h <;> cases h
    · exact ih h

/-- The lines of what passes out end with their only line end. -/
theorem exists_of_mem_lines_outbound {text : String} {turns : List Turn} {piece : String}
    (h : piece ∈ (textsOf .outbound (passed text turns)).flatMap (seenBy true)) :
    ∃ line, piece = line ++ "\n" ∧ '\n' ∉ line.toList := by
  obtain ⟨framed, hframed, hpiece⟩ := List.mem_flatMap.1 h
  obtain ⟨message, rfl⟩ := exists_of_mem_outbound_passed hframed
  obtain ⟨chars, hchars, rfl⟩ := List.mem_map.1 hpiece
  rw [String.toList_append] at hchars
  obtain ⟨body, rfl, hbody⟩ := Text.exists_of_mem_lines hchars
  exact ⟨.ofList body, by rw [String.ofList_append], by rwa [String.toList_ofList]⟩

/-! ## Open and closed transports -/

/-- As long as a transport is not closed it takes all output. -/
theorem taken_of_open (hopen : t.closed = false) (hclose : .close ∉ as) (h : t.Unfailing as) :
    ∀ turn ∈ t.turns as, turn.activity.isOutput = true → turn.outcome = .ok none := by
  induction as generalizing t with
  | nil => exact List.forall_mem_nil _
  | cons a as ih =>
    obtain ⟨ha, has⟩ := unfailing_cons.1 h
    obtain ⟨hfirst, hothers⟩ : .close ≠ a ∧ .close ∉ as := by simpa using hclose
    have hshows := shows_act t a ha
    have hstays : (runOn a.act t).2.closed = false := by
      rw [hshows.closed, hopen, Bool.false_or]
      exact decide_eq_false (Ne.symm hfirst)
    exact List.forall_mem_cons.2 ⟨hshows.taken hopen, ih hstays hothers has⟩

/-- Nothing passes on a closed transport. -/
theorem passage?_of_closed (hclosed : t.closed = true) (text : String) :
    Turn.passage? text ⟨a, (runOn a.act t).1⟩ = none := by
  cases a with
  | discard => rfl
  | subscribe raw => rfl
  | close => rfl
  | _ => rw [runOn_act_of_closed hclosed rfl]; rfl

/-- A transport that was closed refuses all that needs an open one, and nothing is written or shown
any more. -/
theorem behind_of_closed (hclosed : t.closed = true) (h : t.Unfailing as) :
    (∀ turn ∈ t.turns as, turn.activity.needsOpen = true →
        turn.outcome = .error (.session .transportClosed)) ∧
      (t.behind as).outbound.written = t.outbound.written ∧
      (t.behind as).events = t.events := by
  induction as generalizing t with
  | nil => exact ⟨List.forall_mem_nil _, rfl, rfl⟩
  | cons a as ih =>
    obtain ⟨ha, has⟩ := unfailing_cons.1 h
    have hshows := shows_act t a ha
    have hnone := passage?_of_closed (a := a) hclosed t.pending
    have hwritten := hshows.written
    have hevents := hshows.events
    rw [hnone] at hwritten hevents
    have hstays : (runOn a.act t).2.closed = true := by rw [hshows.closed, hclosed, Bool.true_or]
    obtain ⟨hturns, hwrites, hshown⟩ := ih hstays has
    refine ⟨List.forall_mem_cons.2 ⟨fun hneeds => ?_, hturns⟩, hwrites.trans ?_, hshown.trans ?_⟩
    · rw [runOn_act_of_closed hclosed hneeds]
    · exact hwritten.trans String.append_empty
    · exact hevents.trans (List.append_nil _)

/-! ## Whole runs -/

/-- Nothing was done to a transport yet. -/
structure Fresh (t : Transport) : Prop where
  /-- Nothing is put together. -/
  pending : t.pending = ""
  /-- Nothing was written. -/
  written : t.outbound.written = ""
  /-- There is no subscriber. -/
  subscribers : t.subscribers = []
  /-- Nobody saw anything. -/
  events : t.events = []
  /-- It is open. -/
  closed : t.closed = false

/-- What a raw subscriber saw, when this was written and these messages were brought: the written
lines, each with its only line end, and the lines of each message. -/
structure SawLines (pieces : List Passage) (written : String) (messages : List String) : Prop where
  /-- What is seen of the output is what was written. -/
  outbound : String.join (textsOf .outbound pieces) = written
  /-- Each piece of the output ends with its only line end. -/
  lines : ∀ piece ∈ textsOf .outbound pieces, ∃ line, piece = line ++ "\n" ∧ '\n' ∉ line.toList
  /-- What is seen of the input are the messages, one after the other in pieces. -/
  inbound : ∃ parts : List (List String),
    textsOf .inbound pieces = parts.flatten ∧ parts.map String.join = messages

/-- Raw subscribers see what passes in lines. -/
theorem sawLines_pieces (text : String) (turns : List Turn) :
    SawLines ((passed text turns).flatMap (Passage.pieces true))
      (String.join (textsOf .outbound (passed text turns))) (turns.filterMap Turn.message?) where
  outbound := by rw [textsOf_pieces, join_flatMap_seenBy_raw]
  lines piece h := by
    rw [textsOf_pieces] at h
    exact exists_of_mem_lines_outbound h
  inbound := by
    refine ⟨(turns.filterMap Turn.message?).map (seenBy true), ?_, ?_⟩
    · rw [textsOf_pieces, textsOf_inbound_passed, List.flatMap_def]
    · have hlines : String.join ∘ seenBy true = id := funext join_seenBy_raw
      rw [List.map_map, hlines, List.map_id]

/-- A subscriber sees the pieces of what passes from the time when it is added. -/
theorem seen_since {raw : Bool} (hnumbered : t.Numbered)
    (h : t.Unfailing (.subscribe raw :: as)) :
    (t.behind (.subscribe raw :: as)).seen t.subscribers.length =
      (passed t.pending (t.turns (.subscribe raw :: as))).flatMap (Passage.pieces raw) := by
  have hplace : (t.subscribers ++ [raw])[t.subscribers.length]? = some raw := by simp
  have hseen := seen_behind (unfailing_cons.1 h).2 hplace
  have hnew : (runOn (Activity.subscribe raw).act t).2.seen t.subscribers.length = [] :=
    hnumbered.seen_new
  rw [behind, hseen, hnew]
  rfl

/-- What subscribers see is what passed. Flush by flush, the text put together since the last flush
was written with the marker and a line end behind it, and as long as the transport is not closed it
takes all output. A raw subscriber saw the lines of exactly what was written, and of the messages
that were brought, since it was added. Another one saw each message that passed since then, once
and pretty printed, in their order. And once the transport is closed it refuses all output and
input, and nothing is written or seen any more. -/
theorem subscribers_see {start : Transport} {activities : List Activity} (hfresh : start.Fresh)
    (hwriter : start.Unfailing activities) :
    (start.behind activities).outbound.written =
        String.join (textsOf .outbound (passed "" (start.turns activities))) ∧
      (.close ∉ activities → ∀ turn ∈ start.turns activities,
        turn.activity.isOutput = true → turn.outcome = .ok none) ∧
      (∀ before after, activities = before ++ .subscribe true :: after →
        ∃ written, (start.behind activities).outbound.written =
            (start.behind before).outbound.written ++ written ∧
          SawLines ((start.behind activities).seen (start.behind before).subscribers.length) written
            (((start.behind before).turns (.subscribe true :: after)).filterMap Turn.message?)) ∧
      (∀ before after, activities = before ++ .subscribe false :: after →
        ∃ since, passed "" (start.turns activities) = passed "" (start.turns before) ++ since ∧
          (start.behind activities).seen (start.behind before).subscribers.length =
            since.map fun p => ⟨p.direction, prettified p.text⟩) ∧
      ∀ before after, activities = before ++ .close :: after →
        (∀ turn ∈ (start.behind (before ++ [.close])).turns after,
          turn.activity.needsOpen = true → turn.outcome = .error (.session .transportClosed)) ∧
        (start.behind activities).outbound.written = (start.behind before).outbound.written ∧
        (start.behind activities).events = (start.behind before).events := by
  have hnumbered : start.Numbered := by
    rw [Numbered, hfresh.events]
    nofun
  refine ⟨?_, fun hclose => taken_of_open hfresh.closed hclose hwriter, ?_, ?_, ?_⟩
  · rw [written_behind hwriter, hfresh.written, hfresh.pending, String.empty_append]
  · rintro before after rfl
    obtain ⟨hbefore, hafter⟩ := unfailing_append.1 hwriter
    rw [behind_append]
    refine ⟨_, written_behind hafter, ?_⟩
    rw [seen_since (hnumbered.behind hbefore) hafter]
    exact sawLines_pieces _ _
  · rintro before after rfl
    obtain ⟨hbefore, hafter⟩ := unfailing_append.1 hwriter
    refine ⟨passed (start.behind before).pending
      ((start.behind before).turns (.subscribe false :: after)), ?_, ?_⟩
    · rw [turns_append, passed_append, pending_behind hbefore, hfresh.pending]
    · rw [behind_append, seen_since (hnumbered.behind hbefore) hafter]
      exact (List.map_eq_flatMap ..).symm
  · rintro before after rfl
    have hlist : before ++ .close :: after = before ++ [.close] ++ after := List.append_cons ..
    have hclosing : start.behind (before ++ [.close]) =
        { start.behind before with closed := true } := behind_append start before [.close]
    rw [hlist] at hwriter ⊢
    obtain ⟨-, hafter⟩ := unfailing_append.1 hwriter
    rw [hclosing] at hafter
    rw [behind_append start (before ++ [Activity.close]), hclosing]
    exact behind_of_closed rfl hafter

/-- A transport on a stream that brings an empty line, bytes that are no text, nothing in time, and
an element, and on a stream that takes no more than a hundred bytes. -/
def variedTransport : Transport where
  inbound := .ofDeliveries [.bytes (Text.bytes "\n]]>]]>"), .bytes (0xFF :: marker),
    .fault .timeout, .bytes (Text.bytes "<a><b/></a>]]>]]>")]
  outbound := { limit := some 100 }

/-- The first part of an exchange, with a raw subscriber that comes in the middle of it. -/
def variedStart : List Activity :=
  [.print "<x>", .flush, .subscribe true, .writeLine "<y>\n</y>", .flush, .receive]

/-- The second part, in which two messages cannot be read. -/
def variedEnd : List Activity :=
  [.flush, .receive, .receive, .receive, .close, .print "<z/>", .flush, .receive]

/-- The whole exchange: in between a subscriber comes that is not raw. -/
def variedExchange : List Activity := variedStart ++ .subscribe false :: variedEnd

/-- The raw subscriber, which came before the second message, sees the lines of that message and of
the empty one, and the other one sees the empty message and the element that comes. -/
theorem subscribers_see_variedExchange :
    variedTransport.Fresh ∧ variedTransport.Unfailing variedExchange ∧
      textsOf .outbound ((variedTransport.behind variedExchange).seen 0) =
        ["<y>\n", "</y>\n", "]]>]]>\n", "]]>]]>\n"] ∧
      (variedTransport.behind variedExchange).seen 1 =
        [⟨.outbound, "]]>]]>\n"⟩, ⟨.inbound, "<a>\n  <b/>\n</a>"⟩] ∧
      ∃ since, passed "" (variedTransport.turns variedExchange) =
          passed "" (variedTransport.turns variedStart) ++ since ∧
        (variedTransport.behind variedExchange).seen 1 =
          since.map fun p => ⟨p.direction, prettified p.text⟩ := by
  have hfresh : variedTransport.Fresh := ⟨rfl, rfl, rfl, rfl, rfl⟩
  have hwriter : variedTransport.Unfailing variedExchange := by
    have hall : (variedTransport.turns variedExchange).all (fun turn =>
        match turn.outcome with
        | .error .io => false
        | _ => true) = true := by decide +kernel
    intro turn hturn _ hio
    have hturn := List.all_eq_true.1 hall turn hturn
    rw [hio] at hturn
    cases hturn
  obtain ⟨-, -, -, hparsed, -⟩ := subscribers_see hfresh hwriter
  have hnumber : (variedTransport.behind variedStart).subscribers.length = 1 := by decide +kernel
  have hsince := hparsed variedStart variedEnd rfl
  rw [hnumber] at hsince
  exact ⟨hfresh, hwriter, by decide +kernel, by decide +kernel, hsince⟩

end Netconf.Transport
