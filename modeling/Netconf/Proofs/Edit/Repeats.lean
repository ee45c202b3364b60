import Netconf.Proofs.Edit.Documents
import Netconf.Proofs.Edit.Leaves
import Netconf.Proofs.Edit.Skeletons
import Netconf.Proofs.Tree.Siblings

/-!
# Applying an edit again

An edit that only merges and replaces can always be applied, and a second time changes nothing.
What it makes of a counterpart (`Turned`) is a counterpart again, of which the edit node makes the
same. Siblings that are told apart have no counterpart in common, so that what was made for one of
them stays as it is while the others follow (`Settled.run`), and the edit node finds it there
(`Repeatable.exists_run`, `steps_self`). Nor do the steps touch the keys by which the edit found
its place (`KeysLike.run`).
-/

namespace Netconf

open Branch Build Netconf.Tree

namespace Branch

variable {b c : Branch}

/-- The top of a branch without marks. -/
@[simp]
theorem element_unmarked (b : Branch) : b.unmarked.element = b.element.unmark := by
  cases b
  rfl

/-- The children of a branch without marks. -/
@[simp]
theorem children_unmarked (b : Branch) : b.unmarked.children = b.children.map unmarked := by
  cases b
  rw [unmarked, mapElements_mk]
  rfl

/-- What a key looks like is told by the first child of its name. -/
theorem keyText?_eq (b : Branch) (key : String) : b.entry.keyText? key =
    (b.children.find? fun c => c.element.name == key).map fun c =>
      (c.element.ns, c.element.name, wire? c.element.value) :=
  Entry.keyText?_of_members rfl key

/-- Marks do not count in what a key looks like. -/
theorem keyText?_unmarked (b : Branch) (key : String) :
    b.unmarked.entry.keyText? key = b.entry.keyText? key := by
  rw [keyText?_eq, keyText?_eq, children_unmarked, List.find?_map, Option.map_map]
  simp only [Function.comp_def, element_unmarked]
  rfl

/-- A branch without its marks is the same node. -/
theorem matches_unmarked (b : Branch) : b.entry.matchesEntry b.unmarked.entry = true := by
  refine Entry.matches_of_alike (Entry.matches_refl b.entry) ?_ fun key _ =>
    (keyText?_unmarked b key).symm
  rw [entry, entry, element_unmarked]
  exact Element.alike_unmark b.element

end Branch

namespace Edit

variable {o o' : Operation} {b b' c c' p : Branch} {bs ts us : List Branch}

/-! ## What becomes of a counterpart -/

/-- A node and its counterparts have one name. -/
theorem sameName_of_isCounterpart {x : Entry} (h : isCounterpart b x = true) :
    b.element.sameName x.element = true := by
  unfold isCounterpart at h
  split at h
  · exact Entry.sameName_of_matches h
  · exact h

/-- Siblings that are told apart have no counterpart in common. -/
theorem isCounterpart_of_distinct {x : Entry} (h : b.Distinct b') (hb : isCounterpart b x = true) :
    isCounterpart b' x = false := by
  rw [Bool.eq_false_iff]
  intro hb'
  -- through `x` the two have one name, so that they are entries
  obtain ⟨hname, hns⟩ := Element.sameName_iff.1 (sameName_of_isCounterpart hb)
  obtain ⟨hname', hns'⟩ := Element.sameName_iff.1 (sameName_of_isCounterpart hb')
  have hentries := h (Element.sameName_iff.2 ⟨hname.trans hname'.symm, hns.trans hns'.symm⟩)
  rw [isCounterpart, if_pos (isComposite_of_container hentries.left)] at hb
  rw [isCounterpart, if_pos (isComposite_of_container hentries.right),
    hentries.not_matches hb] at hb'
  cases hb'

/-- An edit node without its mark is a counterpart of the edit node. -/
theorem isCounterpart_unmarked (b : Branch) : isCounterpart b b.unmarked.entry = true :=
  isCounterpart_of_matches (matches_unmarked b)

/-- What an edit node that merges or replaces makes of its counterpart. -/
inductive Turned (o : Operation) (b c : Branch) : Branch → Prop where
  /-- A copy of the edit node takes its place. -/
  | replace (ho : operationOf b.element o = .replace) : Turned o b c b.unmarked
  /-- It takes over the value. -/
  | take (ho : operationOf b.element o = .merge) (hb : b.entry.isComposite = false) :
    Turned o b c (.mk c.id { c.element with value := b.element.value } c.children)
  /-- The children of the edit node are applied below it. -/
  | descend {cs} (ho : operationOf b.element o = .merge) (hb : b.entry.isComposite = true)
    (hcs : Steps .merge b.children c.children cs) : Turned o b c (.mk c.id c.element cs)

/-- The first counterpart of an edit node becomes what the edit node makes of it. -/
theorem Turned.step {pre post : List Branch} (h : Turned o b c c')
    (hc : isCounterpart b c.entry = true) (hpre : ∀ d ∈ pre, isCounterpart b d.entry = false) :
    Step o b (pre ++ c :: post) (pre ++ c' :: post) := by
  cases h with
  | replace ho => exact .replace ho hc hpre
  | take ho hb => exact .take ho hb hc hpre
  | descend ho hb hcs => exact .descend ho hb hc hpre hcs

/-- Nothing is made of a counterpart that is to be deleted. -/
theorem Turned.ne_delete (h : Turned o b c c') : operationOf b.element o ≠ .delete := by
  cases h with
  | replace ho => rw [ho]; decide
  | take ho => rw [ho]; decide
  | descend ho => rw [ho]; decide

/-- What is made of a counterpart is like it, or has the value of an edit node that is not compared
by what is below it. -/
theorem Turned.alike_or_value (h : Turned o b c c') (hc : isCounterpart b c.entry = true) :
    c.element.alike c'.element = true ∨
      b.entry.isComposite = false ∧ c'.element.value = b.element.value := by
  cases h with
  | replace =>
    cases hb : b.entry.isComposite with
    | false => exact .inr ⟨rfl, value_unmarked b⟩
    | true =>
      rw [isCounterpart, if_pos hb] at hc
      have hleaf : b.entry.element.kind ≠ .leaf := fun hk => by
        rw [isComposite_of_leaf hk] at hb
        cases hb
      have hbc := Entry.alike_of_matches hleaf hc
      rw [Element.alike_comm] at hbc
      refine .inl (Element.alike_trans hbc ?_)
      rw [element_unmarked]
      exact Element.alike_unmark b.element
  | take _ hb => exact .inr ⟨hb, rfl⟩
  | descend => exact .inl (Element.alike_refl _)

/-! ## Edit nodes that find what they made -/

/-- An edit node has a counterpart, and makes of the first one what it is already. -/
def Settled (o : Operation) (b : Branch) (ts : List Branch) : Prop :=
  ∃ c, ts.find? (fun d => isCounterpart b d.entry) = some c ∧ Turned o b c c

/-- A settled edit node changes nothing. -/
theorem Settled.step (h : Settled o b ts) : Step o b ts ts := by
  obtain ⟨c, hfind, hturned⟩ := h
  obtain ⟨hc, pre, post, rfl, hpre⟩ := List.find?_eq_some_iff_append.1 hfind
  exact hturned.step hc fun d hd => by simpa using hpre d hd

/-- Settled edit nodes change nothing. -/
theorem steps_self (h : ∀ b ∈ bs, Settled o b us) : Steps o bs us us := by
  induction bs with
  | nil => exact .nil
  | cons b bs ih => exact .cons (h b (by simp)).step (ih fun b hb => h b (by simp [hb]))

/-- A step of an edit node that merges or replaces, after which the edit node is settled. -/
inductive Amends (o : Operation) (b : Branch) : List Branch → List Branch → Prop where
  /-- The first counterpart changes. -/
  | change {pre post : List Branch} {c c' : Branch} (hc : isCounterpart b c.entry = true)
    (hpre : ∀ d ∈ pre, isCounterpart b d.entry = false) (hturned : Turned o b c c')
    (hc' : isCounterpart b c'.entry = true) (hself : Turned o b c' c') :
    Amends o b (pre ++ c :: post) (pre ++ c' :: post)
  /-- There is no counterpart, and a copy of the edit node is added. -/
  | add {ts : List Branch} (hts : ∀ d ∈ ts, isCounterpart b d.entry = false)
    (hself : Turned o b b.unmarked b.unmarked) : Amends o b ts (ts ++ [b.unmarked])

/-- Such a step is a step. -/
theorem Amends.step (h : Amends o b ts us) : Step o b ts us := by
  cases h with
  | change hc hpre hturned => exact hturned.step hc hpre
  | add hts hself => exact .add hself.ne_delete hts

/-- Afterwards the edit node is settled. -/
theorem Amends.settled (h : Amends o b ts us) : Settled o b us := by
  cases h with
  | @change pre post c c' _ hpre _ hc' hself =>
    refine ⟨c', List.find?_eq_some_iff_append.2 ⟨hc', pre, post, rfl, fun d hd => ?_⟩, hself⟩
    simp [hpre d hd]
  | add hts hself =>
    refine ⟨b.unmarked, List.find?_eq_some_iff_append.2 ⟨isCounterpart_unmarked b, ts, [], rfl,
      fun d hd => ?_⟩, hself⟩
    simp [hts d hd]

/-- What was made for an edit node stays while a sibling follows. -/
theorem Settled.amends (hs : Settled o b ts) (h : Amends o' b' ts us) (hb : b'.Distinct b) :
    Settled o b us := by
  obtain ⟨c, hfind, hturned⟩ := hs
  refine ⟨c, ?_, hturned⟩
  cases h with
  | @change pre post d d' hd _ _ hd' =>
    rw [List.find?_append, List.find?_cons_of_neg (by simp [isCounterpart_of_distinct hb hd])]
      at hfind
    rw [List.find?_append, List.find?_cons_of_neg (by simp [isCounterpart_of_distinct hb hd']),
      hfind]
  | add => rw [List.find?_append, hfind, Option.some_or]

/-- What was made for an edit node stays while its siblings follow. -/
theorem Settled.run (hs : Settled o b ts) (h : Run (Amends o) bs ts us)
    (hbs : ∀ b' ∈ bs, b'.Distinct b) : Settled o b us := by
  induction h with
  | nil => exact hs
  | @cons b' bs _ _ _ hstep _ ih =>
    exact ih (hs.amends hstep (hbs b' (by simp))) fun d hd => hbs d (by simp [hd])

/-- After a run all edit nodes are settled. -/
theorem settled_of_run (h : Run (Amends o) bs ts us) (hbs : bs.Pairwise Distinct) :
    ∀ b ∈ bs, Settled o b us := by
  induction h with
  | nil => simp
  | cons hstep hrun ih =>
    obtain ⟨hb, hbs⟩ := List.pairwise_cons.1 hbs
    intro b' hb'
    rcases List.mem_cons.1 hb' with rfl | hb'
    · exact hstep.settled.run hrun fun b' hb' => symm (hb b' hb')
    · exact ih hbs b' hb'

/-- A run does what the edit nodes do. -/
theorem steps_of_run (h : Run (Amends o) bs ts us) : Steps o bs ts us := by
  induction h with
  | nil => exact .nil
  | cons hstep _ ih => exact .cons hstep.step ih

/-! ## The keys of the place -/

/-- A change of a member is not seen by a search that sees the same in it. -/
theorem map_find?_middle {α β : Type} {q : α → Bool} {f : α → β} {pre post : List α} {x y : α}
    (hq : q y = q x) (hf : pre.find? q = none → q x = true → f y = f x) :
    ((pre ++ y :: post).find? q).map f = ((pre ++ x :: post).find? q).map f := by
  rw [List.find?_append, List.find?_append]
  cases hpre : pre.find? q with
  | some z => rfl
  | none =>
    rw [Option.none_or, Option.none_or]
    cases hx : q x with
    | true =>
      rw [List.find?_cons_of_pos hx, List.find?_cons_of_pos (hq.trans hx), Option.map_some,
        Option.map_some, hf hpre hx]
    | false =>
      rw [List.find?_cons_of_neg (by simp [hq, hx]), List.find?_cons_of_neg (by simp [hx])]

/-- What a child of the edit node makes of a counterpart that is like another child, or like the
child itself, has the value that it had. -/
theorem Turned.wire?_eq {d : Branch} (h : Turned o b c c') (hc : isCounterpart b c.entry = true)
    (hp : p.ToldApart) (hb : b ∈ p.children) (hd : d ∈ p.children)
    (hcd : c.element.alike d.element = true) :
    wire? c'.element.value = wire? c.element.value := by
  obtain ⟨hname, hns, hvalue⟩ := Element.alike_iff.1 hcd
  rcases h.alike_or_value hc with halike | ⟨hcomp, hc'⟩
  · exact (Element.alike_iff.1 halike).2.2.symm
  · rcases hp.eq_or_distinct hb hd with rfl | hdistinct
    · rw [hc', hvalue]
    · -- entries are compared by what is below them
      obtain ⟨hbname, hbns⟩ := Element.sameName_iff.1 (sameName_of_isCounterpart hc)
      have hentries := hdistinct (Element.sameName_iff.2 ⟨hbname.trans hname, hbns.trans hns⟩)
      rw [isComposite_of_container hentries.left] at hcomp
      cases hcomp

/-- A step of a child of the edit node does not change what the keys look like. -/
theorem KeysLike.amends (h : KeysLike p ts) (hp : p.ToldApart) (hb : b ∈ p.children)
    (ha : Amends o b ts us) : KeysLike p us := by
  intro key hkey
  have hold := h key hkey
  rw [keyText?_eq, keyText?_eq, Branch.children] at hold ⊢
  cases ha with
  | @change pre post c c' hc hpre hturned hc' =>
    obtain ⟨hname, hns⟩ := Element.sameName_iff.1 (sameName_of_isCounterpart hc)
    obtain ⟨hname', hns'⟩ := Element.sameName_iff.1 (sameName_of_isCounterpart hc')
    have hsame : c'.element.name = c.element.name := hname'.symm.trans hname
    have hsamens : c'.element.ns = c.element.ns := hns'.symm.trans hns
    refine (map_find?_middle (by rw [hsame]) fun hfirst hkeyname => ?_).trans hold
    have hpos : (c :: post).find? (fun c => c.element.name == key) = some c :=
      List.find?_cons_of_pos hkeyname
    rw [List.find?_append, hfirst, Option.none_or, hpos] at hold
    -- the child of the edit node that is this key
    obtain ⟨d, hd, hdc⟩ := Option.map_eq_some_iff.1 hold.symm
    simp only [Prod.mk.injEq] at hdc
    obtain ⟨hdns, hdname, hdvalue⟩ := hdc
    have hcd := Element.alike_iff.2 ⟨hdname.symm, hdns.symm, hdvalue.symm⟩
    rw [hsame, hsamens, hturned.wire?_eq hc hp hb (List.mem_of_find?_eq_some hd) hcd]
  | add hts =>
    -- only where a key is missing could the last child be seen, and then the edit node lacks it too
    rw [List.find?_append]
    cases hfirst : ts.find? fun d => d.element.name == key with
    | some d =>
      rw [hfirst] at hold
      exact hold
    | none =>
      rw [hfirst] at hold
      have hnone := List.find?_eq_none.1 (Option.map_eq_none_iff.1 hold.symm) b hb
      rw [← hold, List.find?_cons_of_neg (by rw [element_unmarked]; exact hnone)]
      rfl

/-- Neither does a run. -/
theorem KeysLike.run (h : KeysLike p ts) (hp : p.ToldApart) (hbs : bs ⊆ p.children)
    (hrun : Run (Amends o) bs ts us) : KeysLike p us := by
  induction hrun with
  | nil => exact h
  | cons hstep _ ih =>
    obtain ⟨hb, hbs⟩ := List.cons_subset.1 hbs
    exact ih (h.amends hp hb hstep) hbs

/-- The keys of a counterpart look as those of the edit node do. -/
theorem keysLike_of_matches (h : b.entry.matchesEntry c.entry = true) : KeysLike b c.children :=
  fun _ hkey => (Entry.keyText?_of_matches h hkey).symm

/-- A counterpart stays one as long as its keys look the same. -/
theorem KeysLike.matches_of_matches (h : KeysLike b ts) (hc : b.entry.matchesEntry c.entry = true)
    (id : NodeId) : b.entry.matchesEntry (Branch.mk id c.element ts).entry = true := by
  refine Entry.matches_of_alike hc (Element.alike_refl c.element) fun key hkey => ?_
  exact (Entry.keyText?_of_matches hc hkey).symm.trans (h key hkey).symm

/-! ## Edits that merge and replace -/

/-- An operation that applies to whatever is there. -/
def Mild (o : Operation) : Prop := o = .merge ∨ o = .replace

/-- An edit that only merges and replaces, and whose siblings are told apart. -/
def Repeatable (b : Branch) : Prop :=
  b.All fun b => (∀ text ∈ b.element.markText?,
    text = Operation.merge.name ∨ text = Operation.replace.name) ∧ b.ToldApart

instance : DecidablePred Repeatable := fun b => inferInstanceAs (Decidable (b.All _))

/-- A node of such an edit merges or replaces. -/
theorem mild_operationOf {e : Element} (h : ∀ text ∈ e.markText?,
    text = Operation.merge.name ∨ text = Operation.replace.name) (ho : Mild o) :
    Mild (operationOf e o) := by
  unfold operationOf
  cases hmark : e.markText? with
  | none => exact ho
  | some text =>
    rw [Option.bind_some]
    rcases h text hmark with rfl | rfl
    · exact .inl (by rw [ofName?_name]; rfl)
    · exact .inr (by rw [ofName?_name]; rfl)

/-- An edit node makes something of each counterpart of which it then makes the same, and makes a
copy of itself what it is. -/
def Repeats (b : Branch) : Prop :=
  ∀ o, Mild o → Turned o b b.unmarked b.unmarked ∧ ∀ c : Branch, isCounterpart b c.entry = true →
    ∃ c', Turned o b c c' ∧ isCounterpart b c'.entry = true ∧ Turned o b c' c'

/-- An edit node that repeats itself takes a step on every list. -/
theorem Repeats.exists_amends (h : Repeats b) (ho : Mild o) (ts : List Branch) :
    ∃ us, Amends o b ts us := by
  obtain ⟨hself, hturn⟩ := h o ho
  cases hfind : ts.find? fun d => isCounterpart b d.entry with
  | some c =>
    obtain ⟨hc, pre, post, rfl, hpre⟩ := List.find?_eq_some_iff_append.1 hfind
    obtain ⟨c', hturned, hc', hself'⟩ := hturn c hc
    exact ⟨_, .change hc (fun d hd => by simpa using hpre d hd) hturned hc' hself'⟩
  | none => exact ⟨_, .add (fun d hd => by simpa using List.find?_eq_none.1 hfind d hd) hself⟩

/-- Edit nodes that repeat themselves have a run on every list. -/
theorem exists_run (h : ∀ b ∈ bs, Repeats b) (ho : Mild o) (ts : List Branch) :
    ∃ us, Run (Amends o) bs ts us := by
  induction bs generalizing ts with
  | nil => exact ⟨ts, .nil⟩
  | cons b bs ih =>
    obtain ⟨us, hus⟩ := (h b (by simp)).exists_amends ho ts
    obtain ⟨vs, hvs⟩ := ih (fun b hb => h b (by simp [hb])) us
    exact ⟨vs, .cons hus hvs⟩

/-- Edit nodes that repeat themselves change nothing among their own copies. -/
theorem settled_unmarked (h : ∀ b ∈ bs, Repeats b) (hbs : bs.Pairwise Distinct) (ho : Mild o) :
    ∀ b ∈ bs, Settled o b (bs.map unmarked) := by
  intro b hb
  obtain ⟨pre, post, rfl⟩ := List.append_of_mem hb
  refine ⟨b.unmarked, List.find?_eq_some_iff_append.2 ⟨isCounterpart_unmarked b, pre.map unmarked,
    post.map unmarked, by rw [List.map_append, List.map_cons], fun d hd => ?_⟩, (h b hb o ho).1⟩
  obtain ⟨a, ha, rfl⟩ := List.mem_map.1 hd
  have hab := (List.pairwise_append.1 hbs).2.2 a ha b (by simp)
  simp [isCounterpart_of_distinct hab (isCounterpart_unmarked a)]

/-- All nodes of an edit that merges and replaces repeat themselves. -/
theorem Repeatable.repeats (h : Repeatable b) : Repeats b := by
  induction b using Branch.induction with
  | step id e bs ih =>
    obtain ⟨⟨hmark, hapart⟩, hbelow⟩ := all_iff.1 h
    have hbs : ∀ b ∈ bs, Repeats b := fun b hb => ih b hb (hbelow b hb)
    intro o ho
    rcases mild_operationOf hmark ho with hop | hop
    · cases hcomp : (Branch.mk id e bs).entry.isComposite with
      | false =>
        -- the value is taken over, and is there the second time
        refine ⟨?_, fun c hc => ⟨_, .take hop hcomp, ?_, .take hop hcomp⟩⟩
        · have htake := Turned.take (c := (Branch.mk id e bs).unmarked) hop hcomp
          rwa [unmarked, mapElements_mk] at htake ⊢
        · rw [isCounterpart, if_neg (by simp [hcomp])] at hc ⊢
          exact hc
      | true =>
        -- the children are applied, and have settled the second time
        have hmild : Mild .merge := .inl rfl
        refine ⟨?_, fun c hc => ?_⟩
        · have hsettled := settled_unmarked hbs hapart hmild
          have hdescend := Turned.descend (c := (Branch.mk id e bs).unmarked) hop hcomp
            (by rw [children_unmarked]; exact steps_self hsettled)
          rwa [unmarked, mapElements_mk] at hdescend ⊢
        · have hmatch := hc
          rw [isCounterpart, if_pos hcomp] at hmatch
          obtain ⟨cs, hrun⟩ := exists_run hbs hmild c.children
          have hkeys := (keysLike_of_matches hmatch).run hapart (List.Subset.refl bs) hrun
          have hsettled := settled_of_run hrun hapart
          refine ⟨_, .descend hop hcomp (steps_of_run hrun), ?_,
            .descend hop hcomp (steps_self hsettled)⟩
          rw [isCounterpart, if_pos hcomp]
          exact hkeys.matches_of_matches hmatch c.id
    · exact ⟨.replace hop, fun c hc => ⟨_, .replace hop, isCounterpart_unmarked _, .replace hop⟩⟩

/-- The numbers of slots do not matter in such an edit. -/
theorem repeatable_bare : Repeatable b.bare ↔ Repeatable b :=
  all_bare (fun b => by simp) b

end Edit

namespace Tree

open Edit

variable {t edit : Tree} {r root : NodeId}

/-- An edit that merges and replaces can be applied where its top is the same node as the root, and
applying it again succeeds and changes nothing: the root and everything that is not below it are
the same as before, with all that they carry and with their children in order. -/
theorem Forest.apply_again (h : t.Forest) (hroot : root < t.size) (he : edit.Forest)
    (hedit : Repeatable (edit.branch r)) (hsame : edit.compare r t root ≠ .different) :
    ∃ t' t'', Build.on t (Edit.apply root edit r) = (.ok (), t') ∧
      Build.on t' (Edit.apply root edit r) = (.ok (), t'') ∧
      ∀ x < t'.size, x = root ∨ ¬ t'.Above root x →
        (t''.branch x).bare = (t'.branch x).bare := by
  rw [← repeatable_bare, he.bare_branch] at hedit
  obtain ⟨⟨hmark, hapart⟩, hbelow⟩ := all_iff.1 hedit
  have ho : Mild (operationOf (edit.element r) .merge) := mild_operationOf hmark (.inl rfl)
  obtain ⟨zs, hrun⟩ := exists_run (fun b hb => Repeatable.repeats (hbelow b hb)) ho (t.content root)
  obtain ⟨t', hok, hconf, rfl⟩ :=
    h.exists_apply_of_compare hroot he hsame (steps_of_run hrun)
  -- the top of the edit is still the same node as the root
  have hmatch : (edit.branch r).bare.entry.matchesEntry (t.branch root).bare.entry = true := by
    rw [he.entry_bare_branch, h.entry_bare_branch]
    exact bne_iff_ne.2 hsame
  rw [he.bare_branch, h.bare_branch] at hmatch
  have hkeys := (keysLike_of_matches hmatch).run hapart (List.Subset.refl _) hrun
  have hsame' : edit.compare r t' root ≠ .different := by
    refine bne_iff_ne.1 ?_
    have hstill := hkeys.matches_of_matches hmatch 0
    rw [← he.bare_branch, he.entry_bare_branch, Branch.element, ← hconf.element_top,
      ← hconf.forest.bare_branch, hconf.forest.entry_bare_branch] at hstill
    exact hstill
  obtain ⟨t'', hok', hconf', hcontent⟩ := hconf.forest.exists_apply_of_compare (hconf.lt hroot) he
    hsame' (steps_self (settled_of_run hrun hapart))
  exact ⟨t', t'', hok, hok', fun x hx hout => hconf'.bare_branch hconf.forest hcontent hx hout⟩

/-- A host that is replaced, one that gets another address, and one that is new. -/
def hostsEdit : Document :=
  hostList [marked .replace (host "a" "10.0.0.7"), marked .merge (host "b" "10.0.0.9"),
    host "d" "10.0.0.4"]

/-- The edit of the hosts can be applied twice, with the same hosts after it. -/
theorem apply_again_hosts :
    hostsBefore.tree.Forest ∧ hostsEdit.tree.Forest ∧ hostsBefore.root < hostsBefore.tree.size ∧
    Repeatable (hostsEdit.tree.branch hostsEdit.root) ∧
    hostsEdit.tree.compare hostsEdit.root hostsBefore.tree hostsBefore.root ≠ .different ∧
    ∃ t' t'', Build.on hostsBefore.tree
        (Edit.apply hostsBefore.root hostsEdit.tree hostsEdit.root) = (.ok (), t') ∧
      Build.on t' (Edit.apply hostsBefore.root hostsEdit.tree hostsEdit.root) = (.ok (), t'') ∧
      ∀ x < t'.size, x = hostsBefore.root ∨ ¬ t'.Above hostsBefore.root x →
        (t''.branch x).bare = (t'.branch x).bare := by
  have hbefore := fit_hostsBefore.forest
  have hedit : hostsEdit.tree.Forest := (forest_empty _).addCopy _
  have hrepeatable : Repeatable (hostsEdit.tree.branch hostsEdit.root) := by decide +kernel
  have hsame : hostsEdit.tree.compare hostsEdit.root hostsBefore.tree hostsBefore.root ≠
      .different := by decide +kernel
  exact ⟨hbefore, hedit, fit_hostsBefore.root_lt, hrepeatable, hsame,
    hbefore.apply_again fit_hostsBefore.root_lt hedit hrepeatable hsame⟩

end Tree

end Netconf
