import Netconf.Proofs.Edit.Copies
import Netconf.Proofs.Edit.Sides

/-!
# Edit nodes of one class

In a well-keyed configuration a class of siblings has at most one member on each side, so there are
only a few ways in which the edit nodes of a class turn the member of the first side into that of
the second one (`Turns`): by deleting it, adding it, replacing it, giving it another value, or by
going down. Together, the edit nodes of all classes turn the first list of siblings into the second
(`exists_of_turns`).
-/

namespace Netconf

open Branch

namespace Edit

variable {s : Schema} {rule : KindRule} {k : Identity} {a b c e : Branch}
  {as bs cs es es' ts zs : List Branch}

/-- The branches have the kinds that a schema gives below a node of some kind. -/
def Kinds (s : Schema) (rule : KindRule) (bs : List Branch) : Prop :=
  ∀ b ∈ bs, b.element.kind = rule b.element.ns b.element.name ∧ b.Described s

/-- Within a class: edit nodes make of the branches `ts` some that agree with `bs`. -/
def Turns (s : Schema) (rule : KindRule) (k : Identity) (es ts bs : List Branch) : Prop :=
  (∀ e ∈ es, e.element.kind = rule e.element.ns e.element.name) ∧
    ∃ zs, RunWithin (Step .merge) (fun b => b.identity rule = k) es ts zs ∧
      AgreesAll zs bs ∧ Kinds s rule zs

/-! ## Branches without numbers -/

/-- What holds of nodes whatever their slots holds of branches without numbers. -/
theorem all_bare {P : Branch → Prop} (hP : ∀ b : Branch, P b.bare ↔ P b) (b : Branch) :
    b.bare.All P ↔ b.All P := by
  induction b using induction with
  | step id e bs ih =>
    rw [all_iff, all_iff, hP, children_bare]
    refine and_congr Iff.rfl ?_
    constructor
    · exact fun h c hc => (ih c hc).1 (h c.bare (List.mem_map_of_mem hc))
    · intro h c hc
      obtain ⟨d, hd, rfl⟩ := List.mem_map.1 hc
      exact (ih d hd).2 (h d hd)

/-- The kinds of a branch do not depend on the numbers of slots. -/
theorem described_bare : b.bare.Described s ↔ b.Described s := by
  refine all_bare (fun b => ?_) b
  rw [element_bare, children_bare]
  constructor
  · intro h c hc
    have hc' := h c.bare (List.mem_map_of_mem hc)
    rwa [element_bare] at hc'
  · intro h c hc
    obtain ⟨d, hd, rfl⟩ := List.mem_map.1 hc
    rw [element_bare]
    exact h d hd

/-- Whether siblings are apart does not depend on the numbers of slots. -/
theorem apart_bare : a.bare.Apart b.bare ↔ a.Apart b := by
  simp only [apart_iff, element_bare, entry_bare]

/-- Whether a branch is well-keyed does not depend on the numbers of slots. -/
theorem wellKeyed_bare : b.bare.WellKeyed ↔ b.WellKeyed := by
  refine all_bare (fun b => ?_) b
  simp only [keyed_iff, element_bare, entry_bare, children_bare, List.map_eq_nil_iff,
    List.forall_mem_map, List.pairwise_map, apart_bare]

/-- The marks of a branch do not depend on the numbers of slots. -/
theorem unmarked_bare_iff : b.bare.Unmarked ↔ b.Unmarked :=
  all_bare (fun b => by rw [element_bare]) b

/-- Two sides stay two sides when the second one is read from other slots. -/
theorem Sides.of_bare_right (h : Sides s a b) (hbc : b.bare = c.bare) : Sides s a c := by
  have helement : b.element = c.element := by rw [← element_bare, hbc, element_bare]
  have hentry : b.entry = c.entry := by rw [← entry_bare, hbc, entry_bare]
  refine ⟨helement ▸ h.kind, hentry ▸ h.same, h.describedA, ?_, h.keyedA, ?_, h.unmarkedA, ?_⟩
  · rw [← described_bare, ← hbc, described_bare]
    exact h.describedB
  · rw [← wellKeyed_bare, ← hbc, wellKeyed_bare]
    exact h.keyedB
  · rw [← unmarked_bare_iff, ← hbc, unmarked_bare_iff]
    exact h.unmarkedB

/-- A single branch agrees with another. -/
theorem agreesAll_singleton (h : a.Agrees b) : AgreesAll [a] [b] := ⟨[], b, [], rfl, h, rfl⟩

/-- A list of one branch agrees with another when the branches agree. -/
theorem agreesAll_singleton_iff : AgreesAll [a] [b] ↔ a.Agrees b := by
  refine ⟨fun h => ?_, agreesAll_singleton⟩
  obtain ⟨b', hb', hab⟩ := h.exists_right (List.mem_singleton.2 rfl)
  exact List.mem_singleton.1 hb' ▸ hab

/-- A branch without numbers agrees with what the branch agrees with. -/
theorem agreesAll_bare (h : a.Agrees b) : AgreesAll [a.bare] [b] :=
  agreesAll_singleton (agrees_bare_left.2 h)

/-- The copies of an edit have the kinds of what was copied. -/
theorem kind_copyFor {o : Operation} (ha : a.element.kind = rule a.element.ns a.element.name) :
    (copyFor o a).bare.element.kind =
      rule (copyFor o a).bare.element.ns (copyFor o a).bare.element.name := by
  rw [element_bare, element_copyFor, Element.mark_eq]
  exact ha

/-- A branch that is taken over has the kinds that it had. -/
theorem kinds_bare (hb : b.element.kind = rule b.element.ns b.element.name) (hd : b.Described s) :
    Kinds s rule [b.bare] := by
  intro z hz
  rw [List.mem_singleton.1 hz, element_bare]
  exact ⟨hb, described_bare.2 hd⟩

/-- The node that a copy was taken from is its counterpart. -/
theorem isCounterpart_copyFor {o : Operation} (h : a.entry.matchesEntry b.entry = true) :
    isCounterpart (copyFor o a).bare b.bare.entry = true := by
  rw [isCounterpart_bare, entry_bare]
  exact isCounterpart_of_matches (matches_copyFor h)

/-- A marked copy has the operation of its mark. -/
theorem operationOf_copyFor (o inherited : Operation) (a : Branch) :
    operationOf (copyFor o a).bare.element inherited = o := by
  rw [element_bare, element_copyFor, operationOf_mark]

/-! ## One way after the other -/

/-- Where there are no edit nodes, nothing changes. -/
theorem turns_nothing (h : AgreesAll ts bs) (hts : Kinds s rule ts) : Turns s rule k [] ts bs :=
  ⟨by simp, ts, .nil, h, hts⟩

/-- The only member is deleted. -/
theorem turns_delete (ha : a.element.kind = rule a.element.ns a.element.name) :
    Turns s rule k [(copyFor .delete a).bare] [a.bare] [] := by
  refine ⟨fun e he => ?_, [], ?_, rfl, fun _ hz => nomatch hz⟩
  · rw [List.mem_singleton.1 he]
    exact kind_copyFor ha
  · exact .cons (.delete_only (operationOf_copyFor _ _ _)
      (isCounterpart_copyFor (Entry.matches_refl _))) (by simp) .nil

/-- After the member is deleted, others may be added. -/
theorem Turns.append (h : Turns s rule k es ts []) (h' : Turns s rule k es' [] bs) :
    Turns s rule k (es ++ es') ts bs := by
  obtain ⟨hes, zs, hzs, hnil, -⟩ := h
  obtain ⟨hes', zs', hzs', hagree, hkinds⟩ := h'
  obtain rfl : zs = [] := List.length_eq_zero_iff.1 hnil.length_eq
  refine ⟨fun e he => ?_, zs', hzs.append hzs', hagree, hkinds⟩
  exact (List.mem_append.1 he).elim (hes e) (hes' e)

/-- A member is added. -/
theorem turns_add (he : e.element.kind = rule e.element.ns e.element.name)
    (ho : operationOf e.element .merge ≠ .delete) (hcopy : e.unmarked = b.bare)
    (hb : b.element.kind = rule b.element.ns b.element.name) (hk : b.identity rule = k)
    (hd : b.Described s) : Turns s rule k [e] [] [b] := by
  refine ⟨fun c hc => ?_, [b.bare], ?_, agreesAll_bare (agrees_refl b), kinds_bare hb hd⟩
  · rw [List.mem_singleton.1 hc]
    exact he
  · have hstep := Step.add_only ho
    rw [hcopy] at hstep
    exact .cons hstep (by simpa using hk) .nil

/-- A member is created. -/
theorem turns_create (hb : b.element.kind = rule b.element.ns b.element.name)
    (hk : b.identity rule = k) (hd : b.Described s) (hu : b.Unmarked) :
    Turns s rule k [(copyFor .create b).bare] [] [b] :=
  turns_add (kind_copyFor hb) (by rw [operationOf_copyFor]; decide)
    (unmarked_copyFor hu (by decide)) hb hk hd

/-- The only member is replaced. -/
theorem turns_replace (hb : b.element.kind = rule b.element.ns b.element.name)
    (hk : b.identity rule = k) (hd : b.Described s) (hu : b.Unmarked)
    (hba : b.entry.matchesEntry a.entry = true) :
    Turns s rule k [(copyFor .replace b).bare] [a.bare] [b] := by
  refine ⟨fun c hc => ?_, [b.bare], ?_, agreesAll_bare (agrees_refl b), kinds_bare hb hd⟩
  · rw [List.mem_singleton.1 hc]
    exact kind_copyFor hb
  · have hstep := Step.replace_only (o := .merge) (b := (copyFor .replace b).bare) (c := a.bare)
      (operationOf_copyFor _ _ _) (isCounterpart_copyFor hba)
    rw [unmarked_copyFor hu (by decide)] at hstep
    exact .cons hstep (by simpa using hk) .nil

/-- The only member takes over a value. -/
theorem turns_take (ha : a.element.kind = rule a.element.ns a.element.name)
    (hak : a.identity rule = k) (hcontainer : a.element.kind.isContainer = false)
    (hachildren : a.children = []) (hbchildren : b.children = [])
    (hca : c.element.sameName a.element = true) (hcb : c.element.alike b.element = true)
    (hckind : c.element.kind = a.element.kind) (hcchildren : c.children = [])
    (hcu : c.element.markText? = none) : Turns s rule k [c.bare] [a.bare] [b] := by
  obtain ⟨hname, hns⟩ := Element.sameName_iff.1 hca
  have hcomposite : c.bare.entry.isComposite = false := by
    rw [entry_bare]
    unfold Entry.isComposite entry
    rw [hckind, hcontainer, hcchildren]
    simp
  have hcounterpart : isCounterpart c.bare a.bare.entry = true := by
    rw [isCounterpart_bare, entry_bare]
    unfold isCounterpart
    rw [← entry_bare, if_neg (by rw [hcomposite]; simp)]
    exact hca
  refine ⟨fun e he => ?_, [.mk a.bare.id { a.element with value := c.element.value } []], ?_,
    ⟨[], b, [], rfl, agrees_iff.2 ⟨?_, by rw [hbchildren]; rfl⟩, rfl⟩, fun z hz => ?_⟩
  · rw [List.mem_singleton.1 he, element_bare, hckind, hname, hns]
    exact ha
  · have hstep := Step.take_only (o := .merge)
      (by rw [element_bare, operationOf_unmarked hcu]) hcomposite hcounterpart
    rw [element_bare, element_bare, children_bare, hachildren, List.map_nil] at hstep
    refine .cons hstep (fun z hz => ?_) .nil
    rw [List.mem_singleton.1 hz, ← hak]
    refine Entry.identity_eq_of_sameName (Element.sameName_iff.2 ⟨rfl, rfl⟩) ?_
    rw [← hcontainer, ha]
    rfl
  · obtain ⟨hname', hns', hvalue⟩ := Element.alike_iff.1 hcb
    exact Element.alike_iff.2 ⟨hname.symm.trans hname', hns.symm.trans hns', hvalue⟩
  · rw [List.mem_singleton.1 hz]
    refine ⟨ha, all_iff.2 ⟨?_, ?_⟩⟩ <;> exact fun _ hd => nomatch hd

/-- The edit nodes below the one for the only member turn its children. -/
theorem Sides.turns_descend (h : Sides s a b)
    (ha : a.element.kind = rule a.element.ns a.element.name) (hk : a.identity rule = k)
    (hleaf : a.element.kind ≠ .leaf) (he : e.element.kind = rule e.element.ns e.element.name)
    (ho : operationOf e.element .merge = .merge) (hcomposite : e.entry.isComposite = true)
    (hmatch : e.entry.matchesEntry a.entry = true)
    (hsteps : Steps .merge e.children (a.children.map bare) zs) (hagree : AgreesAll zs b.children)
    (hzs : Kinds s (s.rule (some a.element.kind)) zs) : Turns s rule k [e] [a.bare] [b] := by
  refine ⟨fun c hc => ?_, [.mk a.bare.id a.bare.element zs], ?_,
    ⟨[], b, [], rfl, agrees_iff.2 ⟨?_, hagree⟩, rfl⟩, fun z hz => ?_⟩
  · rw [List.mem_singleton.1 hc]
    exact he
  · refine .cons (Step.descend_only ho hcomposite ?_ (by rw [children_bare]; exact hsteps))
      (fun z hz => ?_) .nil
    · rw [entry_bare]
      exact isCounterpart_of_matches hmatch
    · rw [List.mem_singleton.1 hz, ← hk, element_bare]
      refine identity_congr ha (Element.alike_refl _) fun key hkey => ?_
      rw [h.keyText? hkey]
      exact keyText?_of_agreesAll (a := .mk a.bare.id a.element zs) hagree
        ((all_iff.1 h.keyedB).1.once key (h.kind ▸ hkey))
  · rw [element, element_bare]
    exact Entry.alike_of_matches (x := a.entry) (y := b.entry) hleaf h.same
  · rw [List.mem_singleton.1 hz, element_bare]
    exact ⟨ha, all_iff.2 ⟨fun d hd => (hzs d hd).1, fun d hd => (hzs d hd).2⟩⟩

/-! ## All classes together -/

/-- The members of a list are in the parts of their classes. -/
theorem mem_part {l : List Branch} {parts : Identity → List Branch}
    (h : ∀ k, (l.filter fun d => d.identity rule = k) = parts k) (hb : b ∈ l) :
    b ∈ parts (b.identity rule) := by
  rw [← h]
  exact List.mem_filter.2 ⟨hb, decide_eq_true rfl⟩

/-- Edit nodes that lead somewhere within each class lead all branches to a list with these
classes. -/
theorem exists_of_runs {parts : Identity → List Branch}
    (hkind : ∀ e ∈ es, e.element.kind = rule e.element.ns e.element.name)
    (h : ∀ k, RunWithin (Step .merge) (fun b => b.identity rule = k)
      (es.filter fun d => d.identity rule = k) (ts.filter fun d => d.identity rule = k) (parts k)) :
    ∃ zs, Steps .merge es ts zs ∧ ∀ k, (zs.filter fun d => d.identity rule = k) = parts k := by
  obtain ⟨n, hn, hparts⟩ := Run.exists_of_parts (identity rule) (identity rule)
    (fun e he => Step.concernsOnly fun c hc =>
      decide_eq_true (identity_of_isCounterpart (hkind e he) hc)) h
  exact ⟨n, .of_run hn, hparts⟩

/-- Edit nodes that turn each class turn all of them. -/
theorem exists_of_turns (h : ∀ k, Turns s rule k (es.filter fun d => d.identity rule = k)
      (ts.filter fun d => d.identity rule = k) (bs.filter fun d => d.identity rule = k)) :
    ∃ zs, Steps .merge es ts zs ∧ AgreesAll zs bs ∧ Kinds s rule zs := by
  have hkind : ∀ e ∈ es, e.element.kind = rule e.element.ns e.element.name := fun e he =>
    (h (e.identity rule)).1 e (mem_part (fun _ => rfl) he)
  choose zs hzs hagree hkinds using fun k => (h k).2
  obtain ⟨n, hn, hparts⟩ := exists_of_runs hkind hzs
  refine ⟨n, hn, agreesAll_of_filter (identity rule) fun k => ?_,
    fun z hz => hkinds _ z (mem_part hparts hz)⟩
  rw [hparts]
  exact hagree k

end Edit

end Netconf
