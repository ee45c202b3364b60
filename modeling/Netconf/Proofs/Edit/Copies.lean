import Netconf.Proofs.Edit.Excerpts
import Netconf.Proofs.Tree.Marks

/-!
# Copies in an edit

An edit holds copies of nodes: with their keys only or whole, marked or not. They are the same nodes
as those they were copied from (`matches_copyFor`), find these as their counterparts
(`isCounterpart_of_matches`), and are again what was copied once their marks are taken away
(`unmarked_copyFor`). Counterparts have the identity of their edit node
(`identity_of_isCounterpart`).
-/

namespace Netconf

open Branch Edit

namespace Branch

variable {rule : KindRule} {b c : Branch}

/-- A copy with keys only has the top of the branch. -/
@[simp]
theorem element_keysOnly (b : Branch) : b.keysOnly.element = b.element := by
  cases b
  rfl

/-- A copy with keys only has the children that are keys. -/
theorem children_keysOnly (b : Branch) :
    b.keysOnly.children = b.children.filter fun c => b.element.hasKey c.element.name := by
  cases b
  rfl

/-- A copy with keys only has the keys. -/
theorem member?_keysOnly {key : String} (h : key ∈ b.element.kind.keys) :
    b.keysOnly.entry.member? key = b.entry.member? key := by
  unfold Entry.member? entry
  rw [children_keysOnly, List.find?_map, List.find?_map, List.find?_filter]
  refine congrArg _ (List.find?_congr fun c _ => ?_)
  cases hc : c.element.name == key with
  | false => simp [hc]
  | true =>
    have hkey : b.element.hasKey c.element.name = true := by
      rw [eq_of_beq hc]
      exact List.contains_iff_mem.2 h
    simp [hc, hkey]

/-- The keys of a copy with keys only look as they do in the branch. -/
theorem keyText?_keysOnly {key : String} (h : key ∈ b.element.kind.keys) :
    b.keysOnly.entry.keyText? key = b.entry.keyText? key := by
  unfold Entry.keyText?
  rw [member?_keysOnly h]

/-- The identity of a branch does not depend on the numbers of slots. -/
@[simp]
theorem identity_bare (rule : KindRule) (b : Branch) : b.bare.identity rule = b.identity rule := by
  rw [identity, entry_bare]
  rfl

/-- The numbers of slots do not change the classes of branches. -/
theorem filter_identity_bare (rule : KindRule) (bs : List Branch) (k : Identity) :
    ((bs.map bare).filter fun d => d.identity rule = k) =
      (bs.filter fun d => d.identity rule = k).map bare := by
  rw [List.filter_map]
  exact congrArg _ (List.filter_congr fun d _ => by rw [Function.comp_apply, identity_bare])

/-- Branches with alike tops of one kind and the same keys have the same identity. -/
theorem identity_congr (hb : b.element.kind = rule b.element.ns b.element.name)
    (halike : b.element.alike c.element = true)
    (hkeys : ∀ key ∈ b.element.kind.keys, c.entry.keyText? key = b.entry.keyText? key) :
    c.identity rule = b.identity rule := by
  obtain ⟨hname, hns, hvalue⟩ := Element.alike_iff.1 halike
  unfold identity Entry.identity
  have hbe : b.entry.element = b.element := rfl
  have hce : c.entry.element = c.element := rfl
  rw [hbe, hce, ← hname, ← hns, ← hvalue, ← hb]
  cases hk : b.element.kind with
  | container s =>
    rw [hk] at hkeys
    simp only [Identity.mk.injEq, true_and, Option.some.injEq, Prod.mk.injEq]
    exact List.map_congr_left hkeys
  | _ => rfl

end Branch

namespace Edit

variable {rule : KindRule} {o : Operation} {b c : Branch}

/-- The copy that an edit needs has the top of the branch, with its mark. -/
@[simp]
theorem element_copyFor (o : Operation) (b : Branch) :
    (copyFor o b).element = b.element.mark o := by
  unfold copyFor marked
  split
  · rw [element_keysOnly]; rfl
  · rfl

/-- A mark does not make a difference to what is compared. -/
theorem alike_mark (e : Element) (o : Operation) : e.alike (e.mark o) = true := by
  rw [Element.mark_eq]
  exact Element.alike_iff.2 ⟨rfl, rfl, rfl⟩

/-- A mark does not change the kind. -/
@[simp]
theorem kind_mark (e : Element) (o : Operation) : (e.mark o).kind = e.kind := by
  rw [Element.mark_eq]

/-- The copy that an edit needs has the keys. -/
theorem keyText?_copyFor {key : String} (h : key ∈ b.element.kind.keys) :
    (copyFor o b).entry.keyText? key = b.entry.keyText? key := by
  unfold copyFor marked
  split
  · exact keyText?_keysOnly h
  · rfl

/-- The copy that an edit needs has the identity of the branch. -/
theorem identity_copyFor (hb : b.element.kind = rule b.element.ns b.element.name) :
    (copyFor o b).identity rule = b.identity rule :=
  identity_congr hb (by rw [element_copyFor]; exact alike_mark _ _) fun _ => keyText?_copyFor

/-- The copy that an edit needs is the same node as the branch is. -/
theorem matches_copyFor (h : b.entry.matchesEntry c.entry = true) :
    (copyFor o b).entry.matchesEntry c.entry = true := by
  have helement : (copyFor o b).entry.element = b.element.mark o := element_copyFor o b
  have hkind : (copyFor o b).entry.element.kind = b.element.kind := by rw [helement, kind_mark]
  have halike : b.element.alike c.element = true →
      (copyFor o b).entry.element.alike c.entry.element = true := fun h => by
    rw [helement]
    exact (Element.alike_congr (alike_mark _ _) _).symm.trans h
  cases hk : b.element.kind with
  | container s =>
    obtain ⟨hbc, hkeys⟩ := (Entry.matches_iff_of_container (x := b.entry) hk).1 h
    refine (Entry.matches_iff_of_container (hkind.trans hk)).2 ⟨halike hbc, ?_⟩
    rw [← hkeys]
    exact List.map_congr_left fun key hkey => keyText?_copyFor (by rw [hk]; exact hkey)
  | leaf =>
    have hsame := (Entry.matches_iff_of_leaf (x := b.entry) hk).1 h
    obtain ⟨hname, hns⟩ := Element.sameName_iff.1 hsame
    refine (Entry.matches_iff_of_leaf (hkind.trans hk)).2 ?_
    rw [helement, Element.mark_eq]
    exact Element.sameName_iff.2 ⟨hname, hns⟩
  | plain =>
    exact (Entry.matches_iff_of_plain (hkind.trans hk)).2
      (halike ((Entry.matches_iff_of_plain (x := b.entry) hk).1 h))

/-- A node that is the same as an edit node is its counterpart. -/
theorem isCounterpart_of_matches {x : Entry} (h : b.entry.matchesEntry x = true) :
    isCounterpart b x = true := by
  unfold isCounterpart
  split
  · exact h
  · exact Entry.sameName_of_matches h

/-- The counterparts of an edit node have its identity. -/
theorem identity_of_isCounterpart (hb : b.element.kind = rule b.element.ns b.element.name)
    (h : isCounterpart b c.entry = true) : c.identity rule = b.identity rule := by
  unfold isCounterpart at h
  split at h
  · exact (Entry.identity_eq_of_matches hb h).symm
  · next hcomp =>
    refine (Entry.identity_eq_of_sameName h ?_).symm
    have hcontainer : b.element.kind.isContainer = false :=
      Bool.eq_false_iff.2 fun hcontainer => hcomp (isComposite_of_container hcontainer)
    rw [← hcontainer, hb]
    rfl

/-- A branch without marks stays as it is when marks are taken away. -/
theorem unmarked_bare (hb : b.Unmarked) : b.bare.unmarked = b.bare := by
  induction b using induction with
  | step id e bs ih =>
    have he : e.markText? = none := (all_iff.1 hb).1
    have hbs := (all_iff.1 hb).2
    rw [bare_mk, unmarked, mapElements_mk, List.map_map, Element.unmark_eq_self he]
    exact congrArg (mk 0 e) (List.map_congr_left fun c hc => ih c hc (hbs c hc))

/-- A copy without its mark is the branch, when the branch has no marks. -/
theorem unmarked_copyFor (hb : b.Unmarked) (ho : o ≠ .delete) :
    (copyFor o b).bare.unmarked = b.bare := by
  obtain ⟨id, e, bs⟩ := b
  have he : e.markText? = none := (all_iff.1 hb).1
  have hbs := (all_iff.1 hb).2
  unfold copyFor marked
  rw [if_neg ho, bare_mk, bare_mk, unmarked, mapElements_mk, List.map_map]
  dsimp only [element, children]
  rw [Element.unmark_mark he]
  exact congrArg (mk 0 e) (List.map_congr_left fun c hc => unmarked_bare (hbs c hc))

end Edit

end Netconf
