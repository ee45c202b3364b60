import Netconf.Edit.Apply
import Netconf.Proofs.Tree.Identity

/-!
# Marks

What marking an element and taking its mark away do: the mark that was set last is the one that is
read, an edit node has the operation of its mark, and an element without mark is what it was after
its mark was set and taken away again. Marks do not count in comparisons.
-/

namespace Netconf

namespace Element

variable {e : Element} {o : Operation}

/-- An attribute that was put is the one that is found. -/
theorem find?_putAttribute (as : List Attribute) (a : Attribute) :
    (putAttribute as a).find? (isAttribute a.ns a.name) = some a := by
  have hself : isAttribute a.ns a.name a = true := by simp [isAttribute]
  unfold putAttribute
  split
  · next hany =>
    induction as with
    | nil => simp at hany
    | cons b as ih =>
      rw [List.map_cons]
      by_cases hb : isAttribute a.ns a.name b = true
      · rw [if_pos hb, List.find?_cons_of_pos hself]
      · rw [if_neg hb, List.find?_cons_of_neg hb]
        refine ih ?_
        rw [List.any_cons, Bool.or_eq_true] at hany
        exact hany.resolve_left hb
  · next hany =>
    have hnone : as.find? (isAttribute a.ns a.name) = none := by
      rw [List.find?_eq_none]
      intro b hb hbm
      exact hany (List.any_eq_true.2 ⟨b, hb, hbm⟩)
    rw [List.find?_append, hnone, Option.none_or, List.find?_cons_of_pos hself]

/-- A mark is an attribute of its own. -/
theorem mark_eq (e : Element) (o : Operation) :
    e.mark o =
      { e with attributes := putAttribute e.attributes ⟨some nsNetconf, markName, o.name⟩ } := by
  unfold mark setAttributeIn
  rw [if_neg (by decide)]

/-- The mark that was set is the one that is read. -/
theorem markText?_mark (e : Element) (o : Operation) : (e.mark o).markText? = some o.name := by
  rw [mark_eq]
  unfold markText? attributeIn?
  dsimp only
  rw [find?_putAttribute e.attributes ⟨some nsNetconf, markName, o.name⟩]
  rfl

/-- Taking away a mark that is not there changes nothing. -/
theorem unmark_eq_self (h : e.markText? = none) : e.unmark = e := by
  unfold markText? attributeIn? at h
  rw [Option.map_eq_none_iff, List.find?_eq_none] at h
  unfold unmark eraseAttributeIn
  rw [List.eraseP_of_forall_not h]

/-- Setting a mark and taking it away again changes nothing. -/
theorem unmark_mark (h : e.markText? = none) (o : Operation) : (e.mark o).unmark = e := by
  unfold markText? attributeIn? at h
  rw [Option.map_eq_none_iff, List.find?_eq_none] at h
  have hany : ¬ (e.attributes.any (isAttribute (some nsNetconf) markName) = true) := by
    rw [List.any_eq_true]
    rintro ⟨a, ha, hm⟩
    exact h a ha hm
  rw [mark_eq]
  unfold unmark eraseAttributeIn putAttribute
  dsimp only
  rw [if_neg hany, List.eraseP_append_right _ h, List.eraseP_cons_of_pos (by simp [isAttribute]),
    List.append_nil]

/-- Taking a mark away does not make a difference to what is compared. -/
theorem alike_unmark (e : Element) : e.alike e.unmark = true := alike_iff.2 ⟨rfl, rfl, rfl⟩

end Element

namespace Edit

/-- The word of an operation is the word of no other. -/
theorem ofName?_name (o : Operation) : Operation.ofName? o.name = some o := by
  cases o <;> decide

/-- A marked edit node has the operation of its mark. -/
theorem operationOf_mark (e : Element) (o inherited : Operation) :
    operationOf (e.mark o) inherited = o := by
  unfold operationOf
  rw [Element.markText?_mark, Option.bind_some, ofName?_name]
  rfl

/-- An edit node without mark has the operation of the node above. -/
theorem operationOf_unmarked {e : Element} (h : e.markText? = none) (inherited : Operation) :
    operationOf e inherited = inherited := by
  unfold operationOf
  rw [h]
  rfl

end Edit

end Netconf
