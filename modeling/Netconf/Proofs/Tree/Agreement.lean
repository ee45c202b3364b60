import Netconf.Proofs.Tree.Branches
import Netconf.Proofs.Tree.Classes
import Netconf.Proofs.Value
import Netconf.Tree.Difference

/-!
# Agreement up to the order of siblings

Two branches *agree* when they have the same namespaces, names and values, the children of each node
paired in some order (`Branch.Agrees`). This is what an edit between two configurations has to bring
about. Agreement of two lists can be shown class by class (`agreesAll_of_filter`), for any
classification of their members, and does not depend on attributes, bindings or kinds.
-/

namespace Netconf

/-! ## Elements that are alike -/

namespace Element

variable {e f g : Element}

/-- Elements have the same name when both parts of it are the same. -/
theorem sameName_iff : e.sameName f = true ↔ e.name = f.name ∧ e.ns = f.ns := by
  simp [sameName]

/-- Elements are alike when names, namespaces and wire forms are the same. -/
theorem alike_iff :
    e.alike f = true ↔ e.name = f.name ∧ e.ns = f.ns ∧ wire? e.value = wire? f.value := by
  simp [alike, sameValue_iff, and_assoc]

/-- An element is like itself. -/
theorem alike_refl (e : Element) : e.alike e = true := alike_iff.2 ⟨rfl, rfl, rfl⟩

/-- Being alike goes both ways. -/
theorem alike_comm : e.alike f = f.alike e := by
  rw [Bool.eq_iff_iff, alike_iff, alike_iff]
  constructor <;> exact fun ⟨h1, h2, h3⟩ => ⟨h1.symm, h2.symm, h3.symm⟩

/-- Being alike passes on. -/
theorem alike_trans (h : e.alike f = true) (h' : f.alike g = true) : e.alike g = true := by
  rw [alike_iff] at h h' ⊢
  exact ⟨h.1.trans h'.1, h.2.1.trans h'.2.1, h.2.2.trans h'.2.2⟩

/-- Of two elements that are alike, each is like what the other is like. -/
theorem alike_congr (h : e.alike f = true) (g : Element) : e.alike g = f.alike g := by
  rw [Bool.eq_iff_iff]
  exact ⟨fun h' => alike_trans (alike_comm ▸ h) h', alike_trans h⟩

end Element

/-! ## Agreement -/

namespace Branch

mutual

/-- Two branches have the same namespaces, names and values, up to the order of siblings. -/
def Agrees : Branch → Branch → Prop
  | .mk _ e as, b => e.alike b.element = true ∧ AgreesAll as b.children

/-- The members of two lists of branches agree in pairs, in some order. -/
def AgreesAll : List Branch → List Branch → Prop
  | [], bs => bs = []
  | a :: as, bs => ∃ pre b post, bs = pre ++ b :: post ∧ Agrees a b ∧ AgreesAll as (pre ++ post)

end

variable {a b c : Branch} {as bs cs : List Branch}

/-- Branches agree when their tops are alike and their children agree in pairs. -/
theorem agrees_iff :
    a.Agrees b ↔ a.element.alike b.element = true ∧ AgreesAll a.children b.children := by
  cases a
  rw [Agrees, element, children]

/-- The members of two lists agree in pairs when the second list can be put in an order in which
each agrees with its counterpart. -/
theorem agreesAll_iff :
    AgreesAll as bs ↔ ∃ cs : List Branch, cs.Perm bs ∧ List.Forall₂ Agrees as cs := by
  induction as generalizing bs with
  | nil =>
    rw [AgreesAll]
    constructor
    · rintro rfl
      exact ⟨[], .refl _, .nil⟩
    · rintro ⟨cs, hperm, hall⟩
      cases hall
      exact hperm.symm.eq_nil
  | cons a as ih =>
    rw [AgreesAll]
    constructor
    · rintro ⟨pre, b, post, rfl, hab, hall⟩
      obtain ⟨cs, hperm, hcs⟩ := ih.1 hall
      exact ⟨b :: cs, (hperm.cons b).trans List.perm_middle.symm, .cons hab hcs⟩
    · rintro ⟨cs, hperm, hall⟩
      cases hall with
      | @cons _ b _ cs hab hcs =>
        obtain ⟨pre, post, rfl⟩ := List.append_of_mem (hperm.subset (List.mem_cons_self))
        exact ⟨pre, b, post, rfl, hab, ih.2 ⟨cs, (hperm.trans List.perm_middle).cons_inv, hcs⟩⟩

/-- A branch agrees with itself. -/
theorem agrees_refl (a : Branch) : a.Agrees a := by
  induction a using induction with
  | step id e bs ih =>
    refine agrees_iff.2 ⟨Element.alike_refl e, agreesAll_iff.2 ⟨bs, .refl _, ?_⟩⟩
    exact List.forall₂_same.2 ih

/-- The numbers of slots do not matter on the first side. -/
theorem agrees_bare_left : a.bare.Agrees b ↔ a.Agrees b := by
  induction a using induction generalizing b with
  | step id e as ih =>
    rw [agrees_iff, agrees_iff, element_bare, children_bare, agreesAll_iff, agreesAll_iff]
    refine and_congr Iff.rfl (exists_congr fun cs => and_congr Iff.rfl ?_)
    rw [List.forall₂_map_left_iff]
    have hall : ∀ xs ⊆ as, ∀ ys, List.Forall₂ (fun x y => x.bare.Agrees y) xs ys ↔
        List.Forall₂ Agrees xs ys := by
      intro xs
      induction xs with
      | nil => intro _ ys; cases ys <;> simp
      | cons x xs ihxs =>
        intro hsub ys
        cases ys with
        | nil => simp
        | cons y ys =>
          rw [List.forall₂_cons, List.forall₂_cons, ih x (hsub (by simp)),
            ihxs (fun z hz => hsub (by simp [hz]))]
    exact hall as (fun _ h => h) cs

/-- Nor do they matter on the second side. -/
theorem agrees_of_bare_right (hbc : b.bare = c.bare) (h : a.Agrees b) : a.Agrees c := by
  induction a using induction generalizing b c with
  | step id e as ih =>
    have hall : ∀ xs ⊆ as, ∀ bs cs : List Branch, bs.map bare = cs.map bare → AgreesAll xs bs →
        AgreesAll xs cs := by
      intro xs
      induction xs with
      | nil =>
        intro _ bs cs hmap hbs
        rw [AgreesAll] at hbs
        rw [hbs] at hmap
        exact List.map_eq_nil_iff.1 hmap.symm
      | cons x xs ihxs =>
        rintro hsub bs cs hmap ⟨pre, d, post, rfl, hxd, hrest⟩
        rw [List.map_append, List.map_cons] at hmap
        obtain ⟨pre', more, rfl, hpre, hmore⟩ := List.map_eq_append_iff.1 hmap.symm
        obtain ⟨d', post', rfl, hd, hpost⟩ := List.map_eq_cons_iff.1 hmore
        refine ⟨pre', d', post', rfl, ih x (hsub (by simp)) hd.symm hxd, ?_⟩
        refine ihxs (fun z hz => hsub (by simp [hz])) (pre ++ post) _ ?_ hrest
        rw [List.map_append, List.map_append, hpre, hpost]
    obtain ⟨halike, hchildren⟩ := agrees_iff.1 h
    refine agrees_iff.2 ⟨?_, hall as (fun _ hx => hx) b.children c.children ?_ hchildren⟩
    · rw [← element_bare c, ← hbc, element_bare]
      exact halike
    · rw [← children_bare, hbc, children_bare]

/-- What agrees with the children of a branch agrees with them when they are read from other
slots. -/
theorem AgreesAll.of_bare_right (hbc : b.bare = c.bare) (h : AgreesAll as b.children) :
    AgreesAll as c.children := by
  have hself : (mk 0 b.element as).Agrees b := agrees_iff.2 ⟨Element.alike_refl _, h⟩
  exact (agrees_iff.1 (agrees_of_bare_right hbc hself)).2

/-- The members of the first list are paired with as many. -/
theorem AgreesAll.length_eq (h : AgreesAll as bs) : as.length = bs.length := by
  obtain ⟨cs, hperm, hall⟩ := agreesAll_iff.1 h
  rw [hall.length_eq, hperm.length_eq]

/-- Every member of the first list agrees with one of the second. -/
theorem AgreesAll.exists_right (h : AgreesAll as bs) (ha : a ∈ as) : ∃ b ∈ bs, a.Agrees b := by
  induction as generalizing bs with
  | nil => cases ha
  | cons x as ih =>
    obtain ⟨pre, b, post, rfl, hxb, hall⟩ := h
    rcases List.mem_cons.1 ha with rfl | ha
    · exact ⟨b, by simp, hxb⟩
    · obtain ⟨c, hc, hac⟩ := ih hall ha
      refine ⟨c, ?_, hac⟩
      rcases List.mem_append.1 hc with hc | hc <;> simp [hc]

/-- Every member of the second list agrees with one of the first. -/
theorem AgreesAll.exists_left (h : AgreesAll as bs) (hb : b ∈ bs) : ∃ a ∈ as, a.Agrees b := by
  induction as generalizing bs with
  | nil =>
    rw [AgreesAll] at h
    rw [h] at hb
    cases hb
  | cons x as ih =>
    obtain ⟨pre, c, post, rfl, hxc, hall⟩ := h
    by_cases hbc : b ∈ pre ++ post
    · obtain ⟨a, ha, hab⟩ := ih hall hbc
      exact ⟨a, List.mem_cons_of_mem _ ha, hab⟩
    · obtain rfl : b = c := by
        rcases List.mem_append.1 hb with hb | hb
        · exact absurd (List.mem_append_left _ hb) hbc
        · rcases List.mem_cons.1 hb with rfl | hb
          · rfl
          · exact absurd (List.mem_append_right _ hb) hbc
      exact ⟨x, by simp, hxc⟩

/-! ## Agreement class by class -/

variable {κ : Type} [DecidableEq κ]

/-- Lists agree when the members of each class do. -/
theorem agreesAll_of_filter (cls : Branch → κ)
    (h : ∀ k, AgreesAll (as.filter fun a => cls a = k) (bs.filter fun b => cls b = k)) :
    AgreesAll as bs := by
  induction as generalizing bs with
  | nil =>
    rw [AgreesAll]
    by_contra hne
    obtain ⟨b, hb⟩ := List.exists_mem_of_ne_nil _ hne
    have hnil := h (cls b)
    rw [List.filter_nil, AgreesAll, List.filter_eq_nil_iff] at hnil
    exact hnil b hb (by simp)
  | cons a as ih =>
    have hown := h (cls a)
    rw [List.filter_cons_of_pos (by simp)] at hown
    obtain ⟨pre, b, post, hsplit, hab, hall⟩ := hown
    obtain ⟨pre', post', rfl, rfl, rfl⟩ := exists_split_of_filter hsplit
    have hb : cls b = cls a := by
      have hmem : b ∈ (pre' ++ b :: post').filter fun b => decide (cls b = cls a) := by
        rw [hsplit]; simp
      simpa using (List.mem_filter.1 hmem).2
    refine ⟨pre', b, post', rfl, hab, ih fun k => ?_⟩
    rw [List.filter_append]
    by_cases hk : cls a = k
    · subst hk
      exact hall
    · have hother := h k
      rwa [List.filter_cons_of_neg (by simpa using hk), List.filter_append,
        List.filter_cons_of_neg (by simpa [hb] using hk)] at hother

/-- When agreeing members are in the same class, the members of each class agree. -/
theorem AgreesAll.filter {f g : Branch → κ}
    (hclass : ∀ a ∈ as, ∀ b ∈ bs, a.Agrees b → f a = g b) (h : AgreesAll as bs) (k : κ) :
    AgreesAll (as.filter fun a => f a = k) (bs.filter fun b => g b = k) := by
  induction as generalizing bs with
  | nil =>
    rw [AgreesAll] at h
    rw [h]
    rfl
  | cons a as ih =>
    obtain ⟨pre, b, post, rfl, hab, hall⟩ := h
    have hrest := ih (fun x hx y hy => hclass x (by simp [hx]) y (by
      rcases List.mem_append.1 hy with hy | hy <;> simp [hy])) hall
    have heq := hclass a (by simp) b (by simp) hab
    rw [List.filter_append] at hrest ⊢
    by_cases hk : f a = k
    · rw [List.filter_cons_of_pos (by simpa using hk),
        List.filter_cons_of_pos (by simpa [← heq] using hk)]
      exact ⟨_, b, _, rfl, hab, hrest⟩
    · rw [List.filter_cons_of_neg (by simpa using hk),
        List.filter_cons_of_neg (by simpa [← heq] using hk)]
      exact hrest

end Branch

end Netconf
