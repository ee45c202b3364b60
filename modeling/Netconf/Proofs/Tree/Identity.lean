import Netconf.Proofs.Tree.Agreement
import Netconf.Tree.Likeness

/-!
# Identities among siblings

Where a data model gives the kinds, a comparison of siblings is a comparison of *identities*: the
namespace and name, and for a container also its value and its keys (`matches_iff_of_container`,
`identity_eq_of_matches`). In a well-keyed configuration no two siblings have the same identity
(`WellKeyed.pairwise_identity`), so a list of siblings falls apart into classes of at most one
member, and what happens to a list may be studied class by class.
-/

namespace Netconf

/-- The kinds of the children of a node, by their namespaces and names. -/
abbrev KindRule := Option String → String → Kind

/-- The kinds that a schema gives the children of a node of some kind. -/
def Schema.rule (s : Schema) (parent : Option Kind) : KindRule :=
  fun ns name => s.kindOf ns name parent

/-- What a comparison looks at in a child that is a key: its namespace, name and wire form. -/
abbrev KeyText := Option String × String × Option String

/-- What a node must have in common with a sibling to be the same one. -/
structure Identity where
  /-- The namespace. -/
  ns : Option String
  /-- The name. -/
  name : String
  /-- The wire form of the value and the keys, for a container. -/
  entry : Option (Option String × List (Option KeyText))
  deriving DecidableEq

/-- The kinds that a comparison treats alike. -/
inductive Family where
  /-- Nodes without schema. -/
  | plain
  /-- Leaves. -/
  | leaf
  /-- Containers with the same keys. -/
  | entries (keys : List String)
  deriving DecidableEq

/-- The family of a kind. Of the schema of a container it tells the keys only. -/
def Kind.family : Kind → Family
  | .plain => .plain
  | .leaf => .leaf
  | .container s => .entries s.keys

namespace Entry

variable {x y z : Entry}

/-- The first child with a name is a child with this name. -/
theorem mem_of_member? {key : String} {m : Element} (h : x.member? key = some m) :
    m ∈ x.members ∧ m.name = key :=
  ⟨List.mem_of_find?_eq_some h, by simpa [member?] using List.find?_some h⟩

/-- The first child with a name is the first of the children with this name. -/
theorem member?_eq_head? (x : Entry) (key : String) :
    x.member? key = (x.membersNamed key).head? := by
  unfold member? membersNamed
  rw [List.head?_filter]

/-- The only child with a name is the first one. -/
theorem member?_of_once {key : String} {m : Element} (hm : m ∈ x.membersNamed key)
    (honce : (x.membersNamed key).length ≤ 1) : x.member? key = some m := by
  rw [member?_eq_head?]
  cases hl : x.membersNamed key with
  | nil => rw [hl] at hm; cases hm
  | cons n ns =>
    rw [hl, List.length_cons] at honce
    obtain rfl := List.length_eq_zero_iff.1 (Nat.le_zero.1 (Nat.le_of_succ_le_succ honce))
    rw [hl, List.mem_singleton] at hm
    rw [hm]
    rfl

/-- The key of a name, as far as a comparison looks at it. -/
def keyText? (x : Entry) (key : String) : Option KeyText :=
  (x.member? key).map fun m => (m.ns, m.name, wire? m.value)

/-- What a key looks like is told by the first child of its name. -/
theorem keyText?_of_members {α : Type} {cs : List α} {el : α → Element}
    (h : x.members = cs.map el) (key : String) : x.keyText? key =
      (cs.find? fun c => (el c).name == key).map fun c =>
        ((el c).ns, (el c).name, wire? (el c).value) := by
  unfold keyText? member?
  rw [h, List.find?_map, Option.map_map]
  rfl

/-- The identity of a node among its siblings. -/
def identity (rule : KindRule) (x : Entry) : Identity where
  ns := x.element.ns
  name := x.element.name
  entry :=
    match rule x.element.ns x.element.name with
    | .container s => some (wire? x.element.value, s.keys.map x.keyText?)
    | _ => none

/-- What a node of a family must have in common with another one to be the same node: leaves their
names, nodes without schema their values as well, and containers their values and keys. -/
def identityIn (f : Family) (x : Entry) : Identity where
  ns := x.element.ns
  name := x.element.name
  entry :=
    match f with
    | .plain => some (wire? x.element.value, [])
    | .leaf => none
    | .entries keys => some (wire? x.element.value, keys.map x.keyText?)

/-- Nodes have the same keys when their keys look the same. -/
theorem sameKeys_iff (keys : List String) :
    sameKeys keys x y = true ↔ keys.map x.keyText? = keys.map y.keyText? := by
  unfold sameKeys
  rw [List.all_eq_true, List.map_inj_left]
  refine forall₂_congr fun key _ => ?_
  unfold keyText?
  cases x.member? key with
  | none => cases y.member? key <;> simp
  | some m =>
    cases y.member? key with
    | none => simp
    | some n => simp [Element.alike_iff, and_left_comm]

/-- Nodes that compare as equal are the same node. -/
theorem matches_of_compare (h : x.compare y = .equal) : x.matchesEntry y = true :=
  bne_iff_ne.2 (by rw [h]; decide)

/-- Containers are the same node when they are alike and their keys are. -/
theorem matches_iff_of_container {s : ContainerSchema} (h : x.element.kind = .container s) :
    x.matchesEntry y = true ↔
      x.element.alike y.element = true ∧ s.keys.map x.keyText? = s.keys.map y.keyText? := by
  rw [← sameKeys_iff]
  unfold matchesEntry compare
  rw [h]
  dsimp only
  cases x.element.alike y.element <;> cases sameKeys s.keys x y <;>
    cases (otherNames s x y).all (sameMembers x y) <;> simp

/-- Leaves are the same node when they have the same name. -/
theorem matches_iff_of_leaf (h : x.element.kind = .leaf) :
    x.matchesEntry y = true ↔ x.element.sameName y.element = true := by
  unfold matchesEntry compare
  rw [h]
  dsimp only
  cases x.element.sameName y.element <;> cases sameValue x.element.value y.element.value <;> simp

/-- Nodes without schema are the same node when they are alike. -/
theorem matches_iff_of_plain (h : x.element.kind = .plain) :
    x.matchesEntry y = true ↔ x.element.alike y.element = true := by
  unfold matchesEntry compare
  rw [h]
  dsimp only
  cases x.element.alike y.element <;> simp

/-- Nodes are the same when they have the same identity in the family of the first one. -/
theorem matches_iff_identityIn (x y : Entry) : x.matchesEntry y = true ↔
    x.identityIn x.element.kind.family = y.identityIn x.element.kind.family := by
  cases hk : x.element.kind with
  | container s =>
    rw [matches_iff_of_container hk, Element.alike_iff]
    simp only [identityIn, Kind.family, Identity.mk.injEq, Option.some.injEq, Prod.mk.injEq]
    exact ⟨fun ⟨⟨hname, hns, hvalue⟩, hkeys⟩ => ⟨hns, hname, hvalue, hkeys⟩,
      fun ⟨hns, hname, hvalue, hkeys⟩ => ⟨⟨hname, hns, hvalue⟩, hkeys⟩⟩
  | leaf =>
    rw [matches_iff_of_leaf hk, Element.sameName_iff]
    simp only [identityIn, Kind.family, Identity.mk.injEq, and_true]
    exact And.comm
  | plain =>
    rw [matches_iff_of_plain hk, Element.alike_iff]
    simp only [identityIn, Kind.family, Identity.mk.injEq, Option.some.injEq, Prod.mk.injEq,
      and_true]
    exact and_left_comm

/-- The keys of the same node look the same on both sides. -/
theorem keyText?_of_matches (h : x.matchesEntry y = true) {key : String}
    (hkey : key ∈ x.element.kind.keys) : x.keyText? key = y.keyText? key := by
  cases hk : x.element.kind with
  | container sch =>
    rw [hk] at hkey
    exact List.map_inj_left.1 ((matches_iff_of_container hk).1 h).2 key hkey
  | leaf => rw [hk] at hkey; cases hkey
  | plain => rw [hk] at hkey; cases hkey

/-- Keys that look the same have the same value. -/
theorem sameValue_of_keyText? {key : String} (h : x.keyText? key = y.keyText? key) :
    sameValue ((x.member? key).bind Element.value) ((y.member? key).bind Element.value) = true := by
  rw [sameValue_iff]
  unfold keyText? at h
  cases hm : x.member? key with
  | none =>
    rw [hm] at h
    rw [Option.map_eq_none_iff.1 h.symm]
  | some m =>
    rw [hm] at h
    obtain ⟨n, hn, heq⟩ := Option.map_eq_some_iff.1 h.symm
    rw [hn]
    exact (congrArg (fun k => k.2.2) heq).symm

/-- The same node has a key on both sides or on none. -/
theorem isSome_member?_of_matches (h : x.matchesEntry y = true) {key : String}
    (hkey : key ∈ x.element.kind.keys) : (x.member? key).isSome = (y.member? key).isSome := by
  have htext := congrArg Option.isSome (keyText?_of_matches h hkey)
  unfold keyText? at htext
  simpa using htext

/-- A node is the same as itself. -/
theorem matches_refl (x : Entry) : x.matchesEntry x = true := (matches_iff_identityIn x x).2 rfl

/-- What is like the same node, with keys that look the same, is the same node. -/
theorem matches_of_alike (h : x.matchesEntry y = true)
    (halike : y.element.alike z.element = true)
    (hkeys : ∀ key ∈ x.element.kind.keys, y.keyText? key = z.keyText? key) :
    x.matchesEntry z = true := by
  cases hk : x.element.kind with
  | container s =>
    obtain ⟨hxy, hxykeys⟩ := (matches_iff_of_container hk).1 h
    refine (matches_iff_of_container hk).2 ⟨Element.alike_trans hxy halike, hxykeys.trans ?_⟩
    exact List.map_congr_left fun key hkey => hkeys key (by rw [hk]; exact hkey)
  | leaf =>
    obtain ⟨hname, hns⟩ := Element.sameName_iff.1 ((matches_iff_of_leaf hk).1 h)
    obtain ⟨hname', hns', -⟩ := Element.alike_iff.1 halike
    exact (matches_iff_of_leaf hk).2 (Element.sameName_iff.2 ⟨hname.trans hname', hns.trans hns'⟩)
  | plain =>
    exact (matches_iff_of_plain hk).2 (Element.alike_trans ((matches_iff_of_plain hk).1 h) halike)

/-- Being the same node goes both ways between nodes of one kind. -/
theorem matches_symm (hkind : x.element.kind = y.element.kind) (h : x.matchesEntry y = true) :
    y.matchesEntry x = true := by
  rw [matches_iff_identityIn] at h ⊢
  rw [← hkind]
  exact h.symm

/-- The same node has the same name. -/
theorem sameName_of_matches (h : x.matchesEntry y = true) :
    x.element.sameName y.element = true := by
  have hidentity := (matches_iff_identityIn x y).1 h
  exact Element.sameName_iff.2 ⟨congrArg Identity.name hidentity, congrArg Identity.ns hidentity⟩

/-- Nodes that are the same and are no leaves are alike. -/
theorem alike_of_matches (hleaf : x.element.kind ≠ .leaf) (h : x.matchesEntry y = true) :
    x.element.alike y.element = true := by
  cases hk : x.element.kind with
  | container sch => exact ((matches_iff_of_container hk).1 h).1
  | leaf => exact absurd hk hleaf
  | plain => exact (matches_iff_of_plain hk).1 h

variable {rule : KindRule}

/-- Outside containers, the identity is the name. -/
theorem identity_eq_of_sameName (h : x.element.sameName y.element = true)
    (hrule : (rule x.element.ns x.element.name).isContainer = false) :
    x.identity rule = y.identity rule := by
  obtain ⟨hname, hns⟩ := Element.sameName_iff.1 h
  unfold identity
  rw [← hname, ← hns]
  cases hk : rule x.element.ns x.element.name with
  | container s => rw [hk] at hrule; cases hrule
  | leaf => rfl
  | plain => rfl

/-- The same node has the same identity. -/
theorem identity_eq_of_matches (hx : x.element.kind = rule x.element.ns x.element.name)
    (h : x.matchesEntry y = true) : x.identity rule = y.identity rule := by
  cases hk : x.element.kind with
  | container s =>
    obtain ⟨halike, hkeys⟩ := (matches_iff_of_container hk).1 h
    obtain ⟨hname, hns, hvalue⟩ := Element.alike_iff.1 halike
    unfold identity
    rw [← hname, ← hns, ← hx, hk]
    simp only [hvalue, hkeys]
  | leaf => exact identity_eq_of_sameName (sameName_of_matches h) (by rw [← hx, hk]; rfl)
  | plain => exact identity_eq_of_sameName (sameName_of_matches h) (by rw [← hx, hk]; rfl)

/-- Nodes of the same identity have the same name. -/
theorem sameName_of_identity_eq (h : x.identity rule = y.identity rule) :
    x.element.sameName y.element = true :=
  Element.sameName_iff.2 ⟨congrArg Identity.name h, congrArg Identity.ns h⟩

/-- A container is the same node as any of its identity. -/
theorem matches_of_identity_eq {s : ContainerSchema} (hk : x.element.kind = .container s)
    (hx : x.element.kind = rule x.element.ns x.element.name)
    (h : x.identity rule = y.identity rule) : x.matchesEntry y = true := by
  obtain ⟨hname, hns⟩ := Element.sameName_iff.1 (sameName_of_identity_eq h)
  have hentry := congrArg Identity.entry h
  unfold identity at hentry
  dsimp only at hentry
  rw [← hname, ← hns, ← hx, hk] at hentry
  obtain ⟨hvalue, hkeys⟩ := Prod.mk.inj (Option.some.inj hentry)
  exact (matches_iff_of_container hk).2 ⟨Element.alike_iff.2 ⟨hname, hns, hvalue⟩, hkeys⟩

/-- Where the data model gives the kinds, nodes of the same identity have the same kind. -/
theorem kind_eq_of_identity_eq (hx : x.element.kind = rule x.element.ns x.element.name)
    (hy : y.element.kind = rule y.element.ns y.element.name)
    (h : x.identity rule = y.identity rule) : x.element.kind = y.element.kind := by
  rw [hx, hy]
  exact congrArg₂ rule (congrArg Identity.ns h) (congrArg Identity.name h)

end Entry

/-! ## Well-keyed configurations -/

namespace Branch

/-- The identity of the top of a branch among its siblings. -/
def identity (rule : KindRule) (b : Branch) : Identity := b.entry.identity rule

mutual

/-- Something holds of a branch and of all branches below it. -/
def All (P : Branch → Prop) : Branch → Prop
  | .mk id e bs => P (.mk id e bs) ∧ AllOf P bs

/-- Something holds of several branches and of all branches below them. -/
def AllOf (P : Branch → Prop) : List Branch → Prop
  | [] => True
  | b :: bs => b.All P ∧ AllOf P bs

end

variable {P : Branch → Prop} {a b c : Branch} {bs : List Branch}

/-- What holds of several branches holds of each. -/
theorem allOf_iff : AllOf P bs ↔ ∀ b ∈ bs, b.All P := by
  induction bs with
  | nil => simp [AllOf]
  | cons b bs ih => simp [AllOf, ih]

/-- What holds of a branch and all below it holds of its top and of its children. -/
theorem all_iff : b.All P ↔ P b ∧ ∀ c ∈ b.children, c.All P := by
  cases b
  rw [All, allOf_iff, children]

mutual

/-- Whether something holds of a branch and of all below it can be computed. -/
def decidableAll (P : Branch → Prop) [DecidablePred P] : (b : Branch) → Decidable (b.All P)
  | .mk id e bs =>
    have : Decidable (AllOf P bs) := decidableAllOf P bs
    inferInstanceAs (Decidable (P (.mk id e bs) ∧ AllOf P bs))

/-- Whether something holds of several branches and of all below them can be computed. -/
def decidableAllOf (P : Branch → Prop) [DecidablePred P] :
    (bs : List Branch) → Decidable (AllOf P bs)
  | [] => isTrue trivial
  | b :: bs =>
    have : Decidable (b.All P) := decidableAll P b
    have : Decidable (AllOf P bs) := decidableAllOf P bs
    inferInstanceAs (Decidable (b.All P ∧ AllOf P bs))

end

instance (P : Branch → Prop) [DecidablePred P] : DecidablePred (All P) := decidableAll P

/-- What follows from something that holds of a branch and all below it holds of all these. -/
theorem All.imp {Q : Branch → Prop} (hPQ : ∀ b, P b → Q b) (h : b.All P) : b.All Q := by
  induction b using induction with
  | step id e bs ih =>
    obtain ⟨htop, hbelow⟩ := all_iff.1 h
    exact all_iff.2 ⟨hPQ _ htop, fun c hc => ih c hc (hbelow c hc)⟩

/-- Two siblings are list entries that their keys tell apart. -/
@[mk_iff]
structure Apart (c d : Branch) : Prop where
  /-- The first one is a container. -/
  left : c.element.kind.isContainer = true
  /-- So is the second one. -/
  right : d.element.kind.isContainer = true
  /-- The first one has keys. -/
  keys_left : c.element.kind.keys ≠ []
  /-- So has the second one. -/
  keys_right : d.element.kind.keys ≠ []
  /-- The keys of the first one are there. -/
  present_left : ∀ key ∈ c.element.kind.keys, (c.entry.member? key).isSome = true
  /-- So are those of the second one. -/
  present_right : ∀ key ∈ d.element.kind.keys, (d.entry.member? key).isSome = true
  /-- They differ in the value of a key. -/
  differ : ∃ key ∈ c.element.kind.keys,
    sameValue ((c.entry.member? key).bind Element.value)
      ((d.entry.member? key).bind Element.value) = false

instance (c d : Branch) : Decidable (c.Apart d) := decidable_of_iff _ (apart_iff c d).symm

/-- What makes a node of a configuration and its children well-keyed. -/
@[mk_iff]
structure Keyed (b : Branch) : Prop where
  /-- A leaf has no children. -/
  leaf : b.element.kind = .leaf → b.children = []
  /-- No key is there twice. -/
  once : ∀ key ∈ b.element.kind.keys, (b.entry.membersNamed key).length ≤ 1
  /-- Keys have no children and are no containers. -/
  keys : ∀ c ∈ b.children, b.element.hasKey c.element.name = true →
    c.children = [] ∧ c.element.kind.isContainer = false
  /-- Siblings of one name are list entries with different keys. -/
  siblings : b.children.Pairwise fun c d => c.element.sameName d.element = true → c.Apart d

instance : DecidablePred Keyed := fun b => decidable_of_iff _ (keyed_iff b).symm

/-- A branch is well-keyed when all its nodes are. -/
def WellKeyed (b : Branch) : Prop := b.All Keyed

instance : DecidablePred WellKeyed := fun b => inferInstanceAs (Decidable (b.All Keyed))

/-- The kinds below a branch are those that a schema gives. -/
def Described (s : Schema) (b : Branch) : Prop :=
  b.All fun b => ∀ c ∈ b.children,
    c.element.kind = s.rule (some b.element.kind) c.element.ns c.element.name

instance (s : Schema) : DecidablePred (Described s) :=
  fun b => inferInstanceAs (Decidable (b.All _))

/-- No node of a branch is marked. -/
def Unmarked (b : Branch) : Prop := b.All fun b => b.element.markText? = none

instance : DecidablePred Unmarked := fun b => inferInstanceAs (Decidable (b.All _))

/-- Entries that their keys tell apart have different identities. -/
theorem Apart.identity_ne {rule : KindRule}
    (hc : c.element.kind = rule c.element.ns c.element.name) (h : c.Apart b) :
    c.identity rule ≠ b.identity rule := by
  intro heq
  obtain ⟨key, hkey, hdiffer⟩ := h.differ
  cases hk : c.element.kind with
  | leaf => have := h.left; rw [hk] at this; cases this
  | plain => have := h.left; rw [hk] at this; cases this
  | container s =>
    have hmatch := Entry.matches_of_identity_eq (x := c.entry) hk hc heq
    have htexts := ((Entry.matches_iff_of_container (x := c.entry) hk).1 hmatch).2
    have hkeys := List.map_inj_left.1 htexts
    rw [hk] at hkey
    rw [Entry.sameValue_of_keyText? (hkeys key hkey)] at hdiffer
    cases hdiffer

/-- No two children of a node have the same identity. -/
theorem Keyed.pairwise_identity {rule : KindRule} (h : b.Keyed)
    (hrule : ∀ c ∈ b.children, c.element.kind = rule c.element.ns c.element.name) :
    b.children.Pairwise fun c d => c.identity rule ≠ d.identity rule := by
  refine h.siblings.imp_of_mem fun {c d} hc _ hcd => ?_
  by_cases hname : c.element.sameName d.element = true
  · exact (hcd hname).identity_ne (hrule c hc)
  · exact fun heq => hname (Entry.sameName_of_identity_eq heq)

/-- Where identities are different, the class of a member is the member alone. -/
theorem filter_identity {rule : KindRule} {l : List Branch}
    (h : l.Pairwise fun c d => c.identity rule ≠ d.identity rule) (hb : b ∈ l) :
    l.filter (fun c => c.identity rule = b.identity rule) = [b] := by
  induction l with
  | nil => cases hb
  | cons c l ih =>
    obtain ⟨hc, hl⟩ := List.pairwise_cons.1 h
    rcases List.mem_cons.1 hb with rfl | hb
    · rw [List.filter_cons_of_pos (by simp), List.filter_eq_nil_iff.2]
      intro d hd
      simpa using Ne.symm (hc d hd)
    · rw [List.filter_cons_of_neg (by simpa using hc b hb), ih hl hb]

/-- Where identities are different, a class has at most one member. -/
theorem filter_identity_cases {rule : KindRule} {l : List Branch}
    (h : l.Pairwise fun c d => c.identity rule ≠ d.identity rule) (k : Identity) :
    l.filter (fun c => c.identity rule = k) = [] ∨
      ∃ b ∈ l, b.identity rule = k ∧ l.filter (fun c => c.identity rule = k) = [b] := by
  rcases List.eq_nil_or_concat' (l.filter fun c => decide (c.identity rule = k)) with
    hnil | ⟨_, b, hb⟩
  · exact .inl hnil
  · have hmem : b ∈ l.filter fun c => decide (c.identity rule = k) := by rw [hb]; simp
    obtain ⟨hbl, hbk⟩ := List.mem_filter.1 hmem
    have hbk : b.identity rule = k := by simpa using hbk
    subst hbk
    exact .inr ⟨b, hbl, rfl, filter_identity h hbl⟩

end Branch

end Netconf
