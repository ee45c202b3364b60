import Netconf.Proofs.Edit.Turns

/-!
# Documents that edits are made for

An edit between two documents is right when both are well-keyed and have the kinds that one schema
gives (`Document.Fit`). The tops of two such documents are two sides (`Document.Fit.sides`), and an
edit whose nodes turn the children of the first side into those of the second can be applied and
makes the documents agree (`Document.Fit.exists_apply`).
-/

namespace Netconf

open Branch Build Edit Netconf.Tree

namespace Tree

variable {t u : Tree} {r root : NodeId} {f : Element} {es zs : List Branch}

/-- Applying an edit whose top is the same node as the root of the configuration is applying what is
below the top, with the operation of the top. -/
theorem ensures_apply_of_compare (hsame : t.compare r u root ≠ .different)
    {done : Unit → Tree → Prop} {failed : Tree → Prop} :
    Ensures (Edit.apply root t r) u done failed ↔
      Ensures (applyAll t.defaults.bindings (t.lineage r) root
        (operationOf (t.element r) .merge) (t.branch r).children) u done failed := by
  unfold Edit.apply
  rw [ensures_bind, ensures_get, if_neg hsame]

/-- Steps of the nodes of an edit are taken without failing, if its top is the same node as the
root. -/
theorem Forest.exists_apply_of_compare (hu : u.Forest) (hroot : root < u.size) (ht : t.Forest)
    (hsame : t.compare r u root ≠ .different)
    (hsteps : Steps (operationOf (t.element r) .merge) (t.content r) (u.content root) zs) :
    ∃ u', Build.on u (Edit.apply root t r) = (.ok (), u') ∧ u.Confined root u' ∧
      u'.content root = zs := by
  rw [ht.content_eq] at hsteps
  obtain ⟨_, u', hok, hafter⟩ := ((ensures_apply_of_compare hsame).2
    (ensures_applyAll _ _ hu hroot hsteps)).exists_ok
  exact ⟨u', by rw [Build.on, hok], hafter⟩

/-- A top that looks like the same node as the root is. -/
theorem Forest.compare_ne_different (hu : u.Forest) (ht : t.Forest)
    (hbranch : (t.branch r).bare = .mk 0 f es)
    (hmatch : (Branch.mk 0 f es).entry.matchesEntry (u.branch root).entry = true) :
    t.compare r u root ≠ .different := by
  rw [← hbranch, ht.entry_bare_branch, hu.entry_branch] at hmatch
  exact bne_iff_ne.1 hmatch

/-- Applying an edit whose top is the root of the configuration, and has no mark, is applying what
is below the top. -/
theorem Forest.ensures_apply (hu : u.Forest) (ht : t.Forest)
    (hbranch : (t.branch r).bare = .mk 0 f es) (hmark : f.markText? = none)
    (hmatch : (Branch.mk 0 f es).entry.matchesEntry (u.branch root).entry = true)
    {done : Unit → Tree → Prop} {failed : Tree → Prop} :
    Ensures (Edit.apply root t r) u done failed ↔
      Ensures (applyAll t.defaults.bindings (t.lineage r) root .merge (t.branch r).children) u done
        failed := by
  obtain ⟨-, helement, -⟩ := Branch.mk.inj ((ht.bare_branch r).symm.trans hbranch)
  have hsame := hu.compare_ne_different ht hbranch hmatch
  rw [ensures_apply_of_compare hsame, helement, operationOf_unmarked hmark]

/-- An edit whose nodes lead from what is below the root to some branches is applied without
failing, and leaves these branches. -/
theorem Forest.exists_apply_steps (hu : u.Forest) (hroot : root < u.size) (ht : t.Forest)
    (hbranch : (t.branch r).bare = .mk 0 f es) (hmark : f.markText? = none)
    (hmatch : (Branch.mk 0 f es).entry.matchesEntry (u.branch root).entry = true)
    (hsteps : Steps .merge es (u.content root) zs) :
    ∃ t', Build.on u (Edit.apply root t r) = (.ok (), t') ∧ u.Confined root t' ∧
      t'.content root = zs := by
  obtain ⟨-, helement, hcontent⟩ := Branch.mk.inj ((ht.bare_branch r).symm.trans hbranch)
  have hsame := hu.compare_ne_different ht hbranch hmatch
  refine hu.exists_apply_of_compare hroot ht hsame ?_
  rw [helement, operationOf_unmarked hmark, hcontent]
  exact hsteps

/-- Tops that are the same node have the same kind, when a schema gives the kinds of both. -/
theorem Forest.kind_eq_of_matches (ht : t.Forest) (hu : u.Forest) {s : Schema}
    (hkt : (t.element r).kind = s.kindOf (t.element r).ns (t.element r).name none)
    (hku : (u.element root).kind = s.kindOf (u.element root).ns (u.element root).name none)
    (hmatch : (t.branch r).entry.matchesEntry (u.branch root).entry = true) :
    (t.branch r).element.kind = (u.branch root).element.kind := by
  obtain ⟨hname, hns⟩ := Element.sameName_iff.1 (Entry.sameName_of_matches hmatch)
  rw [ht.entry_branch, hu.entry_branch] at hname hns
  have hname : (t.element r).name = (u.element root).name := hname
  have hns : (t.element r).ns = (u.element root).ns := hns
  rw [ht.element_branch, hu.element_branch, hkt, hku, hname, hns]

end Tree

/-- A document that edits are made for: the top of a tree with what is below it, of the kinds that a
schema gives, well-keyed and without marks. -/
structure Document.Fit (s : Schema) (d : Document) : Prop where
  /-- The links are those of a forest, as those of all trees that operations make. -/
  forest : d.tree.Forest
  /-- The root exists. -/
  root_lt : d.root < d.tree.size
  /-- The root is the top of its tree. -/
  parent? : d.tree.parent? d.root = none
  /-- The root has the kind that the schema gives. -/
  kind : (d.tree.element d.root).kind =
    s.kindOf (d.tree.element d.root).ns (d.tree.element d.root).name none
  /-- So has everything below it. -/
  described : (d.tree.branch d.root).Described s
  /-- The document is well-keyed. -/
  wellKeyed : (d.tree.branch d.root).WellKeyed
  /-- The document has no marks. -/
  unmarked : (d.tree.branch d.root).Unmarked

namespace Document.Fit

variable {s : Schema} {d e : Document}

/-- Two documents with the same top node are two sides. -/
theorem sides (hd : d.Fit s) (he : e.Fit s)
    (hsame : d.tree.compare d.root e.tree e.root ≠ .different) :
    Sides s (d.tree.branch d.root) (e.tree.branch e.root) := by
  have hmatch : (d.tree.branch d.root).entry.matchesEntry (e.tree.branch e.root).entry = true := by
    rw [hd.forest.entry_branch, he.forest.entry_branch]
    exact bne_iff_ne.2 hsame
  exact ⟨hd.forest.kind_eq_of_matches he.forest hd.kind he.kind hmatch, hmatch, hd.described,
    he.described, hd.wellKeyed, he.wellKeyed, hd.unmarked, he.unmarked⟩

/-- An edit whose nodes lead from the children of a document to some branches is applied without
failing, and leaves these branches below its root. -/
theorem exists_apply_steps (hd : d.Fit s) {t : Tree} {r : NodeId} {f : Element}
    {es zs : List Branch} (ht : t.Forest) (hbranch : (t.branch r).bare = .mk 0 f es)
    (hmark : f.markText? = none)
    (hmatch : (Branch.mk 0 f es).entry.matchesEntry (d.tree.branch d.root).entry = true)
    (hsteps : Steps .merge es (d.tree.content d.root) zs) :
    ∃ t', Build.on d.tree (Edit.apply d.root t r) = (.ok (), t') ∧
      (t'.branch d.root).bare = .mk 0 (d.tree.element d.root) zs := by
  obtain ⟨t', hon, hconf, hafter⟩ :=
    hd.forest.exists_apply_steps hd.root_lt ht hbranch hmark hmatch hsteps
  refine ⟨t', hon, ?_⟩
  rw [hconf.forest.bare_branch, hconf.element_top, hafter]

/-- An edit whose nodes turn the children of the first document into those of the second makes the
documents agree. -/
theorem exists_apply (hd : d.Fit s) (he : e.Fit s) (hleaf : (d.tree.element d.root).kind ≠ .leaf)
    (hsame : d.tree.compare d.root e.tree e.root ≠ .different) {t : Tree} {r : NodeId} {f : Element}
    {es zs : List Branch} (ht : t.Forest) (hbranch : (t.branch r).bare = .mk 0 f es)
    (hmark : f.markText? = none)
    (hmatch : (Branch.mk 0 f es).entry.matchesEntry (d.tree.branch d.root).entry = true)
    (hsteps : Steps .merge es (d.tree.content d.root) zs)
    (hagree : AgreesAll zs (e.tree.branch e.root).children)
    (hzs : Kinds s (s.rule (some (d.tree.element d.root).kind)) zs) :
    ∃ t', Build.on d.tree (Edit.apply d.root t r) = (.ok (), t') ∧
      (t'.branch d.root).Agrees (e.tree.branch e.root) ∧
      t'.agree d.root e.tree e.root = true := by
  have hkind := (hd.sides he hsame).kind
  have halike : (d.tree.element d.root).alike (e.tree.element e.root) = true :=
    Entry.alike_of_matches (x := d.tree.entry d.root) (y := e.tree.entry e.root) hleaf
      (bne_iff_ne.2 hsame)
  obtain ⟨t', hon, hnow⟩ := hd.exists_apply_steps ht hbranch hmark hmatch hsteps
  have hagrees : (t'.branch d.root).Agrees (e.tree.branch e.root) := by
    rw [← agrees_bare_left, hnow, agrees_iff, he.forest.element_branch]
    exact ⟨halike, hagree⟩
  have hdescribed : (t'.branch d.root).Described s := by
    rw [← described_bare, hnow]
    exact all_iff.2 ⟨fun z hz => (hzs z hz).1, fun z hz => (hzs z hz).2⟩
  have hkind' : (t'.branch d.root).element.kind = (e.tree.branch e.root).element.kind := by
    rw [← hkind, hd.forest.element_branch, ← element_bare, hnow, Branch.element]
  have hequal := compare_of_agrees hkind' (all_iff.1 he.wellKeyed).1 hagrees
  refine ⟨t', hon, hagrees, ?_⟩
  unfold Tree.agree Tree.diff
  rw [diff_eq_slots, Listings.isEmpty_slots]
  · exact listings_of_agrees hkind' hdescribed he.described he.wellKeyed hagrees
  · exact Entry.matches_of_compare hequal

end Document.Fit

/-! ## Lists of hosts -/

/-- The schema of a list of hosts, which their names tell apart. -/
def hostSchema : Schema :=
  (({} : Schema).register ⟨"urn:h", "hosts", .container { children := ["host"] }⟩).register
    ⟨"urn:h", "host", .container { keys := ["name"], children := ["name", "ip"] }⟩

/-- A node of a list of hosts, of the kind that the schema gives. -/
def hostElement (name : String) (value : Option Value) (parent : Option Kind) : Element :=
  { ns := some "urn:h", name, value, kind := hostSchema.kindOf (some "urn:h") name parent }

/-- A host with its name and address. -/
def host (name ip : String) : Branch :=
  let e := hostElement "host" none none
  .mk 0 e [.mk 0 (hostElement "name" (some (.text name)) (some e.kind)) [],
    .mk 0 (hostElement "ip" (some (.text ip)) (some e.kind)) []]

/-- A document with a list of hosts. -/
def hostList (hosts : List Branch) : Document :=
  ⟨((Tree.empty {}).addCopy (.mk 0 (hostElement "hosts" none none) hosts)).1, 0⟩

/-- Three hosts. -/
def hostsBefore : Document :=
  hostList [host "a" "10.0.0.1", host "b" "10.0.0.2", host "c" "10.0.0.3"]

/-- One of them is gone, one has another address, and one is new. -/
def hostsAfter : Document :=
  hostList [host "d" "10.0.0.4", host "b" "10.0.0.9", host "c" "10.0.0.3"]

/-- Edits can be made for the three hosts. -/
theorem fit_hostsBefore : hostsBefore.Fit hostSchema where
  forest := (forest_empty _).addCopy _
  root_lt := by decide +kernel
  parent? := by decide +kernel
  kind := by decide +kernel
  described := by decide +kernel
  wellKeyed := by decide +kernel
  unmarked := by decide +kernel

/-- Edits can be made for the hosts afterwards. -/
theorem fit_hostsAfter : hostsAfter.Fit hostSchema where
  forest := (forest_empty _).addCopy _
  root_lt := by decide +kernel
  parent? := by decide +kernel
  kind := by decide +kernel
  described := by decide +kernel
  wellKeyed := by decide +kernel
  unmarked := by decide +kernel

end Netconf
