import Netconf.Proofs.Xml.Rounds
import Netconf.Proofs.Xml.Transcripts

/-!
# What a document holds

Reading a text either fails with an error of the text, or gives a document that says all of it
(`parse_transcribes`). Nothing else can go wrong on the way: an end tag with the name that is
expected finds its element open, a new node can be put in its place, and the open elements are the
way up from the innermost one (`Draft.Poised`).

The document has a node for every element of its text, but its root is only the first of the
elements that are inside no other. The branch of the root are the slots before the second one
(`ids_branch_root`), so it holds all elements just when there is no second one.
-/

namespace Netconf.Xml

open Netconf.Tree

variable {defaults : Registry} {schema : Option Schema} {xml : String} {d : Document}
  {ms : List Markup} {s : Draft}

/-! ## On the way -/

/-- What a reader can rely on behind some items. -/
structure Draft.Poised (before : List Markup) (s : Draft) : Prop where
  /-- An end tag that the check of the names accepts has its element to close. -/
  closes : ∀ name, (openNames [] (before ++ [.closing name])).isSome →
    ∃ id others, s.openElements = (id, name) :: others
  /-- A new node can be put below the innermost open element. -/
  attaches : ∀ p, s.parent? = some p →
    ∀ e, ∃ t, (s.tree.create e).1.append p (s.tree.create e).2 = .ok t
  /-- The open elements are the innermost one and those above it. -/
  ancestry : ∀ p, s.parent? = some p → s.openElements.map (·.1) = s.tree.upward p

/-- A top has no parent. -/
theorem Transcribes.parent?_top {t : Tree} (h : Transcribes schema ms t) {top : NodeId}
    (htop : top ∈ tops ms) : t.parent? top = none := by
  obtain ⟨before, m, hbefore, hhere⟩ := Standing.mem_gather.1 htop
  unfold topHere at hhere
  split at hhere
  · next hboth =>
    obtain rfl := List.mem_singleton.1 hhere
    obtain ⟨tag, htag⟩ := Option.isSome_iff_exists.1 hboth.1
    refine (h.noted before m tag.1 tag.2 hbefore htag).parent?.trans ?_
    show (standing before).inside.head? = none
    rw [hboth.2]
    rfl
  · cases hhere

/-- A draft is poised whatever it was made of. -/
theorem Draft.Transcribes.poised (h : s.Transcribes schema ms) : s.Poised ms where
  closes name hname := by
    rw [openNames_append, h.names, Option.bind_some] at hname
    cases hopen : s.openElements with
    | nil =>
      rw [hopen] at hname
      cases hname
    | cons innermost others =>
      obtain ⟨id, opened⟩ := innermost
      rw [hopen, List.map_cons, openNames] at hname
      split at hname
      · next heq => exact ⟨id, others, by rw [← heq]⟩
      · cases hname
  attaches p hp e :=
    let ⟨t, ht, _⟩ := h.sound.forest.exists_append (h.sound.parent_lt hp) e
    ⟨t, ht⟩
  ancestry p hp := by
    rw [h.parent?] at hp
    obtain ⟨edge, hopen⟩ := List.head?_eq_some_iff.1 hp
    have hedge := h.edge
    rw [hopen] at hedge
    obtain ⟨top, htop⟩ : ∃ top, (p :: edge).getLast? = some top :=
      ⟨_, List.getLast?_eq_some_getLast (List.cons_ne_nil p edge)⟩
    have hlast := h.outermost top (hopen ▸ htop)
    rw [hedge.upward_eq h.sound.forest htop (h.tree.parent?_top (List.mem_of_getLast? hlast)),
      h.inside, hopen]

/-! ## At the end -/

/-- The document is what a text says, from its first character to its last. -/
structure Reads (schema : Option Schema) (xml : String) (d : Document) : Prop where
  /-- The items are all of the text. -/
  complete : (scan xml.toList).complete = true
  /-- Every element has ended. -/
  closed : openNames [] (scan xml.toList).items = some []
  /-- The tree says what the items say. -/
  tree : Transcribes schema (scan xml.toList).items d.tree
  /-- The root is the first element. -/
  root : (tops (scan xml.toList).items).head? = some d.root

/-- A text is an error, or it is read from its first character to its last. -/
theorem parse_cases (defaults : Registry) (schema : Option Schema) (xml : String) :
    (∃ e, parse defaults schema xml = .error (.parse e)) ∨
      ∃ d, parse defaults schema xml = .ok d ∧ Reads schema xml d := by
  have hstart : Draft.Transcribes schema [] { tree := .empty defaults } := .start defaults
  unfold parse
  dsimp only
  split
  · next e he =>
    obtain ⟨err, rfl⟩ := hstart.sound.addAll_error he
    exact .inl ⟨err, rfl⟩
  · next s hs =>
    have h := hstart.run hs
    rw [List.nil_append] at h
    unfold Draft.finish
    split
    · exact .inl ⟨_, rfl⟩
    next hcomplete =>
    split
    · exact .inl ⟨_, rfl⟩
    · exact .inl ⟨_, rfl⟩
    · next root hopen hroot =>
      refine .inr ⟨_, rfl, by simpa using hcomplete, ?_, h.tree, ?_⟩
      · rw [h.names, hopen]
        rfl
      · rw [← h.root, hroot]

/-- The branch of the first top are the slots before the second one. -/
theorem ids_branch_of_preorder {t : Tree} {top : NodeId} {others : List NodeId}
    (h : (top :: others).flatMap (fun top => (t.branch top).ids) = List.range t.size) :
    (t.branch top).ids = List.range (others.head?.getD t.size) := by
  rw [List.flatMap_cons] at h
  cases others with
  | nil =>
    rw [List.flatMap_nil, List.append_nil] at h
    exact h
  | cons second others =>
    rw [List.range_eq_range'] at h
    obtain ⟨count, -, hfirst, hothers⟩ := List.range'_eq_append_iff.1 h.symm
    rw [List.flatMap_cons, Branch.ids_eq, id_branch, List.cons_append, Nat.zero_add] at hothers
    have hsecond : second = count := by simpa using (List.range'_eq_cons_iff.1 hothers.symm).1.symm
    rw [hfirst, List.head?_cons, Option.getD_some, hsecond, List.range_eq_range']

/-- The first top is the first slot. -/
theorem top_eq_zero {t : Tree} {top : NodeId} {others : List NodeId}
    (h : (top :: others).flatMap (fun top => (t.branch top).ids) = List.range t.size) :
    top = 0 := by
  rw [List.flatMap_cons, Branch.ids_eq, id_branch, List.cons_append, List.range_eq_range'] at h
  exact (List.range'_eq_cons_iff.1 h.symm).1.symm

/-- The tops of what was read are the root and those behind it. -/
theorem Reads.tops_eq (h : Reads schema xml d) :
    tops (scan xml.toList).items = d.root :: (tops (scan xml.toList).items).tail :=
  (List.cons_head?_tail h.root).symm

/-- The root is the first slot. -/
theorem Reads.root_eq_zero (h : Reads schema xml d) : d.root = 0 :=
  top_eq_zero (h.tops_eq ▸ h.tree.preorder)

/-- The branch of the root are the slots before the second top. -/
theorem Reads.ids_branch_root (h : Reads schema xml d) : (d.tree.branch d.root).ids =
    List.range ((tops (scan xml.toList).items).tail.head?.getD d.tree.size) :=
  ids_branch_of_preorder (h.tops_eq ▸ h.tree.preorder)

/-- Every text is read to its end, or it is an error of the text. What is read to its end says all
of the text; and if only one element is inside no other, the root is the first slot, and the slots
are met in order on the way down from it. Behind whatever items, an end tag has its element to
close, a new node has its place, and the open elements are the way up. The numbers of rounds are no
limits. -/
theorem parse_transcribes (defaults : Registry) (schema : Option Schema) (xml : String) :
    ((∃ e, parse defaults schema xml = .error (.parse e)) ∨
      ∃ d, parse defaults schema xml = .ok d ∧ Reads schema xml d ∧
        ∀ top, tops (scan xml.toList).items = [top] →
          d.root = 0 ∧ (d.tree.branch d.root).ids = List.range d.tree.size) ∧
    (∀ before s, Draft.addAll schema { tree := .empty defaults } before = .ok s →
      s.Poised before) ∧
    ∀ (cs : List Char) (rounds : Nat), cs.length < rounds →
      scanFor rounds cs = scanFor (cs.length + 1) cs ∧
        readAttributesFor rounds [] cs = readAttributes cs := by
  refine ⟨?_, fun before s hs => ?_, fun cs rounds hrounds => ⟨?_, ?_⟩⟩
  · obtain herror | ⟨d, hd, hreads⟩ := parse_cases defaults schema xml
    · exact .inl herror
    · refine .inr ⟨d, hd, hreads, fun top htop => ⟨hreads.root_eq_zero, ?_⟩⟩
      rw [hreads.ids_branch_root, htop]
      rfl
  · exact ((Draft.Transcribes.start defaults).run hs).poised
  · exact scanFor_of_length_lt hrounds (Nat.lt_succ_self _)
  · exact readAttributesFor_of_length_lt [] hrounds (Nat.lt_succ_self _)

/-- A text that a child and a comment cut into pieces. -/
def piecesText : String := "<a> x <b>y</b><!-- z --> &lt;<![CDATA[ ]]></a>"

/-- The text is read to its end: both elements have their slots, one inside the other, and their
values are made of the pieces directly inside them. -/
theorem parse_transcribes_piecesText :
    ∃ d, parse (.standard 0) none piecesText = .ok d ∧ Reads none piecesText d ∧
      d.root = 0 ∧ (d.tree.branch d.root).ids = [0, 1] ∧ d.tree.parent? 1 = some 0 ∧
      d.tree.value? 0 = some (.text "x<") ∧ d.tree.value? 1 = some (.text "y") := by
  obtain ⟨e, he⟩ | ⟨d, hd, hreads, hone⟩ := (parse_transcribes (.standard 0) none piecesText).1
  · have hok : (parse (.standard 0) none piecesText).isOk = true := by decide +kernel
    rw [he] at hok
    cases hok
  · obtain ⟨hroot, hids⟩ := hone 0 (by decide +kernel)
    have hsize : d.tree.size = 2 := hreads.tree.size.trans (by decide +kernel)
    have hchild : [Markup.opening ['a'] [], .text ['x']] ++ [.opening ['b'] []] <+:
        (scan piecesText.toList).items := by decide +kernel
    have hparent := (hreads.tree.noted _ _ _ _ hchild rfl).parent?
    exact ⟨d, hd, hreads, hroot, by rw [hids, hsize]; rfl, hparent,
      (hreads.tree.value? 0).trans (by decide +kernel),
      (hreads.tree.value? 1).trans (by decide +kernel)⟩

/-- Every element of a text that is read has its slot, and the branches of the elements inside no
other share the slots among them in order. The branch of the root are the slots before the second
of these elements; so it is all slots just when there is no second one. -/
theorem ids_root_of_parse (h : parse defaults schema xml = .ok d) :
    d.tree.size = (standing (scan xml.toList).items).tags ∧
      (tops (scan xml.toList).items).flatMap (fun top => (d.tree.branch top).ids) =
        List.range d.tree.size ∧
      (d.tree.branch d.root).ids =
        List.range ((tops (scan xml.toList).items).tail.head?.getD d.tree.size) ∧
      ((d.tree.branch d.root).ids = List.range d.tree.size ↔
        (tops (scan xml.toList).items).length = 1) := by
  obtain ⟨e, he⟩ | ⟨d', hd', hreads⟩ := parse_cases defaults schema xml
  · rw [h] at he
    cases he
  obtain rfl : d' = d := Except.ok.inj (hd'.symm.trans h)
  refine ⟨hreads.tree.size, hreads.tree.preorder, hreads.ids_branch_root, ?_⟩
  rw [hreads.ids_branch_root, hreads.tops_eq]
  cases hothers : (tops (scan xml.toList).items).tail with
  | nil => simp
  | cons second others =>
    -- the second top has a slot, which the branch of the root lacks
    have hsecond : second < d'.tree.size := by
      rw [← List.mem_range, ← hreads.tree.preorder, hreads.tops_eq, hothers, List.mem_flatMap]
      exact ⟨second, by simp, by rw [Branch.ids_eq, id_branch]; exact List.mem_cons_self⟩
    have hne : List.range second ≠ List.range d'.tree.size := fun he =>
      Nat.ne_of_lt hsecond (by simpa using congrArg List.length he)
    simp [hne]

/-- A document with two elements inside no other. -/
def twoTops : Document :=
  ⟨{ nodes := #[{ element := { name := "a" } }, { element := { name := "b" } }]
     defaults := .standard 0 }, 0⟩

/-- Of two elements that follow each other the second one is not in the branch of the root. -/
theorem ids_root_of_parse_twoTops :
    parse (.standard 0) none "<a/><b/>" = .ok twoTops ∧
      (tops (scan "<a/><b/>".toList).items).length = 2 ∧
      (twoTops.tree.branch twoTops.root).ids ≠ List.range twoTops.tree.size := by
  have hparse : parse (.standard 0) none "<a/><b/>" = .ok twoTops := rfl
  have htwo : (tops (scan "<a/><b/>".toList).items).length = 2 := by decide +kernel
  refine ⟨hparse, htwo, fun hall => ?_⟩
  have hone := (ids_root_of_parse hparse).2.2.2.1 hall
  rw [htwo] at hone
  cases hone

/-- A text with two elements inside no other is accepted, and the node of the second one is not
below the root. -/
theorem parse_loses_top :
    parse (.standard 0) none "<a/><b/>" = .ok twoTops ∧ twoTops.tree.size = 2 ∧
      twoTops.tree.name 1 = "b" ∧ twoTops.root = 0 ∧
      1 ∉ (twoTops.tree.branch twoTops.root).ids :=
  ⟨rfl, rfl, rfl, rfl, by decide +kernel⟩

end Netconf.Xml
