import Mathlib.Data.List.Forall2
import Mathlib.Data.List.Induction
import Mathlib.Data.List.TakeWhile
import Netconf.Capability.Basic
import Netconf.Proofs.Text.Cuts

/-!
# The listing of a hello

What adding a capability string does to each part of a capability set is said once, and what a list
of strings makes of it follows. Features and the use of URLs are there when any string of the list
brings them, so that their order makes no difference. All strings are listed, each with its URI and
its revision (`Capability.Describes`), and those are data models that bring nothing by themselves
(`Capabilities.ofUris_listing`).
-/

namespace Netconf

/-- What a capability string says about itself. Without the blanks at its ends it goes up to the
first question mark as the URI, and the first of the pairs behind it that is named for the revision
gives the revision. -/
structure Capability.Describes (a : Capability) (s : String) : Prop where
  /-- The URI is what is in front of the first question mark. -/
  uri : a.uri.toList = (Text.trim s).toList.takeWhile fun c => c != '?'
  /-- The revision is the value of the first pair of that name. -/
  revision : ∀ r, a.revision = some r ↔ ∃ before after : List String,
    Text.trim s = a.uri ++ "?" ++ "&".intercalate (before ++ ("revision=" ++ r) :: after)
      ∧ (∀ pair ∈ before ++ ("revision=" ++ r) :: after, '&' ∉ pair.toList)
      ∧ ∀ pair ∈ before, ¬ "revision=".toList <+: pair.toList

namespace Capabilities

variable {c : Capabilities} {raw query : String} {f : Feature}

/-! ## One string -/

/-- The revision in a query is the value of the first pair of that name. -/
theorem revisionIn_eq_some {r : String} :
    revisionIn query = some r ↔ ∃ before after : List String,
      query = "&".intercalate (before ++ ("revision=" ++ r) :: after)
        ∧ (∀ pair ∈ before ++ ("revision=" ++ r) :: after, '&' ∉ pair.toList)
        ∧ ∀ pair ∈ before, ¬ "revision=".toList <+: pair.toList := by
  have hvalue (pair : List Char) :
      ("revision=".toList.isPrefixOf? pair).map String.ofList = some r ↔
        pair = ("revision=" ++ r).toList := by
    rw [Option.map_eq_some_iff, String.toList_append]
    constructor
    · rintro ⟨value, hvalue, rfl⟩
      rw [String.toList_ofList (l := value)]
      exact (List.append_eq_of_isPrefixOf?_eq_some hvalue).symm
    · rintro rfl
      exact ⟨r.toList, List.isPrefixOf?_eq_some_iff_append_eq.2 rfl, String.ofList_toList⟩
  have hother (pair : List Char) :
      ("revision=".toList.isPrefixOf? pair).map String.ofList = none ↔
        ¬ "revision=".toList <+: pair := by
    rw [Option.map_eq_none_iff, Option.eq_none_iff_forall_ne_some]
    simp only [ne_eq, List.isPrefixOf?_eq_some_iff_append_eq, List.IsPrefix, not_exists]
  unfold revisionIn
  constructor
  · intro h
    obtain ⟨before, pair, after, hparts, hpair, hbefore⟩ := List.findSome?_eq_some_iff.1 h
    have hpairs : Text.split '&' query.toList =
        (before.map String.ofList ++ ("revision=" ++ r) :: after.map String.ofList).map
          String.toList := by
      simp [hparts, (hvalue pair).1 hpair, Function.comp_def]
    obtain ⟨hquery, hapart⟩ := (Text.split_toList_eq_iff (by simp)).1 hpairs
    refine ⟨_, _, hquery, hapart, fun text htext => ?_⟩
    obtain ⟨other, hmem, rfl⟩ := List.mem_map.1 htext
    have hhead := (hother other).1 (hbefore other hmem)
    rwa [← String.toList_ofList (l := other)] at hhead
  · rintro ⟨before, after, hquery, hapart, hbefore⟩
    have hpairs := (Text.split_toList_eq_iff (by simp)).2 ⟨hquery, hapart⟩
    refine List.findSome?_eq_some_iff.2 ⟨before.map String.toList, _, after.map String.toList,
      by rw [hpairs, List.map_append, List.map_cons], (hvalue _).2 rfl, ?_⟩
    exact List.forall_mem_map.2 fun text htext => (hother _).2 (hbefore text htext)

/-- A capability string has its URI in front of the first question mark, if there is one. -/
theorem capabilityOf_cases (raw : String) :
    ('?' ∉ raw.toList ∧ capabilityOf raw = ⟨raw, none⟩) ∨
      ∃ uri query : String, raw = uri ++ "?" ++ query ∧ '?' ∉ uri.toList
        ∧ capabilityOf raw = ⟨uri, revisionIn query⟩ := by
  unfold capabilityOf cutQuery Text.cutOnce
  by_cases hmark : '?' ∈ raw.toList
  · obtain ⟨uri, query, hraw, huri⟩ := List.eq_append_cons_of_mem hmark
    refine .inr ⟨.ofList uri, .ofList query, String.toList_inj.1 (by simp [hraw]), by simpa, ?_⟩
    rw [hraw, Text.cut_append huri]
    rfl
  · refine .inl ⟨hmark, ?_⟩
    rw [Text.cut_eq_none hmark]
    rfl

/-- The capability of a string is what the string says about itself. -/
theorem describes_capabilityOf (s : String) : (capabilityOf (Text.trim s)).Describes s := by
  rcases capabilityOf_cases (Text.trim s) with
    ⟨hmark, hcapability⟩ | ⟨uri, query, hs, huri, hcapability⟩
  · rw [hcapability]
    refine ⟨?_, fun r => ⟨nofun, ?_⟩⟩
    · have hall : ∀ c ∈ (Text.trim s).toList, (c != '?') = true := fun c hc =>
        bne_iff_ne.2 fun heq => hmark (heq ▸ hc)
      exact (List.takeWhile_eq_self_iff.2 hall).symm
    · rintro ⟨before, after, hs, -, -⟩
      rw [hs] at hmark
      simp at hmark
  · rw [hcapability]
    refine ⟨?_, fun r => ?_⟩
    · have hall : ∀ c ∈ uri.toList, (c != '?') = true := fun c hc =>
        bne_iff_ne.2 fun heq => huri (heq ▸ hc)
      rw [hs, String.toList_append, String.toList_append, List.append_assoc,
        List.takeWhile_append_of_pos hall]
      simp
    · rw [revisionIn_eq_some, hs]
      simp only [String.append_right_inj]

/-- What says something about URLs is no feature. -/
theorem ofUri?_of_urlSupport (h : urlSupport raw ≠ .none) :
    Feature.ofUri? (capabilityOf raw).uri = none := by
  have huri : (capabilityOf raw).uri = (cutQuery raw).1 := rfl
  rw [huri]
  unfold urlSupport at h
  dsimp only at h
  split at h
  · next hurl => rw [hurl]; decide
  · split at h
    · next hearly => rw [hearly]; decide
    · exact absurd rfl h

/-- Is a capability string no part of the protocol? Then it is usually that of a data model. -/
def isData (raw : String) : Bool :=
  (Feature.ofUri? (capabilityOf raw).uri).isNone && decide (urlSupport raw = .none)

/-- The schemes that a capability string lists, if it does. -/
def schemes? (raw : String) : Option (List String) :=
  match urlSupport raw with
  | .schemes list => some list
  | _ => none

/-! ## Adding a string -/

/-- What adding a string does. It is listed; and it brings a feature, the use of URLs with or
without schemes, or else it is listed among the data models. -/
theorem add_cases (c : Capabilities) (raw : String) :
    (∃ f, Feature.ofUri? (capabilityOf raw).uri = some f ∧ urlSupport raw = .none ∧
      c.add raw = { c with
        all := c.all ++ [capabilityOf raw]
        features := if c.features.contains f then c.features else c.features ++ [f] }) ∨
    Feature.ofUri? (capabilityOf raw).uri = none ∧
      ((∃ list, urlSupport raw = .schemes list ∧
          c.add raw = { c with
            all := c.all ++ [capabilityOf raw], url := true, urlSchemes := list }) ∨
        (urlSupport raw = .some ∧
          c.add raw = { c with all := c.all ++ [capabilityOf raw], url := true }) ∨
        (urlSupport raw = .none ∧
          c.add raw = { c with
            all := c.all ++ [capabilityOf raw], data := c.data ++ [capabilityOf raw] })) := by
  unfold add
  dsimp only
  split
  · next f hf =>
    refine .inl ⟨f, hf, ?_, ?_⟩
    · by_contra hurl
      rw [ofUri?_of_urlSupport hurl] at hf
      cases hf
    · split <;> rfl
  · next list hf hurl => exact .inr ⟨hf, .inl ⟨list, hurl, rfl⟩⟩
  · next hf hurl => exact .inr ⟨hf, .inr (.inl ⟨hurl, rfl⟩)⟩
  · next hf hurl => exact .inr ⟨hf, .inr (.inr ⟨hurl, rfl⟩)⟩

/-- Every string is listed. -/
theorem all_add (c : Capabilities) (raw : String) :
    (c.add raw).all = c.all ++ [capabilityOf raw] := by
  obtain ⟨f, hf, hurl, h⟩ | ⟨hf, ⟨list, hurl, h⟩ | ⟨hurl, h⟩ | ⟨hurl, h⟩⟩ := c.add_cases raw <;>
    rw [h]

/-- A string brings the feature of its URI and keeps the others. -/
theorem has_add (c : Capabilities) (raw : String) (f : Feature) :
    (c.add raw).has f = (c.has f || decide (Feature.ofUri? (capabilityOf raw).uri = some f)) := by
  obtain ⟨g, hg, hurl, h⟩ | ⟨hg, ⟨list, hurl, h⟩ | ⟨hurl, h⟩ | ⟨hurl, h⟩⟩ := c.add_cases raw <;>
    rw [h, hg]
  · by_cases hthere : c.features.contains g = true
    · rw [has, has, if_pos hthere]
      by_cases hf : g = f
      · simpa [← hf] using hthere
      · simp [hf]
    · rw [has, has, if_neg hthere]
      simp [eq_comm]
  all_goals simp [has]

/-- URLs can be used with a string that says so, and where they could be used before. -/
theorem url_add (c : Capabilities) (raw : String) :
    (c.add raw).url = (c.url || decide (urlSupport raw ≠ .none)) := by
  obtain ⟨f, hf, hurl, h⟩ | ⟨hf, ⟨list, hurl, h⟩ | ⟨hurl, h⟩ | ⟨hurl, h⟩⟩ := c.add_cases raw <;>
    simp [h, hurl]

/-- A string that lists schemes replaces those that were there. -/
theorem urlSchemes_add (c : Capabilities) (raw : String) :
    (c.add raw).urlSchemes = (schemes? raw).getD c.urlSchemes := by
  unfold schemes?
  obtain ⟨f, hf, hurl, h⟩ | ⟨hf, ⟨list, hurl, h⟩ | ⟨hurl, h⟩ | ⟨hurl, h⟩⟩ := c.add_cases raw <;>
    simp [h, hurl]

/-- A string that is no part of the protocol is listed among the data models. -/
theorem data_add (c : Capabilities) (raw : String) :
    (c.add raw).data = c.data ++ if isData raw then [capabilityOf raw] else [] := by
  unfold isData
  obtain ⟨f, hf, hurl, h⟩ | ⟨hf, ⟨list, hurl, h⟩ | ⟨hurl, h⟩ | ⟨hurl, h⟩⟩ := c.add_cases raw <;>
    simp [h, hf, hurl]

/-! ## Lists of strings -/

/-- One string more is added last. -/
theorem ofUris_concat (uris : List String) (s : String) :
    ofUris (uris ++ [s]) = (ofUris uris).add (Text.trim s) := by
  rw [ofUris, List.map_append, List.foldl_append, List.map_singleton, List.foldl_cons,
    List.foldl_nil, ofUris]

/-- A feature is there if a string has one of its URIs. -/
theorem has_ofUris {uris : List String} {f : Feature} :
    (ofUris uris).has f = true ↔
      ∃ s ∈ uris, Feature.ofUri? (capabilityOf (Text.trim s)).uri = some f := by
  induction uris using List.reverseRecOn with
  | nil => simp [ofUris, has]
  | append_singleton uris s ih =>
    rw [ofUris_concat, has_add, Bool.or_eq_true, ih, decide_eq_true_iff]
    simp [or_and_right, exists_or]

/-- URLs can be used if a string says so. -/
theorem url_ofUris {uris : List String} :
    (ofUris uris).url = true ↔ ∃ s ∈ uris, urlSupport (Text.trim s) ≠ .none := by
  induction uris using List.reverseRecOn with
  | nil => simp [ofUris]
  | append_singleton uris s ih =>
    rw [ofUris_concat, url_add, Bool.or_eq_true, ih, decide_eq_true_iff]
    simp [or_and_right, exists_or]

/-- All strings are listed in their order. -/
theorem all_ofUris (uris : List String) :
    (ofUris uris).all = uris.map fun s => capabilityOf (Text.trim s) := by
  induction uris using List.reverseRecOn with
  | nil => rfl
  | append_singleton uris s ih =>
    rw [ofUris_concat, all_add, ih, List.map_append, List.map_singleton]

/-- Those that are no part of the protocol are listed as data models in their order. -/
theorem data_ofUris (uris : List String) :
    (ofUris uris).data =
      (uris.filter fun s => isData (Text.trim s)).map fun s => capabilityOf (Text.trim s) := by
  induction uris using List.reverseRecOn with
  | nil => rfl
  | append_singleton uris s ih =>
    rw [ofUris_concat, data_add, ih, List.filter_append, List.map_append, List.filter_singleton]
    cases isData (Text.trim s) <;> rfl

/-- No predicate holds: there is no feature, and URLs cannot be used. -/
def isSilent (c : Capabilities) : Bool := (Feature.all.all fun f => !c.has f) && !c.url

/-- A string is no part of the protocol if no predicate holds by itself. -/
theorem isSilent_ofUris_singleton (s : String) :
    (ofUris [s]).isSilent = isData (Text.trim s) := by
  have hfeature (f : Feature) :
      (ofUris [s]).has f = decide (Feature.ofUri? (capabilityOf (Text.trim s)).uri = some f) := by
    rw [Bool.eq_iff_iff, has_ofUris]
    simp
  have hall : (Feature.all.all fun f => !(ofUris [s]).has f) =
      (Feature.ofUri? (capabilityOf (Text.trim s)).uri).isNone := by
    cases hf : Feature.ofUri? (capabilityOf (Text.trim s)).uri with
    | none => simp [hfeature, hf]
    | some f => cases f <;> simp [hfeature, hf, Feature.all]
  have hurl : (ofUris [s]).url = true ↔ urlSupport (Text.trim s) ≠ .none := by
    simp [url_ofUris]
  rw [isSilent, hall, isData]
  by_cases hnone : urlSupport (Text.trim s) = .none
  · simp [hnone, Bool.eq_false_iff.2 fun h => hurl.1 h hnone]
  · simp [hnone, hurl.2 hnone]

/-- The predicates do not depend on the order of the strings, and neither does it whether a URI is
listed. Every string is listed in its place as what it says about itself, and those are listed as
data models by which no predicate holds. -/
theorem ofUris_listing :
    (∀ uris uris' : List String, uris.Perm uris' →
      (∀ f, (ofUris uris).has f = (ofUris uris').has f) ∧
        (ofUris uris).url = (ofUris uris').url ∧
        ∀ uri, (ofUris uris).hasUri uri = (ofUris uris').hasUri uri) ∧
      ∀ uris : List String,
        List.Forall₂ (fun s a => a.Describes s) uris (ofUris uris).all ∧
        (ofUris uris).data =
          ((uris.zip (ofUris uris).all).filter fun p => (ofUris [p.1]).isSilent).map (·.2) := by
  refine ⟨fun uris uris' h => ⟨fun f => ?_, ?_, fun uri => ?_⟩, fun uris => ⟨?_, ?_⟩⟩
  · rw [Bool.eq_iff_iff, has_ofUris, has_ofUris]
    simp only [h.mem_iff]
  · rw [Bool.eq_iff_iff, url_ofUris, url_ofUris]
    simp only [h.mem_iff]
  · rw [hasUri, hasUri, all_ofUris, all_ofUris]
    exact (h.map _).any_eq
  · rw [all_ofUris, List.forall₂_map_right_iff]
    exact List.forall₂_same.2 fun s _ => describes_capabilityOf s
  · rw [data_ofUris, all_ofUris]
    simp only [isSilent_ofUris_singleton]
    induction uris with
    | nil => rfl
    | cons s uris ih =>
      rw [List.map_cons, List.zip_cons_cons, List.filter_cons, List.filter_cons]
      split <;> simp [ih]

/-- A hello with an early form between blanks, a query with several revisions, the use of URLs
without schemes, which says nothing, and a pair without a value. -/
def mixedUris : List String :=
  ["\n " ++ capBaseEarly ++ " ", "urn:h?module=h&revision=2020-01-01&revision=2021-01-01", capUrl,
    "urn:h?revision", capBase ++ "?revision=2011-01-01"]

/-- Read backwards, this hello has the same predicates. -/
theorem ofUris_listing_mixedUris :
    mixedUris.Perm mixedUris.reverse ∧
      (∀ f, (ofUris mixedUris).has f = (ofUris mixedUris.reverse).has f) ∧
      (ofUris mixedUris).features = [.base] ∧
      (ofUris mixedUris).data =
        [⟨"urn:h", some "2020-01-01"⟩, ⟨capUrl, none⟩, ⟨"urn:h", none⟩] := by
  have hperm : mixedUris.Perm mixedUris.reverse := (List.reverse_perm _).symm
  exact ⟨hperm, (ofUris_listing.1 _ _ hperm).1, by decide +kernel, by decide +kernel⟩

end Capabilities

end Netconf
