import Mathlib.Data.List.TakeWhile
import Netconf.Proofs.Xml.TagText

/-!
# Scanning written text

A text is scanned piece by piece: `Scans cs items` says that the piece `cs` gives the items `items`
wherever it stands, the run of text before it included, which ends only with the next tag. Pieces
that follow each other give their items one after the other (`Scans.append`), blanks between tags
give none, and a piece that is the whole text gives its items and nothing else (`Scans.scan_eq`).
-/

namespace Netconf.Xml

/-! ## Runs of text -/

/-- What is dropped at both ends of a list may stand at its end any number of times. -/
theorem dropWhile_ends_append {α : Type} {p : α → Bool} (xs : List α) {ys : List α}
    (h : ∀ y ∈ ys, p y = true) :
    (((xs ++ ys).dropWhile p).reverse.dropWhile p).reverse =
      ((xs.dropWhile p).reverse.dropWhile p).reverse := by
  rw [List.dropWhile_append]
  split
  · next hempty =>
    have hdropped : ys.dropWhile p = [] := List.dropWhile_eq_nil_iff.2 h
    rw [List.isEmpty_iff.1 hempty, hdropped]
  · rw [List.reverse_append, List.dropWhile_append_of_pos fun y hy => h y (List.mem_reverse.1 hy)]

/-- Blanks at the end of a run do not count. -/
theorem trimBoth_append_blanks (cs : List Char) {bs : List Char} (h : ∀ b ∈ bs, isSpace b = true) :
    trimBoth (cs ++ bs) = trimBoth cs :=
  dropWhile_ends_append cs h

/-- Blanks at the end of a run give no item. -/
theorem textItem_append_blanks (cs : List Char) {bs : List Char} (h : ∀ b ∈ bs, isSpace b = true) :
    textItem (cs ++ bs) = textItem cs := by
  rw [textItem, trimBoth_append_blanks cs h, textItem]

/-! ## Rounds of the scanner -/

/-- Where no tag follows, what is left is one run. -/
theorem scanFor_run (n : Nat) {run : List Char} (h : '<' ∉ run) :
    scanFor (n + 1) run = ⟨textItem run, true⟩ := by
  have hall : ∀ c ∈ run, (c != '<') = true := fun c hc => by
    simpa using fun he : c = '<' => h (he ▸ hc)
  have htake : run.takeWhile (fun c => c != '<') = run := List.takeWhile_eq_self_iff.2 hall
  have hdrop : run.dropWhile (fun c => c != '<') = [] := List.dropWhile_eq_nil_iff.2 hall
  rw [scanFor, hdrop, htake]

/-- One round reads a run and the tag behind it. -/
theorem scanFor_tag (n : Nat) {run after rest : List Char} {m : Markup} (h : '<' ∉ run)
    (hread : readItem after = some (some m, rest)) :
    scanFor (n + 1) (run ++ '<' :: after) =
      ⟨textItem run ++ m :: (scanFor n rest).items, (scanFor n rest).complete⟩ := by
  have hall : ∀ c ∈ run, (c != '<') = true := fun c hc => by
    simpa using fun he : c = '<' => h (he ▸ hc)
  have htake : (run ++ '<' :: after).takeWhile (fun c => c != '<') = run := by
    rw [List.takeWhile_append_of_pos hall, List.takeWhile_cons_of_neg (by decide), List.append_nil]
  have hdrop : (run ++ '<' :: after).dropWhile (fun c => c != '<') = '<' :: after := by
    rw [List.dropWhile_append_of_pos hall, List.dropWhile_cons_of_neg (by decide)]
  rw [scanFor, hdrop, htake]
  simp [hread]

/-! ## Pieces of a text -/

/-- The piece `cs` gives `items` wherever it stands: with the run `run` before it, the scanner finds
`found` and goes on with the run `pending`, which together are the items of the run and the
piece. -/
def Scans (cs : List Char) (items : List Markup) : Prop :=
  ∀ run, '<' ∉ run → ∃ (rounds : Nat) (found : List Markup) (pending : List Char),
    rounds ≤ cs.length ∧ '<' ∉ pending ∧ found ++ textItem pending = textItem run ++ items ∧
      ∀ n rest, scanFor (n + rounds) (run ++ (cs ++ rest)) =
        ⟨found ++ (scanFor n (pending ++ rest)).items, (scanFor n (pending ++ rest)).complete⟩

/-- Pieces give their items one after the other. -/
theorem Scans.append {cs ds : List Char} {items others : List Markup} (hc : Scans cs items)
    (hd : Scans ds others) : Scans (cs ++ ds) (items ++ others) := by
  intro run hrun
  obtain ⟨k, found, pending, hk, hpending, hfound, hscan⟩ := hc run hrun
  obtain ⟨k', found', pending', hk', hpending', hfound', hscan'⟩ := hd pending hpending
  refine ⟨k' + k, found ++ found', pending', ?_, hpending', ?_, fun n rest => ?_⟩
  · rw [List.length_append, Nat.add_comm]
    exact Nat.add_le_add hk hk'
  · rw [List.append_assoc, hfound', ← List.append_assoc, hfound, List.append_assoc]
  · rw [List.append_assoc, ← Nat.add_assoc, hscan, hscan']
    simp only [List.append_assoc]

/-- Blanks give nothing. -/
theorem scans_blanks {bs : List Char} (h : ∀ b ∈ bs, isSpace b = true) : Scans bs [] := by
  intro run hrun
  refine ⟨0, [], run ++ bs, Nat.zero_le _, fun hmem => ?_, ?_, fun n rest => by simp⟩
  · rcases List.mem_append.1 hmem with hmem | hmem
    · exact hrun hmem
    · exact absurd (h _ hmem) (by decide)
  · rw [textItem_append_blanks run h]
    simp

/-- A tag with a run of text behind it gives its item and that of the run. -/
theorem scans_tag_text {body text : List Char} {m : Markup} (htext : '<' ∉ text)
    (hread : ∀ rest, readItem (body ++ rest) = some (some m, rest)) :
    Scans ('<' :: body ++ text) (m :: textItem text) := by
  intro run hrun
  refine ⟨1, textItem run ++ [m], text, by simp, htext, by simp, fun n rest => ?_⟩
  have hround := scanFor_tag n hrun (hread (text ++ rest))
  have hchars : '<' :: body ++ text ++ rest = '<' :: (body ++ (text ++ rest)) := by simp
  rw [hchars, hround]
  simp

/-- A tag gives its item. -/
theorem scans_tag {body : List Char} {m : Markup}
    (hread : ∀ rest, readItem (body ++ rest) = some (some m, rest)) : Scans ('<' :: body) [m] := by
  have h : Scans ('<' :: body ++ []) (m :: textItem []) := scans_tag_text List.not_mem_nil hread
  rwa [List.append_nil] at h

/-- A whole text gives the items of its only piece. -/
theorem Scans.scan_eq {cs : List Char} {items : List Markup} (h : Scans cs items)
    (hmark : cs.head? ≠ some byteOrderMark) : scan cs = ⟨items, true⟩ := by
  obtain ⟨k, found, pending, hk, hpending, hfound, hscan⟩ := h [] List.not_mem_nil
  have hrounds : cs.length + 1 = (cs.length - k + 1) + k := by omega
  have hall := hscan (cs.length - k + 1) []
  rw [← hrounds, List.append_nil, List.append_nil, List.nil_append, scanFor_run _ hpending] at hall
  rw [scan, if_neg (by simpa using hmark), hall, ← List.append_nil items]
  have hnone : textItem [] = [] := rfl
  rw [hnone, List.nil_append] at hfound
  rw [hfound, List.append_nil]

end Netconf.Xml
