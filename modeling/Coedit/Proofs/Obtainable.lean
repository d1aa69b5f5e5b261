import Coedit.Patch.LineEnding
import Coedit.Proofs.Consolidate
import Coedit.Proofs.Wire

/-!
Patches as they can come about: built from diffs, read, moved past others, joined or taken to other
line endings. Each of them is simplified (`Obtainable.simplified`), and so its written form is read
as the same patch (`Obtainable.survives_wire`).
-/
namespace Coedit.Patch

variable {p : Patch}

/-- Patches that are built from diffs, read, or made of such patches. -/
inductive Obtainable : Patch → Prop
  | ofDiffs (version : Int) (diffs : List Diff) (docLength : Nat) :
      Obtainable (ofDiffs version diffs docLength)
  | forDocument (version : Int) (diffs : List Diff) (baseLength : Nat) :
      Obtainable (forDocument version diffs baseLength)
  | unchanged (version : Int) (docLength : Nat) : Obtainable (unchanged version docLength)
  | read {written : Text} {p : Patch} : parse written = .ok p → Obtainable p
  | rebased {p : Patch} (version : Int) : Obtainable p → Obtainable (p.rebased version)
  | transform {p : Patch} {others : List Patch} (othersFirst : Bool) : Obtainable p →
      (∀ q ∈ others, Obtainable q) → Obtainable (p.transform othersFirst others)
  | pairFirst {a b : Patch} (aWins : Bool) : Obtainable a → Obtainable b →
      Obtainable (transformPair a b aWins).1
  | pairSecond {a b : Patch} (aWins : Bool) : Obtainable a → Obtainable b →
      Obtainable (transformPair a b aWins).2
  | consolidate {ps : List Patch} {m : Patch} : (∀ p ∈ ps, Obtainable p) →
      consolidate ps = .ok (some m) → Obtainable m
  | toCrlf {p : Patch} (base : Text) : Obtainable p → Obtainable (p.toCrlf base)
  | toLf {p : Patch} (base : Text) : Obtainable p → Obtainable (p.toLf base)

theorem simplified_of_parse {written : Text} (h : parse written = .ok p) :
    Diff.Simplified p.diffs := by
  unfold parse at h
  split at h
  · cases h
  · obtain ⟨diffs, -, hp⟩ := bind_eq_ok_iff.mp h
    obtain rfl := Except.ok.inj hp
    exact Diff.simplified_simplify diffs

theorem simplified_transform (hp : Diff.Simplified p.diffs) (othersFirst : Bool)
    (others : List Patch) : Diff.Simplified (p.transform othersFirst others).diffs := by
  cases others with
  | nil => exact hp
  | cons first more => exact Diff.simplified_simplify _

theorem Obtainable.simplified (h : p.Obtainable) : Diff.Simplified p.diffs := by
  induction h with
  | ofDiffs _ diffs _ => exact Diff.simplified_simplify diffs
  | forDocument _ diffs _ => exact Diff.simplified_simplify diffs
  | unchanged _ _ => exact Diff.simplified_simplify []
  | read h => exact simplified_of_parse h
  | rebased _ _ ih => exact ih
  | transform othersFirst _ _ ih _ => exact simplified_transform ih othersFirst _
  | pairFirst aWins _ _ ha _ => exact simplified_transform ha (!aWins) _
  | pairSecond aWins _ _ _ hb => exact simplified_transform hb aWins _
  | consolidate _ h ih => exact simplified_of_consolidate ih h
  | toCrlf _ _ _ => exact Diff.simplified_simplify _
  | toLf _ _ _ => exact Diff.simplified_simplify _

/-- The numbers of a patch are of 64 bits. Nothing is asked of the patches that it was made of. -/
structure InWords (p : Patch) : Prop where
  baseVersion : Numeral.fits p.baseVersion = true
  docLength : p.docLength < Numeral.wordLimit
  start_lt : ∀ d ∈ p.diffs, d.start < Numeral.wordLimit
  length_lt : ∀ d ∈ p.diffs, d.length < Numeral.wordLimit

theorem InWords.sendable (h : p.InWords) (hs : Diff.Simplified p.diffs) : p.Sendable where
  simplified := hs
  diffs d hd := ⟨hs.text_ne_nil d hd, h.start_lt d hd, h.length_lt d hd⟩
  baseVersion := h.baseVersion
  docLength := h.docLength

/-- However a patch comes about, there is nothing to simplify in it: every diff has text and none
continues the one before. With numbers of 64 bits it is read as it was written. -/
theorem Obtainable.survives_wire (h : p.Obtainable) :
    Diff.Simplified p.diffs ∧ Diff.simplify p.diffs = p.diffs ∧
      (p.InWords → parse p.render = .ok p) :=
  ⟨h.simplified, Diff.simplify_eq_self h.simplified, fun hw => parse_render (hw.sendable h.simplified)⟩

/-- A patch with text beyond ASCII, past one that was read, on a document with pairs. -/
theorem survives_wire_past_read :
    let q : Patch := ⟨4, [.deletion 0 ['x']], 2⟩
    let made := forDocument 4 [.insertion 1 ['é', '\n'], .insertion 1 [':']] 3
    let p := (made.transform true [q]).toCrlf ['\n', 'y']
    parse "v4:\n0:-1:x:\n2".toList = .ok q ∧ Diff.Simplified p.diffs ∧
      Diff.simplify p.diffs = p.diffs ∧ p.InWords ∧
      p.render = "v5:\n0:+4:%C3%A9%0D%0A%3A:\n7".toList ∧ parse p.render = .ok p := by
  intro q made p
  have hparse : parse "v4:\n0:-1:x:\n2".toList = .ok q := by decide +kernel
  have hq : q.Obtainable := .read hparse
  have hp : p.Obtainable := .toCrlf _ (.transform true (.forDocument ..) (by simpa using hq))
  obtain ⟨hs, hsimplify, hread⟩ := hp.survives_wire
  have hw : p.InWords := ⟨by decide, by decide, by decide, by decide⟩
  exact ⟨hparse, hs, hsimplify, hw, by decide +kernel, hread hw⟩

end Coedit.Patch
