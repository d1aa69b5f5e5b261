import Coedit.Proofs.Sequence
import Coedit.Proofs.Transform

/-!
Two concurrent patches, each past the other, meet in one text: the merge of their two edits.
`Leads.transform` is one side of it, `transformPair_converges` is the whole. Past several patches
that were made one after another a patch still fits (`Sequential.transform`).
-/
namespace Coedit.Patch

variable {a b : Patch} {t u v : Text}

/-- The text that two concurrent patches stand for; `aFirst` says whose text goes first where both
insert. -/
def merged (aFirst : Bool) (a b : Patch) (t : Text) : Text :=
  ((Edit.ofDiffs a.diffs).merge aFirst (Edit.ofDiffs b.diffs)).apply 0 t

theorem merged_comm (aFirst : Bool) (a b : Patch) (t : Text) :
    merged aFirst a b t = merged (!aFirst) b a t := by
  rw [merged, Edit.merge_comm, merged]

/-- Diffs past a concurrent patch make of that one's text the merge of both. -/
theorem Leads.transformAll {ds : List Diff} (hb : b.Leads t v) (othersFirst : Bool)
    (h : Diff.Rewrites 0 t ds u) :
    Diff.Rewrites 0 v (Diff.transformAll ds othersFirst b.diffs)
      (((Edit.ofDiffs ds).merge (!othersFirst) (Edit.ofDiffs b.diffs)).apply 0 t) := by
  have hr := h.transformAll hb.rewrites.ordered othersFirst
  rwa [Diff.MeetsPast, Diff.mapIndex_zero, ← hb.rewrites.eq_apply] at hr

theorem not_mem_text_of_mem_transformAll {ds others : List Diff} {c : Char} (othersFirst : Bool)
    (hds : ∀ d ∈ ds, c ∉ d.text) : ∀ e ∈ Diff.transformAll ds othersFirst others, c ∉ e.text := by
  intro e he hc
  obtain ⟨d, hd, htext, -⟩ := Diff.mem_transformAll he
  exact hds d hd (htext c hc)

/-- A patch past a concurrent one makes of that one's text the merge of both. -/
theorem Leads.transform (ha : a.Leads t u) (hb : b.Leads t v) (othersFirst : Bool) :
    (a.transform othersFirst [b]).Leads v (merged (!othersFirst) a b t) := by
  rw [transform_singleton, hb.docLength]
  exact .forDocument _ hb.free_after
    (not_mem_text_of_mem_transformAll othersFirst ha.returnFree)
    (hb.transformAll othersFirst ha.rewrites)

/-- Diffs past patches that were made one after another fit the text that those make. -/
theorem Sequential.transformAll {ps : List Patch} {ds : List Diff} (ht : '\r' ∉ t)
    (h : Sequential t ps v) (othersFirst : Bool) (hds : ∀ d ∈ ds, '\r' ∉ d.text)
    (hr : Diff.Rewrites 0 t ds u) :
    ∃ w, Diff.Rewrites 0 v
        (ps.foldl (fun diffs other => Diff.transformAll diffs othersFirst other.diffs) ds) w ∧
      ∀ d ∈ ps.foldl (fun diffs other => Diff.transformAll diffs othersFirst other.diffs) ds,
        '\r' ∉ d.text := by
  induction ps generalizing t u ds with
  | nil =>
    cases h
    exact ⟨u, hr, hds⟩
  | cons p ps ih =>
    obtain ⟨next, -, hp, hps⟩ := h.of_cons ht
    exact ih hp.free_after hps (not_mem_text_of_mem_transformAll othersFirst hds)
      (hp.transformAll othersFirst hr)

/-- A patch past patches that were made one after another fits the text that those make. -/
theorem Sequential.transform {ps : List Patch} (h : Sequential t ps v) (ha : a.Leads t u)
    (othersFirst : Bool) : ∃ w, (a.transform othersFirst ps).Leads v w := by
  cases ps with
  | nil =>
    cases h
    exact ⟨u, ha⟩
  | cons p ps =>
    obtain ⟨w, hw, hds⟩ := h.transformAll ha.free othersFirst ha.returnFree ha.rewrites
    refine ⟨w, ?_⟩
    rw [Patch.transform, h.docLength_getLast ha.free (List.cons_ne_nil p ps)]
    exact .forDocument _ (h.free_after ha.free) hds hw

/-- Two concurrent patches, each behind the other one's transformation, make the merge of their
edits. -/
theorem transformPair_converges (aWins : Bool) (ht : '\r' ∉ t) (ha : a.ReturnFree)
    (hb : b.ReturnFree) (hau : a.apply t = .ok u) (hbv : b.apply t = .ok v)
    (hal : a.docLength = u.length) (hbl : b.docLength = v.length) :
    applyAll t [b, (transformPair a b aWins).1] = .ok (merged aWins a b t) ∧
      applyAll t [a, (transformPair a b aWins).2] = .ok (merged aWins a b t) ∧
      (transformPair a b aWins).1.docLength = (merged aWins a b t).length ∧
      (transformPair a b aWins).2.docLength = (merged aWins a b t).length := by
  have hla : a.Leads t u := .of_apply ht ha hau hal
  have hlb : b.Leads t v := .of_apply ht hb hbv hbl
  have hpast : (transformPair a b aWins).1.Leads v (merged aWins a b t) := by
    have h := hla.transform hlb (!aWins)
    rwa [Bool.not_not] at h
  have hbehind : (transformPair a b aWins).2.Leads u (merged aWins a b t) := by
    have h := hlb.transform hla aWins
    rwa [← merged_comm] at h
  refine ⟨?_, ?_, hpast.docLength, hbehind.docLength⟩
  · rw [applyAll_cons_of_apply hbv, applyAll_cons_of_apply hpast.apply_eq]
    rfl
  · rw [applyAll_cons_of_apply hau, applyAll_cons_of_apply hbehind.apply_eq]
    rfl

/-- A deletion that is cut by text inside it, next to a tie. -/
theorem transformPair_converges_cut :
    let t : Text := ['a', 'b', 'c', 'd']
    let a : Patch := ⟨0, [.deletion 1 ['b', 'c'], .insertion 4 ['X']], 3⟩
    let b : Patch := ⟨0, [.insertion 2 ['Y'], .insertion 4 ['Z']], 6⟩
    merged true a b t = ['a', 'Y', 'd', 'X', 'Z'] ∧
      applyAll t [b, (transformPair a b true).1] = .ok (merged true a b t) ∧
      applyAll t [a, (transformPair a b true).2] = .ok (merged true a b t) ∧
      (transformPair a b true).1.docLength = 5 ∧ (transformPair a b true).2.docLength = 5 :=
  ⟨rfl, transformPair_converges (u := ['a', 'd', 'X']) (v := ['a', 'b', 'Y', 'c', 'd', 'Z']) true
    (by decide) (by decide) (by decide) rfl rfl rfl rfl⟩

end Coedit.Patch
