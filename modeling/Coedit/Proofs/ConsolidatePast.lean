import Coedit.Client.Reconcile
import Coedit.Proofs.Consolidate
import Coedit.Proofs.SequenceConverge
import Coedit.Proofs.WalkCarry

/-!
A patch goes past patches made one after another as it goes past their consolidation, as long as the
text of the others goes first where both insert (`transform_past_consolidated`). So a remote patch
may be reconciled with everything that waits in one go.
-/
namespace Coedit.Patch

variable {b p : Patch} {ps : List Patch} {ds : List Diff} {t u v out : Text} {walk : Walk}
  {m : Marking}

theorem Leads.marking_past (hp : p.Leads t u) (hr : Diff.Rewrites 0 t ds out) :
    (Edit.ofDiffs (Diff.transformAll ds true p.diffs)).marking 0 u =
      Marking.past (Edit.ofDiffs p.diffs) 0 ((Edit.ofDiffs ds).marking 0 t) := by
  have hmarks := hr.marking_transformAll hp.rewrites.ordered
  rwa [Diff.MarksPast, Diff.mapIndex_zero, ← hp.rewrites.eq_apply] at hmarks

/-- Past a patch, diffs mark its text as the walk of the patch carries their marks. -/
theorem Leads.marking_carry (hp : p.Leads t u) (hr : Diff.Rewrites 0 t ds out)
    (hw : Walk.ofPatch p = .ok walk) (hl : Walk.Leads walk t u) :
    (Edit.ofDiffs (Diff.transformAll ds true p.diffs)).marking 0 u =
      Walk.carry walk ((Edit.ofDiffs ds).marking 0 t) := by
  rw [hp.marking_past hr, ← hl.past_eq_carry (Edit.length_marking _ 0 t) 0,
    Walk.diffsFrom_of_ofDiffsFrom hw]

/-- Diffs that mark a text as a walk to it carries some marks go past patches made one after another
as the composition of all the walks carries the marks. -/
theorem Sequential.marking_composeAll (hu : '\r' ∉ u) (hw : Walk.Leads walk t u)
    (hm : m.marks.length = t.length) (hr : Diff.Rewrites 0 u ds out)
    (hds : (Edit.ofDiffs ds).marking 0 u = Walk.carry walk m) (h : Sequential u ps v) :
    ∃ joined, Walk.composeAll walk ps = .ok joined ∧ Walk.Leads joined t v ∧
      (Edit.ofDiffs (ps.foldl (fun diffs p => Diff.transformAll diffs true p.diffs) ds)).marking 0 v =
        Walk.carry joined m := by
  induction ps generalizing walk u ds out with
  | nil =>
    cases h
    exact ⟨walk, rfl, hw, hds⟩
  | cons p ps ih =>
    obtain ⟨w, hmade, hp, hps⟩ := h.of_cons hu
    obtain ⟨next, hnext, hl⟩ := hp.ofPatch hmade
    obtain ⟨both, hboth, hlboth⟩ := hw.compose hl
    have hmarks := hp.marking_carry hr hnext hl
    rw [hds, hw.carry_compose hl hboth hm] at hmarks
    obtain ⟨joined, hjoined, hljoined, hfold⟩ :=
      ih hp.free_after hlboth (hp.transformAll true hr) hmarks hps
    exact ⟨joined, composeAll_cons_eq_ok_iff.mpr ⟨next, both, hnext, hboth, hjoined⟩, hljoined, hfold⟩

/-- Diffs past a consolidation mark the last text as they do past the patches one by one. -/
theorem Sequential.marking_consolidated (ht : '\r' ∉ t) (hr : Diff.Rewrites 0 t ds out)
    (h : Sequential t (p :: ps) v) :
    ∃ m, Patch.consolidate (p :: ps) = .ok (some m) ∧ m.Leads t v ∧
      (Edit.ofDiffs (Diff.transformAll ds true m.diffs)).marking 0 v =
        (Edit.ofDiffs ((p :: ps).foldl (fun diffs p => Diff.transformAll diffs true p.diffs)
          ds)).marking 0 v := by
  obtain ⟨m, hm, hl, -⟩ := h.consolidate ht
  refine ⟨m, hm, hl, ?_⟩
  cases ps with
  | nil =>
    obtain rfl := Option.some.inj (Except.ok.inj hm)
    rfl
  | cons next more =>
    obtain ⟨u, hmade, hp, hps⟩ := h.of_cons ht
    obtain ⟨first, hfirst, hlfirst⟩ := hp.ofPatch hmade
    have hlength := Edit.length_marking (Edit.ofDiffs ds) 0 t
    obtain ⟨joined, hjoined, hljoined, hfold⟩ := hps.marking_composeAll hp.free_after hlfirst hlength
      (hp.transformAll true hr) (hp.marking_carry hr hfirst hlfirst)
    have hmade := consolidate_eq_ok_iff.mpr ⟨first, joined, hfirst, hjoined, rfl⟩
    obtain rfl := Option.some.inj (Except.ok.inj (hm.symm.trans hmade))
    rw [hl.marking_past hr, List.foldl_cons, hfold, ← hljoined.past_eq_carry hlength 0]
    exact congrArg (Marking.past · 0 _) (Diff.ofDiffs_simplify joined.diffs)

/-- How long a patch says that its result is does not matter to what goes past it. -/
theorem apply_transform_congr {a a' : Patch} (h : a.diffs = a'.diffs) (b : Patch)
    (othersFirst : Bool) (ht : '\r' ∉ t) :
    (b.transform othersFirst [a]).apply t = (b.transform othersFirst [a']).apply t := by
  have hdiffs : (b.transform othersFirst [a]).diffs = (b.transform othersFirst [a']).diffs := by
    rw [transform_singleton, transform_singleton, h]
    rfl
  simp only [apply, onDocument_of_hasCrlf_eq_false (Text.hasCrlf_eq_false ht), hdiffs]

theorem applyAll_eachPast_congr {a a' : Patch} (h : a.diffs = a'.diffs) (othersFirst : Bool)
    (p : Patch) (ps : List Patch) (ht : '\r' ∉ t) :
    applyAll t (eachPast a othersFirst (p :: ps)) =
      applyAll t (eachPast a' othersFirst (p :: ps)) := by
  have hpast (qs : List Patch) :
      a.transform othersFirst (p :: qs) = a'.transform othersFirst (p :: qs) := by
    rw [transform, transform, h]
  have hhead := apply_transform_congr h p (!othersFirst) ht
  unfold eachPast
  rw [List.mapIdx_cons, List.mapIdx_cons, applyAll, applyAll]
  simp only [List.take_zero, List.take_succ_cons, hpast]
  rw [transform_nil, transform_nil, hhead]

/-- Text of the others first, a patch goes past patches made one after another and past their
consolidation to one text, and so do they past it. A remote change is therefore reconciled with all
that waits as it would be with one waiting patch after another. -/
theorem transform_past_consolidated (ht : '\r' ∉ t) (hfree : b.ReturnFree)
    (hbu : b.apply t = .ok u) (h : Sequential t (p :: ps) v) :
    ∃ m w, consolidate (p :: ps) = .ok (some m) ∧ applyAll t (p :: ps) = .ok v ∧
      (b.transform true (p :: ps)).apply v = .ok w ∧ (b.transform true [m]).apply v = .ok w ∧
      applyAll u (eachPast b true (p :: ps)) = .ok w ∧
      (m.transform false [b]).apply u = .ok w ∧
      ∀ version, RemoteChange.plan ⟨b, version⟩ (p :: ps) =
        .ok ⟨b.transform true [m], [m.transform false [b]]⟩ := by
  have hr := (apply_eq_ok_iff ht).mp hbu
  -- the length that `b` states is not known to be right, and does not matter
  let b' : Patch := { b with docLength := u.length }
  have hsame : b.diffs = b'.diffs := rfl
  have hb : b'.Leads t u := ⟨ht, hfree, hr, rfl⟩
  obtain ⟨m, hm, hl, hmarks⟩ := h.marking_consolidated ht hr
  obtain ⟨w, hpast, heach⟩ := h.meets_past hb true
  have hjoined : (b.transform true [m]).Leads v (merged false b' m t) := hb.transform hl true
  have hback : (m.transform false [b']).Leads u (merged false b' m t) := by
    rw [merged_comm]
    exact hl.transform hb false
  have hw : w = merged false b' m t := by
    rw [hpast.rewrites.eq_apply, hjoined.rewrites.eq_apply, ofDiffs_transform, ofDiffs_transform,
      ← Edit.text_marking, ← Edit.text_marking]
    exact congrArg Marking.text hmarks.symm
  subst hw
  refine ⟨m, _, hm, h.applyAll_eq, hpast.apply_eq, hjoined.apply_eq, ?_, ?_, ?_⟩
  · rw [← heach]
    exact applyAll_eachPast_congr hsame true p ps hb.free_after
  · rw [← hback.apply_eq]
    exact apply_transform_congr hsame m false hb.free_after
  · intro version
    rw [RemoteChange.plan, hm]
    rfl

/-- The second of two waiting patches puts text where the first one took some away, and the remote
one has text to put into the same gap. -/
theorem transform_past_consolidated_refilled :
    let t : Text := ['x', 'y']
    let b : Patch := ⟨3, [.insertion 1 ['R'], .deletion 1 ['y']], 0⟩
    let p : Patch := .forDocument 5 [.insertion 0 ['A'], .deletion 0 ['x']] 2
    let q : Patch := .forDocument 6 [.insertion 1 ['B']] 2
    ∃ m w, consolidate [p, q] = .ok (some m) ∧ applyAll t [p, q] = .ok ['A', 'B', 'y'] ∧
      (b.transform true [p, q]).apply ['A', 'B', 'y'] = .ok w ∧
      (b.transform true [m]).apply ['A', 'B', 'y'] = .ok w ∧
      applyAll ['x', 'R'] (eachPast b true [p, q]) = .ok w ∧
      (m.transform false [b]).apply ['x', 'R'] = .ok w ∧
      ∀ version, RemoteChange.plan ⟨b, version⟩ [p, q] =
        .ok ⟨b.transform true [m], [m.transform false [b]]⟩ := by
  intro t b p q
  have hseq : Sequential t [p, q] ['A', 'B', 'y'] :=
    .cons ⟨5, _, rfl⟩ (by decide) rfl (.cons ⟨6, _, rfl⟩ (by decide) rfl (.nil ['A', 'B', 'y']))
  exact transform_past_consolidated (b := b) (by decide) (by decide) rfl hseq

end Coedit.Patch
