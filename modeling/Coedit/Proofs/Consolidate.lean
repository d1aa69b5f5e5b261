import Coedit.Patch.Sequence
import Coedit.Proofs.Sequence
import Coedit.Proofs.Walk

/-!
Patches that fit one after another are walks that compose (`InTurn.composeAll`). The consolidation
of such patches always exists and does to their base what they do in turn (`InTurn.consolidate`, and
`Sequential.consolidate` of patches made one after another). It has nothing to simplify
(`simplified_of_consolidate`).
-/
namespace Coedit.Patch

variable {p q m : Patch} {ps : List Patch} {t u v : Text} {walk joined : Walk}

theorem composeAll_cons_eq_ok_iff : Walk.composeAll walk (p :: ps) = .ok joined ↔
    ∃ next both, Walk.ofPatch p = .ok next ∧ Walk.compose walk next = .ok both ∧
      Walk.composeAll both ps = .ok joined := by
  simp only [Walk.composeAll, bind_eq_ok_iff, exists_and_left]

theorem consolidate_eq_ok_iff : consolidate (p :: q :: ps) = .ok (some m) ↔
    ∃ first joined, Walk.ofPatch p = .ok first ∧ Walk.composeAll first (q :: ps) = .ok joined ∧
      ofDiffs p.baseVersion joined.diffs
        ((q :: ps).getLast (List.cons_ne_nil q ps)).docLength = m := by
  simp only [consolidate, bind_eq_ok_iff, map_eq_ok_iff, Option.some.injEq, exists_and_left]

/-- A consolidation is simplified. -/
theorem simplified_of_consolidate (hps : ∀ p ∈ ps, Diff.Simplified p.diffs)
    (h : consolidate ps = .ok (some m)) : Diff.Simplified m.diffs := by
  rcases ps with _ | ⟨p, _ | ⟨next, more⟩⟩
  · cases h
  · cases h
    exact hps m List.mem_cons_self
  · obtain ⟨_, joined, -, -, rfl⟩ := consolidate_eq_ok_iff.mp h
    exact Diff.simplified_simplify joined.diffs

/-- A patch for texts of one length is read as a walk over each of them that it fits. -/
theorem exists_ofPatch (hlen : p.baseLength = t.length) (htext : ∀ d ∈ p.diffs, d.text ≠ [])
    (h : Diff.Rewrites 0 t p.diffs u) :
    ∃ walk, Walk.ofPatch p = .ok walk ∧ Walk.Leads walk t u := by
  have hw := Walk.leads_of_rewrites h htext
  rwa [Nat.zero_add, ← hlen] at hw

theorem Leads.ofPatch (hm : p.MadeFor t.length) (h : p.Leads t u) :
    ∃ walk, Walk.ofPatch p = .ok walk ∧ Walk.Leads walk t u :=
  exists_ofPatch h.baseLength_eq hm.text_ne_nil h.rewrites

theorem InTurn.composeAll (hu : '\r' ∉ u) (hps : ∀ p ∈ ps, p.Proper) (hw : Walk.Leads walk t u)
    (h : InTurn u ps v) :
    ∃ joined, Walk.composeAll walk ps = .ok joined ∧ Walk.Leads joined t v := by
  induction h generalizing walk with
  | nil => exact ⟨walk, rfl, hw⟩
  | cons hlen happly _ ih =>
    obtain ⟨hp, hps⟩ := List.forall_mem_cons.mp hps
    obtain ⟨next, hnext, hl⟩ := exists_ofPatch hlen hp.text_ne_nil ((apply_eq_ok_iff hu).mp happly)
    obtain ⟨both, hboth, hl⟩ := hw.compose hl
    obtain ⟨joined, hjoined, hl⟩ := ih (free_of_apply hu hp.returnFree happly) hps hl
    exact ⟨joined, composeAll_cons_eq_ok_iff.mpr ⟨next, both, hnext, hboth, hjoined⟩, hl⟩

/-- Patches that fit one after another have a consolidation, which does what they do in turn. -/
theorem InTurn.consolidate (ht : '\r' ∉ t) (hps : ∀ r ∈ p :: ps, r.Proper)
    (h : InTurn t (p :: ps) v) :
    ∃ m, consolidate (p :: ps) = .ok (some m) ∧ Diff.Rewrites 0 t m.diffs v ∧
      m.baseVersion = p.baseVersion ∧
      m.docLength = ((p :: ps).getLast (List.cons_ne_nil p ps)).docLength := by
  obtain ⟨hp, hrest⟩ := List.forall_mem_cons.mp hps
  cases h with
  | cons hlen happly hturn =>
    have hr := (apply_eq_ok_iff ht).mp happly
    cases ps with
    | nil =>
      cases hturn
      exact ⟨p, rfl, hr, rfl, rfl⟩
    | cons next more =>
      obtain ⟨first, hfirst, hl⟩ := exists_ofPatch hlen hp.text_ne_nil hr
      obtain ⟨joined, hjoined, hl⟩ :=
        hturn.composeAll (free_of_apply ht hp.returnFree happly) hrest hl
      exact ⟨_, consolidate_eq_ok_iff.mpr ⟨first, joined, hfirst, hjoined, rfl⟩,
        (hl.rewrites 0).simplify, rfl, rfl⟩

/-- Patches made one after another have a consolidation, which does what they do in turn. -/
theorem Sequential.consolidate (ht : '\r' ∉ t) (h : Sequential t (p :: ps) v) :
    ∃ m, consolidate (p :: ps) = .ok (some m) ∧ m.Leads t v ∧ m.baseVersion = p.baseVersion := by
  obtain ⟨m, hm, hr, hversion, hlength⟩ := (h.inTurn ht).consolidate ht h.proper
  have hlast := h.docLength_getLast ht (List.cons_ne_nil p ps)
  exact ⟨m, hm, ⟨ht, hr.not_mem_text ht (h.free_after ht), hr, hlength.trans hlast⟩, hversion⟩

/-- Joining patches is the same as applying them one after another. -/
theorem consolidate_refines_applyAll (ht : '\r' ∉ t) (h : Sequential t (p :: ps) v) :
    ∃ m, consolidate (p :: ps) = .ok (some m) ∧ applyAll t [m] = applyAll t (p :: ps) ∧
      applyAll t [m] = .ok v ∧ m.baseVersion = p.baseVersion ∧ m.baseLength = t.length ∧
      m.docLength = v.length := by
  obtain ⟨m, hm, hl, hv⟩ := h.consolidate ht
  have happly : applyAll t [m] = .ok v := applyAll_cons_of_apply hl.apply_eq
  exact ⟨m, hm, happly.trans h.applyAll_eq.symm, happly, hv, hl.baseLength_eq, hl.docLength⟩

/-- A later deletion that takes back a part of an earlier insertion, and text behind it. -/
theorem consolidate_refines_applyAll_taken_back :
    let t : Text := ['x', 'y']
    let p : Patch := .forDocument 7 [.insertion 1 ['a', 'b']] 2
    let q : Patch := .forDocument 7 [.deletion 0 ['x', 'a']] 4
    let r : Patch := .forDocument 8 [.insertion 1 ['c']] 2
    ∃ m, consolidate [p, q, r] = .ok (some m) ∧ applyAll t [m] = applyAll t [p, q, r] ∧
      applyAll t [m] = .ok ['b', 'c', 'y'] ∧ m.baseVersion = 7 ∧ m.baseLength = 2 ∧
      m.docLength = 3 :=
  consolidate_refines_applyAll (by decide)
    (.cons ⟨7, _, rfl⟩ (by decide) rfl (.cons ⟨7, _, rfl⟩ (by decide) rfl
      (.cons ⟨8, _, rfl⟩ (by decide) rfl (.nil ['b', 'c', 'y']))))

end Coedit.Patch
