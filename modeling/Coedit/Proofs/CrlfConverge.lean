import Coedit.Proofs.Converge
import Coedit.Proofs.LineEndings

/-!
Two concurrent patches on a document with pairs of carriage return and break. Each of the two orders
makes the merge of the two edits, with pairs as long as a break is left half way. Where one order
takes the last break away before the other patch makes a new one, and the other order does not, the
two texts differ in their carriage returns; this is the only way for them to differ
(`transformPair_toCrlf_agrees_iff`, `transformPair_toCrlf_disagrees`).
-/
namespace Coedit

theorem Text.toCrlf_eq_self_iff {t : Text} : t.toCrlf = t ↔ '\n' ∉ t := by
  refine ⟨fun h => ?_, toCrlf_eq_self⟩
  have hlen := length_toCrlf t
  rw [h] at hlen
  exact List.count_eq_zero.mp (Nat.left_eq_add.mp hlen)

theorem Text.crlf_if_eq_iff {t : Text} {P Q : Prop} [Decidable P] [Decidable Q] :
    (if P then t.toCrlf else t) = (if Q then t.toCrlf else t) ↔ ('\n' ∈ t → (P ↔ Q)) := by
  by_cases hbreak : '\n' ∈ t
  · have hne : t.toCrlf ≠ t := fun h => toCrlf_eq_self_iff.mp h hbreak
    split_ifs with hp hq hq <;> simp [hbreak, hp, hq, hne, hne.symm]
  · simp [toCrlf_eq_self hbreak, hbreak]

namespace Patch

variable {a b p q : Patch} {t u v w : Text}

theorem ReturnFree.transform (ha : a.ReturnFree) (b : Patch) (othersFirst : Bool) :
    (a.transform othersFirst [b]).ReturnFree := fun _ hd =>
  Diff.not_mem_text_of_mem_simplify (not_mem_text_of_mem_transformAll othersFirst ha) hd

/-- Past a concurrent patch a patch makes the merge of both, whatever lengths they state. -/
theorem apply_transform_eq_merged (ht : '\r' ∉ t) (hb : b.ReturnFree)
    (hau : a.apply t = .ok u) (hbv : b.apply t = .ok v) (othersFirst : Bool) :
    (a.transform othersFirst [b]).apply v = .ok (merged (!othersFirst) a b t) := by
  -- the length that the other patch states is not known to be right, and does not matter
  have hother := (apply_eq_ok_iff ht).mp hbv
  have hleads : Leads { b with docLength := v.length } t v := ⟨ht, hb, hother, rfl⟩
  have hpast := hleads.transformAll othersFirst ((apply_eq_ok_iff ht).mp hau)
  exact (apply_eq_ok_iff hleads.free_after).mpr hpast.simplify

/-- The second of two patches looks anew for a break. -/
theorem applyAll_pair_toCrlf (ht : '\r' ∉ t) (hp : p.ReturnFree) (hq : q.ReturnFree)
    (hpu : p.apply t = .ok u) (hqw : q.apply u = .ok w) :
    applyAll t.toCrlf [p, q] = .ok (if '\n' ∈ t ∧ '\n' ∈ u then w.toCrlf else w) := by
  have hu : '\r' ∉ u := free_of_apply ht hp hpu
  rw [applyAll_cons_of_apply (apply_toCrlf ht hp hpu)]
  by_cases htb : '\n' ∈ t
  · rw [if_pos htb, applyAll_cons_of_apply (apply_toCrlf hu hq hqw)]
    simp only [htb, true_and]
    rfl
  · rw [if_neg htb, applyAll_cons_of_apply hqw, if_neg fun h => htb h.1]
    rfl

/-- On a document with pairs two concurrent patches fit behind each other in either order and make
the merge of their edits, with pairs if the document has a break half way. The two texts are one
exactly if, where the document and the merge have breaks, both orders keep one half way or neither
does. -/
theorem transformPair_toCrlf_agrees_iff (aWins : Bool) (ht : '\r' ∉ t) (ha : a.ReturnFree)
    (hb : b.ReturnFree) (hau : a.apply t = .ok u) (hbv : b.apply t = .ok v) :
    applyAll t.toCrlf [b, (transformPair a b aWins).1] =
        .ok (if '\n' ∈ t ∧ '\n' ∈ v then (merged aWins a b t).toCrlf else merged aWins a b t) ∧
      applyAll t.toCrlf [a, (transformPair a b aWins).2] =
        .ok (if '\n' ∈ t ∧ '\n' ∈ u then (merged aWins a b t).toCrlf else merged aWins a b t) ∧
      (applyAll t.toCrlf [b, (transformPair a b aWins).1] =
          applyAll t.toCrlf [a, (transformPair a b aWins).2] ↔
        ('\n' ∈ t → '\n' ∈ merged aWins a b t → ('\n' ∈ u ↔ '\n' ∈ v))) := by
  have hpast : (transformPair a b aWins).1.apply v = .ok (merged aWins a b t) := by
    have h := apply_transform_eq_merged ht hb hau hbv (!aWins)
    rwa [Bool.not_not] at h
  have hbehind : (transformPair a b aWins).2.apply u = .ok (merged aWins a b t) := by
    have h := apply_transform_eq_merged ht ha hbv hau aWins
    rwa [← merged_comm] at h
  have hleft := applyAll_pair_toCrlf (q := (transformPair a b aWins).1) ht hb
    (ha.transform b _) hbv hpast
  have hright := applyAll_pair_toCrlf (q := (transformPair a b aWins).2) ht ha
    (hb.transform a _) hau hbehind
  refine ⟨hleft, hright, ?_⟩
  rw [hleft, hright, Except.ok.injEq, Text.crlf_if_eq_iff, and_congr_right_iff]
  exact ⟨fun h htb hm => (h hm htb).symm, fun h hm htb => (h htb hm).symm⟩

/-- Of two breaks the one patch takes the first away and the other one makes a third. -/
theorem transformPair_toCrlf_agrees_iff_three_breaks :
    let t : Text := ['a', '\n', 'b', '\n']
    let a : Patch := ⟨4, [.insertion 1 ['\n', 'x']], 0⟩
    let b : Patch := ⟨7, [.deletion 1 ['\n']], 9⟩
    merged true a b t = ['a', '\n', 'x', 'b', '\n'] ∧
      applyAll t.toCrlf [b, (transformPair a b true).1] = .ok (merged true a b t).toCrlf ∧
      applyAll t.toCrlf [a, (transformPair a b true).2] = .ok (merged true a b t).toCrlf ∧
      applyAll t.toCrlf [b, (transformPair a b true).1] =
        applyAll t.toCrlf [a, (transformPair a b true).2] := by
  intro t a b
  have h := transformPair_toCrlf_agrees_iff (a := a) (b := b) (t := t)
    (u := ['a', '\n', 'x', '\n', 'b', '\n']) (v := ['a', 'b', '\n']) true (by decide) (by decide)
    (by decide) rfl rfl
  exact ⟨rfl, h.1, h.2.1, h.2.2.mpr fun _ _ => by decide⟩

/-- Where the one patch takes the only break away and the other one makes a new one, the new break has
a carriage return in one order only. -/
theorem transformPair_toCrlf_disagrees :
    let t : Text := ['a', '\n', 'b']
    let a : Patch := .forDocument 0 [.insertion 0 ['\n']] 3
    let b : Patch := .forDocument 0 [.deletion 1 ['\n']] 3
    '\r' ∉ t ∧ a.ReturnFree ∧ b.ReturnFree ∧
      a.apply t = .ok ['\n', 'a', '\n', 'b'] ∧ b.apply t = .ok ['a', 'b'] ∧
      applyAll t.toCrlf [b, (transformPair a b true).1] = .ok ['\n', 'a', 'b'] ∧
      applyAll t.toCrlf [a, (transformPair a b true).2] = .ok ['\r', '\n', 'a', 'b'] ∧
      applyAll t.toCrlf [b, (transformPair a b true).1] ≠
        applyAll t.toCrlf [a, (transformPair a b true).2] := by
  decide

end Patch

end Coedit
