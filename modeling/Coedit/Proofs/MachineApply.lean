import Coedit.Proofs.MachineTransform
import Coedit.Proofs.Sequence

/-!
Applying on machine numbers. Only the way to other line endings adds numbers, so that a document
without pairs takes every patch as it does without bounds (`applyAll?_of_free`).
-/
namespace Coedit

theorem Diff.toCrlf?_eq_some_iff {base : Text} {d e : Diff} : d.toCrlf? base = some e ↔
    d.start + base.breaksBefore d.start < Numeral.wordLimit ∧ e = d.toCrlf base := by
  simp [toCrlf?, toCrlf, Checked.word_eq_some_iff, and_assoc, @eq_comm _ e]

namespace Patch

variable {a b p q : Patch} {ps : List Patch} {base content t u : Text}

theorem transformPair_of_transformPair? {aWins : Bool} {moved : Patch × Patch}
    (h : transformPair? a b aWins = some moved) : transformPair a b aWins = moved := by
  obtain ⟨a', ha, h⟩ := Option.bind_eq_some_iff.mp h
  obtain ⟨b', hb, h⟩ := Option.bind_eq_some_iff.mp h
  rw [transformPair, ← eq_transform_of_transform? ha, ← eq_transform_of_transform? hb]
  exact Option.some.inj h

theorem toCrlf_of_toCrlf? (h : p.toCrlf? base = some q) : p.toCrlf base = q := by
  obtain ⟨diffs, hdiffs, h⟩ := Option.bind_eq_some_iff.mp h
  obtain ⟨n, hn, h⟩ := Option.bind_eq_some_iff.mp h
  obtain ⟨-, rfl⟩ := (mapM_eq_some_map_iff fun _ _ h =>
    (Diff.toCrlf?_eq_some_iff.mp h).2).mp hdiffs
  obtain ⟨-, rfl⟩ := Checked.word_eq_some_iff.mp hn
  exact (forDocument?_eq_some_iff.mp h).2.2.2.symm

theorem toLf_of_toLf? (h : p.toLf? base = some q) : p.toLf base = q :=
  (forDocument?_eq_some_iff.mp h).2.2.2.symm

theorem apply_of_applyTo? {applied : Except ApplyError Text}
    (h : p.applyTo? content = some applied) : p.apply content = applied := by
  obtain ⟨q, hq, rfl⟩ := Option.map_eq_some_iff.mp h
  rw [apply, onDocument]
  rw [onDocument?] at hq
  split at hq <;> rename_i hcrlf
  · rw [if_pos hcrlf, toCrlf_of_toCrlf? hq]
  · rw [if_neg hcrlf, Option.some.inj hq]

/-- What is applied on machine numbers is what is applied without bounds. -/
theorem applyAll_of_applyAll? {applied : Except ApplyError Text}
    (h : applyAll? content ps = some applied) : applyAll content ps = applied := by
  induction ps generalizing content with
  | nil => exact Option.some.inj h
  | cons p ps ih =>
    obtain ⟨next, hnext, h⟩ := Option.bind_eq_some_iff.mp h
    rw [applyAll, apply_of_applyTo? hnext]
    cases next with
    | error error => exact Option.some.inj h
    | ok next => exact ih h

theorem applyTo?_of_hasCrlf_eq_false (h : content.hasCrlf = false) :
    p.applyTo? content = some (p.apply content) := by
  simp [applyTo?, onDocument?, apply, onDocument, h]

theorem applyAll?_of_free (ht : '\r' ∉ t) (hps : ∀ p ∈ ps, p.ReturnFree) :
    applyAll? t ps = some (applyAll t ps) := by
  induction ps generalizing t with
  | nil => rfl
  | cons p ps ih =>
    obtain ⟨hp, hps⟩ := List.forall_mem_cons.mp hps
    rw [applyAll?, applyTo?_of_hasCrlf_eq_false (Text.hasCrlf_eq_false ht), applyAll]
    cases happly : p.apply t with
    | error error => rfl
    | ok next => exact ih (free_of_apply ht hp happly) hps

end Patch

end Coedit
