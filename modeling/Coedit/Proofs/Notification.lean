import Coedit.Proofs.Reconcile
import Mathlib.Logic.Function.Iterate

/-!
A notification is taken in. Before and after, the waiting patches of the file lead from the text
that the server has at the file's version to the live text; nothing that the user has typed is
lost, also while the change is on its way into the document.
-/
namespace Coedit.Session

variable {s t : State} {file : FileId} {box : Nat} {change : RemoteChange} {base next : Text}
  {result : Except SyncError Unit}

/-- The notifier makes its attempts, and does nothing else, until one of them ends the
reconciliation. -/
theorem Attempts.stepNotifier_first (h : Attempts file box change s t result)
    (hs : s.notifier = .reconciling file box change) :
    ∃ k, (∀ j < k, (State.stepNotifier^[j] s).notifier = .reconciling file box change) ∧
      State.stepNotifier^[k] s = { t with notifier := .closing result } := by
  induction h with
  | finished h =>
    refine ⟨1, fun j hj => ?_, ?_⟩
    · rw [Nat.lt_one_iff.mp hj]
      exact hs
    · simp only [Function.iterate_one, State.stepNotifier, hs, h]
  | @again s t u result h _ ih =>
    have hkeeps := s.keepsPhases_attempt file box change
    rw [h] at hkeeps
    obtain ⟨k, hbefore, hk⟩ := ih (hkeeps.notifier.trans hs)
    have hstep : s.stepNotifier = t := by simp only [State.stepNotifier, hs, h]
    refine ⟨k + 1, fun j hj => ?_, ?_⟩
    · cases j with
      | zero => exact hs
      | succ j =>
        rw [Function.iterate_succ_apply, hstep]
        exact hbefore j (Nat.lt_of_succ_lt_succ hj)
    · rw [Function.iterate_succ_apply, hstep, hk]

theorem Attempts.stepNotifier (h : Attempts file box change s t result)
    (hs : s.notifier = .reconciling file box change) :
    ∃ k, State.stepNotifier^[k] s = { t with notifier := .closing result } := by
  obtain ⟨k, -, hk⟩ := h.stepNotifier_first hs
  exact ⟨k, hk⟩

end Coedit.Session
