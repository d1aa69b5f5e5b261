import Coedit.Client.Lock
import Mathlib.Data.List.Nodup
import Mathlib.Logic.Function.Basic

/-!
Who holds a lock. Tasks go through three stages: outside, in line, and inside, which is where they
work. A task that is served while it is in line holds the lock before it notices. `Lock.Guards` says
that the lock counts its holders right and that the ready tasks in line have been served; each way
in which a task can move keeps it, so that a task that works alone is the only one inside
(`Lock.Guards.eq_of_inside`).
-/
namespace Coedit

inductive Stage where
  | outside
  | queued
  | inside
  deriving DecidableEq, Repr

namespace Lock

variable {Task : Type} {l lock : Lock Task} {mode : Task → LockMode} {holders : List Task}
  {task other : Task}

/-- The holders of a lock, each in its mode: any number together, or one alone. -/
def HeldBy (l : Lock Task) (mode : Task → LockMode) (holders : List Task) : Prop :=
  (l.alone = false ∧ l.sharers = holders.length ∧ ∀ task ∈ holders, mode task = .shared) ∨
    l.alone = true ∧ l.sharers = 0 ∧ ∃ task, holders = [task] ∧ mode task = .exclusive

theorem HeldBy.add (h : l.HeldBy mode holders) (hadmits : l.admits (mode task) = true) :
    (l.add (mode task)).HeldBy mode (task :: holders) := by
  cases hmode : mode task with
  | shared =>
    rcases h with ⟨halone, hcount, hshared⟩ | ⟨halone, -, -⟩
    · refine .inl ⟨halone, congrArg (· + 1) hcount, ?_⟩
      intro other hother
      rcases List.mem_cons.mp hother with rfl | hother
      · exact hmode
      · exact hshared other hother
    · simp [admits, hmode, halone] at hadmits
  | exclusive =>
    rcases h with ⟨-, hcount, -⟩ | ⟨halone, -, -⟩
    · have hzero : l.sharers = 0 := by
        simp only [admits, hmode, Bool.and_eq_true, beq_iff_eq] at hadmits
        exact hadmits.2
      obtain rfl := List.eq_nil_of_length_eq_zero (hcount.symm.trans hzero)
      exact .inr ⟨rfl, hzero, task, rfl, hmode⟩
    · simp [admits, hmode, halone] at hadmits

/-- Who is served has been in line. -/
theorem mem_of_mem_serve {waiting : List (Task × LockMode)} (h : task ∈ (l.serve waiting).2) :
    task ∈ waiting.map Prod.fst := by
  induction waiting generalizing l with
  | nil => cases h
  | cons entry rest ih =>
    rw [Lock.serve] at h
    split at h
    · rcases List.mem_cons.mp h with rfl | h
      · exact List.mem_cons_self
      · exact List.mem_cons_of_mem _ (ih h)
    · cases h

/-- Those who are served are the first in line, and hold the lock from then on. -/
theorem HeldBy.serve {waiting : List (Task × LockMode)} (h : l.HeldBy mode holders)
    (hmode : ∀ entry ∈ waiting, entry.2 = mode entry.1) :
    ∃ front, waiting = front ++ (l.serve waiting).1.waiting ∧
      (l.serve waiting).2 = front.map Prod.fst ∧
      (l.serve waiting).1.HeldBy mode ((front.map Prod.fst).reverse ++ holders) := by
  induction waiting generalizing l holders with
  | nil => exact ⟨[], rfl, rfl, h⟩
  | cons entry rest ih =>
    obtain ⟨task, how⟩ := entry
    obtain rfl : how = mode task := hmode _ List.mem_cons_self
    rw [Lock.serve]
    split
    · rename_i hadmits
      obtain ⟨front, hrest, hserved, hheld⟩ :=
        ih (h.add hadmits) fun entry he => hmode entry (List.mem_cons_of_mem _ he)
      refine ⟨(task, mode task) :: front, congrArg _ hrest, congrArg _ hserved, ?_⟩
      simpa using hheld
    · exact ⟨[], rfl, rfl, h⟩

/-- Giving the lock back takes one holder away before others are served. -/
theorem HeldBy.release [DecidableEq Task] (h : l.HeldBy mode holders) (hmem : task ∈ holders)
    (hmode : ∀ entry ∈ l.waiting, entry.2 = mode entry.1) :
    ∃ front, l.waiting = front ++ (l.release (mode task)).1.waiting ∧
      (l.release (mode task)).2 = front.map Prod.fst ∧
      (l.release (mode task)).1.HeldBy mode
        ((front.map Prod.fst).reverse ++ holders.erase task) := by
  rcases h with ⟨halone, hcount, hshared⟩ | ⟨halone, hcount, sole, rfl, hsole⟩
  · rw [hshared task hmem]
    refine HeldBy.serve (.inl ⟨halone, ?_, ?_⟩) hmode
    · rw [List.length_erase_of_mem hmem]
      exact congrArg (· - 1) hcount
    · exact fun other hother => hshared other (List.mem_of_mem_erase hother)
  · obtain rfl := List.mem_singleton.mp hmem
    rw [hsole]
    refine HeldBy.serve (.inl ⟨rfl, ?_, ?_⟩) hmode
    · simpa using hcount
    · simp

def line (l : Lock Task) : List Task := l.waiting.map Prod.fst

/-- Whether a task holds the lock: it works, or it has been served. -/
def Holds (l : Lock Task) (stage : Task → Stage) (task : Task) : Prop :=
  stage task = .inside ∨ stage task = .queued ∧ task ∉ l.line

/-- The lock knows its holders and its line, and who is in line does not run. -/
structure Guards (l : Lock Task) (mode : Task → LockMode) (stage : Task → Stage)
    (ready : List Task) : Prop where
  waiting : ∀ entry ∈ l.waiting, entry.2 = mode entry.1 ∧ stage entry.1 = .queued ∧
    entry.1 ∉ ready
  nodup : l.line.Nodup
  held : ∃ holders : List Task, holders.Nodup ∧ l.HeldBy mode holders ∧
    ∀ task, task ∈ holders ↔ l.Holds stage task

namespace Guards

variable {stage : Task → Stage} {ready more : List Task}

theorem of_mem_line (h : l.Guards mode stage ready) (hmem : task ∈ l.line) :
    stage task = .queued ∧ task ∉ ready := by
  obtain ⟨entry, hentry, rfl⟩ := List.mem_map.mp hmem
  exact (h.waiting entry hentry).2

/-- Tasks that are not in line may be woken at any time. -/
theorem woken (h : l.Guards mode stage ready)
    (hready : ∀ task ∈ more, task ∈ ready ∨ stage task ≠ .queued) :
    l.Guards mode stage more where
  waiting := by
    intro entry hentry
    obtain ⟨hmode, hstage, hout⟩ := h.waiting entry hentry
    refine ⟨hmode, hstage, fun hin => ?_⟩
    rcases hready _ hin with hin | hne
    · exact hout hin
    · exact hne hstage
  nodup := h.nodup
  held := h.held

/-- Who works alone is the only one that works. -/
theorem eq_of_inside (h : l.Guards mode stage ready) (hmode : mode task = .exclusive)
    (htask : stage task = .inside) (hother : stage other = .inside) : other = task := by
  obtain ⟨holders, -, hheld, hholds⟩ := h.held
  have hmem : task ∈ holders := (hholds task).mpr (.inl htask)
  have hmem' : other ∈ holders := (hholds other).mpr (.inl hother)
  rcases hheld with ⟨-, -, hshared⟩ | ⟨-, -, sole, rfl, -⟩
  · rw [hshared task hmem] at hmode
    cases hmode
  · rw [List.mem_singleton] at hmem hmem'
    rw [hmem, hmem']

variable [DecidableEq Task]

/-- A task gets the lock at once. -/
theorem granted (h : l.Guards mode stage ready) (hout : stage task = .outside)
    (hacquire : l.acquire task (mode task) = (lock, true)) :
    lock.Guards mode (Function.update stage task .inside) ready := by
  unfold acquire at hacquire
  split at hacquire
  · rename_i hfree
    obtain ⟨hempty, hadmits⟩ := (Bool.and_eq_true _ _).mp hfree
    obtain ⟨holders, hnodup, hheld, hholds⟩ := h.held
    obtain rfl : l.add (mode task) = lock := congrArg Prod.fst hacquire
    have hline : (l.add (mode task)).waiting = [] := by
      rw [← List.isEmpty_iff, ← hempty]
      cases mode task <;> rfl
    have hnone : l.line = [] := by
      rw [line, List.isEmpty_iff.mp hempty]
      rfl
    refine ⟨by simp [hline], by simp [line, hline], task :: holders, ?_, hheld.add hadmits, ?_⟩
    · refine List.nodup_cons.mpr ⟨fun hin => ?_, hnodup⟩
      rcases (hholds task).mp hin with h | ⟨h, -⟩ <;> simp [hout] at h
    · intro other
      rw [List.mem_cons, hholds, Holds, Holds, hnone, line, hline]
      by_cases hne : other = task
      · simp [hne]
      · simp [hne]
  · cases hacquire

/-- A task has to get in line, and does not run any more. -/
theorem refused (h : l.Guards mode stage ready) (hout : stage task = .outside)
    (hready : task ∉ more) (hmore : ∀ other ∈ more, other ∈ ready ∨ stage other ≠ .queued)
    (hacquire : l.acquire task (mode task) = (lock, false)) :
    lock.Guards mode (Function.update stage task .queued) more := by
  unfold acquire at hacquire
  split at hacquire
  · cases hacquire
  · obtain ⟨holders, hnodup, hheld, hholds⟩ := h.held
    obtain rfl := congrArg Prod.fst hacquire
    have hnotin : task ∉ l.line := by
      intro hin
      have hqueued := (h.of_mem_line hin).1
      rw [hout] at hqueued
      cases hqueued
    refine ⟨?_, ?_, holders, hnodup, hheld, ?_⟩
    · intro entry hentry
      rcases List.mem_append.mp hentry with hentry | hentry
      · obtain ⟨hmode, hstage, hidle⟩ := (h.woken hmore).waiting entry hentry
        have hne : entry.1 ≠ task := fun he => hnotin (he ▸ List.mem_map_of_mem hentry)
        exact ⟨hmode, by rw [Function.update_of_ne hne, hstage], hidle⟩
      · obtain rfl := List.mem_singleton.mp hentry
        exact ⟨rfl, Function.update_self .., hready⟩
    · rw [line, List.map_append]
      exact h.nodup.append (List.nodup_singleton task) (by simpa using hnotin)
    · intro other
      have hline : Lock.line { l with waiting := l.waiting ++ [(task, mode task)] } =
          l.line ++ [task] := by
        simp [line]
      rw [hholds, Holds, Holds, hline]
      by_cases hne : other = task
      · simp [hne, hout]
      · simp [hne]

/-- A task in line that runs has been served, and starts to work. -/
theorem entered (h : l.Guards mode stage ready) (hqueued : stage task = .queued)
    (hready : task ∈ ready) : l.Guards mode (Function.update stage task .inside) ready := by
  have hnotin : task ∉ l.line := fun hin => (h.of_mem_line hin).2 hready
  obtain ⟨holders, hnodup, hheld, hholds⟩ := h.held
  refine ⟨?_, h.nodup, holders, hnodup, hheld, ?_⟩
  · intro entry hentry
    obtain ⟨hmode, hstage, hidle⟩ := h.waiting entry hentry
    have hne : entry.1 ≠ task := fun he => hnotin (he ▸ List.mem_map_of_mem hentry)
    exact ⟨hmode, by rw [Function.update_of_ne hne, hstage], hidle⟩
  · intro other
    rw [hholds, Holds, Holds]
    by_cases hne : other = task
    · simp [hne, hqueued, hnotin]
    · simp [hne]

/-- A task gives the lock back, and who is served by that is woken. -/
theorem left (h : l.Guards mode stage ready) (hinside : stage task = .inside)
    (hmore : ∀ other ∈ more,
      other ∈ ready ∨ stage other ≠ .queued ∨ other ∈ (l.release (mode task)).2) :
    (l.release (mode task)).1.Guards mode (Function.update stage task .outside) more := by
  obtain ⟨holders, hnodup, hheld, hholds⟩ := h.held
  obtain ⟨front, hwaiting, hserved, hnow⟩ :=
    hheld.release ((hholds task).mpr (.inl hinside)) fun entry he => (h.waiting entry he).1
  have hline : l.line = front.map Prod.fst ++ (l.release (mode task)).1.line := by
    rw [line, line, ← List.map_append, ← hwaiting]
  -- the front of the line holds the lock before any of it runs
  have hparts := h.nodup
  rw [hline] at hparts
  obtain ⟨hfront, hrest, hdisjoint⟩ := List.nodup_append'.mp hparts
  have hne {other : Task} (hin : other ∈ l.line) : other ≠ task := by
    rintro rfl
    have hqueued := (h.of_mem_line hin).1
    rw [hinside] at hqueued
    cases hqueued
  refine ⟨?_, hrest, _, ?_, hnow, ?_⟩
  · intro entry hentry
    have hbefore : entry ∈ l.waiting := hwaiting ▸ List.mem_append_right _ hentry
    obtain ⟨hmode, hstage, hidle⟩ := h.waiting entry hbefore
    refine ⟨hmode, by rw [Function.update_of_ne (hne (List.mem_map_of_mem hbefore)), hstage], ?_⟩
    intro hin
    rcases hmore _ hin with hin | hqueued | hin
    · exact hidle hin
    · exact hqueued hstage
    · rw [hserved] at hin
      exact hdisjoint hin (List.mem_map_of_mem hentry)
  · refine (List.nodup_reverse.mpr hfront).append (hnodup.erase _) ?_
    intro other hin hholder
    have hmem : other ∈ l.line := hline ▸ List.mem_append_left _ (List.mem_reverse.mp hin)
    rcases (hholds other).mp (List.mem_of_mem_erase hholder) with hinside | ⟨-, hout⟩
    · rw [(h.of_mem_line hmem).1] at hinside
      cases hinside
    · exact hout hmem
  · intro other
    rw [List.mem_append, List.mem_reverse, hnodup.mem_erase_iff, hholds, Holds, Holds]
    by_cases heq : other = task
    · subst heq
      have hnotin : other ∉ front.map Prod.fst :=
        fun hin => hne (hline ▸ List.mem_append_left _ hin) rfl
      simp [hnotin]
    · rw [Function.update_of_ne heq, hline, List.mem_append]
      by_cases hin : other ∈ front.map Prod.fst
      · have hout : other ∉ (l.release (mode task)).1.line := fun hlate => hdisjoint hin hlate
        have hqueued := (h.of_mem_line (hline ▸ List.mem_append_left _ hin)).1
        simp [hin, hout, hqueued]
      · simp [hin, heq]

end Guards

end Lock

end Coedit
