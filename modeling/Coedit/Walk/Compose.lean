import Coedit.Walk.Basic

/-!
Two walks one after another as one walk. They run in lock-step, the later one consuming what the
earlier one leaves.
-/
namespace Coedit.Walk

/-- A walk without its first `n` characters, which its first step handles; a step that is used
up goes. -/
def advance (n : Nat) (step : Step) (rest : Walk) : Walk :=
  if step.length = n then rest else step.drop n :: rest

/-- What becomes of as many characters of an earlier and a later step. Text that is inserted and
then deleted leaves nothing. -/
def meet (earlier later : Step) : Except SequenceError Walk :=
  match earlier, later with
  | .insert inserted, .delete deleted =>
    if inserted = deleted then .ok [] else .error (.textMismatch inserted deleted)
  | .insert inserted, _ => .ok [.insert inserted]
  | _, step => .ok [step]

/-- The one walk for an `earlier` walk and a `later` one over its result. What the later walk
inserts comes before what the earlier one deletes at the same place. -/
def compose (earlier later : Walk) : Except SequenceError Walk :=
  match earlier, later with
  | earlier, .insert text :: later => (compose earlier later).map (.insert text :: ·)
  | .delete text :: earlier, later => (compose earlier later).map (.delete text :: ·)
  | [], [] => .ok []
  | a :: earlier, b :: later =>
    let n := min a.length b.length
    match meet (a.take n) (b.take n) with
    | .error error => .error error
    | .ok met => (compose (advance n a earlier) (advance n b later)).map (met ++ ·)
  | earlier, later => .error (.lengthMismatch (produced earlier) (consumed later))
termination_by earlier.length + later.length
decreasing_by
  all_goals grind [advance]

end Coedit.Walk
