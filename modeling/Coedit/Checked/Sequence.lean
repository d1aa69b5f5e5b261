import Coedit.Checked.Patch
import Coedit.Patch.Sequence

/-!
Patches joined on machine numbers.
-/
namespace Coedit

namespace Walk

def ofDiffsFrom? (baseLength cursor : Nat) : List Diff → Checked (Except SequenceError Walk)
  | [] =>
    if baseLength < cursor then some (.error (.unordered cursor))
    else some (.ok (keepThen (baseLength - cursor) []))
  | d :: ds =>
    if d.start < cursor then some (.error (.unordered d.start))
    else do
      let stop ← d.stop?
      let walk ← ofDiffsFrom? baseLength stop ds
      some (walk.map fun walk => keepThen (d.start - cursor) (stepOf d :: walk))

def ofPatch? (p : Patch) : Checked (Except SequenceError Walk) := do
  let baseLength ← p.baseLength?
  ofDiffsFrom? baseLength 0 p.diffs

/-- Only the counts of a mismatch are sums. -/
def compose? (earlier later : Walk) : Checked (Except SequenceError Walk) :=
  match compose earlier later with
  | .error (.lengthMismatch earlier later) => do
    let earlier ← Checked.word earlier
    let later ← Checked.word later
    some (.error (.lengthMismatch earlier later))
  | composed => some composed

def composeAll? (first : Walk) : List Patch → Checked (Except SequenceError Walk)
  | [] => some (.ok first)
  | p :: ps => do
    match ← ofPatch? p with
    | .error error => some (.error error)
    | .ok walk =>
      match ← compose? first walk with
      | .error error => some (.error error)
      | .ok walk => composeAll? walk ps

/-- The last position that the walk comes to is checked, which no other exceeds. -/
def diffs? (walk : Walk) : Checked (List Diff) :=
  (Checked.word walk.consumed).map fun _ => walk.diffs

end Walk

namespace Patch

def consolidate? : List Patch → Checked (Except SequenceError (Option Patch))
  | [] => some (.ok none)
  | [p] => some (.ok (some p))
  | first :: next :: more => do
    match ← Walk.ofPatch? first with
    | .error error => some (.error error)
    | .ok walk =>
      match ← walk.composeAll? (next :: more) with
      | .error error => some (.error error)
      | .ok walk =>
        let diffs ← walk.diffs?
        let last := (next :: more).getLast (List.cons_ne_nil next more)
        let joined ← ofDiffs? first.baseVersion diffs last.docLength
        some (.ok (some joined))

end Patch

end Coedit
