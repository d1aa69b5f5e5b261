import Coedit.Diff.Transform
import Coedit.Patch.Basic

/-!
Transforming patches past patches that were applied first. Two concurrent patches past each other
meet in one document (`transformPair`).
-/
namespace Coedit

namespace Patch

def newestVersion (first : Patch) (more : List Patch) : Int :=
  more.foldl (fun version p => max version p.baseVersion) first.baseVersion

/-- The patch past `others`, each of which is based on the result of the one before. It is based
on the version after the newest of them; the machine has none after the greatest (`transform?`). -/
def transform (p : Patch) (othersFirst : Bool) : List Patch → Patch
  | [] => p
  | first :: more =>
    let diffs := (first :: more).foldl
      (fun diffs other => Diff.transformAll diffs othersFirst other.diffs) p.diffs
    let last := (first :: more).getLast (List.cons_ne_nil first more)
    forDocument (newestVersion first more + 1) diffs last.docLength

/-- Two concurrent patches past each other; `aWins` says whose text goes first where both
insert. -/
def transformPair (a b : Patch) (aWins : Bool) : Patch × Patch :=
  (a.transform (!aWins) [b], b.transform aWins [a])

@[simp] theorem transform_nil (p : Patch) (othersFirst : Bool) : p.transform othersFirst [] = p :=
  rfl

theorem transform_singleton (p q : Patch) (othersFirst : Bool) :
    p.transform othersFirst [q] =
      forDocument (q.baseVersion + 1) (Diff.transformAll p.diffs othersFirst q.diffs)
        q.docLength := rfl

end Patch

end Coedit
