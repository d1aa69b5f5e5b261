import Coedit.Walk.Compose

/-!
Patches made one after another become one patch: their walks are composed from the first to the
last.
-/
namespace Coedit

def Walk.composeAll (first : Walk) : List Patch → Except SequenceError Walk
  | [] => .ok first
  | p :: ps => ofPatch p >>= fun walk => compose first walk >>= fun walk => composeAll walk ps

namespace Patch

/-- The one patch that does what patches do one after another, if there are any. A single patch
is its own consolidation, whatever it holds. -/
def consolidate : List Patch → Except SequenceError (Option Patch)
  | [] => .ok none
  | [p] => .ok (some p)
  | first :: next :: more =>
    Walk.ofPatch first >>= fun walk =>
      (Walk.composeAll walk (next :: more)).map fun walk =>
        some (ofDiffs first.baseVersion walk.diffs
          ((next :: more).getLast (List.cons_ne_nil next more)).docLength)

@[simp] theorem consolidate_nil : consolidate [] = .ok none := rfl

@[simp] theorem consolidate_singleton (p : Patch) : consolidate [p] = .ok (some p) := rfl

end Patch

end Coedit
