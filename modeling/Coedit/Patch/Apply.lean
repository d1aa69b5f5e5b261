import Coedit.Diff.Apply
import Coedit.Patch.LineEnding

/-!
Applying patches to a document. Patches are made for breaks alone; each is taken to the line
endings of the document that it meets.
-/
namespace Coedit

namespace Patch

/-- The patch as it fits the line endings of a document: as it is, unless the document has a
break with a carriage return. -/
def onDocument (p : Patch) (content : Text) : Patch :=
  if content.hasCrlf then p.toCrlf content.toLf else p

def apply (p : Patch) (content : Text) : Except ApplyError Text :=
  Diff.applyAll content (p.onDocument content).diffs

def applyAll (content : Text) : List Patch → Except ApplyError Text
  | [] => .ok content
  | p :: ps => p.apply content >>= fun next => applyAll next ps

theorem onDocument_of_hasCrlf_eq_false {p : Patch} {content : Text}
    (h : content.hasCrlf = false) : p.onDocument content = p := by
  simp [onDocument, h]

end Patch

end Coedit
