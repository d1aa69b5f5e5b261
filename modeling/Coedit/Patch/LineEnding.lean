import Coedit.Patch.Basic
import Coedit.Text.LineEnding

/-!
Patches travel with breaks alone. On a document whose breaks carry a carriage return every index
after a break is larger and every break in a diff's text is a pair; these functions take diffs
and patches from the one form of a document to the other.
-/
namespace Coedit

/-- The diff on the form of `base` with pairs. -/
def Diff.toCrlf (base : Text) (d : Diff) : Diff :=
  { d with start := d.start + base.breaksBefore d.start, text := d.text.toCrlf }

/-- The diff on the form of `base` with breaks alone. -/
def Diff.toLf (base : Text) (d : Diff) : Diff :=
  { d with start := d.start - base.pairsBefore d.start, text := d.text.toLf }

def Patch.toCrlf (base : Text) (p : Patch) : Patch :=
  forDocument p.baseVersion (p.diffs.map (Diff.toCrlf base)) (base.length + base.breakCount)

def Patch.toLf (base : Text) (p : Patch) : Patch :=
  forDocument p.baseVersion (p.diffs.map (Diff.toLf base)) (base.length - base.pairCount)

@[simp] theorem Patch.baseVersion_toCrlf (base : Text) (p : Patch) :
    (p.toCrlf base).baseVersion = p.baseVersion := rfl

@[simp] theorem Patch.baseVersion_toLf (base : Text) (p : Patch) :
    (p.toLf base).baseVersion = p.baseVersion := rfl

end Coedit
