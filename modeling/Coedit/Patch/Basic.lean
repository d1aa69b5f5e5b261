import Coedit.Diff.Basic

/-!
A patch is a list of diffs that all refer to one document, its base, together with the version of
that document and the length of the document that it makes.
-/
namespace Coedit

/-- Diffs on a versioned document, simplified. -/
structure Patch where
  /-- The version of the document that the indices refer to. -/
  baseVersion : Int
  diffs : List Diff
  /-- How long the document is once the patch is applied. -/
  docLength : Nat
  deriving DecidableEq, Repr

namespace Patch

/-- A patch whose resulting length is known. -/
def ofDiffs (baseVersion : Int) (diffs : List Diff) (docLength : Nat) : Patch :=
  ⟨baseVersion, Diff.simplify diffs, docLength⟩

def resultingLength (baseLength : Nat) (diffs : List Diff) : Nat :=
  baseLength + Diff.insertedLength diffs - Diff.deletedLength diffs

/-- A patch on a document of `baseLength` characters. -/
def forDocument (baseVersion : Int) (diffs : List Diff) (baseLength : Nat) : Patch :=
  let simplified := Diff.simplify diffs
  ⟨baseVersion, simplified, resultingLength baseLength simplified⟩

def unchanged (baseVersion : Int) (docLength : Nat) : Patch := ⟨baseVersion, [], docLength⟩

/-- How long the document is that the patch applies to. On the machine the sums may be too large
(`baseLength?`). -/
def baseLength (p : Patch) : Nat :=
  p.docLength + Diff.deletedLength p.diffs - Diff.insertedLength p.diffs

def isEmpty (p : Patch) : Bool := p.diffs.isEmpty

def rebased (p : Patch) (version : Int) : Patch := { p with baseVersion := version }

@[simp] theorem diffs_rebased (p : Patch) (v : Int) : (p.rebased v).diffs = p.diffs := rfl

@[simp] theorem baseVersion_rebased (p : Patch) (v : Int) : (p.rebased v).baseVersion = v := rfl

@[simp] theorem docLength_rebased (p : Patch) (v : Int) :
    (p.rebased v).docLength = p.docLength := rfl

@[simp] theorem baseLength_rebased (p : Patch) (v : Int) :
    (p.rebased v).baseLength = p.baseLength := rfl

end Patch

end Coedit
