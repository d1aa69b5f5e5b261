import Coedit.Checked.Diff
import Coedit.Patch.Apply
import Coedit.Patch.Transform
import Coedit.Patch.Wire

/-!
Patches on machine numbers: made, read, transformed and applied.
-/
namespace Coedit.Patch

def ofDiffs? (baseVersion : Int) (diffs : List Diff) (docLength : Nat) : Checked Patch :=
  (Diff.simplify? diffs).map fun diffs => ⟨baseVersion, diffs, docLength⟩

def resultingLength? (baseLength : Nat) (diffs : List Diff) : Checked Nat := do
  let inserted ← Checked.word (Diff.insertedLength diffs)
  let deleted ← Checked.word (Diff.deletedLength diffs)
  let longest ← Checked.word (baseLength + inserted)
  some (longest - deleted)

def forDocument? (baseVersion : Int) (diffs : List Diff) (baseLength : Nat) : Checked Patch := do
  let diffs ← Diff.simplify? diffs
  let docLength ← resultingLength? baseLength diffs
  some ⟨baseVersion, diffs, docLength⟩

def baseLength? (p : Patch) : Checked Nat := do
  let inserted ← Checked.word (Diff.insertedLength p.diffs)
  let deleted ← Checked.word (Diff.deletedLength p.diffs)
  let longest ← Checked.word (p.docLength + deleted)
  some (longest - inserted)

/-- Numbers that are too large to be read are faults of the text; the check is on those that
simplifying makes of them. -/
def parse? (written : Text) : Checked (Except FormatError Patch) :=
  match readParts? written with
  | none => some (.error (.malformedPatch written))
  | some (version, lines, length) =>
    match lines.mapM Diff.parse with
    | .error error => some (.error error)
    | .ok diffs => (ofDiffs? version diffs length).map .ok

def transform? (p : Patch) (othersFirst : Bool) : List Patch → Checked Patch
  | [] => some p
  | first :: more => do
    let diffs ← (first :: more).foldlM
      (fun diffs other => Diff.transformAll? diffs othersFirst other.diffs) p.diffs
    let last := (first :: more).getLast (List.cons_ne_nil first more)
    let version ← Checked.successor (newestVersion first more)
    forDocument? version diffs last.docLength

def transformPair? (a b : Patch) (aWins : Bool) : Checked (Patch × Patch) := do
  let a' ← a.transform? (!aWins) [b]
  let b' ← b.transform? aWins [a]
  some (a', b')

def toCrlf? (base : Text) (p : Patch) : Checked Patch := do
  let diffs ← p.diffs.mapM (Diff.toCrlf? base)
  let baseLength ← Checked.word (base.length + base.breakCount)
  forDocument? p.baseVersion diffs baseLength

def toLf? (base : Text) (p : Patch) : Checked Patch :=
  forDocument? p.baseVersion (p.diffs.map (Diff.toLf base)) (base.length - base.pairCount)

def onDocument? (p : Patch) (content : Text) : Checked Patch :=
  if content.hasCrlf then p.toCrlf? content.toLf else some p

/-- The walk over a document adds an index in it and the length of a text, which are both less than
half a word. -/
def applyTo? (p : Patch) (content : Text) : Checked (Except ApplyError Text) :=
  (p.onDocument? content).map fun p => Diff.applyAll content p.diffs

def applyAll? (content : Text) : List Patch → Checked (Except ApplyError Text)
  | [] => some (.ok content)
  | p :: ps => do
    match ← p.applyTo? content with
    | .error error => some (.error error)
    | .ok next => applyAll? next ps

end Coedit.Patch
