import Coedit.Diff.Wire
import Coedit.Patch.Basic

/-!
The written form of a patch: a line for the version, a line for each diff and a line for the
resulting length. Every line but the last ends in a colon, or in a comma between two diffs.
-/
namespace Coedit.Patch

/-- Ends the version and the last diff. -/
def sectionEnd : Text := [':', '\n']

/-- Stands between two diffs. -/
def diffEnd : Text := [',', '\n']

def render (p : Patch) : Text :=
  'v' :: Numeral.ofInt p.baseVersion ++ sectionEnd ++
    Text.join diffEnd (p.diffs.map Diff.render) ++ sectionEnd ++ Numeral.ofNat p.docLength

/-- The three parts of a written patch: what stands before the first section end, between the
first and the last, and after the last. -/
def readSections? : Text → Option (Text × Text × Text)
  | 'v' :: rest => do
    let (version, rest) ← Text.cutFirst? sectionEnd rest
    let (body, length) ← Text.cutLast? sectionEnd rest
    some (version, body, length)
  | _ => none

/-- Version, diff lines and resulting length of a written patch. -/
def readParts? (written : Text) : Option (Int × List Text × Nat) := do
  let (version, body, length) ← readSections? written
  let version ← Numeral.readInt? version
  let length ← Numeral.readWord? length
  some (version, if body = [] then [] else Text.pieces diffEnd body, length)

/-- Reads a written patch and simplifies it; the first diff that cannot be read is the one
reported. -/
def parse (written : Text) : Except FormatError Patch :=
  match readParts? written with
  | none => .error (.malformedPatch written)
  | some (version, lines, length) => do
    let diffs ← lines.mapM Diff.parse
    .ok (ofDiffs version diffs length)

end Coedit.Patch
