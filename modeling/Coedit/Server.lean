import Coedit.Client.Error
import Coedit.FileId
import Coedit.Patch.Transform
import Coedit.Table

/-!
The server keeps each file's text and every patch that it has committed. A patch of an older
version is transformed past the patches that came since, behind theirs where both insert.
-/
namespace Coedit

/-- A file on the server. Its version is the number of committed patches. -/
structure ServerFile where
  text : Text := []
  history : List Patch := []
  deriving DecidableEq, Repr

namespace ServerFile

def version (f : ServerFile) : Nat := f.history.length

def push (f : ServerFile) (patch : Patch) (text : Text) : ServerFile :=
  ⟨text, f.history ++ [patch.rebased f.version]⟩

/-- Commits a client's patch. The answer holds the patches that the client has not seen. -/
def commit (f : ServerFile) (patch : Patch) : Except SendError (ServerFile × List Patch) :=
  if patch.baseVersion < 0 ∨ f.version < patch.baseVersion then
    .error (.unavailable "bad base version".toList)
  else
    let missing := f.history.drop patch.baseVersion.toNat
    let committed := patch.transform false missing
    match committed.apply f.text with
    | .error _ => .error (.unavailable "does not apply".toList)
    | .ok text => .ok (f.push committed text, missing)

/-- Commits diffs that are made for the current text. -/
def commitDiffs (f : ServerFile) (diffs : List Diff) : Except ApplyError (ServerFile × Patch) :=
  let patch := Patch.forDocument f.version diffs f.text.length
  (patch.apply f.text).map fun text => (f.push patch text, patch)

theorem version_push (f : ServerFile) (patch : Patch) (text : Text) :
    (f.push patch text).version = f.version + 1 := by
  simp [version, push]

end ServerFile

abbrev Server := Table FileId ServerFile

/-- A file on the server, which is empty and without commits if it is not there. -/
def Server.file (server : Server) (id : FileId) : ServerFile := (server.get? id).getD {}

end Coedit
