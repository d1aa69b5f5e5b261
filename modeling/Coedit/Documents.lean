import Coedit.FileId
import Coedit.Patch.Apply
import Coedit.Table

/-!
Live documents in memory. Each has a modification stamp that every accepted change raises by one,
so that a change made for an older text can be refused. Numbers have no bounds here; what the machine
makes of a patch is `Patch.applyTo?`.
-/
namespace Coedit

/-- The text of an open document and how often it has changed. -/
structure Buffer where
  text : Text := []
  stamp : Int := 0
  deriving DecidableEq, Repr

namespace Buffer

def write (b : Buffer) (text : Text) : Buffer := ⟨text, b.stamp + 1⟩

end Buffer

abbrev Documents := Table FileId Buffer

namespace Documents

/-- The buffer of a file; an unknown file is empty. -/
def buffer (docs : Documents) (file : FileId) : Buffer := (docs.get? file).getD {}

def text? (docs : Documents) (file : FileId) : Option Text := (docs.get? file).map Buffer.text

/-- The stamp of a file, zero if it is unknown. -/
def stamp (docs : Documents) (file : FileId) : Int := (docs.buffer file).stamp

def insert (docs : Documents) (file : FileId) (text : Text) : Documents :=
  docs.set file ((docs.buffer file).write text)

/-- Applies a patch to a file, which is made if it is unknown even if the patch does not fit.
The answer is the new stamp. -/
def edit (docs : Documents) (file : FileId) (patch : Patch) :
    Documents × Except ApplyError Int :=
  let buffer := docs.buffer file
  match patch.apply buffer.text with
  | .error error => (docs.set file buffer, .error error)
  | .ok text => (docs.set file (buffer.write text), .ok (buffer.stamp + 1))

/-- Applies a patch if the stamp is still the expected one; otherwise there is no new stamp. -/
def apply (docs : Documents) (file : FileId) (patch : Patch) (expected : Int) :
    Documents × Except ApplyError (Option Int) :=
  if docs.stamp file = expected then
    let (docs, result) := docs.edit file patch
    (docs, result.map some)
  else (docs.set file (docs.buffer file), .ok none)

theorem buffer_set (docs : Documents) (file other : FileId) (b : Buffer) :
    buffer (docs.set file b) other = if file = other then b else buffer docs other := by
  unfold buffer
  rw [Table.get?_set]
  split <;> rfl

theorem buffer_set_same (docs : Documents) (file : FileId) (b : Buffer) :
    buffer (docs.set file b) file = b := by
  rw [buffer_set, if_pos rfl]

end Documents

end Coedit
