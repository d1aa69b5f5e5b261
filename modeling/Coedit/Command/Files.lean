import Coedit.Table
import Coedit.Text.Utf8

/-!
Files and the paths that lead to them. A volume holds the octets of files at their places below a
root; a path is followed name by name, and each name but the last has to lead to a directory.
`exists_of_enter` says that a path never leaves what the volume holds.
-/
namespace Coedit.Command

inductive ReadError where
  | notFound
  /-- The path goes on behind a file. -/
  | notDirectory
  | isDirectory
  | nameTooLong
  /-- The octets of the file are no text. -/
  | notText
  /-- The system refuses for a reason of its own. -/
  | refused (reason : Text)
  deriving DecidableEq, Repr

def ReadError.message : ReadError → Text
  | .notFound => "No such file or directory (os error 2)".toList
  | .notDirectory => "Not a directory (os error 20)".toList
  | .isDirectory => "Is a directory (os error 21)".toList
  | .nameTooLong => "File name too long (os error 36)".toList
  | .notText => "stream did not contain valid UTF-8".toList
  | .refused reason => reason

/-- What reading the file at a path gives. -/
abbrev Files := Text → Except ReadError Text

def textOfOctets (octets : Bytes) : Except ReadError Text :=
  (Utf8.decode octets).mapError fun _ => .notText

/-- The names that lead from the root to a file or a directory. -/
abbrev Place := List Text

/-- Where a name leads from a place: nowhere else without a name or by one dot, and up by two. -/
def Place.step (place : Place) (name : Text) : Place :=
  if name = [] ∨ name = ['.'] then place
  else if name = ['.', '.'] then place.dropLast
  else place ++ [name]

/-- Files at their places, other directories, and the place from which relative paths start. All
that lies on the way to any of these is a directory. -/
structure Volume where
  files : Table Place Bytes := {}
  directories : List Place := []
  working : Place := []

namespace Volume

def nameLimit : Nat := 255

def pathLimit : Nat := 4095

def hasDirectory (v : Volume) (place : Place) : Bool :=
  (v.working :: v.directories).any (fun other => other.take place.length = place) ||
    v.files.keys.any fun file => place.length < file.length && file.take place.length = place

def has (v : Volume) (place : Place) : Bool :=
  v.hasDirectory place || (v.files.get? place).isSome

def start (v : Volume) (path : Text) : Place := if path.head? = some '/' then [] else v.working

def store (v : Volume) (path : Text) (octets : Bytes) : Volume :=
  { v with files := v.files.set ((Text.pieces ['/'] path).foldl Place.step (v.start path)) octets }

/-- Follows one name from a place. -/
def enter (v : Volume) (place : Place) (name : Text) : Except ReadError Place :=
  if !v.hasDirectory place then .error .notDirectory
  else if nameLimit < (Utf8.encode name).length then .error .nameTooLong
  else if v.has (place.step name) then .ok (place.step name)
  else .error .notFound

def locate (v : Volume) (path : Text) : Except ReadError Place :=
  if path = [] then .error .notFound
  else if pathLimit < (Utf8.encode path).length then .error .nameTooLong
  else (Text.pieces ['/'] path).foldlM v.enter (v.start path)

def read (v : Volume) : Files := fun path => do
  match v.files.get? (← v.locate path) with
  | some octets => textOfOctets octets
  | none => .error .isDirectory

theorem exists_of_enter {v : Volume} {place next : Place} {name : Text}
    (h : v.enter place name = .ok next) : v.has next = true := by
  simp only [enter] at h
  split at h
  · contradiction
  · split at h
    · contradiction
    · split at h
      · rename_i hn
        exact Except.ok.inj h ▸ hn
      · contradiction

end Volume

end Coedit.Command
