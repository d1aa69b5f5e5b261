import Coedit.Text.Blank
import Coedit.Text.Numeral
import Coedit.Text.Quoted
import Coedit.Text.Utf8

/-!
Settings of a client, from environment variables. A variable whose value is no text counts as not
set; white space around a value is passed over.
-/
namespace Coedit

/-- How long a request may take, and how many patches one request may join. -/
structure Settings where
  timeoutMs : Nat := 5000
  writeThreshold : Nat := 64
  deriving DecidableEq, Repr

namespace Settings

def timeoutVariable : Text := "PATCHSYNC_PATCH_TIMEOUT_MS".toList

def thresholdVariable : Text := "PATCHSYNC_WRITE_THRESHOLD".toList

/-- A variable holds a value that cannot be used. -/
structure Invalid where
  variableName : Text
  value : Text
  deriving DecidableEq, Repr

def Invalid.message (e : Invalid) : Text :=
  "invalid ".toList ++ e.variableName ++ ": ".toList ++ e.value.quote

/-- The number in a variable that `accept` lets pass; `standard` if the variable is not set. -/
def readVariable (lookup : Text → Option Bytes) (accept : Nat → Bool) (name : Text)
    (standard : Nat) : Except Invalid Nat :=
  match (lookup name).bind fun octets => (Utf8.decode octets).toOption with
  | none => .ok standard
  | some value =>
    match (Numeral.readWord? value.trim).filter accept with
    | some n => .ok n
    | none => .error ⟨name, value⟩

/-- The settings in an environment. The time comes first, so that its fault is the one
reported. -/
def fromEnvironment (lookup : Text → Option Bytes) : Except Invalid Settings := do
  let standard : Settings := {}
  let timeoutMs ← readVariable lookup (fun _ => true) timeoutVariable standard.timeoutMs
  let writeThreshold ← readVariable lookup (1 ≤ ·) thresholdVariable standard.writeThreshold
  return { timeoutMs, writeThreshold }

end Settings

end Coedit
