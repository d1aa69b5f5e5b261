import Coedit.Patch.Basic
import Coedit.Text.Numeral

/-!
Patches as indented JSON. Each level is indented by two spaces and an empty list stays on its
line. Inside a string the quote, the backslash and the characters below the space are escaped.
-/
namespace Coedit.Command

/-- The JSON values that a patch needs. -/
inductive Json where
  | number (n : Int)
  | string (text : Text)
  | array (items : List Json)
  | object (members : List (Text × Json))

namespace Json

def escapeChar (c : Char) : Text :=
  if c = '"' then ['\\', '"']
  else if c = '\\' then ['\\', '\\']
  else if c = '\x08' then ['\\', 'b']
  else if c = '\t' then ['\\', 't']
  else if c = '\n' then ['\\', 'n']
  else if c = '\x0c' then ['\\', 'f']
  else if c = '\r' then ['\\', 'r']
  else if c.toNat < 0x20 then
    ['\\', 'u', '0', '0', Nat.digitChar (c.toNat / 16), Nat.digitChar (c.toNat % 16)]
  else [c]

def writeString (text : Text) : Text := '"' :: text.flatMap escapeChar ++ ['"']

def newLine (level : Nat) : Text := '\n' :: List.replicate (2 * level) ' '

/-- Written parts on lines of their own between two brackets. -/
def writeBlock (level : Nat) (opening closing : Char) (parts : List Text) : Text :=
  if parts = [] then [opening, closing]
  else
    opening :: newLine (level + 1) ++ Text.join (',' :: newLine (level + 1)) parts ++
      newLine level ++ [closing]

mutual
/-- A value whose first line is indented to a level. -/
def write (level : Nat) : Json → Text
  | number n => Numeral.ofInt n
  | string text => writeString text
  | array items => writeBlock level '[' ']' (writeItems (level + 1) items)
  | object members => writeBlock level '\x7b' '\x7d' (writeMembers (level + 1) members)

def writeItems (level : Nat) : List Json → List Text
  | [] => []
  | item :: more => item.write level :: writeItems level more

def writeMembers (level : Nat) : List (Text × Json) → List Text
  | [] => []
  | (name, value) :: more =>
    (writeString name ++ ':' :: ' ' :: value.write level) :: writeMembers level more
end

def pretty (value : Json) : Text := value.write 0

def ofDiff (d : Diff) : Json :=
  object [
    ("kind".toList, string (match d.kind with
      | .insertion => "insertion".toList
      | .deletion => "deletion".toList)),
    ("startIndex".toList, number (Int.ofNat d.start)),
    ("text".toList, string d.text)]

def ofPatch (p : Patch) : Json :=
  object [
    ("baseVersion".toList, number p.baseVersion),
    ("diffs".toList, array (p.diffs.map ofDiff)),
    ("docLength".toList, number (Int.ofNat p.docLength))]

end Json

end Coedit.Command
