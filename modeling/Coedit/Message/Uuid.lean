import Coedit.Cbor.Header
import Coedit.Text.Hex

/-!
Request identifiers: sixteen octets, shown as five groups of lowercase hexadecimal digits. They
are also read from their digits alone, in braces and as a URN.
-/
namespace Coedit

/-- An identifier of sixteen octets. -/
structure Uuid where
  octets : Bytes
  length_octets : octets.length = 16
  deriving DecidableEq, Repr

namespace Uuid

def ofOctets? (octets : Bytes) : Option Uuid :=
  if h : octets.length = 16 then some ⟨octets, h⟩ else none

def ofNat (n : Nat) : Uuid := ⟨Cbor.bigEndian 16 n, Cbor.length_bigEndian 16 n⟩

/-- Where the groups of digits end and a hyphen follows. -/
def groupEnds : List Nat := [8, 12, 16, 20]

/-- The text with a hyphen after each of its first 8, 12, 16 and 20 digits. -/
def group (digits : Text) : Text :=
  digits.zipIdx.flatMap fun (c, i) => if i ∈ groupEnds then ['-', c] else [c]

def display (id : Uuid) : Text := group (Hex.encode id.octets)

def urnPrefix : Text := ['u', 'r', 'n', ':', 'u', 'u', 'i', 'd', ':']

def unbrace? (text : Text) : Option Text :=
  if text.head? = some '\x7b' ∧ text.getLast? = some '\x7d' then some text.tail.dropLast else none

/-- The groups of digits in an identifier that is in braces or a URN, or is nothing else. -/
def bare (text : Text) : Text :=
  ((Text.dropPrefix? urnPrefix text).or (unbrace? text)).getD text

/-- Reads an identifier, with digits of either case: thirty-two digits, or the five groups of
them, which may be in braces or a URN. -/
def ofText? (text : Text) : Option Uuid := do
  let groups := bare text
  let digits := groups.filter (· != '-')
  if group digits = groups ∨ digits = text then ofOctets? (← Hex.decode? digits) else none

theorem ofOctets?_octets (id : Uuid) : ofOctets? id.octets = some id := by
  simp [ofOctets?, id.length_octets]

end Uuid

end Coedit
