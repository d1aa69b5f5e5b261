import Coedit.Text.Basic

/-!
Headers of CBOR data items: a major type and an argument, or a simple value, a float or the stop
code. Arguments are written in the shortest form and read in every form.
-/
namespace Coedit.Cbor

/-- A reader takes what it reads off the front of the octets, or refuses them. -/
abbrev Reader (α : Type) := Bytes → Option (α × Bytes)

/-- The low `width` octets of a number, the most significant first. -/
def bigEndian : Nat → Nat → Bytes
  | 0, _ => []
  | width + 1, n => bigEndian width (n / 256) ++ [UInt8.ofNat (n % 256)]

/-- The number that octets spell, the most significant first. -/
def ofBigEndian (bytes : Bytes) : Nat := bytes.foldl (fun n b => n * 256 + b.toNat) 0

def readOctets (n : Nat) : Reader Bytes := fun bytes =>
  if n ≤ bytes.length then some (bytes.take n, bytes.drop n) else none

/-- What opens a data item. Lengths and counts are absent where the item goes on to a stop
code. -/
inductive Header where
  | positive (n : Nat)
  /-- The integer `-1 - n`. -/
  | negative (n : Nat)
  | bytes (length : Option Nat)
  | text (length : Option Nat)
  | array (count : Option Nat)
  | map (count : Option Nat)
  | tag (number : Nat)
  | simple (number : Nat)
  | float (octets : Bytes)
  | stop
  deriving DecidableEq, Repr

/-- How many octets of argument follow the first octet, by its low five bits; none where those
bits are the argument. -/
def argumentWidth? (low : Nat) : Option Nat :=
  if low < 24 then some 0
  else if low = 24 then some 1
  else if low = 25 then some 2
  else if low = 26 then some 4
  else if low = 27 then some 8
  else none

/-- The argument that belongs to the low five bits of the first octet; none for an item that
goes on to a stop code. -/
def readArgument (low : Nat) : Reader (Option Nat) := fun bytes =>
  if low = 31 then some (none, bytes)
  else do
    let width ← argumentWidth? low
    let (octets, rest) ← readOctets width bytes
    some (some (if width = 0 then low else ofBigEndian octets), rest)

/-- The header with major type `major`, by its argument. -/
def headerOf (major : Nat) (argument : Option Nat) : Option Header :=
  match major, argument with
  | 0, some n => some (.positive n)
  | 1, some n => some (.negative n)
  | 2, length => some (.bytes length)
  | 3, length => some (.text length)
  | 4, count => some (.array count)
  | 5, count => some (.map count)
  | 6, some n => some (.tag n)
  | _, _ => none

/-- The header with major type 7: simple values in up to one octet, floats in two, four or
eight. -/
def readSpecial (low : Nat) : Reader Header := fun bytes =>
  if low = 31 then some (.stop, bytes)
  else do
    let width ← argumentWidth? low
    let (octets, rest) ← readOctets width bytes
    if width = 0 then some (.simple low, rest)
    else if width = 1 then some (.simple (ofBigEndian octets), rest)
    else some (.float octets, rest)

def readHeader : Reader Header
  | [] => none
  | b :: rest =>
    let major := b.toNat / 32
    let low := b.toNat % 32
    if major = 7 then readSpecial low rest
    else do
      let (argument, rest) ← readArgument low rest
      some (← headerOf major argument, rest)

/-- Writes a major type and an argument in the shortest form. -/
def writeHead (major n : Nat) : Bytes :=
  if n < 24 then [UInt8.ofNat (major * 32 + n)]
  else if n < 0x100 then UInt8.ofNat (major * 32 + 24) :: bigEndian 1 n
  else if n < 0x10000 then UInt8.ofNat (major * 32 + 25) :: bigEndian 2 n
  else if n < 0x100000000 then UInt8.ofNat (major * 32 + 26) :: bigEndian 4 n
  else UInt8.ofNat (major * 32 + 27) :: bigEndian 8 n

theorem length_bigEndian (width n : Nat) : (bigEndian width n).length = width := by
  induction width generalizing n with
  | zero => rfl
  | succ width ih => simp [bigEndian, ih]

theorem readOctets_append {front rest : Bytes} {n : Nat} (h : front.length = n) :
    readOctets n (front ++ rest) = some (front, rest) := by
  subst h
  simp [readOctets]

end Coedit.Cbor
