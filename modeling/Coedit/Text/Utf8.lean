import Coedit.Text.Basic

/-!
The UTF-8 form of text. `encode` writes it; `decode` reads it one octet at a time and refuses at
the first octet that no well-formed text can hold, or at the end if a character is unfinished.
-/
namespace Coedit.Utf8

/-- The octets of one character, from one for ASCII up to four. -/
def encodeChar (c : Char) : Bytes :=
  let n := c.toNat
  if n < 0x80 then [UInt8.ofNat n]
  else if n < 0x800 then [UInt8.ofNat (0xC0 + n / 0x40), UInt8.ofNat (0x80 + n % 0x40)]
  else if n < 0x10000 then
    [UInt8.ofNat (0xE0 + n / 0x1000), UInt8.ofNat (0x80 + n / 0x40 % 0x40),
      UInt8.ofNat (0x80 + n % 0x40)]
  else
    [UInt8.ofNat (0xF0 + n / 0x40000), UInt8.ofNat (0x80 + n / 0x1000 % 0x40),
      UInt8.ofNat (0x80 + n / 0x40 % 0x40), UInt8.ofNat (0x80 + n % 0x40)]

def encode (text : Text) : Bytes := text.flatMap encodeChar

/-- Why octets are no text; `start` is where the faulty character begins. -/
inductive Error where
  /-- The first `length` octets from `start` begin no character that the next octet continues. -/
  | invalid (length start : Nat)
  /-- The octets end inside the character that begins at `start`. -/
  | incomplete (start : Nat)
  deriving DecidableEq, Repr

def Error.message : Error → String
  | .invalid length start => s!"invalid utf-8 sequence of {length} bytes from index {start}"
  | .incomplete start => s!"incomplete utf-8 byte sequence from index {start}"

/-- A character under way: octets still owed, bounds of the next one, octets seen and the value
that they spell so far. -/
structure Partial where
  owed : Nat
  low : Nat := 0x80
  high : Nat := 0xBF
  seen : Nat := 1
  value : Nat
  deriving DecidableEq, Repr

/-- The character that an octet opens; the bounds keep out surrogates, overlong forms and values
past the last character. -/
def opening (b : Nat) : Option Partial :=
  if b < 0x80 then some { owed := 0, value := b }
  else if b < 0xC2 then none
  else if b < 0xE0 then some { owed := 1, value := b - 0xC0 }
  else if b = 0xE0 then some { owed := 2, low := 0xA0, value := 0 }
  else if b = 0xED then some { owed := 2, high := 0x9F, value := 0xD }
  else if b < 0xF0 then some { owed := 2, value := b - 0xE0 }
  else if b = 0xF0 then some { owed := 3, low := 0x90, value := 0 }
  else if b < 0xF4 then some { owed := 3, value := b - 0xF0 }
  else if b = 0xF4 then some { owed := 3, high := 0x8F, value := 4 }
  else none

/-- The character after one more octet, if the octet is within bounds. -/
def Partial.extend (p : Partial) (b : Nat) : Option Partial :=
  if p.low ≤ b ∧ b ≤ p.high then
    some { owed := p.owed - 1, seen := p.seen + 1, value := p.value * 0x40 + (b - 0x80) }
  else none

/-- Reads on from octet `start`, where the character `under` (if any) began. -/
def decodeFrom (start : Nat) : Option Partial → Bytes → Except Error Text
  | none, [] => .ok []
  | some _, [] => .error (.incomplete start)
  | under, b :: rest =>
    let next :=
      match under with
      | none => opening b.toNat
      | some p => p.extend b.toNat
    match next with
    | none => .error (.invalid ((under.map (·.seen)).getD 1) start)
    | some p =>
      if p.owed = 0 then
        (decodeFrom (start + p.seen) none rest).map (Char.ofNat p.value :: ·)
      else decodeFrom start (some p) rest

def decode (bytes : Bytes) : Except Error Text := decodeFrom 0 none bytes

@[simp] theorem encode_nil : encode [] = [] := rfl

theorem encode_cons (c : Char) (cs : Text) : encode (c :: cs) = encodeChar c ++ encode cs := rfl

end Coedit.Utf8
