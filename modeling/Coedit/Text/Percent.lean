import Coedit.Text.Hex
import Coedit.Text.Utf8

/-!
Percent-encoded text: the octets of the UTF-8 form, each written as itself if it is a letter, a
digit or one of `-_.~*`, and otherwise as a percent sign and two uppercase hexadecimal digits.
-/
namespace Coedit.Percent

/-- Whether an octet is written as itself. -/
def isPlain (b : UInt8) : Bool :=
  let c := Char.ofNat b.toNat
  c.isAlphanum || c == '-' || c == '_' || c == '.' || c == '~' || c == '*'

/-- An uppercase hexadecimal digit. -/
def hexDigit (n : Nat) : Char := (Nat.digitChar n).toUpper

def escape (b : UInt8) : Text :=
  if isPlain b then [Char.ofNat b.toNat]
  else ['%', hexDigit (b.toNat / 16), hexDigit (b.toNat % 16)]

def encode (text : Text) : Text := (Utf8.encode text).flatMap escape

/-- The octets that a written form stands for. A percent sign without two hexadecimal digits
after it stands for itself, and so does every other character. -/
def octets : Text → Bytes
  | [] => []
  | '%' :: high :: low :: rest =>
    match Hex.octet? high low with
    | some b => b :: octets rest
    | none => UInt8.ofNat '%'.toNat :: octets (high :: low :: rest)
  | c :: rest => Utf8.encodeChar c ++ octets rest

def decode (written : Text) : Except Utf8.Error Text := Utf8.decode (octets written)

theorem encode_cons (c : Char) (cs : Text) :
    encode (c :: cs) = (Utf8.encodeChar c).flatMap escape ++ encode cs := by
  simp [encode, Utf8.encode_cons]

end Coedit.Percent
