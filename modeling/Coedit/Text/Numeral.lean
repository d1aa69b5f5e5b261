import Coedit.Text.Basic

/-!
Decimal numerals. Written numerals have no sign for natural numbers, no leading zeros and no
separators. Reading is more lenient: a leading plus sign and leading zeros are allowed, and a
number outside the 64-bit range is refused.
-/
namespace Coedit.Numeral

/-- One past the largest unsigned 64-bit number. -/
def wordLimit : Nat := 0x10000000000000000

def leastInt : Int := -0x8000000000000000

def greatestInt : Int := 0x7FFFFFFFFFFFFFFF

def ofNat (n : Nat) : Text := Nat.toDigits 10 n

def ofInt : Int → Text
  | .ofNat n => ofNat n
  | .negSucc n => '-' :: ofNat (n + 1)

/-- The value of a text of ASCII digits, of which there is at least one. -/
def value? (digits : Text) : Option Nat :=
  if digits ≠ [] ∧ digits.all Char.isDigit then some (Nat.ofDigitChars 10 digits 0) else none

def word? (digits : Text) : Option Nat :=
  (value? digits).filter (· < wordLimit)

/-- Reads an unsigned 64-bit number, which may carry a plus sign. -/
def readWord? : Text → Option Nat
  | '+' :: digits => word? digits
  | digits => word? digits

def fits (n : Int) : Bool := leastInt ≤ n && n ≤ greatestInt

/-- Reads a signed 64-bit number, which may carry either sign. -/
def readInt? (text : Text) : Option Int :=
  let magnitude : Option Int :=
    match text with
    | '+' :: digits => (value? digits).map Int.ofNat
    | '-' :: digits => (value? digits).map fun n => -Int.ofNat n
    | digits => (value? digits).map Int.ofNat
  magnitude.filter fits

theorem ofNat_ne_nil (n : Nat) : ofNat n ≠ [] := Nat.toDigits_ne_nil

theorem isDigit_of_mem_ofNat {n : Nat} {c : Char} (h : c ∈ ofNat n) : c.isDigit :=
  Nat.isDigit_of_mem_toDigits (by decide) (by decide) h

theorem value?_ofNat (n : Nat) : value? (ofNat n) = some n := by
  have hd : (ofNat n).all Char.isDigit = true :=
    List.all_eq_true.mpr fun _ hc => isDigit_of_mem_ofNat hc
  rw [value?, if_pos ⟨ofNat_ne_nil n, hd⟩]
  simp [ofNat]

theorem word?_ofNat {n : Nat} (h : n < wordLimit) : word? (ofNat n) = some n := by
  simp [word?, value?_ofNat, h]

end Coedit.Numeral
