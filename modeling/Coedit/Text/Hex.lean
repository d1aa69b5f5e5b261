import Coedit.Text.Basic

/-!
Hexadecimal digits. Octets are written as two lowercase digits each; digits of either case are
read.
-/
namespace Coedit.Hex

def value? (c : Char) : Option Nat :=
  if '0' ≤ c ∧ c ≤ '9' then some (c.toNat - '0'.toNat)
  else if 'a' ≤ c ∧ c ≤ 'f' then some (c.toNat - 'a'.toNat + 10)
  else if 'A' ≤ c ∧ c ≤ 'F' then some (c.toNat - 'A'.toNat + 10)
  else none

def octet? (high low : Char) : Option UInt8 := do
  let h ← value? high
  let l ← value? low
  some (UInt8.ofNat (h * 16 + l))

/-- Octets, two lowercase digits each. -/
def encode (bytes : Bytes) : Text :=
  bytes.flatMap fun b => [Nat.digitChar (b.toNat / 16), Nat.digitChar (b.toNat % 16)]

def decode? : Text → Option Bytes
  | [] => some []
  | high :: low :: rest => do
    let b ← octet? high low
    let bytes ← decode? rest
    some (b :: bytes)
  | _ => none

theorem value?_digitChar : ∀ n < 16, value? (Nat.digitChar n) = some n := by decide

theorem octet?_digitChar (b : UInt8) :
    octet? (Nat.digitChar (b.toNat / 16)) (Nat.digitChar (b.toNat % 16)) = some b := by
  have hb : b.toNat < 256 := b.toNat_lt_size
  have hs : b.toNat / 16 * 16 + b.toNat % 16 = b.toNat := by omega
  simp only [octet?, value?_digitChar _ (show b.toNat / 16 < 16 by omega),
    value?_digitChar _ (show b.toNat % 16 < 16 by omega), Option.bind_eq_bind, Option.bind_some,
    hs, UInt8.ofNat_toNat]

theorem decode?_encode (bytes : Bytes) : decode? (encode bytes) = some bytes := by
  induction bytes with
  | nil => rfl
  | cons b rest ih =>
    have he : encode (b :: rest) =
        Nat.digitChar (b.toNat / 16) :: Nat.digitChar (b.toNat % 16) :: encode rest := rfl
    simp [he, decode?, octet?_digitChar, ih]

end Coedit.Hex
