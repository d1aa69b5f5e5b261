import Coedit.Text.Numeral

/-!
Numbers of the machine. An index, a length or a count is an unsigned 64-bit number, and a version a
signed one; the program ends where a sum or a difference is not one. Elsewhere numbers have no
bounds. The modules of `Coedit.Checked` have the same functions once more as the machine computes
them, and what these give, if anything, is what the others give.
-/
namespace Coedit

/-- What a computation gives; nothing where a number leaves its range. -/
abbrev Checked : Type → Type := Option

namespace Checked

/-- A number of unsigned 64 bits. -/
def word (n : Nat) : Checked Nat := if n < Numeral.wordLimit then some n else none

def difference (m n : Nat) : Checked Nat := if n ≤ m then some (m - n) else none

def successor (version : Int) : Checked Int :=
  if version < Numeral.greatestInt then some (version + 1) else none

variable {k m n : Nat} {v w : Int}

theorem word_eq_some_iff : word n = some k ↔ n < Numeral.wordLimit ∧ k = n := by
  by_cases h : n < Numeral.wordLimit <;> simp [word, h, eq_comm]

theorem difference_eq_some_iff : difference m n = some k ↔ n ≤ m ∧ k = m - n := by
  by_cases h : n ≤ m <;> simp [difference, h, eq_comm]

theorem successor_eq_some_iff :
    successor v = some w ↔ v < Numeral.greatestInt ∧ w = v + 1 := by
  by_cases h : v < Numeral.greatestInt <;> simp [successor, h, eq_comm]

theorem successor_eq_none_iff : successor v = none ↔ Numeral.greatestInt ≤ v := by
  simp [successor]

end Checked

end Coedit
