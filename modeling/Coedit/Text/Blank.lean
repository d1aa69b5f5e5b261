import Coedit.Text.Basic

/-!
White space as Unicode's property `White_Space` has it, and the removal of it from the ends of a
text.
-/
namespace Coedit.Text

/-- Whether a character is white space: the six ASCII ones and nineteen beyond. -/
def isBlank (c : Char) : Bool :=
  let n := c.toNat
  (9 ≤ n && n ≤ 13) || n == 0x20 || n == 0x85 || n == 0xA0 || n == 0x1680 ||
    (0x2000 ≤ n && n ≤ 0x200A) || n == 0x2028 || n == 0x2029 || n == 0x202F || n == 0x205F ||
    n == 0x3000

def trimEnd (text : Text) : Text := (text.reverse.dropWhile isBlank).reverse

def trim (text : Text) : Text := trimEnd (text.dropWhile isBlank)

end Coedit.Text
