import Coedit.Text.Numeral
import Coedit.Text.Printable

/-!
Quoted text, for messages: the text between double quotes, with the quote, the backslash and the
common controls escaped by a backslash, and every other character that cannot be shown written
as its code point in braces.
-/
namespace Coedit.Text

/-- A code point in lowercase hexadecimal, between braces. -/
def codePoint (c : Char) : Text :=
  '\\' :: 'u' :: '\x7b' :: Nat.toDigits 16 c.toNat ++ ['\x7d']

def quoteChar (c : Char) : Text :=
  if c = '\x00' then ['\\', '0']
  else if c = '\t' then ['\\', 't']
  else if c = '\n' then ['\\', 'n']
  else if c = '\r' then ['\\', 'r']
  else if c = '"' then ['\\', '"']
  else if c = '\\' then ['\\', '\\']
  else if isShown c then [c]
  else codePoint c

def quote (text : Text) : Text := '"' :: text.flatMap quoteChar ++ ['"']

end Coedit.Text
