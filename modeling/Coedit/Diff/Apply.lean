import Coedit.Diff.Basic
import Coedit.Text.Numeral
import Coedit.Text.Quoted

/-!
Applying diffs to a document. They are walked from left to right; a deletion must find its text,
no diff may reach back into the span of the one before, and an insertion may not separate a
carriage return from its break.
-/
namespace Coedit

/-- Why diffs do not fit a document. -/
inductive ApplyError where
  /-- A deletion finds another text than it carries. -/
  | consistency (index : Nat) (expected found : Text)
  /-- An insertion lies between a carriage return and its break. -/
  | invalidPosition (index : Nat)
  /-- A diff starts past the end. -/
  | outOfBounds (index length : Nat)
  /-- A diff starts inside the span of the one before. -/
  | overlap (index : Nat)
  deriving DecidableEq, Repr

def ApplyError.message : ApplyError → Text
  | .consistency index expected found =>
    "deleted text at ".toList ++ Numeral.ofNat index ++ " is ".toList ++ found.quote ++
      ", patch expected ".toList ++ expected.quote
  | .invalidPosition index =>
    "insertion at ".toList ++ Numeral.ofNat index ++ " splits a CRLF pair".toList
  | .outOfBounds index length =>
    "diff at ".toList ++ Numeral.ofNat index ++ " is outside a document of ".toList ++
      Numeral.ofNat length ++ " characters".toList
  | .overlap index =>
    "diff at ".toList ++ Numeral.ofNat index ++ " overlaps the previous diff".toList

/-- Whether an index lies between a carriage return and its break. -/
def Text.splitsPair (content : Text) (index : Nat) : Bool :=
  index != 0 && content[index - 1]? == some '\r' && content[index]? == some '\n'

namespace Diff

/-- Walks `content` from `cursor` on and writes what the diffs make of it. -/
def applyFrom (content : Text) (cursor : Nat) : List Diff → Except ApplyError Text
  | [] => .ok (content.drop cursor)
  | d :: ds =>
    if d.start < cursor then .error (.overlap d.start)
    else if content.length < d.start then .error (.outOfBounds d.start content.length)
    else
      match d.kind with
      | .insertion =>
        if content.splitsPair d.start then .error (.invalidPosition d.start)
        else
          (applyFrom content d.start ds).map fun rest =>
            content.slice cursor d.start ++ d.text ++ rest
      | .deletion =>
        let found := content.slice d.start (d.start + d.length)
        if found ≠ d.text then .error (.consistency d.start d.text found)
        else
          (applyFrom content (d.start + d.length) ds).map fun rest =>
            content.slice cursor d.start ++ rest

def applyAll (content : Text) (diffs : List Diff) : Except ApplyError Text :=
  applyFrom content 0 diffs

end Diff

end Coedit
