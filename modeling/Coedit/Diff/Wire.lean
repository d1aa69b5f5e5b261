import Coedit.Diff.Basic
import Coedit.Text.Percent
import Coedit.Text.Quoted

/-!
The written form of a diff: its index, its sign, its length and its percent-encoded text,
separated by colons. Each diff has one written form, and only that form is read.
-/
namespace Coedit

/-- Why a text is no written diff or patch. -/
inductive FormatError where
  /-- The parts of a diff are not there, or a number does not fit 64 bits. -/
  | malformedDiff (written : Text)
  /-- The parts of a patch are not there, or a number does not fit 64 bits. -/
  | malformedPatch (written : Text)
  /-- The text is not as long as the diff says. -/
  | lengthMismatch (declared actual : Nat)
  /-- The diff would be written otherwise. -/
  | nonCanonical (written : Text)
  /-- The percent-encoded octets spell no text. -/
  | encoding (error : Utf8.Error)
  deriving DecidableEq, Repr

namespace FormatError

def message : FormatError → Text
  | malformedDiff written => "malformed diff: ".toList ++ written.quote
  | malformedPatch written => "malformed patch: ".toList ++ written.quote
  | lengthMismatch declared actual =>
    "diff declares ".toList ++ Numeral.ofNat declared ++ " characters but carries ".toList ++
      Numeral.ofNat actual
  | nonCanonical written => "non-canonical diff: ".toList ++ written.quote
  | encoding error => "invalid text encoding: ".toList ++ error.message.toList

end FormatError

namespace Diff

def Kind.sign : Kind → Char
  | .insertion => '+'
  | .deletion => '-'

/-- A written form with a given length in its head. -/
def renderWith (declared : Nat) (d : Diff) : Text :=
  Numeral.ofNat d.start ++ ':' :: d.kind.sign :: Numeral.ofNat declared ++ ':' ::
    Percent.encode d.text

def render (d : Diff) : Text := d.renderWith d.length

/-- The parts of a written diff, its text not yet decoded. -/
structure Parts where
  start : Nat
  kind : Kind
  declared : Nat
  body : Text
  deriving DecidableEq, Repr

/-- A 64-bit number of digits alone, followed by a colon, and what comes after. -/
def readField? (written : Text) : Option (Nat × Text) :=
  match written.dropWhile Char.isDigit with
  | ':' :: rest => (Numeral.word? (written.takeWhile Char.isDigit)).map (·, rest)
  | _ => none

/-- The kind that the first character stands for, and what comes after. -/
def readSign? : Text → Option (Kind × Text)
  | '+' :: rest => some (.insertion, rest)
  | '-' :: rest => some (.deletion, rest)
  | _ => none

/-- Takes a written diff apart. Its text is not empty and stays on one line. -/
def readParts? (written : Text) : Option Parts := do
  let (start, rest) ← readField? written
  let (kind, rest) ← readSign? rest
  let (declared, body) ← readField? rest
  if body = [] ∨ '\n' ∈ body then none else some ⟨start, kind, declared, body⟩

/-- Reads a written diff: first its parts, then its text, and last whether it is written the one
way and carries as many characters as it says. -/
def parse (written : Text) : Except FormatError Diff :=
  match readParts? written with
  | none => .error (.malformedDiff written)
  | some parts =>
    match Percent.decode parts.body with
    | .error error => .error (.encoding error)
    | .ok text =>
      let d : Diff := ⟨parts.kind, parts.start, text⟩
      if d.renderWith parts.declared ≠ written then .error (.nonCanonical written)
      else if d.length ≠ parts.declared then .error (.lengthMismatch parts.declared d.length)
      else .ok d

/-- What is read has the parts of what is written, and is written so. -/
theorem readParts?_of_parse {written : Text} {d : Diff} (h : parse written = .ok d) :
    d.render = written ∧ ∃ body, readParts? written = some ⟨d.start, d.kind, d.length, body⟩ := by
  simp only [parse] at h
  split at h
  · contradiction
  · split at h
    · contradiction
    · rename_i parts hparts _ text _
      split at h
      · contradiction
      · split at h
        · contradiction
        · rename_i hw hl
          obtain rfl := Except.ok.inj h
          simp only [Decidable.not_not] at hw hl
          rw [← hl] at hw
          refine ⟨hw, parts.body, ?_⟩
          rw [hparts, hl]

theorem render_eq_of_parse {written : Text} {d : Diff} (h : parse written = .ok d) :
    d.render = written := (readParts?_of_parse h).1

end Diff

end Coedit
