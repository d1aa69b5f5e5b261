import Coedit.Patch.Basic
import Coedit.Text.Numeral
import Coedit.Text.Quoted

/-!
A patch read as a walk over its base: it keeps characters, inserts text and deletes text, from one
end of the document to the other.
-/
namespace Coedit

/-- Why patches do not follow one another. -/
inductive SequenceError where
  /-- A diff starts inside the span of the one before, or ends past the base. -/
  | unordered (index : Nat)
  /-- The earlier patch leaves other than the later one expects; both counts are of what is left
  over. -/
  | lengthMismatch (earlier later : Nat)
  /-- The later patch deletes other text than the earlier one inserted. -/
  | textMismatch (inserted deleted : Text)
  deriving DecidableEq, Repr

def SequenceError.message : SequenceError → Text
  | .unordered index => "diff at ".toList ++ Numeral.ofNat index ++ " is out of order".toList
  | .lengthMismatch earlier later =>
    "patch produces ".toList ++ Numeral.ofNat earlier ++
      " characters but the next patch expects ".toList ++ Numeral.ofNat later
  | .textMismatch inserted deleted =>
    "deleted ".toList ++ deleted.quote ++ " where ".toList ++ inserted.quote ++
      " was inserted".toList

inductive Step where
  | keep (count : Nat)
  | insert (text : Text)
  | delete (text : Text)
  deriving DecidableEq, Repr

/-- The steps from one end of a document to the other. -/
abbrev Walk := List Step

namespace Step

def length : Step → Nat
  | keep count => count
  | insert text => text.length
  | delete text => text.length

/-- The part of a step that handles its first `n` characters. -/
def take (n : Nat) : Step → Step
  | keep _ => keep n
  | insert text => insert (text.take n)
  | delete text => delete (text.take n)

def drop (n : Nat) : Step → Step
  | keep count => keep (count - n)
  | insert text => insert (text.drop n)
  | delete text => delete (text.drop n)

/-- How many characters of the result a step makes. -/
def produced : Step → Nat
  | delete _ => 0
  | step => step.length

/-- How many characters of the base a step passes. -/
def consumed : Step → Nat
  | insert _ => 0
  | step => step.length

end Step

namespace Walk

def produced : Walk → Nat
  | [] => 0
  | step :: walk => step.produced + produced walk

def consumed : Walk → Nat
  | [] => 0
  | step :: walk => step.consumed + consumed walk

/-- A step that keeps `count` characters, if there are any, in front of a walk. -/
def keepThen (count : Nat) (walk : Walk) : Walk :=
  if count = 0 then walk else .keep count :: walk

def stepOf (d : Diff) : Step :=
  match d.kind with
  | .insertion => .insert d.text
  | .deletion => .delete d.text

/-- The walk from `cursor` to the end of a base of `baseLength` characters. -/
def ofDiffsFrom (baseLength cursor : Nat) : List Diff → Except SequenceError Walk
  | [] =>
    if baseLength < cursor then .error (.unordered cursor)
    else .ok (keepThen (baseLength - cursor) [])
  | d :: ds =>
    if d.start < cursor then .error (.unordered d.start)
    else
      (ofDiffsFrom baseLength d.stop ds).map fun walk =>
        keepThen (d.start - cursor) (stepOf d :: walk)

def ofPatch (p : Patch) : Except SequenceError Walk := ofDiffsFrom p.baseLength 0 p.diffs

/-- The diffs of a walk that has come to `position`. -/
def diffsFrom (position : Nat) : Walk → List Diff
  | [] => []
  | .keep count :: walk => diffsFrom (position + count) walk
  | .insert text :: walk => .insertion position text :: diffsFrom position walk
  | .delete text :: walk => .deletion position text :: diffsFrom (position + text.length) walk

def diffs (walk : Walk) : List Diff := diffsFrom 0 walk

end Walk

end Coedit
