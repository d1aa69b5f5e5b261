import Coedit.Diff.Basic

/-!
Operational transformation: a diff made on one document is changed so that it has the same
intent on the document that concurrent diffs leave behind. Positions are compared in the
coordinates of the common base. Only two insertions at one index tie; a flag says whose text
goes first.
-/
namespace Coedit

namespace Diff

/-- How many characters `others` insert before `index`, and at it too if `tiesFirst`. -/
def insertedBefore (index : Nat) (tiesFirst : Bool) : List Diff → Nat
  | [] => 0
  | o :: others =>
    (if o.isInsertion && (o.start < index || (o.start == index && tiesFirst)) then o.length
      else 0) + insertedBefore index tiesFirst others

def deletedBefore (index : Nat) : List Diff → Nat
  | [] => 0
  | o :: others =>
    (if o.isDeletion && o.start < index then min o.stop index - o.start else 0) +
      deletedBefore index others

/-- Where an index of the base lies once `others` are applied. Deletions that overlap are counted
twice. Where that makes more than there is in front of the index, the machine goes no further
(`mapIndex?`). -/
def mapIndex (index : Nat) (others : List Diff) (tiesFirst : Bool) : Nat :=
  index + insertedBefore index tiesFirst others - deletedBefore index others

def isDeletedBy (others : List Diff) (index : Nat) : Bool :=
  others.any fun o => o.isDeletion && o.start ≤ index && index < o.stop

/-- Whether one of `others` inserts text after the character at `low` and not after the one at
`high`. -/
def isCutBy (others : List Diff) (low high : Nat) : Bool :=
  others.any fun o => o.isInsertion && !o.isEmpty && low < o.start && o.start ≤ high

/-- The characters of a text that stands at `index` which `others` leave, each with its index. -/
def survivors (others : List Diff) : Nat → Text → List (Nat × Char)
  | _, [] => []
  | index, c :: cs =>
    if isDeletedBy others index then survivors others (index + 1) cs
    else (index, c) :: survivors others (index + 1) cs

/-- Runs of characters between which `others` insert nothing, each with the index of its first
character. -/
def runs (others : List Diff) : List (Nat × Char) → List (Nat × Text)
  | [] => []
  | (index, c) :: rest =>
    match rest, runs others rest with
    | (following, _) :: _, (start, text) :: more =>
      if isCutBy others index following then (index, [c]) :: (start, text) :: more
      else (index, c :: text) :: more
    | _, _ => [(index, [c])]

/-- The parts of a deletion that are still there once `others` are applied. -/
def survivingDeletions (d : Diff) (others : List Diff) : List Diff :=
  (runs others (survivors others d.start d.text)).map fun (start, text) =>
    deletion (mapIndex start others true) text

/-- The diff past `others`, which are applied together to the same base. An insertion moves, and
goes behind ties if `othersFirst`; a deletion keeps what is left of it, in one part or more. -/
def transform (d : Diff) (othersFirst : Bool) (others : List Diff) : List Diff :=
  if d.isEmpty then []
  else
    match d.kind with
    | .insertion => [d.movedTo (mapIndex d.start others othersFirst)]
    | .deletion => d.survivingDeletions others

def transformAgainst (d : Diff) (othersFirst : Bool) (other : Diff) : List Diff :=
  d.transform othersFirst [other]

def transformAll (diffs : List Diff) (othersFirst : Bool) (others : List Diff) : List Diff :=
  diffs.flatMap fun d => d.transform othersFirst others

end Diff

end Coedit
