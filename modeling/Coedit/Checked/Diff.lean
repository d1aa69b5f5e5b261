import Coedit.Checked.Number
import Coedit.Diff.Transform
import Coedit.Patch.LineEnding

/-!
Diffs on machine numbers: joined, transformed and taken to other line endings.
-/
namespace Coedit.Diff

def stop? (d : Diff) : Checked Nat :=
  match d.kind with
  | .insertion => some d.start
  | .deletion => Checked.word (d.start + d.length)

def isContinuedBy? (d next : Diff) : Checked Bool :=
  match d.kind, next.kind with
  | .insertion, .insertion => some (d.start == next.start)
  | .deletion, .deletion => d.stop?.map (· == next.start)
  | _, _ => some false

def pushReversed? (reversed : List Diff) (d : Diff) : Checked (List Diff) :=
  if d.isEmpty then some reversed
  else
    match reversed with
    | [] => some [d]
    | last :: before => (last.isContinuedBy? d).map fun continued =>
      if continued then last.merge d :: before else d :: last :: before

def simplify? (diffs : List Diff) : Checked (List Diff) :=
  (diffs.foldlM pushReversed? []).map List.reverse

/-- How many characters before the index `o` deletes. The stop of a deletion behind the index is not
computed. -/
def spanBefore? (index : Nat) (o : Diff) : Checked Nat :=
  if o.isDeletion && o.start < index then o.stop?.map fun stop => min stop index - o.start
  else some 0

def deletedBefore? (index : Nat) : List Diff → Checked Nat
  | [] => some 0
  | o :: others => do
    let here ← o.spanBefore? index
    let more ← deletedBefore? index others
    Checked.word (here + more)

def mapIndex? (index : Nat) (others : List Diff) (tiesFirst : Bool) : Checked Nat := do
  let inserted ← Checked.word (insertedBefore index tiesFirst others)
  let deleted ← deletedBefore? index others
  let shifted ← Checked.word (index + inserted)
  Checked.difference shifted deleted

/-- The stop of the diff and those of all others are computed first. -/
def survivingDeletions? (d : Diff) (others : List Diff) : Checked (List Diff) := do
  let _ ← d.stop?
  let _ ← others.mapM stop?
  (runs others (survivors others d.start d.text)).mapM fun (start, text) =>
    (mapIndex? start others true).map (deletion · text)

def transform? (d : Diff) (othersFirst : Bool) (others : List Diff) : Checked (List Diff) :=
  if d.isEmpty then some []
  else
    match d.kind with
    | .insertion => (mapIndex? d.start others othersFirst).map fun start => [d.movedTo start]
    | .deletion => d.survivingDeletions? others

def transformAgainst? (d : Diff) (othersFirst : Bool) (other : Diff) : Checked (List Diff) :=
  d.transform? othersFirst [other]

def transformAll? (diffs : List Diff) (othersFirst : Bool) (others : List Diff) :
    Checked (List Diff) :=
  (diffs.mapM (transform? · othersFirst others)).map List.flatten

/-- No more pairs end before an index than there are characters, so that `toLf` needs no check. -/
def toCrlf? (base : Text) (d : Diff) : Checked Diff :=
  (Checked.word (d.start + base.breaksBefore d.start)).map fun start =>
    { d with start, text := d.text.toCrlf }

end Coedit.Diff
