import Coedit.Text.Basic

/-!
A diff inserts or deletes a literal text at a character index of a document. `simplify` joins
neighbouring diffs that continue each other.
-/
namespace Coedit

/-- Whether a diff adds or removes its text. -/
inductive Diff.Kind where
  | insertion
  | deletion
  deriving DecidableEq, Repr

/-- One insertion or deletion. A deletion carries the text that it expects to find. -/
structure Diff where
  kind : Diff.Kind
  start : Nat
  text : Text
  deriving DecidableEq, Repr

namespace Diff

/-- Puts `text` in front of the character at `start`. -/
def insertion (start : Nat) (text : Text) : Diff := ⟨.insertion, start, text⟩

/-- Takes `text` away from `start` on. -/
def deletion (start : Nat) (text : Text) : Diff := ⟨.deletion, start, text⟩

def isInsertion (d : Diff) : Bool := d.kind == .insertion

def isDeletion (d : Diff) : Bool := d.kind == .deletion

def length (d : Diff) : Nat := d.text.length

/-- A diff without text changes nothing. -/
def isEmpty (d : Diff) : Bool := d.text.isEmpty

/-- The index just past the span that the diff covers; an insertion covers none. The machine has
none past the words (`stop?`). -/
def stop (d : Diff) : Nat :=
  match d.kind with
  | .insertion => d.start
  | .deletion => d.start + d.length

def movedTo (d : Diff) (start : Nat) : Diff := { d with start }

/-- Whether `next` goes on where `d` leaves off: insertions at one index, or a deletion that
begins where the other ends. -/
def isContinuedBy (d next : Diff) : Bool :=
  match d.kind, next.kind with
  | .insertion, .insertion => d.start == next.start
  | .deletion, .deletion => d.stop == next.start
  | _, _ => false

/-- The one diff for `d` and a `next` that continues it. -/
def merge (d next : Diff) : Diff := { d with text := d.text ++ next.text }

/-- Appends a diff to a simplified list that is held in reverse, so that its head is the last
diff so far. -/
def pushReversed (reversed : List Diff) (d : Diff) : List Diff :=
  if d.isEmpty then reversed
  else
    match reversed with
    | [] => [d]
    | last :: before =>
      if last.isContinuedBy d then last.merge d :: before else d :: last :: before

/-- The same edits in as few diffs as joining neighbours gives. -/
def simplify (diffs : List Diff) : List Diff := (diffs.foldl pushReversed []).reverse

def insertedLength : List Diff → Nat
  | [] => 0
  | d :: ds => (if d.isInsertion then d.length else 0) + insertedLength ds

def deletedLength : List Diff → Nat
  | [] => 0
  | d :: ds => (if d.isDeletion then d.length else 0) + deletedLength ds

@[simp] theorem stop_insertion (n : Nat) (t : Text) : (insertion n t).stop = n := rfl

@[simp] theorem stop_deletion (n : Nat) (t : Text) : (deletion n t).stop = n + t.length := rfl

@[simp] theorem simplify_nil : simplify [] = [] := rfl

end Diff

end Coedit
