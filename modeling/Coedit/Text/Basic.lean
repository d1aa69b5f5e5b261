/-!
Text is a list of Unicode scalar values, so that every index and every length counts characters.
The cutting functions find a separator from the left (`cutFirst?`), from the right (`cutLast?`)
or everywhere (`pieces`); the small lemmas say that nothing of the text is lost.
-/
namespace Coedit

/-- Text as the sequence of its characters. -/
abbrev Text := List Char

/-- Octets, as they are stored and sent. -/
abbrev Bytes := List UInt8

namespace Text

def slice (text : Text) (start stop : Nat) : Text := (text.take stop).drop start

/-- What follows `front` at the beginning of a text. -/
def dropPrefix? : Text → Text → Option Text
  | [], text => some text
  | _ :: _, [] => none
  | f :: front, c :: cs => if f = c then dropPrefix? front cs else none

/-- The text before and after the first occurrence of `sep`. -/
def cutFirst? (sep : Text) : Text → Option (Text × Text)
  | [] => if sep = [] then some ([], []) else none
  | c :: cs =>
    match dropPrefix? sep (c :: cs) with
    | some rest => some ([], rest)
    | none => (cutFirst? sep cs).map fun (before, after) => (c :: before, after)

def cutLast? (sep : Text) : Text → Option (Text × Text)
  | [] => if sep = [] then some ([], []) else none
  | c :: cs =>
    match cutLast? sep cs with
    | some (before, after) => some (c :: before, after)
    | none => (dropPrefix? sep (c :: cs)).map fun rest => ([], rest)

/-- The piece in progress and the finished pieces after it, once `skip` characters of a
separator are passed over. -/
def piecesFrom (sep : Text) : Nat → Text → Text × List Text
  | _, [] => ([], [])
  | skip + 1, _ :: cs => piecesFrom sep skip cs
  | 0, c :: cs =>
    if (dropPrefix? sep (c :: cs)).isSome then
      let (piece, more) := piecesFrom sep (sep.length - 1) cs
      ([], piece :: more)
    else
      let (piece, more) := piecesFrom sep 0 cs
      (c :: piece, more)

/-- The pieces of a text between the occurrences of `sep`, which is not empty, taken from the
left. Without an occurrence the whole text is the only piece. -/
def pieces (sep text : Text) : List Text :=
  let (piece, more) := piecesFrom sep 0 text
  piece :: more

def join (sep : Text) : List Text → Text
  | [] => []
  | [piece] => piece
  | piece :: more => piece ++ sep ++ join sep more

theorem eq_append_of_dropPrefix? {front text rest : Text}
    (h : dropPrefix? front text = some rest) : text = front ++ rest := by
  induction front generalizing text with
  | nil => exact Option.some.inj h
  | cons f front ih =>
    cases text with
    | nil => cases h
    | cons c cs =>
      simp only [dropPrefix?] at h
      split at h
      · rename_i hc
        rw [ih h, hc, List.cons_append]
      · cases h

theorem dropPrefix?_append (front rest : Text) : dropPrefix? front (front ++ rest) = some rest := by
  induction front with
  | nil => rfl
  | cons f front ih => simp [dropPrefix?, ih]

theorem eq_of_cutFirst? {sep text before after : Text}
    (h : cutFirst? sep text = some (before, after)) : text = before ++ sep ++ after := by
  induction text generalizing before with
  | nil =>
    simp only [cutFirst?] at h
    split at h
    · obtain ⟨rfl, rfl⟩ := Prod.mk.inj (Option.some.inj h)
      simp_all
    · contradiction
  | cons c cs ih =>
    simp only [cutFirst?] at h
    split at h
    · rename_i rest hp
      obtain ⟨rfl, rfl⟩ := Prod.mk.inj (Option.some.inj h)
      simpa using eq_append_of_dropPrefix? hp
    · obtain ⟨⟨b, a⟩, hb, he⟩ := Option.map_eq_some_iff.mp h
      obtain ⟨rfl, rfl⟩ := Prod.mk.inj he
      simp [ih hb]

theorem eq_of_cutLast? {sep text before after : Text}
    (h : cutLast? sep text = some (before, after)) : text = before ++ sep ++ after := by
  induction text generalizing before after with
  | nil =>
    simp only [cutLast?] at h
    split at h
    · obtain ⟨rfl, rfl⟩ := Prod.mk.inj (Option.some.inj h)
      simp_all
    · contradiction
  | cons c cs ih =>
    simp only [cutLast?] at h
    split at h
    · rename_i b a hb
      obtain ⟨rfl, rfl⟩ := Prod.mk.inj (Option.some.inj h)
      simp [ih hb]
    · obtain ⟨rest, hp, he⟩ := Option.map_eq_some_iff.mp h
      obtain ⟨rfl, rfl⟩ := Prod.mk.inj he
      simpa using eq_append_of_dropPrefix? hp

end Text

end Coedit
