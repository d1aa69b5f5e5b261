import Coedit.Text.Basic

/-!
Files are told apart by an identifier that means nothing here. Identifiers are shown as they are
and ordered by their characters' code points; `sortedDistinct` holds the same identifiers
(`mem_sortedDistinct`) in strictly rising order (`pairwise_sortedDistinct`).
-/
namespace Coedit

/-- The identifier of a file that is edited together. -/
structure FileId where
  name : Text
  deriving DecidableEq, Repr

namespace FileId

def display (id : FileId) : Text := id.name

def nameLe : Text → Text → Bool
  | [], _ => true
  | _ :: _, [] => false
  | c :: cs, d :: ds => c < d || (c == d && nameLe cs ds)

def le (a b : FileId) : Bool := nameLe a.name b.name

/-- Puts an identifier into its place, unless it is there already. -/
def insertSorted (id : FileId) : List FileId → List FileId
  | [] => [id]
  | other :: more =>
    if id = other then other :: more
    else if id.le other then id :: other :: more
    else other :: insertSorted id more

def sortedDistinct (ids : List FileId) : List FileId := ids.foldr insertSorted []

theorem mem_insertSorted {id a : FileId} {ids : List FileId} :
    a ∈ insertSorted id ids ↔ a = id ∨ a ∈ ids := by
  induction ids with
  | nil => simp [insertSorted]
  | cons other more ih =>
    simp only [insertSorted]
    split
    · rename_i h
      subst h
      simp
    · split
      · simp
      · simp only [List.mem_cons, ih]
        constructor <;> intro h <;> rcases h with h | h | h <;> simp [h]

theorem mem_sortedDistinct {a : FileId} {ids : List FileId} :
    a ∈ sortedDistinct ids ↔ a ∈ ids := by
  induction ids with
  | nil => simp [sortedDistinct]
  | cons id ids ih =>
    have : sortedDistinct (id :: ids) = insertSorted id (sortedDistinct ids) := rfl
    rw [this, mem_insertSorted, ih, List.mem_cons]

theorem nameLe_cons {c d : Char} {cs ds : Text} :
    nameLe (c :: cs) (d :: ds) ↔ c < d ∨ c = d ∧ nameLe cs ds := by
  simp [nameLe]

theorem nameLe_total (s t : Text) : nameLe s t ∨ nameLe t s := by
  induction s generalizing t with
  | nil => exact .inl rfl
  | cons c cs ih =>
    cases t with
    | nil => exact .inr rfl
    | cons d ds =>
      rw [nameLe_cons, nameLe_cons]
      have := ih ds
      grind

theorem nameLe_trans {s t u : Text} (h : nameLe s t) (h' : nameLe t u) : nameLe s u := by
  induction s generalizing t u with
  | nil => rfl
  | cons c cs ih =>
    cases t with
    | nil => cases h
    | cons d ds =>
      cases u with
      | nil => cases h'
      | cons e es =>
        rw [nameLe_cons] at h h' ⊢
        rcases h with h | ⟨rfl, h⟩
        · rcases h' with h' | ⟨rfl, _⟩
          · exact .inl (Char.lt_trans h h')
          · exact .inl h
        · rcases h' with h' | ⟨rfl, h'⟩
          · exact .inl h'
          · exact .inr ⟨rfl, ih h h'⟩

theorem nameLe_antisymm {s t : Text} (h : nameLe s t) (h' : nameLe t s) : s = t := by
  induction s generalizing t with
  | nil =>
    cases t with
    | nil => rfl
    | cons d ds => cases h'
  | cons c cs ih =>
    cases t with
    | nil => cases h
    | cons d ds =>
      rw [nameLe_cons] at h h'
      rcases h with h | ⟨rfl, h⟩
      · rcases h' with h' | ⟨rfl, _⟩
        · exact absurd h' (Char.lt_asymm h)
        · exact absurd h (Char.lt_irrefl _)
      · rcases h' with h' | ⟨_, h'⟩
        · exact absurd h' (Char.lt_irrefl _)
        · rw [ih h h']

theorem le_antisymm {a b : FileId} (h : a.le b) (h' : b.le a) : a = b := by
  cases a
  cases b
  exact congrArg FileId.mk (nameLe_antisymm h h')

/-- Insertion keeps a strictly ordered list so. -/
theorem pairwise_insertSorted {id : FileId} {ids : List FileId}
    (h : ids.Pairwise fun a b => a.le b ∧ a ≠ b) :
    (insertSorted id ids).Pairwise fun a b => a.le b ∧ a ≠ b := by
  induction ids with
  | nil => exact List.pairwise_singleton _ _
  | cons other more ih =>
    obtain ⟨hother, hmore⟩ := List.pairwise_cons.mp h
    simp only [insertSorted]
    split
    · exact h
    · rename_i hne
      split
      · rename_i hle
        refine List.pairwise_cons.mpr ⟨fun b hb => ?_, h⟩
        rcases List.mem_cons.mp hb with rfl | hb
        · exact ⟨hle, hne⟩
        · refine ⟨nameLe_trans hle (hother b hb).1, ?_⟩
          rintro rfl
          exact hne (le_antisymm hle (hother _ hb).1)
      · rename_i hle
        have hother' : other.le id := (nameLe_total _ _).resolve_left hle
        refine List.pairwise_cons.mpr ⟨fun b hb => ?_, ih hmore⟩
        rcases mem_insertSorted.mp hb with rfl | hb
        · exact ⟨hother', Ne.symm hne⟩
        · exact hother b hb

theorem pairwise_sortedDistinct (ids : List FileId) :
    (sortedDistinct ids).Pairwise fun a b => a.le b ∧ a ≠ b := by
  induction ids with
  | nil => exact .nil
  | cons id ids ih => exact pairwise_insertSorted ih

end FileId

end Coedit
