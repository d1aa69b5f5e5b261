/-!
Finite maps that keep their keys in the order in which they came. `get?_set` and `get?_erase` say
what a look-up finds afterwards.
-/
namespace Coedit

/-- Keys with one value each. -/
structure Table (κ α : Type) where
  entries : List (κ × α) := []
  deriving DecidableEq, Repr

namespace Table

variable {κ α : Type} [DecidableEq κ]

def get? (t : Table κ α) (k : κ) : Option α := (t.entries.find? fun e => e.1 = k).map Prod.snd

/-- The entries with a new value for a key, which goes last if it is new. -/
def setEntry (k : κ) (a : α) : List (κ × α) → List (κ × α)
  | [] => [(k, a)]
  | e :: es => if e.1 = k then (k, a) :: es else e :: setEntry k a es

def set (t : Table κ α) (k : κ) (a : α) : Table κ α := ⟨setEntry k a t.entries⟩

def erase (t : Table κ α) (k : κ) : Table κ α := ⟨t.entries.filter fun e => e.1 ≠ k⟩

def keys (t : Table κ α) : List κ := t.entries.map Prod.fst

@[simp] theorem get?_empty (k : κ) : (⟨[]⟩ : Table κ α).get? k = none := rfl

theorem find?_setEntry (k j : κ) (a : α) (es : List (κ × α)) :
    ((setEntry k a es).find? fun e => e.1 = j) =
      if k = j then some (k, a) else es.find? fun e => e.1 = j := by
  induction es with
  | nil => by_cases h : k = j <;> simp [setEntry, h]
  | cons e es ih =>
    by_cases he : e.1 = k
    · by_cases h : k = j
      · simp [setEntry, he, h]
      · simp [setEntry, he, h]
    · by_cases h : k = j
      · subst h
        simp [setEntry, he, ih]
      · simp [setEntry, he, h, List.find?_cons, ih]

theorem get?_set (t : Table κ α) (k j : κ) (a : α) :
    (t.set k a).get? j = if k = j then some a else t.get? j := by
  unfold get? set
  rw [find?_setEntry]
  split <;> rfl

@[simp] theorem get?_set_self (t : Table κ α) (k : κ) (a : α) : (t.set k a).get? k = some a := by
  simp [get?_set]

theorem get?_set_of_ne {k j : κ} (h : k ≠ j) (t : Table κ α) (a : α) :
    (t.set k a).get? j = t.get? j := by
  simp [get?_set, h]

theorem get?_erase (t : Table κ α) (k j : κ) :
    (t.erase k).get? j = if k = j then none else t.get? j := by
  unfold get? erase
  rw [List.find?_filter]
  by_cases h : k = j
  · subst h
    simp
  · rw [if_neg h]
    congr 2
    funext e
    by_cases he : e.1 = j
    · simp [he, Ne.symm h]
    · simp [he]

end Table

end Coedit
