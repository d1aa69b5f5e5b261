import Coedit.Text.Basic

/-!
The two line endings: a break alone, and a carriage return before each break. The counts say how
far an index moves when a text goes from the one to the other.
-/
namespace Coedit.Text

/-- Puts a carriage return before every break. -/
def toCrlf (text : Text) : Text :=
  text.flatMap fun c => if c = '\n' then ['\r', '\n'] else [c]

/-- Drops each carriage return that stands before a break. -/
def toLf : Text → Text
  | [] => []
  | c :: cs => if c = '\r' ∧ cs.head? = some '\n' then toLf cs else c :: toLf cs

def hasCrlf : Text → Bool
  | [] => false
  | c :: cs => (c == '\r' && cs.head? == some '\n') || hasCrlf cs

def breakCount (text : Text) : Nat := text.count '\n'

/-- How many breaks of a text have a carriage return before them. -/
def pairCount : Text → Nat
  | [] => 0
  | c :: cs => (if c = '\r' ∧ cs.head? = some '\n' then 1 else 0) + pairCount cs

def breaksBefore (text : Text) (index : Nat) : Nat := breakCount (text.take index)

/-- How many pairs of carriage return and break end before an index. -/
def pairsBefore (text : Text) (index : Nat) : Nat := pairCount (text.take index)

@[simp] theorem toCrlf_nil : toCrlf [] = [] := rfl

theorem toCrlf_cons (c : Char) (cs : Text) :
    toCrlf (c :: cs) = (if c = '\n' then ['\r', '\n'] else [c]) ++ toCrlf cs := rfl

theorem length_toCrlf (text : Text) : (toCrlf text).length = text.length + breakCount text := by
  induction text with
  | nil => rfl
  | cons c cs ih =>
    have hb : breakCount (c :: cs) = breakCount cs + if c = '\n' then 1 else 0 := by
      simp [breakCount, List.count_cons]
    rw [toCrlf_cons, List.length_append, ih, hb]
    split <;> simp <;> omega

end Coedit.Text
