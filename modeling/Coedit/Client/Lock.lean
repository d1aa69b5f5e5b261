/-!
A lock that is held by many at once or by one alone. Those who wait are served strictly in the
order in which they came: nobody overtakes a waiting task, and a task that is served holds the
lock before it runs again.
-/
namespace Coedit

/-- Whether the lock is held together with others or alone. -/
inductive LockMode where
  | shared
  | exclusive
  deriving DecidableEq, Repr

/-- Who holds a lock and who waits for it. -/
structure Lock (Task : Type) where
  /-- How many hold it together. -/
  sharers : Nat := 0
  /-- Whether one holds it alone. -/
  alone : Bool := false
  waiting : List (Task × LockMode) := []
  deriving DecidableEq, Repr

namespace Lock

variable {Task : Type}

/-- Whether a mode goes together with those who hold the lock. -/
def admits (l : Lock Task) : LockMode → Bool
  | .shared => !l.alone
  | .exclusive => !l.alone && l.sharers == 0

def add (l : Lock Task) : LockMode → Lock Task
  | .shared => { l with sharers := l.sharers + 1 }
  | .exclusive => { l with alone := true }

/-- Takes the lock, or waits for it behind all others. The answer says whether it is held. -/
def acquire (l : Lock Task) (task : Task) (mode : LockMode) : Lock Task × Bool :=
  if l.waiting.isEmpty && l.admits mode then (l.add mode, true)
  else ({ l with waiting := l.waiting ++ [(task, mode)] }, false)

/-- Serves the tasks at the head of those who wait, as long as they fit. -/
def serve (l : Lock Task) : List (Task × LockMode) → Lock Task × List Task
  | [] => ({ l with waiting := [] }, [])
  | (task, mode) :: rest =>
    if l.admits mode then
      let (l, served) := (l.add mode).serve rest
      (l, task :: served)
    else ({ l with waiting := (task, mode) :: rest }, [])

/-- Gives the lock back and serves who can be served. -/
def release (l : Lock Task) (mode : LockMode) : Lock Task × List Task :=
  match mode with
  | .shared => { l with sharers := l.sharers - 1 }.serve l.waiting
  | .exclusive => { l with alone := false }.serve l.waiting

end Lock

end Coedit
