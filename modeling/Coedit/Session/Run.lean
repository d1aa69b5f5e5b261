import Coedit.Session.Task

/-!
Running a session until nothing is left to do.
-/
namespace Coedit.Session

structure FileSetup where
  file : FileId
  text : Text
  /-- The version at which the client opens the file, if it does. -/
  opened : Option Int
  serverText : Text

namespace State

def place (s : State) (f : FileSetup) : State :=
  { s with
    documents := s.documents.insert f.file f.text
    server := s.server.set f.file ⟨f.serverText, []⟩ }.mention f.file

def openFrom (s : State) (f : FileSetup) : State :=
  match f.opened with
  | some version => (s.track f.file version).1
  | none => s

/-- The start of a session: all files are in their places before the first one is opened. -/
def start (settings : Settings) (files : List FileSetup) : State :=
  files.foldl openFrom (files.foldl place { settings })

def nextDue (s : State) : Option Nat := (s.timers.map Timer.due).min?

/-- Sets the clock to a time and wakes the tasks whose timers are due then. -/
def jump (s : State) (time : Nat) : State :=
  let (due, later) := s.timers.partition fun timer => timer.due ≤ time
  { s with clock := time, timers := later }.wakeAll (due.map Timer.task)

/-- One step of the task that runs, or else a jump of the clock; none if nothing is left to
do. -/
def step (s : State) : Option State :=
  match s.ready with
  | task :: _ =>
    let s := s.stepTask task
    some (if s.waits task then { s with ready := s.ready.tail } else s)
  | [] => s.nextDue.map s.jump

/-- As many steps as there are to do, at most `fuel`. -/
def run : Nat → State → State
  | 0, s => s
  | fuel + 1, s =>
    match s.step with
    | none => s
    | some s => run fuel s

/-- Lets one thing happen, and then everything that follows from it within `fuel` steps. -/
def act (s : State) (fuel : Nat) (action : Action) : State × Result :=
  let (s, result) := perform s action
  (run fuel s, result)

/-- The state with nothing seen of it but the names of files. -/
def clearRecord (s : State) : State := { s with record := { named := s.record.named } }

end State

end Coedit.Session
