import Coedit.Client.Lock
import Coedit.Client.Round
import Coedit.Client.Settings
import Coedit.Documents
import Coedit.Server
import Coedit.Session.Script

/-!
A session is one client with its documents, the server, and the tasks that carry changes between
them. One processor runs the tasks in the order in which they become ready, each until it waits;
time is a clock that stands still while anything can run. Numbers have no bounds in a session: it is
the machine's for as long as every patch that is made, joined, transformed or applied on the way is
one that the functions of `Coedit.Checked` give as well.
-/
namespace Coedit.Session

/-- A task: the one that takes in notifications, a sender of a file's patches, or a request on
its way. -/
inductive TaskId where
  | notifier
  | sender (index : Nat)
  | delivery (index : Nat)
  deriving DecidableEq, Repr

inductive NotifierPhase where
  /-- Waits for a notification. -/
  | idle
  | receiving
  /-- Waits for the lock. -/
  | queued (notification : Notification)
  | opening (notification : Notification)
  | reconciling (file : FileId) (box : Nat) (change : RemoteChange)
  | closing (result : Except SyncError Unit)

inductive SenderPhase where
  | starting
  | claiming (box : Nat)
  /-- Holds the send slot and waits for the lock. -/
  | queued (box : Nat)
  | opening (box : Nat)
  /-- Waits for the answer to a delivery, which joins `count` patches in `sent`. -/
  | awaiting (box delivery : Nat) (sent : Patch) (count : Nat) (deadline : Nat)
  | reconciling (box : Nat) (change : RemoteChange)
  | closing (box : Nat) (result : Except SyncError Unit)
  | finished (result : Except SyncError Unit)

structure Sender where
  file : FileId
  phase : SenderPhase

inductive DeliveryPhase where
  | submitted
  /-- The answer is held back. -/
  | withheld (answer : Except SendError Response)
  | answered (answer : Except SendError Response)
  /-- There will be no answer. -/
  | lost

structure Delivery where
  request : Request
  sender : Nat
  phase : DeliveryPhase

structure Timer where
  due : Nat
  task : TaskId
  deriving DecidableEq, Repr

/-- A change that was offered to a document. -/
structure Offer where
  file : FileId
  patch : Patch
  expected : Int
  result : Except ApplyError (Option Int)

structure Record where
  requests : List (FileId × Text) := []
  offers : List Offer := []
  nested : List Result := []
  /-- The files that an action has named. -/
  named : List FileId := []

/-- A client with its documents, the server, and what is under way between them. -/
structure State where
  settings : Settings
  documents : Documents := {}
  server : Server := {}
  /-- Which outbox belongs to an open file. An outbox outlives its file for senders that still
  hold it. -/
  tracked : Table FileId Nat := {}
  outboxes : List Outbox := []
  notifications : List Notification := []
  lock : Lock TaskId := {}
  notifier : NotifierPhase := .idle
  senders : List Sender := []
  deliveries : List Delivery := []
  /-- The tasks that can run; the first one runs. -/
  ready : List TaskId := []
  timers : List Timer := []
  /-- Milliseconds since the start. -/
  clock : Nat := 0
  replies : List Reply := []
  applyScript : List (List Action) := []
  refusals : Nat := 0
  record : Record := {}

namespace State

/-- An outbox by its number; one that is not there is empty. -/
def outbox (s : State) (box : Nat) : Outbox := s.outboxes.getD box (.opened 0 0)

def outboxOf? (s : State) (file : FileId) : Option Outbox := (s.tracked.get? file).map s.outbox

def setOutbox (s : State) (box : Nat) (o : Outbox) : State :=
  { s with outboxes := s.outboxes.set box o }

/-- Opens a file at a version, unless it is open, and gives the number of its outbox. -/
def track (s : State) (file : FileId) (version : Int) : State × Nat :=
  match s.tracked.get? file with
  | some box => (s, box)
  | none =>
    let box := s.outboxes.length
    ({ s with
      tracked := s.tracked.set file box
      outboxes := s.outboxes ++ [.opened version (s.documents.stamp file)] }, box)

/-- Lets a task run once its turn comes. -/
def wake (s : State) (task : TaskId) : State :=
  if task ∈ s.ready then s else { s with ready := s.ready ++ [task] }

def wakeAll (s : State) (tasks : List TaskId) : State := tasks.foldl wake s

def setTimer (s : State) (due : Nat) (task : TaskId) : State :=
  { s with timers := s.timers ++ [⟨due, task⟩] }

def cancelTimers (s : State) (task : TaskId) : State :=
  { s with timers := s.timers.filter fun timer => timer.task ≠ task }

def setSender (s : State) (index : Nat) (phase : SenderPhase) : State :=
  { s with senders := s.senders.modify index fun sender => { sender with phase } }

def setDelivery (s : State) (index : Nat) (phase : DeliveryPhase) : State :=
  { s with deliveries := s.deliveries.modify index fun delivery => { delivery with phase } }

def spawnSender (s : State) (file : FileId) : State :=
  let spawned : State := { s with senders := s.senders ++ [⟨file, .starting⟩] }
  spawned.wake (.sender s.senders.length)

def oldestVersion (first : Patch) (more : List Patch) : Int :=
  (more.map Patch.baseVersion).foldl min first.baseVersion

/-- Puts local patches into the outbox of a file, which is opened if need be. -/
def enqueue (s : State) (file : FileId) : List Patch → State
  | [] => s
  | first :: more =>
    let (s, box) := s.track file (oldestVersion first more)
    s.setOutbox box ((s.outbox box).enqueue (first :: more))

/-- Hands local patches over: they wait at once, and a new task sends them. -/
def sendPatches (s : State) (file : FileId) (patches : List Patch) : State :=
  (s.enqueue file patches).spawnSender file

def pushNotification (s : State) (notification : Notification) : State :=
  let s := { s with notifications := s.notifications ++ [notification] }
  match s.notifier with
  | .idle => s.wake .notifier
  | _ => s

end State

end Coedit.Session
