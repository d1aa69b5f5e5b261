import Coedit.Session.Perform

/-!
The steps of tasks. A task goes through its phases one step at a time; it goes on running until
it comes to a phase in which it waits (`State.waits`). A sender holds the send slot of its file
through a round and shares the lock with other senders; the notifier takes the lock alone, so
that it never changes a queue while a request made of it is under way.
-/
namespace Coedit.Session

namespace State

/-- What the script lets happen when a change is offered to a document. -/
def beforeOffer (s : State) : State :=
  match s.applyScript with
  | [] => s
  | actions :: more => { s with applyScript := more }.performNested actions

/-- Offers a change to a document. The script may let things happen first, and refuse the
change. -/
def offer (s : State) (file : FileId) (patch : Patch) (expected : Int) : State × Verdict :=
  let s := s.beforeOffer
  let (s, result) :=
    match s.refusals with
    | 0 =>
      let (documents, result) := s.documents.apply file patch expected
      ({ s with documents }, result)
    | refusals + 1 => ({ s with refusals }, .ok none)
  let offers := s.record.offers ++ [⟨file, patch, expected, result⟩]
  ({ s with record := { s.record with offers } },
    match result with
    | .ok (some stamp) => .accepted stamp
    | .ok none => .refused (s.documents.stamp file)
    | .error error => .failed error)

/-- One attempt to take a remote change in. The expected stamp is read before the incoming
patches are taken, so that no edit in the document is overlooked. -/
def attempt (s : State) (file : FileId) (box : Nat) (change : RemoteChange) : State × Attempt :=
  let drained := (s.outbox box).drain
  let s := s.setOutbox box drained
  match change.plan drained.queue with
  | .error error => (s, .finished (.error (.consolidate error)))
  | .ok plan =>
    let (s, verdict) := s.offer file plan.incoming drained.stamp
    let (settled, attempt) := change.settle plan verdict (s.outbox box)
    (s.setOutbox box settled, attempt)

/-- Takes the lock for a task, or puts it in line. -/
def acquire (s : State) (task : TaskId) (mode : LockMode) : State × Bool :=
  let (lock, held) := s.lock.acquire task mode
  ({ s with lock }, held)

def releaseLock (s : State) (mode : LockMode) : State :=
  let (lock, served) := s.lock.release mode
  { s with lock }.wakeAll served

def submit (s : State) (sender : Nat) (file : FileId) (patch : Patch) : State × Nat :=
  let index := s.deliveries.length
  let request := Request.ofPatch (Uuid.ofNat index) file patch
  let s := { s with deliveries := s.deliveries ++ [Delivery.mk request sender .submitted] }
  (s.wake (.delivery index), index)

/-- Opens a send round and asks the server if there is something to ask. -/
def openRound (s : State) (index : Nat) (file : FileId) (box : Nat) : State :=
  let (opened, start) := (s.outbox box).openRound s.settings.writeThreshold
  let s := s.setOutbox box opened
  match start with
  | .finished result => s.setSender index (.closing box result)
  | .request patch count =>
    let (s, delivery) := s.submit index file patch
    let deadline := s.clock + s.settings.timeoutMs
    (s.setTimer deadline (.sender index)).setSender index
      (.awaiting box delivery patch count deadline)

def answer? (s : State) (delivery : Nat) : Answer :=
  match s.deliveries[delivery]? with
  | some ⟨_, _, .answered answer⟩ => some answer
  | _ => none

/-- Takes the answer of a round in, or its absence. -/
def closeRound (s : State) (index : Nat) (file : FileId) (box : Nat) (sent : Patch) (count : Nat)
    (answer : Answer) : State :=
  let (closed, ending) := (s.outbox box).closeRound file sent count answer
  let s := (s.cancelTimers (.sender index)).setOutbox box closed
  match ending with
  | .finished result => s.setSender index (.closing box result)
  | .reconcile change => s.setSender index (.reconciling box change)

/-- Ends a round: frees lock and slot, and goes on if patches came in meanwhile. A fault ends the
sender. -/
def finishRound (s : State) (index : Nat) (box : Nat) (result : Except SyncError Unit) : State :=
  let s := s.releaseLock .shared
  let freed := (s.outbox box).release
  let s := s.setOutbox box freed
  match result with
  | .error error => s.setSender index (.finished (.error error))
  | .ok () =>
    s.setSender index (if freed.hasPending then .claiming box else .finished (.ok ()))

def stepSender (s : State) (index : Nat) (sender : Sender) : State :=
  match sender.phase with
  | .starting =>
    match s.tracked.get? sender.file with
    | none => s.setSender index (.finished (.ok ()))
    | some box => s.setSender index (.claiming box)
  | .claiming box =>
    match (s.outbox box).claim? with
    | none => s.setSender index (.finished (.ok ()))
    | some claimed =>
      let (s, held) := (s.setOutbox box claimed).acquire (.sender index) .shared
      s.setSender index (if held then .opening box else .queued box)
  | .queued box => s.setSender index (.opening box)
  | .opening box => s.openRound index sender.file box
  | .awaiting box delivery sent count deadline =>
    match s.answer? delivery with
    | some answer => s.closeRound index sender.file box sent count (some answer)
    | none =>
      if deadline ≤ s.clock then s.closeRound index sender.file box sent count none else s
  | .reconciling box change =>
    let (s, attempt) := s.attempt sender.file box change
    match attempt with
    | .again => s
    | .finished result => s.setSender index (.closing box result)
  | .closing box result => s.finishRound index box result
  | .finished _ => s

/-- Opens a notification: a change that is already known is passed over, and one that cannot be
read changes nothing. -/
def openNotification (s : State) (notification : Notification) : State :=
  match notification.patch with
  | .error error => { s with notifier := .closing (.error (.format error)) }
  | .ok patch =>
    let (s, box) := s.track notification.file patch.baseVersion
    if notification.version ≤ (s.outbox box).version then
      { s with notifier := .closing (.ok ()) }
    else
      { s with notifier := .reconciling notification.file box ⟨patch, notification.version⟩ }

def stepNotifier (s : State) : State :=
  match s.notifier with
  | .idle => { s with notifier := .receiving }
  | .receiving =>
    match s.notifications with
    | [] => { s with notifier := .idle }
    | notification :: more =>
      let (s, held) := { s with notifications := more }.acquire .notifier .exclusive
      { s with notifier := if held then .opening notification else .queued notification }
  | .queued notification => { s with notifier := .opening notification }
  | .opening notification => s.openNotification notification
  | .reconciling file box change =>
    let (s, attempt) := s.attempt file box change
    match attempt with
    | .again => s
    | .finished result => { s with notifier := .closing result }
  | .closing _ => { s.releaseLock .exclusive with notifier := .receiving }

def commitRequest (s : State) (request : Request) : State × Except SendError Response :=
  match request.patch with
  | .error _ => (s, .error .crashed)
  | .ok patch =>
    let file := s.server.file request.file
    match file.commit patch with
    | .error error => ({ s with server := s.server.set request.file file }, .error error)
    | .ok (committed, missing) =>
      ({ s with server := s.server.set request.file committed },
        .ok (Response.committed request.requestId committed.version missing))

def answerRequest (s : State) (request : Request) :
    ReplyKind → State × Option (Except SendError Response)
  | .commit =>
    let (s, answer) := s.commitRequest request
    (s, some answer)
  | .stall => (s, none)
  | .fail error => (s, some (.error error))
  | .answer status version missing reason =>
    (s, some (.ok ⟨request.requestId, status, version, missing, reason⟩))

/-- Brings an answer to the sender that still waits for it. -/
def arrive (s : State) (index sender : Nat) (answer : Except SendError Response) : State :=
  let s := s.setDelivery index (.answered answer)
  match s.senders[sender]? with
  | some ⟨_, .awaiting _ delivery _ _ _⟩ =>
    if delivery = index then s.wake (.sender sender) else s
  | _ => s

/-- How long an answer is held back. There is none to hold back when the transport breaks down. -/
def withholding (delay : Nat) : Except SendError Response → Nat
  | .error .crashed => 0
  | _ => delay

def stepDelivery (s : State) (index : Nat) (delivery : Delivery) : State :=
  match delivery.phase with
  | .submitted =>
    let request := delivery.request
    let requests := s.record.requests ++ [(request.file, request.patchText)]
    let s := { s with record := { s.record with requests } }
    let (.mk during delay kind) := s.replies.headD .standard
    let s := { s with replies := s.replies.tail }.performNested during
    let (s, answer) := s.answerRequest request kind
    match answer with
    | none => s.setDelivery index .lost
    | some answer =>
      let delay := withholding delay answer
      if delay = 0 then s.arrive index delivery.sender answer
      else (s.setTimer (s.clock + delay) (.delivery index)).setDelivery index (.withheld answer)
  | .withheld answer => s.arrive index delivery.sender answer
  | .answered _ => s
  | .lost => s

def stepTask (s : State) : TaskId → State
  | .notifier => s.stepNotifier
  | .sender index =>
    match s.senders[index]? with
    | some sender => s.stepSender index sender
    | none => s
  | .delivery index =>
    match s.deliveries[index]? with
    | some delivery => s.stepDelivery index delivery
    | none => s

/-- Whether a task waits or is done, so that the next one can run. -/
def waits (s : State) : TaskId → Bool
  | .notifier =>
    match s.notifier with
    | .idle | .queued _ => true
    | _ => false
  | .sender index =>
    match s.senders[index]?.map Sender.phase with
    | none | some (.queued _) | some (.awaiting ..) | some (.finished _) => true
    | _ => false
  | .delivery _ => true

end State

end Coedit.Session
