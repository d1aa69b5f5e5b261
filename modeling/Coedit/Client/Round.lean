import Coedit.Client.Reconcile
import Coedit.Message.Basic

/-!
A send round of one file, in two halves: `openRound` takes the waiting patches and says what to
ask of the server, `closeRound` takes the answer in. In between the outbox may change: patches
may come in, and nothing else.
-/
namespace Coedit

/-- What a request comes back with; nothing if no answer came in time. -/
abbrev Answer := Option (Except SendError Response)

inductive RoundStart where
  /-- There is nothing to ask. -/
  | finished (result : Except SyncError Unit)
  /-- The server is asked to commit `patch`, which joins the first `count` patches. -/
  | request (patch : Patch) (count : Nat)

inductive RoundEnd where
  | finished (result : Except SyncError Unit)
  /-- The batch is committed behind patches of others, which are to be taken in. -/
  | reconcile (change : RemoteChange)

namespace Outbox

/-- Takes the incoming patches in and joins the first `threshold` of the queue. A batch that
changes nothing is dropped unsent. -/
def openRound (o : Outbox) (threshold : Nat) : Outbox × RoundStart :=
  let o := o.drain
  let batch := o.snapshot threshold
  match Patch.consolidate batch with
  | .error error => (o, .finished (.error (.consolidate error)))
  | .ok none => (o, .finished (.ok ()))
  | .ok (some patch) =>
    if patch.isEmpty then (o.removeSent batch.length, .finished (.ok ()))
    else (o, .request patch batch.length)

/-- Takes in a commit of the first `count` patches, which were sent as `sent`. The batch stays if
a missing patch cannot be read, and is gone otherwise. -/
def closeCommitted (o : Outbox) (sent : Patch) (count : Nat) (response : Response) :
    Outbox × RoundEnd :=
  match response.missingPatches with
  | .error error => (o, .finished (.error (.format error)))
  | .ok missing =>
    let o := o.removeSent count
    match Patch.consolidate missing with
    | .error error => (o, .finished (.error (.consolidate error)))
    | .ok none => (o.advance response.version, .finished (.ok ()))
    | .ok (some remote) =>
      (o, .reconcile (RemoteChange.pastSent ⟨remote, response.version⟩ sent))

/-- Takes in the answer to a request. Without an answer nothing changes; a refused batch is given
up. -/
def closeRound (o : Outbox) (file : FileId) (sent : Patch) (count : Nat) (answer : Answer) :
    Outbox × RoundEnd :=
  match answer with
  | none => (o, .finished (.ok ()))
  | some (.error error) => (o, .finished (.error (.sendFailure error)))
  | some (.ok response) =>
    if response.isOk then o.closeCommitted sent count response
    else
      (o.removeSent count, .finished (.error (.rejected file (response.reason.getD []))))

end Outbox

end Coedit
