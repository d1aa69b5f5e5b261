import Coedit.Session.State

/-!
What actions do to a session. An action never waits: tasks that it starts run later.
-/
namespace Coedit.Session

namespace State

def mention (s : State) (file : FileId) : State :=
  if file ∈ s.record.named then s
  else { s with record := { s.record with named := s.record.named ++ [file] } }

/-- The patch that the user makes of diffs: on the live text, and on the version that the client
knows unless another is given. -/
def localPatch (s : State) (file : FileId) (diffs : List Diff) (version : Option Int) : Patch :=
  let known := ((s.outboxOf? file).map Outbox.version).getD 0
  Patch.forDocument (version.getD known) diffs (s.documents.buffer file).text.length

def editDocument (s : State) (file : FileId) (patch : Patch) : State × Result :=
  let (documents, result) := s.documents.edit file patch
  ({ s with documents },
    match result with
    | .ok stamp => .stamp stamp
    | .error error => .applyError error)

/-- Another client commits on the server, where an unknown file is empty. -/
def commitOther (s : State) (file : FileId) (diffs : List Diff) (pushed : Bool) :
    State × Result :=
  let current := s.server.file file
  match current.commitDiffs diffs with
  | .error error => ({ s with server := s.server.set file current }, .applyError error)
  | .ok (committed, patch) =>
    let s := { s with server := s.server.set file committed }
    let s :=
      if pushed then s.pushNotification (Notification.ofPatch file patch committed.version) else s
    (s, .text patch.render)

/-- Forgets an open file and what waits for it. -/
def close (s : State) (file : FileId) : State × Result :=
  ({ s with tracked := s.tracked.erase file }, .flag (s.tracked.get? file).isSome)

end State

mutual
def perform (s : State) : Action → State × Result
  | .edit file diffs version =>
    let s := s.mention file
    let patch := s.localPatch file diffs version
    (s.sendPatches file [patch]).editDocument file patch
  | .editUnsent file diffs version =>
    let s := s.mention file
    s.editDocument file (s.localPatch file diffs version)
  | .setText file text =>
    let s := s.mention file
    ({ s with documents := s.documents.insert file text }, .nothing)
  | .send file patches =>
    let s := s.mention file
    match patches with
    | .error error => (s, .formatError error)
    | .ok patches => (s.sendPatches file patches, .nothing)
  | .notify notification =>
    ((s.mention notification.file).pushNotification notification, .nothing)
  | .commitOther file diffs pushed => (s.mention file).commitOther file diffs pushed
  | .openFile file version => (((s.mention file).track file version).1, .nothing)
  | .closeFile file => (s.mention file).close file
  | .applyPatches content patches =>
    match patches with
    | .error error => (s, .formatError error)
    | .ok patches =>
      (s, match Patch.applyAll content patches with
        | .ok text => .text text
        | .error error => .applyError error)
  | .respond replies => ({ s with replies := s.replies ++ replies }, .nothing)
  | .refuse count => ({ s with refusals := s.refusals + count }, .nothing)
  | .onApply actions => ({ s with applyScript := s.applyScript ++ [actions] }, .nothing)
  | .batch actions =>
    let (s, results) := performAll s actions
    (s, .all results)

def performAll (s : State) : List Action → State × List Result
  | [] => (s, [])
  | action :: more =>
    let (s, result) := perform s action
    let (s, results) := performAll s more
    (s, result :: results)
end

/-- Performs scripted actions and notes their results. -/
def State.performNested (s : State) (actions : List Action) : State :=
  let (s, results) := performAll s actions
  { s with record := { s.record with nested := s.record.nested ++ results } }

end Coedit.Session
