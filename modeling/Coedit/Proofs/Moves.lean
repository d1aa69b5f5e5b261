import Coedit.Session.Task

/-!
What is done to outboxes, written down move by move. A round and the settling of a plan are moves
(`Outbox.openRound_eq`, `Outbox.closeRound_eq`, `RemoteChange.settle_eq`), and so is what an action
or a step of a task does: `performLog` and `State.taskLog` follow the program and note every move,
together with the number of the outbox.
-/
namespace Coedit

/-- One thing that is done to an outbox. -/
inductive Move where
  /-- The file is opened. -/
  | opened (version stamp : Int)
  /-- Local patches are handed over. -/
  | enqueue (patches : List Patch)
  | drain
  /-- The first patches of the queue leave it. -/
  | remove (count : Nat)
  /-- Other patches take the place of the queue. -/
  | replace (patches : List Patch)
  | advance (version : Int)
  | expect (stamp : Int)
  /-- A sender takes the send slot. -/
  | claim (sender : Nat)
  | release
  /-- A delivery asks for the first patches of the queue to be committed. -/
  | ask (delivery count : Nat)

/-- Whether a move is part of a round or of a reconciliation, which hands nothing over and leaves the
send slot alone. -/
def Move.IsWork : Move → Prop
  | .drain | .remove _ | .replace _ | .advance _ | .expect _ | .ask _ _ => True
  | .opened _ _ | .enqueue _ | .claim _ | .release => False

namespace Outbox

def move (o : Outbox) : Move → Outbox
  | .opened version stamp => .opened version stamp
  | .enqueue patches => o.enqueue patches
  | .drain => o.drain
  | .remove count => o.removeSent count
  | .replace patches => o.replaceQueue patches
  | .advance version => o.advance version
  | .expect stamp => o.expectStamp stamp
  | .claim _ => { o with sending := true }
  | .release => o.release
  | .ask _ _ => o

def moveAll (o : Outbox) (moves : List Move) : Outbox := moves.foldl move o

def openMoves (o : Outbox) (threshold delivery : Nat) : List Move :=
  let batch := o.drain.snapshot threshold
  .drain :: match Patch.consolidate batch with
    | .ok (some patch) =>
      if patch.isEmpty then [.remove batch.length] else [.ask delivery batch.length]
    | _ => []

def closeMoves (count : Nat) : Answer → List Move
  | some (.ok response) =>
    if response.isOk then
      match response.missingPatches with
      | .error _ => []
      | .ok missing =>
        .remove count :: match Patch.consolidate missing with
          | .ok none => [.advance response.version]
          | _ => []
    else [.remove count]
  | _ => []

theorem openRound_eq (o : Outbox) (threshold delivery : Nat) :
    (o.openRound threshold).1 = o.moveAll (o.openMoves threshold delivery) := by
  simp only [openRound, openMoves]
  cases Patch.consolidate (o.drain.snapshot threshold) with
  | error error => rfl
  | ok joined =>
    cases joined with
    | none => rfl
    | some patch =>
      dsimp only
      split <;> rfl

theorem closeRound_eq (o : Outbox) (file : FileId) (sent : Patch) (count : Nat) (answer : Answer) :
    (o.closeRound file sent count answer).1 = o.moveAll (closeMoves count answer) := by
  rcases answer with _ | error | response
  · rfl
  · rfl
  · simp only [closeRound, closeMoves, closeCommitted]
    split
    · cases response.missingPatches with
      | error error => rfl
      | ok missing =>
        dsimp only
        cases Patch.consolidate missing with
        | error error => rfl
        | ok joined => cases joined <;> rfl
    · rfl

/-- A move of a round or of a reconciliation, which puts one patch in place of all that wait. -/
def Fits (o : Outbox) (m : Move) : Prop :=
  m.IsWork ∧ ∀ patches, m = .replace patches → patches.length = min 1 o.queue.length

theorem Fits.isWork {o : Outbox} {m : Move} (h : o.Fits m) : m.IsWork := h.1

def FitsAll (o : Outbox) : List Move → Prop
  | [] => True
  | m :: ms => o.Fits m ∧ (o.move m).FitsAll ms

/-- Moves that put nothing in place of the queue always fit. -/
theorem fitsAll_of_isWork {moves : List Move} (o : Outbox)
    (h : ∀ m ∈ moves, m.IsWork ∧ ∀ patches, m ≠ .replace patches) : o.FitsAll moves := by
  induction moves generalizing o with
  | nil => trivial
  | cons m ms ih =>
    obtain ⟨hwork, hne⟩ := h m List.mem_cons_self
    exact ⟨⟨hwork, fun patches he => absurd he (hne patches)⟩,
      ih _ fun m hm => h m (List.mem_cons_of_mem _ hm)⟩

theorem fitsAll_openMoves (o : Outbox) (threshold delivery : Nat) :
    o.FitsAll (o.openMoves threshold delivery) := by
  refine fitsAll_of_isWork o ?_
  unfold openMoves
  dsimp only
  split
  · split <;> simp [Move.IsWork]
  · simp [Move.IsWork]

theorem fitsAll_closeMoves (o : Outbox) (count : Nat) (answer : Answer) :
    o.FitsAll (closeMoves count answer) := by
  refine fitsAll_of_isWork o ?_
  unfold closeMoves
  repeat' split
  all_goals simp [Move.IsWork]

/-- A move that fits leaves nothing waiting where nothing waited. -/
theorem hasPending_of_move {o : Outbox} {m : Move} (hm : o.Fits m)
    (h : (o.move m).hasPending = true) : o.hasPending = true := by
  rw [← Bool.not_eq_false, hasPending_eq_false_iff] at h ⊢
  rintro ⟨hincoming, hqueue⟩
  refine h ?_
  cases m with
  | drain | remove | advance | expect | ask =>
    simp [move, drain, removeSent, advance, expectStamp, hincoming, hqueue]
  | replace patches =>
    have hlength := hm.2 patches rfl
    rw [hqueue] at hlength
    exact ⟨hincoming, List.eq_nil_of_length_eq_zero hlength⟩
  | opened | enqueue | claim | release => exact hm.isWork.elim

theorem sending_move {o : Outbox} {m : Move} (hm : m.IsWork) : (o.move m).sending = o.sending := by
  cases m with
  | drain | remove | advance | expect | ask | replace => rfl
  | opened | enqueue | claim | release => exact hm.elim

end Outbox

namespace RemoteChange

def settleMoves (change : RemoteChange) (plan : Plan) : Verdict → List Move
  | .accepted stamp => [.replace plan.rebased, .expect stamp, .advance change.version]
  | .refused stamp => [.expect stamp]
  | .failed _ => []

theorem settle_eq (change : RemoteChange) (plan : Plan) (verdict : Verdict) (o : Outbox) :
    (change.settle plan verdict o).1 = o.moveAll (change.settleMoves plan verdict) := by
  cases verdict <;> rfl

theorem fitsAll_settleMoves (change : RemoteChange) {plan : Plan} {o : Outbox}
    (h : plan.rebased.length = min 1 o.queue.length) (verdict : Verdict) :
    o.FitsAll (change.settleMoves plan verdict) := by
  cases verdict with
  | accepted stamp =>
    refine ⟨⟨trivial, ?_⟩, Outbox.fitsAll_of_isWork _ ?_⟩
    · rintro patches ⟨⟩
      exact h
    · simp [Move.IsWork]
  | refused stamp => exact Outbox.fitsAll_of_isWork _ (by simp [settleMoves, Move.IsWork])
  | failed error => trivial

/-- What waits behind a remote change is one patch for all that waited. -/
theorem length_rebased {change : RemoteChange} {queue : List Patch} {plan : Plan}
    (h : change.plan queue = .ok plan) : plan.rebased.length = min 1 queue.length := by
  rcases queue with _ | ⟨first, _ | ⟨next, more⟩⟩
  · cases h
    rfl
  · cases h
    rfl
  · rw [RemoteChange.plan, Patch.consolidate] at h
    cases hfirst : Walk.ofPatch first with
    | error error =>
      rw [hfirst] at h
      cases h
    | ok walk =>
      rw [hfirst] at h
      change ((walk.composeAll (next :: more)).map _).map _ = _ at h
      cases hjoined : walk.composeAll (next :: more) with
      | error error =>
        rw [hjoined] at h
        cases h
      | ok joined =>
        rw [hjoined] at h
        cases h
        simp

end RemoteChange

namespace Session

/-- Moves together with the numbers of the outboxes. -/
abbrev Log := List (Nat × Move)

namespace State

/-- Opening a file makes an outbox, unless the file is open. -/
def trackLog (s : State) (file : FileId) (version : Int) : Log :=
  match s.tracked.get? file with
  | some _ => []
  | none => [(s.outboxes.length, .opened version (s.documents.stamp file))]

/-- Handing patches over opens the file if need be. -/
def sendLog (s : State) (file : FileId) : List Patch → Log
  | [] => []
  | first :: more =>
    let version := oldestVersion first more
    s.trackLog file version ++ [((s.track file version).2, .enqueue (first :: more))]

end State

mutual
def performLog (s : State) : Action → Log
  | .edit file diffs version =>
    let s := s.mention file
    s.sendLog file [s.localPatch file diffs version]
  | .send file (.ok patches) => (s.mention file).sendLog file patches
  | .openFile file version => (s.mention file).trackLog file version
  | .batch actions => performAllLog s actions
  | .editUnsent .. | .setText .. | .send _ (.error _) | .notify _ | .commitOther .. | .closeFile _
  | .applyPatches .. | .respond _ | .refuse _ | .onApply _ => []

def performAllLog (s : State) : List Action → Log
  | [] => []
  | action :: more => performLog s action ++ performAllLog (perform s action).1 more
end

namespace State

def beforeOfferLog (s : State) : Log :=
  match s.applyScript with
  | [] => []
  | actions :: more => performAllLog { s with applyScript := more } actions

def attemptLog (s : State) (file : FileId) (box : Nat) (change : RemoteChange) : Log :=
  let drained := (s.outbox box).drain
  let s := s.setOutbox box drained
  (box, .drain) :: match change.plan drained.queue with
    | .error _ => []
    | .ok plan =>
      s.beforeOfferLog ++
        (change.settleMoves plan (s.offer file plan.incoming drained.stamp).2).map (box, ·)

def senderLog (s : State) (index : Nat) (sender : Sender) : Log :=
  match sender.phase with
  | .claiming box => if (s.outbox box).sending then [] else [(box, .claim index)]
  | .opening box =>
    ((s.outbox box).openMoves s.settings.writeThreshold s.deliveries.length).map (box, ·)
  | .awaiting box delivery _ count _ =>
    (Outbox.closeMoves count (s.answer? delivery)).map (box, ·)
  | .reconciling box change => s.attemptLog sender.file box change
  | .closing box _ => [(box, .release)]
  | _ => []

def notifierLog (s : State) : Log :=
  match s.notifier with
  | .opening notification =>
    match notification.patch with
    | .error _ => []
    | .ok patch => s.trackLog notification.file patch.baseVersion
  | .reconciling file box change => s.attemptLog file box change
  | _ => []

def deliveryLog (s : State) (delivery : Delivery) : Log :=
  match delivery.phase with
  | .submitted =>
    let requests := s.record.requests ++ [(delivery.request.file, delivery.request.patchText)]
    let s := { s with record := { s.record with requests } }
    let (.mk during _ _) := s.replies.headD .standard
    performAllLog { s with replies := s.replies.tail } during
  | _ => []

def taskLog (s : State) : TaskId → Log
  | .notifier => s.notifierLog
  | .sender index =>
    match s.senders[index]? with
    | some sender => s.senderLog index sender
    | none => []
  | .delivery index =>
    match s.deliveries[index]? with
    | some delivery => s.deliveryLog delivery
    | none => []

end State

end Session

end Coedit
