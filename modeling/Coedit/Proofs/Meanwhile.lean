import Coedit.Proofs.LockHolders
import Coedit.Proofs.Moves

/-!
What can happen while no task moves (`Meanwhile`): files are opened and closed, patches handed over,
notifications pushed, and one outbox at most goes through the moves of a round or a reconciliation.
Actions are of this kind (`performAll_meanwhile`), and so is all that a step of a task does beside
moving the task, such as an attempt to take a remote change in (`attempt_meanwhile`).
-/
namespace Coedit.Session

/-- The states differ in nothing that tasks, locks and outboxes depend on. -/
structure Alike (s t : State) : Prop where
  tracked : t.tracked = s.tracked
  outboxes : t.outboxes = s.outboxes
  lock : t.lock = s.lock
  notifier : t.notifier = s.notifier
  senders : t.senders = s.senders
  deliveries : t.deliveries = s.deliveries
  ready : t.ready = s.ready
  timers : t.timers = s.timers

/-- No task moves. The queue of at most one outbox, `own`, is touched; the log says how. -/
inductive Meanwhile (own : Option Nat) : State → Log → State → Prop
  | alike {s t : State} : Alike s t → Meanwhile own s [] t
  | track (s : State) (file : FileId) (version : Int) :
      Meanwhile own s (s.trackLog file version) (s.track file version).1
  | close (s : State) (file : FileId) :
      Meanwhile own s [] { s with tracked := s.tracked.erase file }
  | spawn (s : State) (file : FileId) : Meanwhile own s [] (s.spawnSender file)
  /-- Patches wait at once, and a new task is to send them. -/
  | hand {s : State} {file : FileId} {box : Nat} (patches : List Patch) :
      s.tracked.get? file = some box →
      Meanwhile own s [(box, .enqueue patches)]
        ((s.setOutbox box ((s.outbox box).enqueue patches)).spawnSender file)
  | wake {s : State} : s.notifier = .idle → Meanwhile own s [] (s.wake .notifier)
  | move {s : State} {box : Nat} {m : Move} : own = some box → box < s.outboxes.length →
      (s.outbox box).Fits m →
      Meanwhile own s [(box, m)] (s.setOutbox box ((s.outbox box).move m))
  | trans {s t u : State} {log more : Log} :
      Meanwhile own s log t → Meanwhile own t more u → Meanwhile own s (log ++ more) u

variable {own : Option Nat} {s t u : State} {log : Log} {file : FileId} {box : Nat}

theorem State.mention_eq (s : State) (file : FileId) :
    ∃ record, s.mention file = { s with record } := by
  unfold State.mention
  split <;> exact ⟨_, rfl⟩

namespace Alike

theorem refl (s : State) : Alike s s := ⟨rfl, rfl, rfl, rfl, rfl, rfl, rfl, rfl⟩

theorem trans (h : Alike s t) (h' : Alike t u) : Alike s u where
  tracked := h'.tracked.trans h.tracked
  outboxes := h'.outboxes.trans h.outboxes
  lock := h'.lock.trans h.lock
  notifier := h'.notifier.trans h.notifier
  senders := h'.senders.trans h.senders
  deliveries := h'.deliveries.trans h.deliveries
  ready := h'.ready.trans h.ready
  timers := h'.timers.trans h.timers

theorem mention (s : State) (file : FileId) : Alike s (s.mention file) := by
  obtain ⟨record, h⟩ := s.mention_eq file
  rw [h]
  exact ⟨rfl, rfl, rfl, rfl, rfl, rfl, rfl, rfl⟩

theorem editDocument (s : State) (file : FileId) (patch : Patch) :
    Alike s (s.editDocument file patch).1 := ⟨rfl, rfl, rfl, rfl, rfl, rfl, rfl, rfl⟩

end Alike

namespace Meanwhile

theorem refl (own : Option Nat) (s : State) : Meanwhile own s [] s := .alike (.refl s)

theorem alike_after (h : Meanwhile own s log t) (ha : Alike t u) : Meanwhile own s log u := by
  have htrans := h.trans (.alike ha)
  rwa [List.append_nil] at htrans

theorem alike_before (ha : Alike s t) (h : Meanwhile own t log u) : Meanwhile own s log u :=
  .trans (.alike ha) h

/-- Whose outbox it is may be forgotten when none is touched. -/
theorem of_none (h : Meanwhile none s log t) : Meanwhile own s log t := by
  induction h with
  | alike h => exact .alike h
  | track s file version => exact .track s file version
  | close s file => exact .close s file
  | spawn s file => exact .spawn s file
  | hand patches hbox => exact .hand patches hbox
  | wake hidle => exact .wake hidle
  | move hown => cases hown
  | trans _ _ ih ih' => exact ih.trans ih'

end Meanwhile

theorem State.get?_track (s : State) (file : FileId) (version : Int) :
    (s.track file version).1.tracked.get? file = some (s.track file version).2 := by
  unfold State.track
  cases h : s.tracked.get? file with
  | none => exact Table.get?_set_self ..
  | some box => exact h

theorem State.sendPatches_meanwhile (s : State) (file : FileId) (patches : List Patch) :
    Meanwhile own s (s.sendLog file patches) (s.sendPatches file patches) := by
  cases patches with
  | nil => exact .spawn s file
  | cons first more =>
    exact (Meanwhile.track s file _).trans (.hand (first :: more) (s.get?_track file _))

theorem State.pushNotification_meanwhile (s : State) (notification : Notification) :
    Meanwhile own s [] (s.pushNotification notification) := by
  have hcome : Alike s { s with notifications := s.notifications ++ [notification] } :=
    ⟨rfl, rfl, rfl, rfl, rfl, rfl, rfl, rfl⟩
  unfold State.pushNotification
  dsimp only
  split
  · rename_i hidle
    exact .alike_before hcome (.wake hidle)
  · exact .alike hcome

theorem State.commitOther_meanwhile (s : State) (file : FileId) (diffs : List Diff)
    (pushed : Bool) : Meanwhile none s [] (s.commitOther file diffs pushed).1 := by
  simp only [State.commitOther]
  cases (s.server.file file).commitDiffs diffs with
  | error error => exact .alike ⟨rfl, rfl, rfl, rfl, rfl, rfl, rfl, rfl⟩
  | ok made =>
    obtain ⟨committed, patch⟩ := made
    have hserver : Alike s { s with server := s.server.set file committed } :=
      ⟨rfl, rfl, rfl, rfl, rfl, rfl, rfl, rfl⟩
    cases pushed with
    | false => exact .alike hserver
    | true => exact .alike_before hserver (State.pushNotification_meanwhile _ _)

mutual
/-- No task moves while an action is performed. -/
theorem perform_meanwhile (s : State) :
    ∀ action, Meanwhile none s (performLog s action) (perform s action).1
  | .edit file diffs version => by
    rw [perform, performLog]
    exact .alike_before (.mention s file) 
      ((State.sendPatches_meanwhile _ file _).alike_after (.editDocument _ file _))
  | .editUnsent file diffs version => by
    rw [perform, performLog]
    exact .alike_before (.mention s file) (.alike (.editDocument _ file _))
  | .setText file text => by
    rw [perform, performLog]
    exact .alike_before (.mention s file) (.alike ⟨rfl, rfl, rfl, rfl, rfl, rfl, rfl, rfl⟩)
  | .send file (.error error) => by
    rw [perform, performLog]
    exact .alike (.mention s file)
  | .send file (.ok patches) => by
    rw [perform, performLog]
    exact .alike_before (.mention s file) (State.sendPatches_meanwhile _ file patches)
  | .notify notification => by
    rw [perform, performLog]
    exact .alike_before (.mention s _) (State.pushNotification_meanwhile _ notification)
  | .commitOther file diffs pushed => by
    rw [perform, performLog]
    exact .alike_before (.mention s file) (State.commitOther_meanwhile _ file diffs pushed)
  | .openFile file version => by
    rw [perform, performLog]
    exact .alike_before (.mention s file) (.track _ file version)
  | .closeFile file => by
    rw [perform, performLog]
    exact .alike_before (.mention s file) (.close _ file)
  | .applyPatches content (.error error) => by
    rw [perform, performLog]
    exact .refl none s
  | .applyPatches content (.ok patches) => by
    rw [perform, performLog]
    exact .refl none s
  | .respond replies => by
    rw [perform, performLog]
    exact .alike ⟨rfl, rfl, rfl, rfl, rfl, rfl, rfl, rfl⟩
  | .refuse count => by
    rw [perform, performLog]
    exact .alike ⟨rfl, rfl, rfl, rfl, rfl, rfl, rfl, rfl⟩
  | .onApply actions => by
    rw [perform, performLog]
    exact .alike ⟨rfl, rfl, rfl, rfl, rfl, rfl, rfl, rfl⟩
  | .batch actions => by
    rw [perform, performLog]
    exact performAll_meanwhile s actions

theorem performAll_meanwhile (s : State) :
    ∀ actions, Meanwhile none s (performAllLog s actions) (performAll s actions).1
  | [] => by
    rw [performAll, performAllLog]
    exact .refl none s
  | action :: more => by
    rw [performAll, performAllLog]
    exact (perform_meanwhile s action).trans (performAll_meanwhile _ more)
end

/-! ### Attempts -/

theorem performNested_meanwhile (s : State) (actions : List Action) :
    Meanwhile none s (performAllLog s actions) (s.performNested actions) :=
  (performAll_meanwhile s actions).alike_after ⟨rfl, rfl, rfl, rfl, rfl, rfl, rfl, rfl⟩

theorem beforeOffer_meanwhile (s : State) : Meanwhile none s s.beforeOfferLog s.beforeOffer := by
  cases hscript : s.applyScript with
  | nil =>
    simp only [State.beforeOffer, State.beforeOfferLog, hscript]
    exact .refl none s
  | cons actions more =>
    simp only [State.beforeOffer, State.beforeOfferLog, hscript]
    exact .alike_before (t := { s with applyScript := more })
      ⟨rfl, rfl, rfl, rfl, rfl, rfl, rfl, rfl⟩ (performNested_meanwhile _ actions)

theorem offer_meanwhile (s : State) (file : FileId) (patch : Patch) (expected : Int) :
    Meanwhile none s s.beforeOfferLog (s.offer file patch expected).1 := by
  refine (beforeOffer_meanwhile s).alike_after ?_
  simp only [State.offer]
  split <;> exact ⟨rfl, rfl, rfl, rfl, rfl, rfl, rfl, rfl⟩

/-! ### What stands still -/

/-- Where a sender stands with the lock. -/
def SenderPhase.stage : SenderPhase → Stage
  | .starting | .claiming _ | .finished _ => .outside
  | .queued _ => .queued
  | .opening _ | .awaiting .. | .reconciling .. | .closing .. => .inside

def NotifierPhase.stage : NotifierPhase → Stage
  | .idle | .receiving => .outside
  | .queued _ => .queued
  | .opening _ | .reconciling .. | .closing _ => .inside

/-- What a round has come to, if it is over. -/
def SenderPhase.result? : SenderPhase → Option (Except SyncError Unit)
  | .closing _ result => some result
  | _ => none

def NotifierPhase.result? : NotifierPhase → Option (Except SyncError Unit)
  | .closing result => some result
  | _ => none

/-- Senders share the lock, the notifier takes it alone. -/
def TaskId.mode : TaskId → LockMode
  | .notifier => .exclusive
  | .sender _ | .delivery _ => .shared

namespace State

/-- The phase of a sender. One that has not come yet has still to start. -/
def phase (s : State) (index : Nat) : SenderPhase :=
  (s.senders[index]?.map Sender.phase).getD .starting

def stage (s : State) : TaskId → Stage
  | .notifier => s.notifier.stage
  | .sender index => (s.phase index).stage
  | .delivery _ => .outside

theorem phase_of_getElem? {index : Nat} {sender : Sender}
    (h : s.senders[index]? = some sender) : s.phase index = sender.phase := by
  rw [phase, h]
  rfl

theorem senders_setSender {index : Nat} {sender : Sender} (h : s.senders[index]? = some sender)
    (phase : SenderPhase) :
    (s.setSender index phase).senders[index]? = some { sender with phase } := by
  simp [setSender, h]

theorem senders_setSender_of_ne {index other : Nat} (h : other ≠ index) (phase : SenderPhase) :
    (s.setSender index phase).senders[other]? = s.senders[other]? := by
  simp [setSender, Ne.symm h]

theorem phase_congr (h : t.senders = s.senders) : t.phase = s.phase := by
  funext index
  rw [phase, h]
  rfl

theorem phase_setSender {index : Nat} {sender : Sender} (h : s.senders[index]? = some sender)
    (phase : SenderPhase) : (s.setSender index phase).phase = Function.update s.phase index phase := by
  funext other
  by_cases hother : other = index
  · subst hother
    simp [State.phase, setSender, h]
  · simp [State.phase, setSender, Ne.symm hother, Function.update_of_ne hother]

theorem wake_eq (s : State) (task : TaskId) :
    s.wake task = { s with ready := if task ∈ s.ready then s.ready else s.ready ++ [task] } := by
  unfold wake
  split <;> rfl

theorem track_eq (s : State) (file : FileId) (version : Int) :
    ∃ tracked outboxes, (s.track file version).1 = { s with tracked, outboxes } := by
  unfold track
  split <;> exact ⟨_, _, rfl⟩

theorem spawnSender_eq (s : State) (file : FileId) :
    ∃ ready, s.spawnSender file =
      { s with senders := s.senders ++ [⟨file, .starting⟩], ready } := by
  rw [spawnSender, wake_eq]
  exact ⟨_, rfl⟩

end State

/-- Every task is where it was; tasks may have come, and tasks outside the lock may be ready. -/
structure Still (s t : State) : Prop where
  lock : t.lock = s.lock
  notifier : t.notifier = s.notifier
  deliveries : t.deliveries = s.deliveries
  timers : t.timers = s.timers
  senders : s.senders <+: t.senders
  phase : t.phase = s.phase
  ready : s.ready <+: t.ready
  nodup : s.ready.Nodup → t.ready.Nodup
  woken : ∀ task ∈ t.ready, task ∈ s.ready ∨ s.stage task = .outside

namespace Still

theorem stage (h : Still s t) : t.stage = s.stage := by
  funext task
  cases task with
  | notifier => exact congrArg NotifierPhase.stage h.notifier
  | sender index => exact congrArg SenderPhase.stage (congrFun h.phase index)
  | delivery index => rfl

theorem sender {index : Nat} {sender : Sender} (h : Still s t)
    (hs : s.senders[index]? = some sender) : t.senders[index]? = some sender := by
  obtain ⟨hlt, rfl⟩ := List.getElem?_eq_some_iff.mp hs
  exact List.prefix_iff_getElem?.mp h.senders index hlt

theorem trans (h : Still s t) (h' : Still t u) : Still s u where
  lock := h'.lock.trans h.lock
  notifier := h'.notifier.trans h.notifier
  deliveries := h'.deliveries.trans h.deliveries
  timers := h'.timers.trans h.timers
  senders := h.senders.trans h'.senders
  phase := h'.phase.trans h.phase
  ready := h.ready.trans h'.ready
  nodup := h'.nodup ∘ h.nodup
  woken := by
    intro task hin
    rcases h'.woken task hin with hin | hout
    · exact h.woken task hin
    · exact .inr (by rw [← h.stage, hout])

theorem of_outboxes (s : State) (tracked : Table FileId Nat) (outboxes : List Outbox) :
    Still s { s with tracked, outboxes } :=
  ⟨rfl, rfl, rfl, rfl, List.prefix_rfl, rfl, List.prefix_rfl, id, fun _ => .inl⟩

theorem wake {task : TaskId} (h : s.stage task = .outside) : Still s (s.wake task) := by
  rw [State.wake_eq]
  refine ⟨rfl, rfl, rfl, rfl, List.prefix_rfl, rfl, ?_, ?_, ?_⟩
  · split
    · exact List.prefix_rfl
    · exact List.prefix_append _ _
  · intro hnodup
    dsimp only
    split
    · exact hnodup
    · rename_i hout
      exact hnodup.append (List.nodup_singleton _) (by simpa using hout)
  · intro other hin
    dsimp only at hin
    split at hin
    · exact .inl hin
    · rcases List.mem_append.mp hin with hin | hin
      · exact .inl hin
      · rw [List.mem_singleton.mp hin]
        exact .inr h

theorem spawnSender (s : State) (file : FileId) : Still s (s.spawnSender file) := by
  have hphase : State.phase { s with senders := s.senders ++ [⟨file, .starting⟩] } = s.phase := by
    funext index
    simp only [State.phase, List.getElem?_append]
    split
    · rfl
    · rename_i hlt
      rw [List.getElem?_eq_none (Nat.le_of_not_lt hlt)]
      cases index - s.senders.length <;> rfl
  have hcome : Still s { s with senders := s.senders ++ [⟨file, .starting⟩] } :=
    ⟨rfl, rfl, rfl, rfl, List.prefix_append _ _, hphase, List.prefix_rfl, id, fun _ => .inl⟩
  refine hcome.trans (Still.wake ?_)
  simp [State.stage, State.phase, SenderPhase.stage]

end Still

/-- Meanwhile nothing moves. -/
theorem Meanwhile.still (h : Meanwhile own s log t) : Still s t := by
  induction h with
  | @alike s t h =>
    have hphase : t.phase = s.phase := State.phase_congr h.senders
    have hready := h.ready.symm
    exact ⟨h.lock, h.notifier, h.deliveries, h.timers, h.senders ▸ List.prefix_rfl, hphase,
      hready ▸ List.prefix_rfl, fun hnodup => hready ▸ hnodup, fun _ hin => .inl (hready ▸ hin)⟩
  | track s file version =>
    obtain ⟨tracked, outboxes, h⟩ := s.track_eq file version
    rw [h]
    exact .of_outboxes s tracked outboxes
  | close s file => exact .of_outboxes s _ _
  | spawn s file => exact .spawnSender s file
  | hand patches hbox => exact (Still.of_outboxes _ _ _).trans (.spawnSender _ _)
  | wake hidle => exact .wake (congrArg NotifierPhase.stage hidle)
  | move => exact .of_outboxes _ _ _
  | trans _ _ ih ih' => exact ih.trans ih'

end Coedit.Session
