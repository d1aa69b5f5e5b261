import Coedit.Proofs.Outboxes
import Coedit.Session.Run

/-!
A session in which anything can happen next that could: an action, a step of any ready task, or the
passing of time (`State.happen`). What the one processor of a session does is a special case
(`step_eq_happen`). `Turn` says once all that a step of a task can do, and `turn_stepTask` that it
does nothing else.
-/
namespace Coedit.Session

inductive Event where
  | act (action : Action)
  /-- A task runs up to where it gives others the chance to run. -/
  | run (task : TaskId)
  | tick (time : Nat)

/-- The outbox that a sender is to empty. -/
def SenderPhase.box? : SenderPhase → Option Nat
  | .claiming box | .queued box | .opening box | .awaiting box .. | .reconciling box _
  | .closing box _ => some box
  | .starting | .finished _ => none

/-- The outbox that the notifier reconciles. -/
def NotifierPhase.box? : NotifierPhase → Option Nat
  | .reconciling _ box _ => some box
  | _ => none

def SenderPhase.isAwaiting : SenderPhase → Bool
  | .awaiting .. => true
  | _ => false

namespace State

/-- A task that waits is ready no more. -/
def settle (s : State) (task : TaskId) : State :=
  if s.waits task then { s with ready := s.ready.erase task } else s

/-- The state after an event. A task that is not ready does nothing. -/
def happen (s : State) : Event → State
  | .act action => (perform s action).1
  | .run task => if task ∈ s.ready then (s.stepTask task).settle task else s
  | .tick time => s.jump time

def log (s : State) : Event → Log
  | .act action => performLog s action
  | .run task => if task ∈ s.ready then s.taskLog task else []
  | .tick _ => []

end State

/-- Each outbox that a task works on is there, and belongs to the file of the sender. -/
structure Housed (s : State) : Prop where
  tracks : Tracks s
  sender : ∀ {index : Nat} {sender : Sender} {box : Nat}, s.senders[index]? = some sender →
    sender.phase.box? = some box →
    box < s.outboxes.length ∧ ∀ {file}, s.tracked.get? file = some box → file = sender.file
  notifier : ∀ {box : Nat}, s.notifier.box? = some box → box < s.outboxes.length

/-- What a step of a task can do, and the moves that it makes. -/
inductive Turn (s : State) : TaskId → Log → State → Prop
  | rest {task : TaskId} :
      (∀ {index : Nat} {d : Delivery}, task = .delivery index → s.deliveries[index]? = some d →
        d.phase ≠ .submitted) →
      Turn s task [] s
  /-- A sender finds its file. -/
  | found {index : Nat} {file : FileId} {box : Nat} :
      s.senders[index]? = some ⟨file, .starting⟩ → s.tracked.get? file = some box →
      Turn s (.sender index) [] (s.setSender index (.claiming box))
  | unknown {index : Nat} {file : FileId} :
      s.senders[index]? = some ⟨file, .starting⟩ → s.tracked.get? file = none →
      Turn s (.sender index) [] (s.setSender index (.finished (.ok ())))
  /-- Another sender has the send slot. -/
  | busy {index : Nat} {file : FileId} {box : Nat} :
      s.senders[index]? = some ⟨file, .claiming box⟩ → (s.outbox box).sending = true →
      Turn s (.sender index) [] (s.setSender index (.finished (.ok ())))
  | claimed {index : Nat} {file : FileId} {box : Nat} {lock : Lock TaskId} {held : Bool} :
      s.senders[index]? = some ⟨file, .claiming box⟩ → (s.outbox box).sending = false →
      s.lock.acquire (.sender index) .shared = (lock, held) →
      Turn s (.sender index) [(box, .claim index)]
        (State.setSender { s.setOutbox box ((s.outbox box).move (.claim index)) with lock } index
          (if held then .opening box else .queued box))
  | served {index : Nat} {file : FileId} {box : Nat} :
      s.senders[index]? = some ⟨file, .queued box⟩ →
      Turn s (.sender index) [] (s.setSender index (.opening box))
  | asked {index : Nat} {file : FileId} {box : Nat} {sent : Patch} {count deadline : Nat}
      {woken : List TaskId} :
      s.senders[index]? = some ⟨file, .opening box⟩ →
      Patch.consolidate ((s.outbox box).drain.queue.take count) = .ok (some sent) →
      count ≤ (s.outbox box).drain.queue.length →
      Meanwhile (some box) s [(box, .drain), (box, .ask s.deliveries.length count)]
        (s.setOutbox box (s.outbox box).drain) →
      (∀ task ∈ woken, task = .delivery s.deliveries.length) →
      (s.ready.Nodup → (s.ready ++ woken).Nodup) →
      .delivery s.deliveries.length ∈ s.ready ++ woken →
      Turn s (.sender index) [(box, .drain), (box, .ask s.deliveries.length count)]
        (State.setSender
          { s.setOutbox box (s.outbox box).drain with
            deliveries := s.deliveries ++
              [⟨Request.ofPatch (Uuid.ofNat s.deliveries.length) file sent, index, .submitted⟩]
            ready := s.ready ++ woken
            timers := s.timers ++ [⟨deadline, .sender index⟩] } index
          (.awaiting box s.deliveries.length sent count deadline))
  | answered {index : Nat} {file : FileId} {box delivery count deadline : Nat} {sent : Patch}
      {phase : SenderPhase} :
      s.senders[index]? = some ⟨file, .awaiting box delivery sent count deadline⟩ →
      phase.stage = .inside → phase.box? = some box → phase.isAwaiting = false →
      Meanwhile (some box) s ((Outbox.closeMoves count (s.answer? delivery)).map (box, ·))
        (s.setOutbox box
          ((s.outbox box).moveAll (Outbox.closeMoves count (s.answer? delivery)))) →
      Turn s (.sender index) ((Outbox.closeMoves count (s.answer? delivery)).map (box, ·))
        (((s.cancelTimers (.sender index)).setOutbox box
          ((s.outbox box).moveAll (Outbox.closeMoves count (s.answer? delivery)))).setSender index
            phase)
  /-- Any other step of a round. -/
  | worked {index : Nat} {file : FileId} {phase next : SenderPhase} {box : Nat} {log : Log}
      {t : State} :
      s.senders[index]? = some ⟨file, phase⟩ → phase.stage = .inside → phase.box? = some box →
      phase.isAwaiting = false → next.stage = .inside → next.box? = some box →
      next.isAwaiting = false → Meanwhile (some box) s log t →
      Turn s (.sender index) log (t.setSender index next)
  | ended {index : Nat} {file : FileId} {box : Nat} {result : Except SyncError Unit}
      {woken : List TaskId} :
      s.senders[index]? = some ⟨file, .closing box result⟩ →
      (∀ task ∈ woken, task ∈ (s.lock.release .shared).2) →
      (s.ready.Nodup → (s.ready ++ woken).Nodup) →
      Turn s (.sender index) [(box, .release)]
        (State.setSender
          { s.setOutbox box (s.outbox box).release with
            lock := (s.lock.release .shared).1
            ready := s.ready ++ woken } index
          (match result with
            | .error error => .finished (.error error)
            | .ok () => if (s.outbox box).hasPending then .claiming box else .finished (.ok ())))
  /-- The notifier looks for a notification or goes to sleep. -/
  | listened (phase : NotifierPhase) {notifications : List Notification} :
      s.notifier.stage = .outside → phase.stage = .outside → phase.box? = none →
      Turn s .notifier [] { s with notifications, notifier := phase }
  | received {notification : Notification} {more : List Notification} {lock : Lock TaskId}
      {held : Bool} :
      s.notifier.stage = .outside → s.lock.acquire .notifier .exclusive = (lock, held) →
      Turn s .notifier []
        { s with
          notifications := more
          lock
          notifier := if held then .opening notification else .queued notification }
  | admitted {notification : Notification} :
      s.notifier = .queued notification →
      Turn s .notifier [] { s with notifier := .opening notification }
  /-- Any step of the notifier with the lock. -/
  | reconciled {own : Option Nat} {log : Log} {t : State} (phase : NotifierPhase) :
      s.notifier.stage = .inside → phase.stage = .inside → Meanwhile own s log t →
      (∀ {box}, phase.box? = some box → box < t.outboxes.length) →
      Turn s .notifier log { t with notifier := phase }
  | left {result : Except SyncError Unit} {woken : List TaskId} :
      s.notifier = .closing result → (∀ task ∈ woken, task ∈ (s.lock.release .exclusive).2) →
      (s.ready.Nodup → (s.ready ++ woken).Nodup) →
      Turn s .notifier []
        { s with
          lock := (s.lock.release .exclusive).1
          ready := s.ready ++ woken
          notifier := .receiving }
  /-- A delivery lets things happen and brings its answer, at once or later. -/
  | delivered {index : Nat} {log : Log} {t : State} {deliveries : List Delivery}
      {ready : List TaskId} {timers : List Timer} :
      Meanwhile none s log t →
      deliveries.map Delivery.request = t.deliveries.map Delivery.request →
      t.ready <+: ready → (t.ready.Nodup → ready.Nodup) →
      (∀ task ∈ ready, task ∈ t.ready ∨ t.stage task = .inside) →
      (∀ timer ∈ timers, timer ∈ t.timers ∨ timer.task = .delivery index) →
      (∀ {other : Nat} {d : Delivery}, deliveries[other]? = some d → d.phase = .submitted →
        other ≠ index ∧ t.deliveries[other]? = some d) →
      (∀ {other : Nat}, .sender other ∈ ready → .sender other ∈ t.ready ∨
        ∃ file box sent count deadline,
          t.senders[other]? = some ⟨file, .awaiting box index sent count deadline⟩) →
      Turn s (.delivery index) log { t with deliveries, ready, timers }

variable {s t : State} {log : Log} {task : TaskId}

theorem State.setSender_self {index : Nat} {sender : Sender}
    (h : s.senders[index]? = some sender) : s.setSender index sender.phase = s := by
  have hsenders : s.senders.modify index (fun other => { other with phase := sender.phase }) =
      s.senders := by
    apply List.ext_getElem?
    intro other
    by_cases hother : other = index
    · subst hother
      simp [h]
    · simp [Ne.symm hother]
  rw [State.setSender, hsenders]

theorem State.wakeAll_eq (s : State) (tasks : List TaskId) :
    ∃ woken, s.wakeAll tasks = { s with ready := s.ready ++ woken } ∧
      (∀ task ∈ woken, task ∈ tasks) ∧ (s.ready.Nodup → (s.ready ++ woken).Nodup) := by
  induction tasks generalizing s with
  | nil => exact ⟨[], by simp [State.wakeAll], by simp, by simp⟩
  | cons task tasks ih =>
    obtain ⟨woken, h, hin, hnodup⟩ := ih (s.wake task)
    rw [State.wakeAll, List.foldl_cons, ← State.wakeAll, h, State.wake_eq]
    rw [State.wake_eq] at hnodup
    by_cases hready : task ∈ s.ready
    · simp only [hready, if_true] at hnodup ⊢
      exact ⟨woken, rfl, fun other ho => List.mem_cons_of_mem _ (hin other ho), hnodup⟩
    · simp only [hready, if_false, List.append_assoc] at hnodup ⊢
      refine ⟨task :: woken, rfl, ?_, fun h => ?_⟩
      · intro other ho
        rcases List.mem_cons.mp ho with rfl | ho
        · exact List.mem_cons_self
        · exact List.mem_cons_of_mem _ (hin other ho)
      · have hone := h.append (List.nodup_singleton task) (by simpa using hready)
        simpa using hnodup hone

theorem State.releaseLock_eq (s : State) (mode : LockMode) :
    ∃ woken, s.releaseLock mode =
        { s with lock := (s.lock.release mode).1, ready := s.ready ++ woken } ∧
      (∀ task ∈ woken, task ∈ (s.lock.release mode).2) ∧
      (s.ready.Nodup → (s.ready ++ woken).Nodup) := by
  obtain ⟨woken, h, hin, hnodup⟩ :=
    State.wakeAll_eq { s with lock := (s.lock.release mode).1 } (s.lock.release mode).2
  exact ⟨woken, h, hin, hnodup⟩

theorem State.submit_eq (s : State) (sender : Nat) (file : FileId) (patch : Patch) :
    ∃ woken, s.submit sender file patch =
        ({ s with
          deliveries := s.deliveries ++
            [⟨Request.ofPatch (Uuid.ofNat s.deliveries.length) file patch, sender, .submitted⟩]
          ready := s.ready ++ woken }, s.deliveries.length) ∧
      (∀ task ∈ woken, task = .delivery s.deliveries.length) ∧
      (s.ready.Nodup → (s.ready ++ woken).Nodup) ∧
      .delivery s.deliveries.length ∈ s.ready ++ woken := by
  simp only [State.submit, State.wake_eq]
  by_cases hready : .delivery s.deliveries.length ∈ s.ready
  · simp only [hready, if_true]
    exact ⟨[], by rw [List.append_nil], nofun, by simp, by simpa using hready⟩
  · simp only [hready, if_false]
    refine ⟨[.delivery s.deliveries.length], rfl, by simp, fun hnodup => ?_, by simp⟩
    exact hnodup.append (List.nodup_singleton _) (by simpa using hready)

theorem turn_openRound (hs : Housed s) {index : Nat} {file : FileId} {box : Nat}
    (h : s.senders[index]? = some ⟨file, .opening box⟩) :
    Turn s (.sender index)
      (((s.outbox box).openMoves s.settings.writeThreshold s.deliveries.length).map (box, ·))
      (s.openRound index file box) := by
  have hbox := (hs.sender h rfl).1
  have hmoves := Meanwhile.moves hbox
    ((s.outbox box).fitsAll_openMoves s.settings.writeThreshold s.deliveries.length)
  unfold State.openRound
  rw [← Outbox.openRound_eq] at hmoves
  unfold Outbox.openRound Outbox.openMoves at *
  dsimp only at hmoves ⊢
  cases hjoined : Patch.consolidate
      ((s.outbox box).drain.snapshot s.settings.writeThreshold) with
  | error error =>
    simp only [hjoined] at hmoves ⊢
    exact .worked h rfl rfl rfl rfl rfl rfl hmoves
  | ok joined =>
    cases joined with
    | none =>
      simp only [hjoined] at hmoves ⊢
      exact .worked h rfl rfl rfl rfl rfl rfl hmoves
    | some patch =>
      simp only [hjoined] at hmoves ⊢
      cases hempty : patch.isEmpty with
      | true =>
        simp only [hempty, if_true] at hmoves ⊢
        exact .worked h rfl rfl rfl rfl rfl rfl hmoves
      | false =>
        obtain ⟨woken, hsubmit, hin, hnodup, hready⟩ :=
          (s.setOutbox box (s.outbox box).drain).submit_eq index file patch
        have hcount : (s.outbox box).drain.queue.take
            ((s.outbox box).drain.snapshot s.settings.writeThreshold).length =
              (s.outbox box).drain.snapshot s.settings.writeThreshold := by
          rw [Outbox.snapshot, List.length_take, ← List.take_eq_take_min]
        simp only [hempty, Bool.false_eq_true, if_false, hsubmit] at hmoves ⊢
        exact .asked h (by rw [hcount, hjoined]) (List.length_take_le' _ _) hmoves hin hnodup hready

theorem turn_closeRound (hs : Housed s) {index : Nat} {file : FileId}
    {box delivery count deadline : Nat} {sent : Patch}
    (h : s.senders[index]? = some ⟨file, .awaiting box delivery sent count deadline⟩) :
    Turn s (.sender index) ((Outbox.closeMoves count (s.answer? delivery)).map (box, ·))
      (s.closeRound index file box sent count (s.answer? delivery)) := by
  have hmoves := Meanwhile.moves (hs.sender h rfl).1
    (Outbox.fitsAll_closeMoves _ count (s.answer? delivery))
  unfold State.closeRound
  dsimp only
  rw [Outbox.closeRound_eq]
  cases ((s.outbox box).closeRound file sent count (s.answer? delivery)).2 with
  | finished result => exact .answered h rfl rfl rfl hmoves
  | reconcile change => exact .answered h rfl rfl rfl hmoves

theorem turn_stepSender (hs : Housed s) {index : Nat} {sender : Sender}
    (h : s.senders[index]? = some sender) :
    Turn s (.sender index) (s.senderLog index sender) (s.stepSender index sender) := by
  obtain ⟨file, phase⟩ := sender
  cases phase with
  | starting =>
    simp only [State.stepSender, State.senderLog]
    cases htracked : s.tracked.get? file with
    | none => exact .unknown h htracked
    | some box => exact .found h htracked
  | claiming box =>
    simp only [State.stepSender, State.senderLog, Outbox.claim?]
    cases hsending : (s.outbox box).sending with
    | true => exact .busy h hsending
    | false => exact .claimed h hsending rfl
  | queued box => exact .served h
  | opening box => exact turn_openRound hs h
  | awaiting box delivery sent count deadline =>
    simp only [State.stepSender, State.senderLog]
    have hclose := turn_closeRound hs h
    cases hanswer : s.answer? delivery with
    | some answer =>
      rw [hanswer] at hclose
      exact hclose
    | none =>
      rw [hanswer] at hclose
      dsimp only
      split
      · exact hclose
      · exact .rest fun he => by cases he
  | reconciling box change =>
    simp only [State.stepSender, State.senderLog]
    have hattempt := attempt_meanwhile hs.tracks (hs.sender h rfl).1 file change
    cases (s.attempt file box change).2 with
    | again =>
      have hturn : Turn s (.sender index) _ (State.setSender _ index (.reconciling box change)) :=
        .worked h rfl rfl rfl rfl rfl rfl hattempt
      rwa [State.setSender_self (hattempt.still.sender h)] at hturn
    | finished result => exact .worked h rfl rfl rfl rfl rfl rfl hattempt
  | closing box result =>
    obtain ⟨woken, hrelease, hin, hnodup⟩ := s.releaseLock_eq .shared
    have hturn := Turn.ended h hin hnodup
    simp only [State.stepSender, State.senderLog, State.finishRound, hrelease]
    cases result <;> exact hturn
  | finished result => exact .rest fun he => by cases he

theorem turn_stepNotifier (hs : Housed s) : Turn s .notifier s.notifierLog s.stepNotifier := by
  unfold State.stepNotifier State.notifierLog
  cases hphase : s.notifier with
  | idle => exact .listened .receiving (by rw [hphase]; rfl) rfl rfl
  | receiving =>
    have hout : s.notifier.stage = .outside := by rw [hphase]; rfl
    cases hwaiting : s.notifications with
    | nil => exact .listened .idle hout rfl rfl
    | cons notification more => exact .received hout rfl
  | queued notification => exact .admitted hphase
  | opening notification =>
    have hin : s.notifier.stage = .inside := by rw [hphase]; rfl
    dsimp only
    unfold State.openNotification
    cases hpatch : notification.patch with
    | error error =>
      exact .reconciled (.closing (.error (.format error))) hin rfl (.refl none s) nofun
    | ok patch =>
      have htrack : Meanwhile none s _ _ := .track s notification.file patch.baseVersion
      have hbox := (hs.tracks.track notification.file patch.baseVersion).2.1
      dsimp only
      split
      · exact .reconciled (.closing (.ok ())) hin rfl htrack nofun
      · exact .reconciled (.reconciling ..) hin rfl htrack (by rintro box ⟨⟩; exact hbox)
  | reconciling file box change =>
    have hin : s.notifier.stage = .inside := by rw [hphase]; rfl
    have hbox : box < s.outboxes.length := hs.notifier (by rw [hphase]; rfl)
    have hattempt := attempt_meanwhile hs.tracks hbox file change
    dsimp only
    cases (s.attempt file box change).2 with
    | again =>
      have hturn := Turn.reconciled (.reconciling file box change) hin rfl hattempt
        (by rintro other ⟨⟩; exact Nat.lt_of_lt_of_le hbox hattempt.length_le)
      rwa [← hphase, ← hattempt.still.notifier] at hturn
    | finished result => exact .reconciled (.closing result) hin rfl hattempt nofun
  | closing result =>
    obtain ⟨woken, hrelease, hin, hnodup⟩ := s.releaseLock_eq .exclusive
    rw [hrelease]
    exact .left hphase hin hnodup

theorem State.requests_setDelivery (s : State) (index : Nat) (phase : DeliveryPhase) :
    (s.setDelivery index phase).deliveries.map Delivery.request =
      s.deliveries.map Delivery.request := by
  apply List.ext_getElem?
  intro other
  by_cases hother : index = other
  · subst hother
    cases h : s.deliveries[index]? <;> simp [State.setDelivery, h]
  · simp [State.setDelivery, hother]

/-- A delivery that goes on leaves the others as they are. -/
theorem State.of_submitted_setDelivery {index other : Nat} {d : Delivery} {phase : DeliveryPhase}
    (h : (s.setDelivery index phase).deliveries[other]? = some d) (hd : d.phase = .submitted)
    (hphase : phase ≠ .submitted) : other ≠ index ∧ s.deliveries[other]? = some d := by
  rw [State.setDelivery, List.getElem?_modify] at h
  by_cases hother : index = other
  · subst hother
    obtain ⟨before, -, rfl⟩ := Option.map_eq_some_iff.mp h
    simp only [if_true] at hd
    exact absurd hd hphase
  · simp only [hother, if_false] at h
    exact ⟨Ne.symm hother, by simpa using h⟩

/-- An answer wakes nobody but a sender that waits for it. -/
theorem arrive_eq (s : State) (index sender : Nat) (answer : Except SendError Response) :
    ∃ ready, s.arrive index sender answer = { s.setDelivery index (.answered answer) with ready } ∧
      s.ready <+: ready ∧ (s.ready.Nodup → ready.Nodup) ∧
      ∀ task ∈ ready, task ∈ s.ready ∨ ∃ other file box sent count deadline, task = .sender other ∧
        s.senders[other]? = some ⟨file, .awaiting box index sent count deadline⟩ := by
  simp only [State.arrive]
  split
  · rename_i file box delivery sent count deadline hsender
    split
    · rename_i hdelivery
      subst hdelivery
      obtain ⟨woken, hwake, hin, hnodup⟩ :=
        (s.setDelivery delivery (.answered answer)).wakeAll_eq [.sender sender]
      refine ⟨_, hwake, List.prefix_append _ _, hnodup, fun task htask => ?_⟩
      rcases List.mem_append.mp htask with htask | htask
      · exact .inl htask
      · exact .inr ⟨sender, file, box, sent, count, deadline,
          List.mem_singleton.mp (hin task htask), hsender⟩
    · exact ⟨_, rfl, List.prefix_rfl, id, fun _ => .inl⟩
  · exact ⟨_, rfl, List.prefix_rfl, id, fun _ => .inl⟩

theorem answerRequest_alike (s : State) (request : Request) (kind : ReplyKind) :
    Alike s (s.answerRequest request kind).1 := by
  cases kind with
  | commit =>
    simp only [State.answerRequest, State.commitRequest]
    cases request.patch with
    | error error => exact .refl s
    | ok patch =>
      dsimp only
      cases (s.server.file request.file).commit patch with
      | error error => exact ⟨rfl, rfl, rfl, rfl, rfl, rfl, rfl, rfl⟩
      | ok made => exact ⟨rfl, rfl, rfl, rfl, rfl, rfl, rfl, rfl⟩
  | stall | fail | answer => exact .refl s

theorem turn_arrive (h : Meanwhile none s log t) (index sender : Nat)
    (answer : Except SendError Response) :
    Turn s (.delivery index) log (t.arrive index sender answer) := by
  obtain ⟨ready, harrive, hready, hnodup, hwoken⟩ := arrive_eq t index sender answer
  rw [harrive]
  refine .delivered (t := t) h (t.requests_setDelivery index _) hready hnodup
    (fun task htask => ?_) (fun _ => .inl)
    (fun hd hphase => State.of_submitted_setDelivery hd hphase nofun) fun {other} hother => ?_
  · rcases hwoken task htask with hold | ⟨other, file, box, sent, count, deadline, rfl, hsender⟩
    · exact .inl hold
    · exact .inr (congrArg SenderPhase.stage (State.phase_of_getElem? hsender))
  · rcases hwoken _ hother with hold | ⟨woken, file, box, sent, count, deadline, he, hsender⟩
    · exact .inl hold
    · cases he
      exact .inr ⟨file, box, sent, count, deadline, hsender⟩

theorem turn_stepDelivery {index : Nat} {delivery : Delivery}
    (h : s.deliveries[index]? = some delivery) :
    Turn s (.delivery index) (s.deliveryLog delivery) (s.stepDelivery index delivery) := by
  have hrest (hphase : delivery.phase ≠ .submitted) : Turn s (.delivery index) [] s := by
    refine .rest fun he hd => ?_
    cases he
    rw [h] at hd
    exact Option.some.inj hd ▸ hphase
  unfold State.stepDelivery State.deliveryLog
  cases hphase : delivery.phase with
  | submitted =>
    dsimp only
    cases s.replies.headD .standard with
    | mk during delay kind =>
      dsimp only
      -- noting the request and taking the reply off the script changes nothing that matters here
      have hnoted : Alike s
          { s with
            replies := s.replies.tail
            record := { s.record with
              requests :=
                s.record.requests ++ [(delivery.request.file, delivery.request.patchText)] } } :=
        ⟨rfl, rfl, rfl, rfl, rfl, rfl, rfl, rfl⟩
      have hscript := Meanwhile.alike_before hnoted (performNested_meanwhile _ during)
      have hserver := hscript.alike_after (answerRequest_alike _ delivery.request kind)
      generalize State.answerRequest _ delivery.request kind = answered at hserver ⊢
      obtain ⟨u, answer⟩ := answered
      have hrequests := u.requests_setDelivery index
      cases answer with
      | none =>
        exact .delivered hserver (hrequests .lost) List.prefix_rfl id (fun _ => .inl) (fun _ => .inl)
          (fun hd hphase => State.of_submitted_setDelivery hd hphase nofun) .inl
      | some answer =>
        dsimp only
        split
        · exact turn_arrive hserver index _ answer
        · refine .delivered (t := u) hserver (hrequests (.withheld answer)) List.prefix_rfl id
            (fun _ => .inl) (fun timer htimer => ?_)
            (fun hd hphase => State.of_submitted_setDelivery hd hphase nofun) .inl
          rcases List.mem_append.mp htimer with htimer | htimer
          · exact .inl htimer
          · exact .inr (by rw [List.mem_singleton.mp htimer])
  | withheld answer => exact turn_arrive (.refl none s) index _ answer
  | answered answer => exact hrest (hphase ▸ nofun)
  | lost => exact hrest (hphase ▸ nofun)

/-- Each step of a task is one of the turns. -/
theorem turn_stepTask (hs : Housed s) (task : TaskId) :
    Turn s task (s.taskLog task) (s.stepTask task) := by
  cases task with
  | notifier => exact turn_stepNotifier hs
  | sender index =>
    simp only [State.taskLog, State.stepTask]
    cases h : s.senders[index]? with
    | none => exact .rest fun he => by cases he
    | some sender => exact turn_stepSender hs h
  | delivery index =>
    simp only [State.taskLog, State.stepTask]
    cases h : s.deliveries[index]? with
    | none => exact .rest fun he hd => by cases he; rw [h] at hd; cases hd
    | some delivery => exact turn_stepDelivery h

end Coedit.Session
