import Coedit.Proofs.HalfTaken
import Coedit.Proofs.Runs

/-!
One outbox while anything happens in a session. Its queue and its version change in four ways only:
a round opens or closes, or an attempt to take a change in drains it and perhaps settles
(`outboxTurn`). Whatever else happens, patches come in or the send slot changes hands.
-/
namespace Coedit.Session

variable {own : Option Nat} {s t u : State} {log : Log} {event : Event} {task : TaskId}
  {index box other : Nat} {file : FileId} {change : RemoteChange} {o : Outbox}
  {ledgers : Nat → Ledger}

/-- The change that a sender is taking in, and the outbox that it is for. -/
def SenderPhase.taking? : SenderPhase → Option (Nat × RemoteChange)
  | .reconciling box change => some (box, change)
  | _ => none

def NotifierPhase.taking? : NotifierPhase → Option (Nat × RemoteChange)
  | .reconciling _ box change => some (box, change)
  | _ => none

def State.taking? (s : State) : TaskId → Option (Nat × RemoteChange)
  | .notifier => s.notifier.taking?
  | .sender index => (s.phase index).taking?
  | .delivery _ => none

/-- What an event does to the queue and the version of an outbox. -/
inductive OutboxTurn (s : State) (box : Nat) (event : Event) (t : State) : Prop
  /-- The outbox is not there yet. -/
  | fresh : s.outboxes.length ≤ box → (t.outbox box).queue = [] → OutboxTurn s box event t
  | aside : (t.outbox box).queue = (s.outbox box).queue →
      (t.outbox box).version = (s.outbox box).version → OutboxTurn s box event t
  | opened {index : Nat} {file : FileId} :
      event = .run (.sender index) → s.senders[index]? = some ⟨file, .opening box⟩ →
      (box, .drain) ∈ s.log event →
      t.outbox box = ((s.outbox box).openRound s.settings.writeThreshold).1 →
      OutboxTurn s box event t
  | closed {index : Nat} {file : FileId} {delivery count deadline : Nat} {sent : Patch} :
      event = .run (.sender index) → .sender index ∈ s.ready →
      s.senders[index]? = some ⟨file, .awaiting box delivery sent count deadline⟩ →
      t.outbox box = ((s.outbox box).closeRound file sent count (s.answer? delivery)).1 →
      OutboxTurn s box event t
  /-- The patches that wait do not fit each other. -/
  | drained {task : TaskId} {change : RemoteChange} :
      event = .run task → s.taking? task = some (box, change) → (box, .drain) ∈ s.log event →
      t.outbox box = (s.outbox box).drain → OutboxTurn s box event t
  | settled {task : TaskId} {change : RemoteChange} {plan : Plan} {verdict : Verdict}
      {patches : List Patch} :
      event = .run task → s.taking? task = some (box, change) → (box, .drain) ∈ s.log event →
      t.outbox box = (change.settle plan verdict ((s.outbox box).drain.enqueue patches)).1 →
      OutboxTurn s box event t

namespace OutboxTurn

theorem congr (h : OutboxTurn s box event t) (houtbox : u.outbox box = t.outbox box) :
    OutboxTurn s box event u := by
  cases h with
  | fresh hlength hqueue => exact .fresh hlength (houtbox ▸ hqueue)
  | aside hqueue hversion => exact .aside (houtbox ▸ hqueue) (houtbox ▸ hversion)
  | opened hevent hs hdrain ho => exact .opened hevent hs hdrain (houtbox.trans ho)
  | closed hevent hready hs ho => exact .closed hevent hready hs (houtbox.trans ho)
  | drained hevent htaking hdrain ho => exact .drained hevent htaking hdrain (houtbox.trans ho)
  | settled hevent htaking hdrain ho => exact .settled hevent htaking hdrain (houtbox.trans ho)

/-- Nobody works on the outbox meanwhile. -/
theorem of_meanwhile (h : Meanwhile own s log t) (hs : Tracks s) (hown : own ≠ some box) :
    OutboxTurn s box event t := by
  rcases Nat.lt_or_ge box s.outboxes.length with hlt | hge
  · obtain ⟨patches, houtbox⟩ := h.exists_enqueue hs hlt hown
    exact .aside (by rw [houtbox]; rfl) (by rw [houtbox]; rfl)
  · exact .fresh hge (h.queue_new hs hge hown)

/-- Another outbox is put in place of one. -/
theorem of_update (houtbox : t.outbox = Function.update s.outbox other o)
    (h : other = box → OutboxTurn s box event t) : OutboxTurn s box event t := by
  by_cases hother : other = box
  · exact h hother
  · have hsame : t.outbox box = s.outbox box := by
      rw [houtbox, Function.update_of_ne (Ne.symm hother)]
    exact .aside (by rw [hsame]) (by rw [hsame])

/-- The slot of an outbox changes hands. -/
theorem of_sending {sending : Bool}
    (houtbox : t.outbox = Function.update s.outbox other { s.outbox other with sending }) :
    OutboxTurn s box event t := by
  refine .of_update houtbox fun hother => ?_
  subst hother
  exact .aside (by rw [houtbox, Function.update_self]) (by rw [houtbox, Function.update_self])

end OutboxTurn

theorem outboxTurn_attempt (hs : Tracks s) (hknown : other < s.outboxes.length)
    (htaking : s.taking? task = some (other, change))
    (hlog : s.log (.run task) = s.attemptLog file other change) :
    OutboxTurn s box (.run task) (s.attempt file other change).1 := by
  by_cases hother : other = box
  · subst hother
    have hdrain : (other, .drain) ∈ s.log (.run task) := hlog ▸ List.mem_cons_self
    cases hattempt : s.attempt file other change with
    | mk t attempt =>
      rcases attempt_cases hs hknown hattempt with ⟨error, -, ho, -⟩ |
        ⟨plan, verdict, patches, -, ho⟩
      · exact .drained rfl htaking hdrain ho
      · exact .settled rfl htaking hdrain (by rw [ho])
  · have hmeanwhile := attempt_meanwhile hs hknown file change
    exact .of_meanwhile hmeanwhile hs fun he => hother (Option.some.inj he)

theorem outboxTurn_stepNotifier (hh : Housed s) (hready : .notifier ∈ s.ready) :
    OutboxTurn s box (.run .notifier) s.stepNotifier := by
  unfold State.stepNotifier
  cases hphase : s.notifier with
  | idle | queued => exact .aside rfl rfl
  | receiving => cases s.notifications <;> exact .aside rfl rfl
  | opening notification =>
    simp only [State.openNotification]
    cases notification.patch with
    | error error => exact .aside rfl rfl
    | ok patch =>
      have htrack : Meanwhile none s _ (s.track notification.file patch.baseVersion).1 :=
        .track s _ _
      have hopened : OutboxTurn s box (.run .notifier)
          (s.track notification.file patch.baseVersion).1 := .of_meanwhile htrack hh.tracks nofun
      dsimp only
      split <;> exact hopened.congr rfl
  | reconciling file other change =>
    have hattempt : OutboxTurn s box (.run .notifier) (s.attempt file other change).1 := by
      refine outboxTurn_attempt hh.tracks (hh.notifier (by rw [hphase]; rfl)) ?_ ?_
      · rw [State.taking?, hphase]
        rfl
      · simp only [State.log, hready, if_true, State.taskLog, State.notifierLog, hphase]
    dsimp only
    cases (s.attempt file other change).2 with
    | again => exact hattempt
    | finished result => exact hattempt.congr rfl
  | closing result =>
    obtain ⟨woken, hrelease, -⟩ := s.releaseLock_eq .exclusive
    rw [hrelease]
    exact .aside rfl rfl

theorem State.outbox_openRound (index : Nat) (file : FileId) (hknown : other < s.outboxes.length) :
    (s.openRound index file other).outbox = Function.update s.outbox other
      ((s.outbox other).openRound s.settings.writeThreshold).1 := by
  rw [← State.outbox_setOutbox_eq_update hknown]
  simp only [State.openRound]
  split
  · rfl
  · simp only [State.submit, State.wake_eq]
    rfl

theorem State.outbox_closeRound (index : Nat) (file : FileId) (sent : Patch) (count : Nat)
    (answer : Answer) (hknown : other < s.outboxes.length) :
    (s.closeRound index file other sent count answer).outbox = Function.update s.outbox other
      ((s.outbox other).closeRound file sent count answer).1 := by
  rw [← State.outbox_setOutbox_eq_update hknown]
  simp only [State.closeRound]
  split <;> rfl

theorem outboxTurn_stepSender {phase : SenderPhase} (hh : Housed s)
    (hready : .sender index ∈ s.ready) (hs : s.senders[index]? = some ⟨file, phase⟩) :
    OutboxTurn s box (.run (.sender index)) (s.stepSender index ⟨file, phase⟩) := by
  have hlog : s.log (.run (.sender index)) = s.senderLog index ⟨file, phase⟩ := by
    simp only [State.log, hready, if_true, State.taskLog, hs]
  cases phase with
  | starting =>
    simp only [State.stepSender]
    split <;> exact .aside rfl rfl
  | claiming other =>
    simp only [State.stepSender, Outbox.claim?]
    cases hsending : (s.outbox other).sending with
    | true => exact .aside rfl rfl
    | false => exact .of_sending (State.outbox_setOutbox_eq_update (hh.sender hs rfl).1 _)
  | queued => exact .aside rfl rfl
  | opening other =>
    have houtbox := State.outbox_openRound index file (hh.sender hs rfl).1
    refine .of_update houtbox fun hother => ?_
    subst hother
    refine .opened rfl hs (hlog ▸ List.mem_cons_self) ?_
    exact (congrFun houtbox other).trans (Function.update_self ..)
  | awaiting other delivery sent count deadline =>
    have hclosed : OutboxTurn s box (.run (.sender index))
        (s.closeRound index file other sent count (s.answer? delivery)) := by
      have houtbox := State.outbox_closeRound index file sent count (s.answer? delivery)
        (hh.sender hs rfl).1
      refine .of_update houtbox fun hother => ?_
      subst hother
      exact .closed rfl hready hs ((congrFun houtbox other).trans (Function.update_self ..))
    simp only [State.stepSender]
    cases hanswer : s.answer? delivery with
    | some answer => rwa [hanswer] at hclosed
    | none =>
      rw [hanswer] at hclosed
      dsimp only
      split
      · exact hclosed
      · exact .aside rfl rfl
  | reconciling other change =>
    have hattempt : OutboxTurn s box (.run (.sender index)) (s.attempt file other change).1 := by
      refine outboxTurn_attempt hh.tracks (hh.sender hs rfl).1 ?_ hlog
      rw [State.taking?, State.phase_of_getElem? hs]
      rfl
    simp only [State.stepSender]
    cases (s.attempt file other change).2 with
    | again => exact hattempt
    | finished result => exact hattempt.congr rfl
  | closing other result =>
    obtain ⟨woken, hrelease, -⟩ := s.releaseLock_eq .shared
    have houtbox := State.outbox_setOutbox_eq_update (hh.sender hs rfl).1 (s.outbox other).release
    simp only [State.stepSender, State.finishRound, hrelease]
    cases result <;> exact .of_sending houtbox
  | finished => exact .aside rfl rfl

/-- What can happen to the queue and the version of an outbox. -/
theorem outboxTurn (hh : Housed s) (box : Nat) (event : Event) :
    OutboxTurn s box event (s.happen event) := by
  rcases happen_cases s event with ⟨log, hm⟩ | ⟨clock, ready, timers, hidle⟩ |
    ⟨task, ready, rfl, hready, hrun⟩
  · exact .of_meanwhile hm hh.tracks fun he => by cases he
  · rw [hidle]
    exact .aside rfl rfl
  · suffices hstep : OutboxTurn s box (.run task) (s.stepTask task) by
      rw [hrun]
      exact hstep.congr rfl
    cases task with
    | notifier => exact outboxTurn_stepNotifier hh hready
    | sender index =>
      simp only [State.stepTask]
      cases hs : s.senders[index]? with
      | none => exact .aside rfl rfl
      | some sender => exact outboxTurn_stepSender hh hready hs
    | delivery index =>
      have hturn := turn_stepTask hh (.delivery index)
      generalize s.stepTask (.delivery index) = t, s.taskLog (.delivery index) = log at hturn ⊢
      cases hturn with
      | rest => exact .aside rfl rfl
      | delivered hmeanwhile =>
        exact (OutboxTurn.of_meanwhile hmeanwhile hh.tracks fun he => by cases he).congr rfl

end Coedit.Session
