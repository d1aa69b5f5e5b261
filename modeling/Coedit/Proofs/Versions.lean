import Coedit.Proofs.Conservation
import Coedit.Proofs.OutboxTurns

/-!
The version of a document never goes back, unless the server confirms a version that the document
has passed (`ahead_after`). A change that a task is taking in bears no version behind the
document's until the task settles it (`Ahead`): meanwhile no other task moves the version, since a
sender has the send slot and the notifier has the lock.
-/
namespace Coedit

variable {o o' : Outbox} {file : FileId} {sent : Patch} {count : Nat} {answer : Answer}
  {ending : RoundEnd}

/-- A round that closes without a fault has reached the confirmed version, or is to reach it with
the missing patches. -/
theorem Outbox.closeRound_version (h : o.closeRound file sent count answer = (o', ending)) :
    (∃ response, answer = some (.ok response) ∧ response.isOk ∧
      (o'.version = response.version ∧ ending = .finished (.ok ()) ∨
        o'.version = o.version ∧
          ∃ change, ending = .reconcile change ∧ change.version = response.version)) ∨
    o'.version = o.version ∧ ∃ result, ending = .finished result ∧
      ∀ response, answer = some (.ok response) → response.isOk → result ≠ .ok () := by
  rcases answer with _ | error | response
  · cases h
    exact .inr ⟨rfl, _, rfl, fun _ he => by cases he⟩
  · cases h
    exact .inr ⟨rfl, _, rfl, fun _ he => by cases he⟩
  · by_cases hok : response.isOk
    · rcases o.closeRound_cases file sent count hok with ⟨error, -, hclose⟩ |
        ⟨missing, -, ⟨error, -, hclose⟩ | ⟨-, hclose⟩ | ⟨remote, -, hclose⟩⟩
      · cases hclose.symm.trans h
        exact .inr ⟨rfl, _, rfl, fun _ _ _ he => by cases he⟩
      · cases hclose.symm.trans h
        exact .inr ⟨rfl, _, rfl, fun _ _ _ he => by cases he⟩
      · cases hclose.symm.trans h
        exact .inl ⟨response, rfl, hok, .inl ⟨rfl, rfl⟩⟩
      · cases hclose.symm.trans h
        exact .inl ⟨response, rfl, hok, .inr ⟨rfl, _, rfl, rfl⟩⟩
    · simp only [closeRound, hok] at h
      cases h
      exact .inr ⟨rfl, _, rfl, fun _ _ _ he => by cases he⟩

theorem RemoteChange.version_settle (change : RemoteChange) (plan : Plan) (verdict : Verdict)
    (o : Outbox) : (change.settle plan verdict o).1.version = change.version ∨
      (change.settle plan verdict o).1.version = o.version := by
  cases verdict with
  | accepted stamp => exact .inl rfl
  | refused stamp | failed error => exact .inr rfl

theorem Outbox.version_openRound (o : Outbox) (threshold : Nat) :
    (o.openRound threshold).1.version = o.version := by
  simp only [Outbox.openRound]
  cases Patch.consolidate (o.drain.snapshot threshold) with
  | error error => rfl
  | ok joined =>
    cases joined with
    | none => rfl
    | some patch =>
      dsimp only
      split <;> rfl

namespace Session

variable {s t : State} {log : Log} {task other : TaskId} {event : Event} {events : List Event}
  {index box delivery deadline : Nat} {change : RemoteChange} {response : Response} {r : Traced}
  {ledgers : Nat → Ledger}

/-! ### Other tasks -/

def State.result? (s : State) : TaskId → Option (Except SyncError Unit)
  | .notifier => s.notifier.result?
  | .sender index => (s.phase index).result?
  | .delivery _ => none

theorem Turn.notifier_of_ne (h : Turn s task log t) (hne : task ≠ .notifier) :
    t.notifier = s.notifier := by
  cases h with
  | rest | found | unknown | busy | claimed | served | asked | answered | ended => rfl
  | worked _ _ _ _ _ _ _ hmeanwhile | delivered hmeanwhile => exact hmeanwhile.still.notifier
  | listened | received | admitted | reconciled | left => exact absurd rfl hne

/-- What neither actions nor turns of other tasks change stays while a task rests, if it does not
depend on the clock, the timers and who is ready. -/
theorem eq_of_rests {α : Type} (f : State → α) (hh : Housed s)
    (hrests : event = .run task → task ∉ s.ready)
    (hmeanwhile : ∀ {t log}, Meanwhile none s log t → f t = f s)
    (hturn : ∀ {other t log}, other ≠ task → Turn s other log t → f t = f s)
    (hready : ∀ (t : State) (clock : Nat) (ready : List TaskId) (timers : List Timer),
      f { t with clock, ready, timers } = f t) : f (s.happen event) = f s := by
  rcases happen_cases s event with ⟨log, hm⟩ | ⟨clock, ready, timers, hidle⟩ |
    ⟨other, ready, he, hruns, hrun⟩
  · exact hmeanwhile hm
  · exact hidle ▸ hready s clock ready timers
  · have hother : other ≠ task := by
      rintro rfl
      exact hrests he hruns
    exact hrun ▸ (hready _ _ ready _).trans (hturn hother (turn_stepTask hh other))

theorem notifier_of_rests (hh : Housed s) (hrests : event = .run .notifier → .notifier ∉ s.ready) :
    (s.happen event).notifier = s.notifier :=
  eq_of_rests State.notifier hh hrests (fun hm => hm.still.notifier)
    (fun hne hturn => hturn.notifier_of_ne hne) fun _ _ _ _ => rfl

theorem phase_of_rests (hh : Housed s)
    (hrests : event = .run (.sender index) → .sender index ∉ s.ready) :
    (s.happen event).phase index = s.phase index :=
  eq_of_rests (fun s => s.phase index) hh hrests (fun hm => congrFun hm.still.phase index)
    (fun hne hturn => hturn.phase_of_ne hne) fun _ _ _ _ => rfl

/-- A task that rests goes on with what it works on. -/
theorem work_of_rests (hh : Housed s) (hrests : event = .run task → task ∉ s.ready) :
    (s.happen event).taking? task = s.taking? task ∧
      (s.happen event).result? task = s.result? task := by
  cases task with
  | notifier =>
    have hsame := notifier_of_rests hh hrests
    exact ⟨congrArg NotifierPhase.taking? hsame, congrArg NotifierPhase.result? hsame⟩
  | sender index =>
    have hsame := phase_of_rests hh hrests
    exact ⟨congrArg SenderPhase.taking? hsame, congrArg SenderPhase.result? hsame⟩
  | delivery index => exact ⟨rfl, rfl⟩

theorem Turn.length_le (h : Turn s task log t) : s.outboxes.length ≤ t.outboxes.length := by
  cases h with
  | rest | found | unknown | busy | served | listened | received | admitted | left =>
    exact Nat.le_refl _
  | claimed | asked | answered | ended => exact Nat.le_of_eq (List.length_set ..).symm
  | worked _ _ _ _ _ _ _ hmeanwhile | reconciled _ _ _ hmeanwhile | delivered hmeanwhile =>
    exact hmeanwhile.length_le

/-- No outbox goes away. -/
theorem length_happen (hh : Housed s) (event : Event) :
    s.outboxes.length ≤ (s.happen event).outboxes.length := by
  rcases happen_cases s event with ⟨log, hm⟩ | ⟨clock, ready, timers, hidle⟩ |
    ⟨task, ready, -, -, hrun⟩
  · exact hm.length_le
  · rw [hidle]
  · rw [hrun]
    exact (turn_stepTask hh task).length_le

/-! ### Confirmations -/

/-- The confirmation that a sender takes in, and for which outbox. -/
def State.confirms? (s : State) : Event → Option (Nat × Response)
  | .run (.sender index) =>
    match s.phase index with
    | .awaiting box delivery _ _ _ =>
      match s.answer? delivery with
      | some (.ok response) =>
        if .sender index ∈ s.ready ∧ response.isOk then some (box, response) else none
      | _ => none
    | _ => none
  | _ => none

theorem State.sender_of_phase {phase : SenderPhase} (h : s.phase index = phase)
    (hbox : phase.box? = some box) : ∃ file, s.senders[index]? = some ⟨file, phase⟩ := by
  obtain ⟨⟨file, _⟩, hs, rfl⟩ := exists_sender (s := s) (h ▸ hbox)
  exact ⟨file, hs.trans (congrArg (fun phase => some (Sender.mk file phase)) h)⟩

theorem State.confirms?_of_awaiting
    (hs : s.senders[index]? = some ⟨file, .awaiting box delivery sent count deadline⟩)
    (hready : .sender index ∈ s.ready) (hanswer : s.answer? delivery = some (.ok response))
    (hok : response.isOk) : s.confirms? (.run (.sender index)) = some (box, response) := by
  simp only [confirms?, phase_of_getElem? hs, hanswer, hready, hok, and_self, if_true]

theorem State.awaiting_of_confirms (h : s.confirms? (.run (.sender index)) = some (box, response)) :
    .sender index ∈ s.ready ∧ response.isOk ∧ ∃ file delivery sent count deadline,
      s.senders[index]? = some ⟨file, .awaiting box delivery sent count deadline⟩ ∧
        s.answer? delivery = some (.ok response) := by
  simp only [confirms?] at h
  split at h
  · rename_i hphase
    obtain ⟨file, hs⟩ := sender_of_phase hphase rfl
    split at h
    · rename_i hanswer
      split at h
      · rename_i hready
        cases h
        exact ⟨hready.1, hready.2, file, _, _, _, _, hs, hanswer⟩
      · cases h
    · cases h
  · cases h

/-- An event takes no confirmation in with a version that the document has passed. -/
def State.Forward (s : State) (box : Nat) (event : Event) : Prop :=
  ∀ taken ∈ s.confirms? event, taken.1 = box → (s.outbox box).version ≤ taken.2.version

/-- No confirmation that is taken in bears a version that the document has passed. -/
def Traced.Forward (r : Traced) (box : Nat) (events : List Event) : Prop :=
  r.Throughout (fun s event => s.Forward box event) events

/-- The changes that are being taken in are not behind the document. -/
def Ahead (s : State) (box : Nat) : Prop :=
  ∀ ⦃task : TaskId⦄ ⦃change : RemoteChange⦄, s.taking? task = some (box, change) →
    (s.outbox box).version ≤ change.version

namespace State

theorem notifier_of_taking (h : s.taking? .notifier = some (box, change)) :
    ∃ file, s.notifier = .reconciling file box change := by
  rw [taking?] at h
  cases hphase : s.notifier <;> rw [hphase] at h <;> cases h
  exact ⟨_, rfl⟩

theorem sender_of_taking (h : s.taking? (.sender index) = some (box, change)) :
    ∃ file, s.senders[index]? = some ⟨file, .reconciling box change⟩ := by
  rw [taking?] at h
  cases hphase : s.phase index <;> rw [hphase] at h <;> cases h
  exact sender_of_phase hphase rfl

theorem stage_of_taking (h : s.taking? task = some (box, change)) : s.stage task = .inside := by
  cases task with
  | notifier =>
    obtain ⟨file, hphase⟩ := notifier_of_taking h
    rw [stage, hphase]
    rfl
  | sender index =>
    obtain ⟨file, hs⟩ := sender_of_taking h
    exact stage_sender hs
  | delivery index => cases h

theorem slot?_of_taking (h : s.taking? (.sender index) = some (box, change)) :
    (s.phase index).slot? = some box := by
  obtain ⟨file, hs⟩ := sender_of_taking h
  exact slot?_sender hs

theorem known_of_taking (hh : Housed s) (h : s.taking? task = some (box, change)) :
    box < s.outboxes.length := by
  cases task with
  | notifier =>
    obtain ⟨file, hphase⟩ := notifier_of_taking h
    exact hh.notifier (by rw [hphase]; rfl)
  | sender index =>
    obtain ⟨file, hs⟩ := sender_of_taking h
    exact (hh.sender hs rfl).1
  | delivery index => cases h

end State

/-- While a task takes a change in, no other task works on the outbox. -/
theorem Orderly.eq_of_taking (ho : Orderly s ledgers) (h : s.taking? task = some (box, change))
    (hin : s.stage other = .inside)
    (hslot : ∀ index, other = .sender index → (s.phase index).slot? = some box) : other = task := by
  have hinside := State.stage_of_taking h
  cases task with
  | notifier => exact ho.guarded.eq_of_inside rfl hinside hin
  | sender index =>
    cases other with
    | notifier => exact (ho.guarded.eq_of_inside rfl hin hinside).symm
    | sender rival =>
      exact congrArg _ (ho.slots.eq_of_slot? (hslot rival rfl) (State.slot?_of_taking h))
    | delivery delivery => cases hin
  | delivery delivery => cases hinside

theorem State.phase_setSender_self {sender : Sender} (h : s.senders[index]? = some sender)
    (phase : SenderPhase) : (s.setSender index phase).phase index = phase := by
  rw [State.phase_setSender h, Function.update_self]

/-- A task that takes a change in goes on with it or ends, without a fault only at the version of
the change. -/
theorem stepTask_of_taking (hh : Housed s) (h : s.taking? task = some (box, change)) :
    (s.stepTask task).taking? task = some (box, change) ∨
      ∃ result, (s.stepTask task).result? task = some result ∧
        (result = .ok () → ((s.stepTask task).outbox box).version = change.version) := by
  have hknown := State.known_of_taking hh h
  have hend {t : State} {file : FileId} {result : Except SyncError Unit}
      (hattempt : s.attempt file box change = (t, .finished result)) (hok : result = .ok ()) :
      (t.outbox box).version = change.version := by
    subst hok
    rcases attempt_cases hh.tracks hknown hattempt with ⟨_, -, -, hended⟩ |
      ⟨plan, verdict, patches, -, hsettle⟩
    · cases hended
    · rcases RemoteChange.settle_finished hsettle with ⟨-, hversion, -⟩ | ⟨_, hfailed, -⟩
      · exact hversion
      · cases hfailed
  cases task with
  | notifier =>
    obtain ⟨file, hphase⟩ := State.notifier_of_taking h
    have hstill := (attempt_meanwhile hh.tracks hknown file change).still
    simp only [State.stepTask, State.stepNotifier, hphase]
    cases hattempt : s.attempt file box change with
    | mk t attempt =>
      rw [hattempt] at hstill
      cases attempt with
      | again =>
        refine .inl ?_
        rw [State.taking?, hstill.notifier]
        exact h
      | finished result =>
        have hversion := hend hattempt
        exact .inr ⟨result, rfl, hversion⟩
  | sender index =>
    obtain ⟨file, hs⟩ := State.sender_of_taking h
    have hstill := (attempt_meanwhile hh.tracks hknown file change).still
    simp only [State.stepTask, State.stepSender, hs]
    cases hattempt : s.attempt file box change with
    | mk t attempt =>
      rw [hattempt] at hstill
      cases attempt with
      | again =>
        refine .inl ?_
        rw [State.taking?, hstill.phase]
        exact h
      | finished result =>
        have hversion := hend hattempt
        refine .inr ⟨result, ?_, hversion⟩
        rw [State.result?, State.phase_setSender_self (hstill.sender hs)]
        rfl
  | delivery index => cases h

/-- What closing a round makes of the sender. -/
def RoundEnd.phase (box : Nat) : RoundEnd → SenderPhase
  | .finished result => .closing box result
  | .reconcile change => .reconciling box change

theorem State.phase_closeRound {sender : Sender} {answer : Answer}
    (hs : s.senders[index]? = some sender) :
    (s.closeRound index file box sent count answer).phase index =
      RoundEnd.phase box ((s.outbox box).closeRound file sent count answer).2 := by
  simp only [State.closeRound]
  split <;> rename_i hend <;> rw [hend, State.phase_setSender_self (by exact hs)] <;> rfl

/-- A sender that takes a confirmation in goes on with the missing patches or ends, without a fault
only at the confirmed version. -/
theorem stepTask_of_confirms (hh : Housed s)
    (h : s.confirms? (.run (.sender index)) = some (box, response)) :
    (∃ change, (s.stepTask (.sender index)).taking? (.sender index) = some (box, change) ∧
      change.version = response.version ∧
      ((s.stepTask (.sender index)).outbox box).version = (s.outbox box).version) ∨
    ∃ result, (s.stepTask (.sender index)).result? (.sender index) = some result ∧
      (result = .ok () →
        ((s.stepTask (.sender index)).outbox box).version = response.version) := by
  obtain ⟨-, hok, file, delivery, sent, count, deadline, hs, hanswer⟩ :=
    State.awaiting_of_confirms h
  have hstep : s.stepTask (.sender index) =
      s.closeRound index file box sent count (some (.ok response)) := by
    simp only [State.stepTask, hs, State.stepSender, hanswer]
  have houtbox := congrFun (State.outbox_closeRound index file sent count (some (.ok response))
    (hh.sender hs rfl).1) box
  rw [Function.update_self] at houtbox
  rw [hstep, houtbox, State.taking?, State.result?, State.phase_closeRound hs]
  cases hclose : (s.outbox box).closeRound file sent count (some (.ok response)) with
  | mk closed ending =>
    rcases Outbox.closeRound_version hclose with
      ⟨_, ⟨⟩, -, ⟨hversion, rfl⟩ | ⟨hversion, change, rfl, hchange⟩⟩ |
      ⟨hversion, result, rfl, hfault⟩
    · exact .inr ⟨_, rfl, fun _ => hversion⟩
    · exact .inl ⟨change, rfl, hchange, hversion⟩
    · exact .inr ⟨result, rfl, fun hdone => absurd hdone (hfault response rfl hok)⟩

theorem State.result?_of_taking (h : s.taking? task = some (box, change)) :
    s.result? task = none := by
  cases task with
  | notifier =>
    obtain ⟨file, hphase⟩ := notifier_of_taking h
    rw [result?, hphase]
    rfl
  | sender index =>
    obtain ⟨file, hs⟩ := sender_of_taking h
    rw [result?, phase_of_getElem? hs]
    rfl
  | delivery index => cases h

/-- A change that the notifier comes to take in is ahead of the document. -/
theorem taking_stepNotifier (hnone : s.taking? .notifier = none)
    (h : s.stepNotifier.taking? .notifier = some (box, change)) :
    (s.stepNotifier.outbox box).version < change.version := by
  unfold State.stepNotifier at h ⊢
  cases hphase : s.notifier with
  | idle | queued | closing => simp only [hphase] at h; cases h
  | receiving =>
    simp only [hphase] at h
    cases hwaiting : s.notifications with
    | nil => simp only [hwaiting] at h; cases h
    | cons notification more =>
      simp only [hwaiting, State.taking?] at h
      split at h <;> cases h
  | opening notification =>
    simp only [hphase, State.openNotification] at h ⊢
    cases hpatch : notification.patch with
    | error error => simp only [hpatch] at h; cases h
    | ok patch =>
      simp only [hpatch] at h ⊢
      split at h
      · cases h
      · rename_i hbehind
        cases h
        rw [if_neg hbehind]
        exact Int.not_le.mp hbehind
  | reconciling =>
    rw [State.taking?, hphase] at hnone
    cases hnone

/-- A round leaves something to take in only with a confirmation, whose version the document is to
have. -/
theorem taking_closeRound {own : Nat} {answer : Answer} (hknown : own < s.outboxes.length)
    (hs : s.senders[index]? = some ⟨file, .awaiting own delivery sent count deadline⟩)
    (h : (s.closeRound index file own sent count answer).taking? (.sender index) =
      some (box, change)) :
    box = own ∧ ∃ response, answer = some (.ok response) ∧ response.isOk ∧
      change.version = response.version ∧
      ((s.closeRound index file own sent count answer).outbox own).version =
        (s.outbox own).version := by
  have houtbox := congrFun (State.outbox_closeRound index file sent count answer hknown) own
  rw [Function.update_self] at houtbox
  rw [State.taking?, State.phase_closeRound hs] at h
  rw [houtbox]
  cases hclose : (s.outbox own).closeRound file sent count answer with
  | mk closed ending =>
    rw [hclose] at h
    rcases Outbox.closeRound_version hclose with
      ⟨response, hanswer, hok, ⟨-, rfl⟩ | ⟨hversion, missing, rfl, hmissing⟩⟩ | ⟨-, result, rfl, -⟩
    · cases h
    · cases h
      exact ⟨rfl, response, hanswer, hok, hmissing, hversion⟩
    · cases h

/-- A change that a sender comes to take in is that of a confirmation. -/
theorem taking_stepSender (hh : Housed s) (hready : .sender index ∈ s.ready)
    (hnone : s.taking? (.sender index) = none)
    (h : (s.stepTask (.sender index)).taking? (.sender index) = some (box, change)) :
    ∃ response, s.confirms? (.run (.sender index)) = some (box, response) ∧
      change.version = response.version ∧
      ((s.stepTask (.sender index)).outbox box).version = (s.outbox box).version := by
  have hmoved {u : State} {sender : Sender} {next : SenderPhase}
      (hu : u.senders[index]? = some sender)
      (h : (u.setSender index next).taking? (.sender index) = some (box, change)) :
      next.taking? = some (box, change) := by
    rwa [State.taking?, State.phase_setSender_self hu] at h
  cases hs : s.senders[index]? with
  | none =>
    simp only [State.stepTask, hs, hnone] at h
    cases h
  | some sender =>
    obtain ⟨file, phase⟩ := sender
    have hstep : s.stepTask (.sender index) = s.stepSender index ⟨file, phase⟩ := by
      simp only [State.stepTask, hs]
    rw [hstep] at h ⊢
    cases phase with
    | starting =>
      simp only [State.stepSender] at h
      cases htracked : s.tracked.get? file <;> rw [htracked] at h <;> cases hmoved hs h
    | claiming own =>
      simp only [State.stepSender] at h
      cases hclaim : (s.outbox own).claim? with
      | none => rw [hclaim] at h; cases hmoved hs h
      | some claimed =>
        rw [hclaim] at h
        have hphase := hmoved (by exact hs) h
        split at hphase <;> cases hphase
    | queued own => cases hmoved hs h
    | opening own =>
      simp only [State.stepSender, State.openRound] at h
      split at h
      · cases hmoved (by exact hs) h
      · rename_i patch count hopen
        obtain ⟨woken, hsubmit, -⟩ := State.submit_eq
          (s.setOutbox own ((s.outbox own).openRound s.settings.writeThreshold).1) index file patch
        rw [hsubmit] at h
        cases hmoved (by exact hs) h
    | awaiting own delivery sent count deadline =>
      have hknown := (hh.sender hs rfl).1
      simp only [State.stepSender] at h ⊢
      cases hanswer : s.answer? delivery with
      | some answer =>
        simp only [hanswer] at h ⊢
        obtain ⟨rfl, response, he, hok, hversion⟩ := taking_closeRound hknown hs h
        cases he
        exact ⟨response, State.confirms?_of_awaiting hs hready hanswer hok, hversion⟩
      | none =>
        simp only [hanswer] at h
        split at h
        · -- the deadline has passed
          obtain ⟨-, response, he, -⟩ := taking_closeRound hknown hs h
          cases he
        · rw [hnone] at h
          cases h
    | reconciling own taken =>
      rw [State.taking?, State.phase_of_getElem? hs] at hnone
      cases hnone
    | closing own result =>
      obtain ⟨woken, hrelease, -⟩ := s.releaseLock_eq .shared
      simp only [State.stepSender, State.finishRound, hrelease] at h
      cases result with
      | error error => cases hmoved (by exact hs) h
      | ok =>
        have hphase := hmoved (by exact hs) h
        split at hphase <;> cases hphase
    | finished result =>
      simp only [State.stepSender, hnone] at h
      cases h

/-- A change that is being taken in has been before, or is that of a confirmation, or is ahead of
the document. -/
theorem taking_happen (hh : Housed s) (h : (s.happen event).taking? task = some (box, change)) :
    s.taking? task = some (box, change) ∨
      (∃ response, s.confirms? event = some (box, response) ∧ change.version = response.version ∧
        ((s.happen event).outbox box).version = (s.outbox box).version) ∨
      ((s.happen event).outbox box).version < change.version := by
  by_cases hrun : event = .run task ∧ task ∈ s.ready
  · obtain ⟨rfl, hready⟩ := hrun
    obtain ⟨ready, hrun⟩ := State.happen_run hready
    rw [hrun] at h ⊢
    replace h : (s.stepTask task).taking? task = some (box, change) := h
    cases htaking : s.taking? task with
    | some work =>
      obtain ⟨own, taken⟩ := work
      rcases stepTask_of_taking hh htaking with hsame | ⟨result, hresult, -⟩
      · exact .inl (hsame.symm.trans h)
      · rw [State.result?_of_taking h] at hresult
        cases hresult
    | none =>
      cases task with
      | notifier => exact .inr (.inr (taking_stepNotifier htaking h))
      | sender index => exact .inr (.inl (taking_stepSender hh hready htaking h))
      | delivery index => cases h
  · have hrests : event = .run task → task ∉ s.ready := fun he hready => hrun ⟨he, hready⟩
    exact .inl ((work_of_rests hh hrests).1.symm.trans h)

/-! ### The version -/

theorem version_happen (hh : Housed s) (hknown : box < s.outboxes.length) (ha : Ahead s box)
    (hforward : s.Forward box event) :
    (s.outbox box).version ≤ ((s.happen event).outbox box).version := by
  cases outboxTurn hh box event with
  | fresh hnew => exact absurd hknown (Nat.not_lt.mpr hnew)
  | aside _ hversion => exact Int.le_of_eq hversion.symm
  | opened _ _ _ ho =>
    rw [ho]
    exact Int.le_of_eq (Outbox.version_openRound ..).symm
  | @closed index file delivery count deadline sent he hready hs ho =>
    cases hclose : (s.outbox box).closeRound file sent count (s.answer? delivery) with
    | mk closed ending =>
      rw [ho, hclose]
      rcases Outbox.closeRound_version hclose with
        ⟨response, hanswer, hok, ⟨hversion, -⟩ | ⟨hversion, -⟩⟩ | ⟨hversion, -⟩
      · have hconfirms := State.confirms?_of_awaiting hs hready hanswer hok
        exact hversion ▸ hforward (box, response) (he ▸ hconfirms) rfl
      · exact Int.le_of_eq hversion.symm
      · exact Int.le_of_eq hversion.symm
  | drained _ _ _ ho =>
    rw [ho]
    exact Int.le_refl _
  | @settled _ change plan verdict patches _ htaking _ ho =>
    rw [ho]
    rcases change.version_settle plan verdict ((s.outbox box).drain.enqueue patches) with
      hversion | hversion
    · exact hversion ▸ ha htaking
    · exact Int.le_of_eq hversion.symm

/-- Changes that are being taken in stay ahead: who works on the outbox meanwhile is the task that
takes the change in. -/
theorem Ahead.happen (ha : Ahead s box) (ho : Orderly s ledgers)
    (hforward : s.Forward box event) : Ahead (s.happen event) box := by
  intro task change h
  rcases taking_happen ho.housed h with hold | ⟨response, hconfirms, hchange, hversion⟩ | hlt
  · -- the task took the change in before, so that nobody else settles or closes here
    have hle := ha hold
    cases outboxTurn ho.housed box event with
    | fresh hnew => exact absurd (State.known_of_taking ho.housed hold) (Nat.not_lt.mpr hnew)
    | aside _ hversion => rwa [hversion]
    | opened _ _ _ ht => rwa [ht, Outbox.version_openRound]
    | drained _ _ _ ht =>
      rw [ht]
      exact hle
    | closed _ _ hs =>
      have hslot := State.slot?_sender hs
      have he := ho.eq_of_taking hold (State.stage_sender hs) (by rintro _ ⟨⟩; exact hslot)
      subst he
      rw [State.taking?, State.phase_of_getElem? hs] at hold
      cases hold
    | @settled other taken plan verdict patches _ htaking _ ht =>
      have he := ho.eq_of_taking hold (State.stage_of_taking htaking) (by
        rintro index rfl
        exact State.slot?_of_taking htaking)
      subst he
      cases htaking.symm.trans hold
      rw [ht]
      rcases change.version_settle plan verdict ((s.outbox box).drain.enqueue patches) with
        hversion | hversion
      · exact Int.le_of_eq hversion
      · exact hversion ▸ hle
  · rw [hchange, hversion]
    exact hforward _ hconfirms rfl
  · exact Int.le_of_lt hlt

theorem ahead_start (settings : Settings) (files : List FileSetup) (box : Nat) :
    Ahead (Traced.start settings files).state box := by
  obtain ⟨log, hstart, -⟩ := start_meanwhile settings files
  have hnotifier : (Traced.start settings files).state.notifier = .idle := hstart.still.notifier
  have hphase (index : Nat) : (Traced.start settings files).state.phase index = .starting :=
    congrFun hstart.still.phase index
  intro task change h
  cases task with
  | notifier => simp only [State.taking?, hnotifier] at h; cases h
  | sender index => simp only [State.taking?, hphase] at h; cases h
  | delivery index => cases h

def State.Reached (s : State) (box : Nat) (version : Int) : Prop :=
  box < s.outboxes.length ∧ version ≤ (s.outbox box).version

theorem State.Reached.happen {version : Int} (h : s.Reached box version) (hh : Housed s)
    (ha : Ahead s box) (hforward : s.Forward box event) :
    (s.happen event).Reached box version :=
  ⟨Nat.lt_of_lt_of_le h.1 (length_happen hh event),
    Int.le_trans h.2 (version_happen hh h.1 ha hforward)⟩

/-- Changes that are being taken in stay ahead of the document, and it does not go back. -/
theorem ahead_after (ho : Orderly r.state r.ledgers) (ha : Ahead r.state box)
    (h : r.Forward box events) : Ahead (r.after events).state box ∧
      ∀ version, r.state.Reached box version → (r.after events).state.Reached box version := by
  refine ⟨h.keeps (R := (Ahead · box)) ho ha fun ho ha hforward => ha.happen ho hforward, ?_⟩
  intro version hreached
  refine (h.keeps (R := fun s => Ahead s box ∧ s.Reached box version) ho ⟨ha, hreached⟩ ?_).2
  rintro s ledgers event ho ⟨ha, hreached⟩ hforward
  exact ⟨ha.happen ho hforward, hreached.happen ho.housed ha hforward⟩

end Session

end Coedit
