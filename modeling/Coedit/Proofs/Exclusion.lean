import Coedit.Proofs.Interleaving

/-!
Who may work when. Whatever turn comes next, the lock knows its holders (`Turn.guarded`), only
senders that wait for an answer have timers (`Turn.timed`), so that nobody in line for the lock is
woken by time, and everyone works on an outbox of its own file (`Turn.housed`).
-/
namespace Coedit.Session

variable {own : Option Nat} {s t : State} {log : Log} {task : TaskId} {index box : Nat}
  {sender : Sender}

/-! ### Phases and stages -/

namespace State

theorem stage_setSender (h : s.senders[index]? = some sender) (phase : SenderPhase) :
    (s.setSender index phase).stage = Function.update s.stage (.sender index) phase.stage := by
  funext task
  cases task with
  | notifier => rfl
  | sender other =>
    have hphase := congrFun (phase_setSender h phase) other
    by_cases hother : other = index
    · subst hother
      rw [Function.update_self] at hphase ⊢
      rw [stage, hphase]
    · rw [Function.update_of_ne hother] at hphase
      rw [Function.update_of_ne (by simpa using hother), stage, stage, hphase]
  | delivery other => rfl

theorem stage_setNotifier (s : State) (phase : NotifierPhase) :
    stage { s with notifier := phase } = Function.update s.stage .notifier phase.stage := by
  funext task
  cases task <;> rfl

theorem stage_sender (h : s.senders[index]? = some sender) :
    s.stage (.sender index) = sender.phase.stage :=
  congrArg SenderPhase.stage (phase_of_getElem? h)

/-- A sender that does anything is there. -/
theorem exists_sender {box : Nat} (h : (s.phase index).box? = some box) :
    ∃ sender, s.senders[index]? = some sender ∧ sender.phase = s.phase index := by
  cases hs : s.senders[index]? with
  | none =>
    rw [phase, hs] at h
    cases h
  | some sender => exact ⟨sender, rfl, (phase_of_getElem? hs).symm⟩

theorem settle_eq (s : State) (task : TaskId) :
    ∃ ready, s.settle task = { s with ready } ∧ (∀ other ∈ ready, other ∈ s.ready) ∧
      (s.ready.Nodup → ready.Nodup) ∧ (s.ready.Nodup → s.waits task = true → task ∉ ready) := by
  unfold settle
  split
  · refine ⟨_, rfl, fun other => List.mem_of_mem_erase, fun h => h.erase task, fun h _ => ?_⟩
    exact h.not_mem_erase
  · rename_i hwaits
    exact ⟨_, rfl, fun _ => id, id, fun _ hw => absurd hw hwaits⟩

/-- A ready task runs. -/
theorem happen_run (h : task ∈ s.ready) :
    ∃ ready, s.happen (.run task) = { s.stepTask task with ready } := by
  obtain ⟨ready, hsettle, -⟩ := (s.stepTask task).settle_eq task
  exact ⟨ready, by simp only [happen, h, if_true, hsettle]⟩

theorem mem_settle {other : TaskId} (h : other ∈ s.ready) (hne : other ≠ task) :
    other ∈ (s.settle task).ready := by
  unfold settle
  split
  · exact (List.mem_erase_of_ne hne).mpr h
  · exact h

end State

/-! ### The lock -/

/-- The lock knows who holds it and who is in line. -/
def Guarded (s : State) : Prop := s.lock.Guards TaskId.mode s.stage s.ready

namespace Guarded

theorem kept (h : Guarded s) (hlock : t.lock = s.lock) (hstage : t.stage = s.stage)
    (hready : ∀ task ∈ t.ready, task ∈ s.ready ∨ s.stage task ≠ .queued) : Guarded t := by
  rw [Guarded, hlock, hstage]
  exact Lock.Guards.woken h hready

theorem settle (h : Guarded s) (task : TaskId) : Guarded (s.settle task) := by
  obtain ⟨ready, hsettle, hsub, -⟩ := s.settle_eq task
  rw [hsettle]
  exact h.kept rfl rfl fun other hin => .inl (hsub other hin)

theorem meanwhile (h : Guarded s) (hm : Meanwhile own s log t) : Guarded t := by
  have hstill := hm.still
  refine h.kept hstill.lock hstill.stage fun other hin => ?_
  rcases hstill.woken other hin with hin | hout
  · exact .inl hin
  · exact .inr (by simp [hout])

/-- A sender stays where it is with the lock. -/
theorem setSender (h : Guarded s) (hs : s.senders[index]? = some sender) {phase : SenderPhase}
    (hstage : phase.stage = sender.phase.stage) : Guarded (s.setSender index phase) := by
  refine h.kept rfl ?_ fun _ => .inl
  rw [State.stage_setSender hs, hstage, ← State.stage_sender hs, Function.update_eq_self]

/-- So does the notifier. -/
theorem setNotifier (h : Guarded s) {phase : NotifierPhase}
    (hstage : phase.stage = s.notifier.stage) : Guarded { s with notifier := phase } := by
  refine h.kept rfl ?_ fun _ => .inl
  rw [State.stage_setNotifier, hstage]
  exact Function.update_eq_self TaskId.notifier s.stage

/-- A task asks for the lock; if it does not get it, it waits. -/
theorem acquired {held : Bool} (h : Guarded s) (hnodup : s.ready.Nodup)
    (hout : s.stage task = .outside) (hacquire : s.lock.acquire task task.mode = (t.lock, held))
    (hready : t.ready = s.ready)
    (hstage : t.stage = Function.update s.stage task (if held then .inside else .queued))
    (hwaits : held = false → t.waits task = true) : Guarded (t.settle task) := by
  cases held with
  | true =>
    refine settle ?_ task
    rw [Guarded, hstage, hready]
    exact Lock.Guards.granted h hout hacquire
  | false =>
    obtain ⟨ready, hsettle, hsub, -, hgone⟩ := t.settle_eq task
    rw [hsettle]
    change Lock.Guards t.lock TaskId.mode t.stage ready
    rw [hstage]
    rw [hready] at hsub hgone
    exact Lock.Guards.refused h hout (hgone hnodup (hwaits rfl)) (fun other hin => .inl (hsub other hin))
      hacquire

/-- A task gives the lock back and wakes who is served. -/
theorem released {woken : List TaskId} (h : Guarded s) (hin : s.stage task = .inside)
    (hlock : t.lock = (s.lock.release task.mode).1) (hready : t.ready = s.ready ++ woken)
    (hwoken : ∀ other ∈ woken, other ∈ (s.lock.release task.mode).2)
    (hstage : t.stage = Function.update s.stage task .outside) : Guarded t := by
  rw [Guarded, hlock, hstage, hready]
  refine Lock.Guards.left h hin fun other hother => ?_
  rcases List.mem_append.mp hother with hother | hother
  · exact .inl hother
  · exact .inr (.inr (hwoken other hother))

end Guarded

/-- A turn of a ready task keeps the lock in order. -/
theorem Turn.guarded (h : Turn s task log t) (hg : Guarded s) (hnodup : s.ready.Nodup)
    (hready : task ∈ s.ready) : Guarded (t.settle task) := by
  cases h with
  | rest => exact hg.settle task
  | found hs | unknown hs | busy hs =>
    refine Guarded.settle ?_ _
    exact hg.setSender hs rfl
  | @claimed index file box lock held hs _ hacquire =>
    refine hg.acquired hnodup (State.stage_sender hs) hacquire rfl ?_ ?_
    · refine (State.stage_setSender hs _).trans ?_
      cases held <;> rfl
    · rintro rfl
      simp [State.waits, State.setSender, State.setOutbox, hs]
  | served hs =>
    refine Guarded.settle ?_ _
    rw [Guarded, State.stage_setSender hs]
    exact Lock.Guards.entered hg (State.stage_sender hs) hready
  | asked hs _ _ _ hwoken =>
    refine Guarded.settle ?_ _
    refine Guarded.setSender ?_ (by exact hs) rfl
    refine hg.kept rfl rfl fun other hother => ?_
    rcases List.mem_append.mp hother with hother | hother
    · exact .inl hother
    · rw [hwoken other hother]
      exact .inr Stage.noConfusion
  | @answered index file box delivery count deadline sent phase hs hstage =>
    refine Guarded.settle ?_ _
    refine Guarded.setSender ?_
      (show _ = some (Sender.mk file (.awaiting box delivery sent count deadline)) from hs) hstage
    exact hg.kept rfl rfl fun _ => .inl
  | worked hs hphase _ _ hnext _ _ hmeanwhile =>
    refine Guarded.settle ?_ _
    exact (hg.meanwhile hmeanwhile).setSender (hmeanwhile.still.sender hs) (hnext.trans hphase.symm)
  | @ended index file box result woken hs hwoken =>
    refine Guarded.settle ?_ _
    refine hg.released (State.stage_sender hs) rfl rfl hwoken ?_
    refine (State.stage_setSender hs _).trans ?_
    rcases result with error | _
    · rfl
    · cases (s.outbox box).hasPending <;> rfl
  | listened phase hs hphase =>
    have hsame := hg.setNotifier (hphase.trans hs.symm)
    refine Guarded.settle ?_ _
    exact hsame.kept rfl rfl fun _ => .inl
  | @received notification more lock held hs hacquire =>
    refine hg.acquired hnodup (show s.stage .notifier = .outside from hs) hacquire rfl ?_ ?_
    · refine (State.stage_setNotifier _ _).trans ?_
      cases held <;> rfl
    · rintro rfl
      rfl
  | admitted hs =>
    have hqueued : s.stage .notifier = .queued := congrArg NotifierPhase.stage hs
    refine Guarded.settle ?_ _
    rw [Guarded, State.stage_setNotifier]
    exact Lock.Guards.entered hg hqueued hready
  | reconciled _ hs hphase hmeanwhile =>
    refine Guarded.settle ?_ _
    refine (hg.meanwhile hmeanwhile).setNotifier ?_
    rw [hphase, hmeanwhile.still.notifier, hs]
  | left hs hwoken =>
    have hinside : s.stage .notifier = .inside := congrArg NotifierPhase.stage hs
    refine Guarded.settle ?_ _
    exact hg.released hinside rfl rfl hwoken (State.stage_setNotifier _ _)
  | delivered hmeanwhile _ _ _ hwoken =>
    refine Guarded.settle ?_ _
    refine (hg.meanwhile hmeanwhile).kept rfl rfl fun other hin => ?_
    rcases hwoken other hin with hin | hinside
    · exact .inl hin
    · exact .inr (by simp [hinside])

/-- A turn only adds to the ready tasks, and none twice. -/
theorem Turn.ready (h : Turn s task log t) :
    s.ready <+: t.ready ∧ (s.ready.Nodup → t.ready.Nodup) := by
  cases h with
  | rest | found | unknown | busy | claimed | served | answered | listened | received | admitted =>
    exact ⟨List.prefix_rfl, id⟩
  | asked _ _ _ _ _ hnodup | ended _ _ hnodup | left _ _ hnodup =>
    exact ⟨List.prefix_append _ _, hnodup⟩
  | worked _ _ _ _ _ _ _ hmeanwhile | reconciled _ _ _ hmeanwhile =>
    exact ⟨hmeanwhile.still.ready, hmeanwhile.still.nodup⟩
  | delivered hmeanwhile _ hready hnodup =>
    exact ⟨hmeanwhile.still.ready.trans hready, hnodup ∘ hmeanwhile.still.nodup⟩

/-! ### Timers -/

/-- Deliveries have timers, and senders that wait for an answer. -/
def Timed (s : State) : Prop :=
  ∀ timer ∈ s.timers, (∃ delivery, timer.task = .delivery delivery) ∨
    ∃ index, timer.task = .sender index ∧ (s.phase index).isAwaiting = true

namespace Timed

theorem kept (h : Timed s) (htimers : ∀ timer ∈ t.timers, timer ∈ s.timers)
    (hphase : t.phase = s.phase) : Timed t := by
  rw [Timed, hphase]
  exact fun timer htimer => h timer (htimers timer htimer)

/-- A sender moves. It keeps timers only if it waits for an answer then. -/
theorem moved (h : Timed s) {phase : SenderPhase}
    (hphase : t.phase = Function.update s.phase index phase)
    (htimers : ∀ timer ∈ t.timers, timer ∈ s.timers ∧ timer.task ≠ .sender index ∨
      timer.task = .sender index ∧ phase.isAwaiting = true) : Timed t := by
  intro timer htimer
  rw [hphase]
  rcases htimers timer htimer with ⟨hold, hne⟩ | ⟨htask, hwaits⟩
  · refine (h timer hold).imp_right ?_
    rintro ⟨other, htask, hwaits⟩
    have hother : other ≠ index := by
      rintro rfl
      exact hne htask
    refine ⟨other, htask, ?_⟩
    rwa [Function.update_of_ne hother]
  · refine .inr ⟨index, htask, ?_⟩
    rwa [Function.update_self]

theorem ne_of_not_awaiting (h : Timed s) (hs : s.senders[index]? = some sender)
    (hphase : sender.phase.isAwaiting = false) : ∀ timer ∈ s.timers, timer.task ≠ .sender index := by
  intro timer htimer htask
  rcases h timer htimer with ⟨delivery, hdelivery⟩ | ⟨other, hother, hwaits⟩
  · rw [htask] at hdelivery
    cases hdelivery
  · rw [htask] at hother
    cases hother
    rw [State.phase_of_getElem? hs, hphase] at hwaits
    cases hwaits

theorem meanwhile (h : Timed s) (hm : Meanwhile own s log t) : Timed t :=
  h.kept (by simp [hm.still.timers]) hm.still.phase

end Timed

theorem Turn.timed (h : Turn s task log t) (ht : Timed s) : Timed t := by
  cases h with
  | rest => exact ht
  | found hs | unknown hs | busy hs | claimed hs | served hs | ended hs =>
    have hnone := ht.ne_of_not_awaiting hs rfl
    exact ht.moved (State.phase_setSender (by exact hs) _) fun timer htimer =>
      .inl ⟨htimer, hnone timer htimer⟩
  | asked hs =>
    have hnone := ht.ne_of_not_awaiting hs rfl
    refine ht.moved (State.phase_setSender (by exact hs) _) fun timer htimer => ?_
    rcases List.mem_append.mp htimer with htimer | htimer
    · exact .inl ⟨htimer, hnone timer htimer⟩
    · rw [List.mem_singleton.mp htimer]
      exact .inr ⟨rfl, rfl⟩
  | answered hs =>
    refine ht.moved (State.phase_setSender (by exact hs) _) fun timer htimer => ?_
    obtain ⟨hold, hne⟩ := List.mem_filter.mp htimer
    exact .inl ⟨hold, of_decide_eq_true hne⟩
  | @worked index file phase next box log t hs _ _ hphase _ _ _ hmeanwhile =>
    have hnone := ht.ne_of_not_awaiting hs hphase
    have hstill := hmeanwhile.still
    have hmoved := State.phase_setSender (hstill.sender hs) next
    rw [hstill.phase] at hmoved
    refine ht.moved hmoved fun timer htimer => ?_
    have hold : timer ∈ s.timers := hstill.timers ▸ htimer
    exact .inl ⟨hold, hnone timer hold⟩
  | listened | received | admitted | left => exact ht.kept (fun _ => id) rfl
  | reconciled _ _ _ hmeanwhile => exact (ht.meanwhile hmeanwhile).kept (fun _ => id) rfl
  | delivered hmeanwhile _ _ _ _ htimers =>
    have hkept := ht.meanwhile hmeanwhile
    rintro timer htimer
    rcases htimers timer htimer with hold | hnew
    · exact hkept timer hold
    · exact .inl ⟨_, hnew⟩

/-! ### Outboxes -/

namespace Housed

theorem kept (h : Housed s) (htracked : t.tracked = s.tracked)
    (hlength : t.outboxes.length = s.outboxes.length) (hsenders : t.senders = s.senders)
    (hnotifier : t.notifier = s.notifier) : Housed t := by
  refine ⟨⟨?_, ?_⟩, ?_, ?_⟩
  · rw [htracked, hlength]
    exact h.tracks.known
  · rw [htracked]
    exact h.tracks.distinct
  · rw [htracked, hlength, hsenders]
    exact h.sender
  · rw [hlength, hnotifier]
    exact h.notifier

theorem meanwhile (h : Housed s) (hm : Meanwhile own s log t) : Housed t := by
  obtain ⟨htracks, hold⟩ := hm.tracks h.tracks
  have hstill := hm.still
  refine ⟨htracks, ?_, ?_⟩
  · intro index sender box hs hbox
    have hphase : (s.phase index).box? = some box := by
      rw [← hstill.phase, State.phase_of_getElem? hs, hbox]
    obtain ⟨before, hbefore, -⟩ := State.exists_sender hphase
    obtain rfl : before = sender := Option.some.inj ((hstill.sender hbefore).symm.trans hs)
    obtain ⟨hlt, hfile⟩ := h.sender hbefore hbox
    refine ⟨Nat.lt_of_lt_of_le hlt hm.length_le, fun htracked => ?_⟩
    rcases hold htracked with htracked | hnew
    · exact hfile htracked
    · exact absurd hlt (Nat.not_lt.mpr hnew)
  · intro box hbox
    rw [hstill.notifier] at hbox
    exact Nat.lt_of_lt_of_le (h.notifier hbox) hm.length_le

/-- A sender moves on to another outbox of its file, or to the same. -/
theorem setSender (h : Housed s) (hs : s.senders[index]? = some sender) {phase : SenderPhase}
    (hphase : ∀ {box}, phase.box? = some box → sender.phase.box? = some box ∨
      s.tracked.get? sender.file = some box) : Housed (s.setSender index phase) := by
  refine ⟨⟨h.tracks.known, h.tracks.distinct⟩, ?_, h.notifier⟩
  intro other moved box hother hbox
  by_cases hne : other = index
  · subst hne
    obtain rfl : moved = { sender with phase } := by
      simpa [State.setSender, hs, eq_comm] using hother
    rcases hphase hbox with hbefore | htracked
    · have hhere := h.sender hs hbefore
      exact hhere
    · exact ⟨h.tracks.known htracked, fun hfile => h.tracks.distinct hfile htracked⟩
  · have hbefore : s.senders[other]? = some moved := by
      simpa [State.setSender, Ne.symm hne] using hother
    exact h.sender hbefore hbox

theorem setNotifier (h : Housed s) {phase : NotifierPhase}
    (hphase : ∀ {box}, phase.box? = some box → box < s.outboxes.length) :
    Housed { s with notifier := phase } :=
  ⟨⟨h.tracks.known, h.tracks.distinct⟩, h.sender, hphase⟩

end Housed

theorem Turn.housed (h : Turn s task log t) (hh : Housed s) : Housed t := by
  cases h with
  | rest => exact hh
  | found hs htracked => exact hh.setSender hs (by rintro box ⟨⟩; exact .inr htracked)
  | unknown hs | busy hs => exact hh.setSender hs nofun
  | served hs => exact hh.setSender hs .inl
  | @claimed index file box lock held hs =>
    refine Housed.setSender ?_ (by exact hs) ?_
    · exact hh.kept rfl (List.length_set ..) rfl rfl
    · cases held <;> exact .inl
  | asked hs =>
    refine Housed.setSender ?_ (by exact hs) .inl
    exact hh.kept rfl (List.length_set ..) rfl rfl
  | @answered index file box delivery count deadline sent phase hs _ hphase =>
    have hkept : Housed ((s.cancelTimers (.sender index)).setOutbox box
        ((s.outbox box).moveAll (Outbox.closeMoves count (s.answer? delivery)))) :=
      hh.kept rfl (List.length_set ..) rfl rfl
    refine hkept.setSender hs fun {other} hother => ?_
    exact .inl (hphase.symm.trans hother)
  | worked hs _ hphase _ _ hnext _ hmeanwhile =>
    refine (hh.meanwhile hmeanwhile).setSender (hmeanwhile.still.sender hs) ?_
    intro other hother
    exact .inl (hphase.trans (hnext.symm.trans hother))
  | @ended index file box result woken hs =>
    refine Housed.setSender ?_ (by exact hs) ?_
    · exact hh.kept rfl (List.length_set ..) rfl rfl
    · rcases result with error | _
      · exact nofun
      · cases (s.outbox box).hasPending
        · exact nofun
        · exact .inl
  | listened phase _ _ hphase =>
    have hnone {box : Nat} (hbox : phase.box? = some box) : box < s.outboxes.length := by
      rw [hphase] at hbox
      cases hbox
    exact (hh.setNotifier hnone).kept rfl rfl rfl rfl
  | @received notification more lock held =>
    exact (hh.setNotifier (by cases held <;> exact nofun)).kept rfl rfl rfl rfl
  | admitted => exact hh.setNotifier nofun
  | reconciled _ _ _ hmeanwhile hbox => exact (hh.meanwhile hmeanwhile).setNotifier hbox
  | left => exact (hh.setNotifier (by exact nofun)).kept rfl rfl rfl rfl
  | delivered hmeanwhile => exact (hh.meanwhile hmeanwhile).kept rfl rfl rfl rfl

end Coedit.Session
