import Coedit.Proofs.SendSlots

/-!
Runs of a session, with the ledgers of its outboxes. A session is orderly when it starts and stays
so whatever happens (`orderly_after`). What the processor of a session does by itself is one of the
runs (`run_eq_after`).
-/
namespace Coedit.Session

variable {s t : State} {log : Log} {task : TaskId} {ledgers : Nat → Ledger}

/-- A session whose events are traced in the ledgers of its outboxes. The traced characters of a
changed document are those of `Coedit.Traced`. -/
structure Traced where
  state : State
  ledgers : Nat → Ledger

namespace Traced

/-- Nothing has been handed over at the start. -/
def start (settings : Settings) (files : List FileSetup) : Traced :=
  ⟨State.start settings files, fun box => { outbox := (State.start settings files).outbox box }⟩

/-- The session after an event, whose moves are noted. -/
def happen (r : Traced) (event : Event) : Traced :=
  ⟨r.state.happen event, record r.ledgers (r.state.log event)⟩

def after (r : Traced) (events : List Event) : Traced := events.foldl happen r

end Traced

theorem State.jump_eq (s : State) (time : Nat) :
    ∃ woken,
      s.jump time =
        { s with
          clock := time
          timers := s.timers.filter fun timer => !decide (timer.due ≤ time)
          ready := s.ready ++ woken } ∧
      (∀ task ∈ woken, ∃ timer ∈ s.timers, timer.task = task) ∧
      (s.ready.Nodup → (s.ready ++ woken).Nodup) := by
  obtain ⟨woken, hwake, hin, hnodup⟩ := State.wakeAll_eq
    { s with clock := time, timers := s.timers.filter fun timer => !decide (timer.due ≤ time) }
    ((s.timers.filter fun timer => timer.due ≤ time).map Timer.task)
  refine ⟨woken, ?_, fun task htask => ?_, hnodup⟩
  · rw [← hwake]
    simp [State.jump, List.partition_eq_filter_filter, Function.comp_def]
  · obtain ⟨timer, htimer, htask⟩ := List.mem_map.mp (hin task htask)
    exact ⟨timer, List.mem_of_mem_filter htimer, htask⟩

/-- Whatever happens, no task moves, or only the clock does, or one ready task takes a step. -/
theorem happen_cases (s : State) (event : Event) :
    (∃ log, Meanwhile none s log (s.happen event)) ∨
      (∃ clock ready timers, s.happen event = { s with clock, ready, timers }) ∨
      ∃ task ready, event = .run task ∧ task ∈ s.ready ∧
        s.happen event = { s.stepTask task with ready } := by
  cases event with
  | act action => exact .inl ⟨_, perform_meanwhile s action⟩
  | tick time =>
    obtain ⟨woken, hjump, -⟩ := s.jump_eq time
    exact .inr (.inl ⟨_, _, _, hjump⟩)
  | run task =>
    by_cases hready : task ∈ s.ready
    · obtain ⟨ready, hrun⟩ := State.happen_run hready
      exact .inr (.inr ⟨task, ready, rfl, hready, hrun⟩)
    · refine .inl ⟨[], ?_⟩
      simp only [State.happen, hready, if_false]
      exact .refl none s

/-- Everything that keeps tasks out of each other's way. -/
structure Orderly (s : State) (ledgers : Nat → Ledger) : Prop where
  nodup : s.ready.Nodup
  guarded : Guarded s
  timed : Timed s
  housed : Housed s
  slots : Slots s ledgers
  accounts : Accounts s ledgers

namespace Orderly

/-- An effect that leaves phases alone is one of nobody in particular. -/
theorem meanwhile (h : Orderly s ledgers) (hm : Meanwhile none s log t) :
    Orderly t (record ledgers log) := by
  have hstill := hm.still
  have heffect : Effect s .notifier log t :=
    .worked hm rfl rfl (fun index => by rw [hstill.phase]) nofun
  exact ⟨hstill.nodup h.nodup, h.guarded.meanwhile hm, h.timed.meanwhile hm, h.housed.meanwhile hm,
    heffect.slots h.housed.tracks h.slots, heffect.accounts h.housed.tracks h.accounts⟩

theorem run (h : Orderly s ledgers) (hready : task ∈ s.ready) :
    Orderly ((s.stepTask task).settle task) (record ledgers (s.taskLog task)) := by
  have hturn := turn_stepTask h.housed task
  have heffect := hturn.effect h.housed
  have hguarded := hturn.guarded h.guarded h.nodup hready
  have hslots := heffect.slots h.housed.tracks h.slots
  obtain ⟨ready, hsettle, -, hnodup, -⟩ := (s.stepTask task).settle_eq task
  rw [hsettle] at hguarded ⊢
  exact ⟨hnodup (hturn.ready.2 h.nodup), hguarded, (hturn.timed h.timed).kept (fun _ => id) rfl,
    (hturn.housed h.housed).kept rfl rfl rfl rfl, ⟨hslots.held, hslots.taken⟩,
    (heffect.accounts h.housed.tracks h.accounts).of_outbox_eq rfl⟩

/-- Time wakes senders that wait for an answer, and deliveries. -/
theorem tick (h : Orderly s ledgers) (time : Nat) : Orderly (s.jump time) ledgers := by
  obtain ⟨woken, hjump, hin, hnodup⟩ := s.jump_eq time
  rw [hjump]
  refine ⟨hnodup h.nodup, h.guarded.kept rfl rfl fun task htask => ?_, ?_,
    h.housed.kept rfl rfl rfl rfl, ⟨h.slots.held, h.slots.taken⟩, h.accounts.of_outbox_eq rfl⟩
  · rcases List.mem_append.mp htask with htask | htask
    · exact .inl htask
    · obtain ⟨timer, htimer, rfl⟩ := hin task htask
      rcases h.timed timer htimer with ⟨_, hdelivery⟩ | ⟨index, hsender, hwaits⟩
      · rw [hdelivery]
        exact .inr nofun
      · rw [hsender]
        -- it waits for an answer, and so not in line
        refine .inr fun hqueued => ?_
        simp only [State.stage] at hqueued
        cases hphase : s.phase index <;> simp_all [SenderPhase.stage, SenderPhase.isAwaiting]
  · exact h.timed.kept (fun timer htimer => List.mem_of_mem_filter htimer) rfl

theorem happen (h : Orderly s ledgers) (event : Event) :
    Orderly (s.happen event) (record ledgers (s.log event)) := by
  cases event with
  | act action => exact h.meanwhile (perform_meanwhile s action)
  | run task =>
    unfold State.happen State.log
    dsimp only
    split
    · rename_i hready
      exact h.run hready
    · exact h
  | tick time => exact h.tick time

end Orderly

/-- Setting a session up opens files and does nothing else. -/
theorem start_meanwhile (settings : Settings) (files : List FileSetup) :
    ∃ log, Meanwhile none { settings } log (State.start settings files) ∧
      ∀ entry ∈ log, ∃ version stamp, entry.2 = .opened version stamp := by
  have hplace (files : List FileSetup) (s : State) : Meanwhile none s [] (files.foldl .place s) := by
    induction files generalizing s with
    | nil => exact .refl none s
    | cons f files ih =>
      have halike : Alike s (s.place f) := by
        refine .trans ?_ (.mention _ f.file)
        exact ⟨rfl, rfl, rfl, rfl, rfl, rfl, rfl, rfl⟩
      exact .alike_before halike (ih _)
  have hopen (files : List FileSetup) (s : State) :
      ∃ log, Meanwhile none s log (files.foldl .openFrom s) ∧
        ∀ entry ∈ log, ∃ version stamp, entry.2 = .opened version stamp := by
    induction files generalizing s with
    | nil => exact ⟨[], .refl none s, nofun⟩
    | cons f files ih =>
      obtain ⟨more, hmore, hopened⟩ := ih (s.openFrom f)
      rw [List.foldl_cons]
      cases hf : f.opened with
      | none =>
        have hsame : s.openFrom f = s := by rw [State.openFrom, hf]
        rw [hsame] at hmore ⊢
        exact ⟨more, hmore, hopened⟩
      | some version =>
        have htrack : s.openFrom f = (s.track f.file version).1 := by rw [State.openFrom, hf]
        rw [htrack] at hmore ⊢
        refine ⟨_, (Meanwhile.track s f.file version).trans hmore, fun entry hmem => ?_⟩
        rcases List.mem_append.mp hmem with hmem | hmem
        · rcases s.track_cases f.file version with ⟨_, -, -, hlog⟩ | ⟨-, stamp, -, hlog⟩
          · rw [hlog] at hmem
            cases hmem
          · rw [hlog] at hmem
            rw [List.mem_singleton.mp hmem]
            exact ⟨_, _, rfl⟩
        · exact hopened entry hmem
  obtain ⟨log, hlog, hopened⟩ := hopen files (files.foldl .place { settings })
  exact ⟨log, .trans (hplace files _) hlog, hopened⟩

/-- A session in which no file is open yet. -/
theorem Tracks.bare (settings : Settings) : Tracks { settings } where
  known htracked := by cases htracked
  distinct htracked := by cases htracked

theorem Housed.bare (settings : Settings) : Housed { settings } where
  tracks := .bare settings
  sender hs := by cases hs
  notifier hbox := by cases hbox

theorem Guarded.bare (settings : Settings) : Guarded { settings } where
  waiting entry hentry := by cases hentry
  nodup := .nil
  held := by
    refine ⟨[], .nil, .inl ⟨rfl, rfl, fun task htask => by cases htask⟩, fun task => ?_⟩
    cases task <;> simp [Lock.Holds, State.stage, State.phase, NotifierPhase.stage,
      SenderPhase.stage]

theorem orderly_start (settings : Settings) (files : List FileSetup) :
    Orderly (Traced.start settings files).state (Traced.start settings files).ledgers := by
  obtain ⟨log, hstart, hopened⟩ := start_meanwhile settings files
  have htracks := Tracks.bare settings
  have hnew (box : Nat) : ((State.start settings files).outbox box).incoming = [] ∧
      ((State.start settings files).outbox box).queue = [] := by
    rw [hstart.outbox_eq htracks]
    refine replay_invariant (fun o : Outbox => o.incoming = [] ∧ o.queue = []) ?_ ⟨rfl, rfl⟩
    intro m hmem o ho
    obtain ⟨version, stamp, hm⟩ := hopened _ hmem
    rw [show m = _ from hm]
    exact ⟨rfl, rfl⟩
  have htimed : Timed { settings } := fun timer htimer => by cases htimer
  have hphase (index : Nat) : (State.start settings files).phase index = .starting := by
    rw [hstart.still.phase]
    rfl
  refine ⟨hstart.still.nodup .nil, (Guarded.bare settings).meanwhile hstart, ?_, ?_, ⟨?_, ?_⟩,
    ⟨fun _ => rfl, fun box => ⟨?_, ?_, ?_⟩⟩⟩
  · exact htimed.meanwhile hstart
  · exact (Housed.bare settings).meanwhile hstart
  · intro index box hslot
    rw [Traced.start, hphase] at hslot
    cases hslot
  · intro box htaken
    rw [Traced.start, hstart.sending htracks] at htaken
    cases htaken
  · exact congrArg List.length (hnew box).1.symm
  · exact congrArg List.length (hnew box).2.symm
  · rfl

theorem Orderly.after {r : Traced} (h : Orderly r.state r.ledgers) (events : List Event) :
    Orderly (r.after events).state (r.after events).ledgers := by
  induction events generalizing r with
  | nil => exact h
  | cons event events ih => exact ih (h.happen event)

/-- What actions and turns keep in an orderly session is kept by all that happens, if it does not
depend on the clock, the timers and who is ready. -/
theorem Orderly.keeps_after {P : State → (Nat → Ledger) → Prop} {r : Traced}
    (ho : Orderly r.state r.ledgers) (h : P r.state r.ledgers)
    (hmeanwhile : ∀ {s t log ledgers}, Orderly s ledgers → P s ledgers → Meanwhile none s log t →
      P t (record ledgers log))
    (hturn : ∀ {s t task log ledgers}, Orderly s ledgers → P s ledgers → Turn s task log t →
      P t (record ledgers log))
    (hready : ∀ {s ledgers} (clock : Nat) (ready : List TaskId) (timers : List Timer),
      P s ledgers → P { s with clock, ready, timers } ledgers)
    (events : List Event) : P (r.after events).state (r.after events).ledgers := by
  induction events generalizing r with
  | nil => exact h
  | cons event events ih =>
    refine ih (ho.happen event) ?_
    unfold Traced.happen
    cases event with
    | act action => exact hmeanwhile ho h (perform_meanwhile r.state action)
    | run task =>
      unfold State.happen State.log
      dsimp only
      split
      · obtain ⟨ready, hsettle, -⟩ := (r.state.stepTask task).settle_eq task
        rw [hsettle]
        exact hready _ ready _ (hturn ho h (turn_stepTask ho.housed task))
      · exact h
    | tick time =>
      obtain ⟨woken, hjump, -⟩ := r.state.jump_eq time
      rw [State.happen, hjump]
      exact hready time _ _ h

/-- A session stays orderly whatever happens. -/
theorem orderly_after (settings : Settings) (files : List FileSetup) (events : List Event) :
    Orderly ((Traced.start settings files).after events).state
      ((Traced.start settings files).after events).ledgers :=
  (orderly_start settings files).after events

/-- Something holds at every event of a run. -/
def Traced.Throughout (r : Traced) (P : State → Event → Prop) : List Event → Prop
  | [] => True
  | event :: more => P r.state event ∧ (r.happen event).Throughout P more

theorem Traced.after_append (r : Traced) (events more : List Event) :
    r.after (events ++ more) = (r.after events).after more :=
  List.foldl_append

namespace Traced.Throughout

variable {P Q : State → Event → Prop} {R : State → Prop} {r : Traced} {events more : List Event}

theorem append (h : r.Throughout P (events ++ more)) :
    r.Throughout P events ∧ (r.after events).Throughout P more := by
  induction events generalizing r with
  | nil => exact ⟨trivial, h⟩
  | cons event events ih =>
    obtain ⟨hevents, hmore⟩ := ih h.2
    exact ⟨⟨h.1, hevents⟩, hmore⟩

theorem and (h : r.Throughout P events) (h' : r.Throughout Q events) :
    r.Throughout (fun s event => P s event ∧ Q s event) events := by
  induction events generalizing r with
  | nil => trivial
  | cons event more ih => exact ⟨⟨h.1, h'.1⟩, ih h.2 h'.2⟩

/-- What every event of such a run keeps in an orderly session is kept by the run. -/
theorem keeps (h : r.Throughout P events) (ho : Orderly r.state r.ledgers) (hr : R r.state)
    (hstep : ∀ {s ledgers event}, Orderly s ledgers → R s → P s event → R (s.happen event)) :
    R (r.after events).state := by
  induction events generalizing r with
  | nil => exact hr
  | cons event more ih => exact ih h.2 (ho.happen event) (hstep ho hr h.1)

end Traced.Throughout

/-- What the processor of a session does next is one of the things that can happen. -/
theorem step_eq_happen (hh : Housed s) (h : s.step = some t) : ∃ event, t = s.happen event := by
  unfold State.step at h
  cases hready : s.ready with
  | nil =>
    rw [hready] at h
    obtain ⟨time, -, rfl⟩ := Option.map_eq_some_iff.mp h
    exact ⟨.tick time, rfl⟩
  | cons task rest =>
    rw [hready] at h
    obtain rfl := Option.some.inj h
    refine ⟨.run task, ?_⟩
    obtain ⟨more, hmore⟩ := (turn_stepTask hh task).ready.1
    have htail : (s.stepTask task).ready.tail = (s.stepTask task).ready.erase task := by
      rw [← hmore, hready, List.cons_append, List.tail_cons, List.erase_cons_head]
    have hmem : task ∈ s.ready := hready ▸ List.mem_cons_self
    simp only [State.happen, State.settle, hmem, if_true, htail]

/-- Every run of the processor, after whatever has happened, is one of the runs above. -/
theorem run_eq_after (settings : Settings) (files : List FileSetup) (events : List Event)
    (fuel : Nat) : ∃ more,
      State.run fuel ((Traced.start settings files).after events).state =
        ((Traced.start settings files).after (events ++ more)).state := by
  induction fuel generalizing events with
  | zero => exact ⟨[], by rw [List.append_nil]; rfl⟩
  | succ fuel ih =>
    rw [State.run]
    cases hstep : ((Traced.start settings files).after events).state.step with
    | none => exact ⟨[], by rw [List.append_nil]⟩
    | some next =>
      obtain ⟨event, rfl⟩ := step_eq_happen (orderly_after settings files events).housed hstep
      obtain ⟨more, hmore⟩ := ih (events ++ [event])
      refine ⟨event :: more, ?_⟩
      rw [← List.singleton_append, ← List.append_assoc, ← hmore, Traced.after, Traced.after,
        List.foldl_append]
      rfl

end Coedit.Session
