import Coedit.Proofs.Batches
import Coedit.Proofs.Conservation
import Coedit.Proofs.OutboxTurns
import Coedit.Proofs.Regroup

/-!
The labels of patches that wait. Whatever happens in a session, the patches in a queue bear the
version of the document (`labelled_after`): each way in which the queue or the version changes
labels anew or takes patches away. A request is made of the front of the queue, and while its sender
waits nobody touches the outbox, so that the request bears the version of the document
(`requests_labelled`). That is so when the request reaches the server, if it does before any time
passes (`departing_after`). A sender that has given up does not take its request back, which may then
come late and under an older version (`request_leaves_late`).
-/
namespace Coedit

namespace Outbox

variable {o o' : Outbox} {change : RemoteChange}

/-- The patches in the queue bear the version of the document. -/
def Labelled (o : Outbox) : Prop := ∀ p ∈ o.queue, p.baseVersion = o.version

/-- No incoming patch was made for a version that the document has not reached. -/
def Timely (o : Outbox) : Prop := ∀ p ∈ o.incoming, p.baseVersion ≤ o.version

instance (o : Outbox) : Decidable o.Labelled :=
  inferInstanceAs (Decidable (∀ p ∈ o.queue, p.baseVersion = o.version))

instance (o : Outbox) : Decidable o.Timely :=
  inferInstanceAs (Decidable (∀ p ∈ o.incoming, p.baseVersion ≤ o.version))

theorem labelled_of_queue_eq_nil (h : o.queue = []) : o.Labelled := by
  rw [Labelled, h]
  exact nofun

theorem labelled_advance (o : Outbox) (version : Int) : (o.advance version).Labelled := by
  intro p hp
  obtain ⟨q, -, rfl⟩ := List.mem_map.mp hp
  rfl

namespace Labelled

theorem congr (h : o.Labelled) (hqueue : o'.queue = o.queue) (hversion : o'.version = o.version) :
    o'.Labelled := by
  rw [Labelled, hqueue, hversion]
  exact h

theorem removeSent (h : o.Labelled) (count : Nat) : (o.removeSent count).Labelled :=
  fun p hp => h p (List.mem_of_mem_drop hp)

theorem drain (h : o.Labelled) (hin : o.Timely) : o.drain.Labelled := by
  intro p hp
  rcases List.mem_append.mp hp with hp | hp
  · exact h p hp
  · obtain ⟨q, hq, rfl⟩ := List.mem_map.mp hp
    rw [relabel_eq (hin q hq)]
    rfl

theorem openRound (h : o.Labelled) (hin : o.Timely) (threshold : Nat) :
    (o.openRound threshold).1.Labelled := by
  have hdrained := h.drain hin
  simp only [Outbox.openRound]
  cases Patch.consolidate (o.drain.snapshot threshold) with
  | error error => exact hdrained
  | ok joined =>
    cases joined with
    | none => exact hdrained
    | some patch =>
      dsimp only
      split
      · exact hdrained.removeSent _
      · exact hdrained

theorem closeRound (h : o.Labelled) (file : FileId) (sent : Patch) (count : Nat) (answer : Answer) :
    (o.closeRound file sent count answer).1.Labelled := by
  rcases answer with _ | error | response
  · exact h
  · exact h
  · simp only [Outbox.closeRound, closeCommitted]
    split
    · cases response.missingPatches with
      | error error => exact h
      | ok missing =>
        dsimp only
        cases Patch.consolidate missing with
        | error error => exact h.removeSent count
        | ok joined =>
          cases joined with
          | none => exact labelled_advance _ _
          | some remote => exact h.removeSent count
    · exact h.removeSent count

theorem settle (h : o.Labelled) (change : RemoteChange) (plan : Plan) (verdict : Verdict) :
    (change.settle plan verdict o).1.Labelled := by
  cases verdict with
  | accepted stamp => exact labelled_advance _ _
  | refused stamp => exact h.congr rfl rfl
  | failed error => exact h

/-- A request made of the front of the queue bears the version. -/
theorem baseVersion_eq {count : Nat} {sent : Patch} (h : o.Labelled)
    (hjoined : Patch.consolidate (o.queue.take count) = .ok (some sent)) :
    sent.baseVersion = o.version := by
  cases hfront : o.queue.take count with
  | nil =>
    rw [hfront] at hjoined
    cases hjoined
  | cons p ps =>
    rw [hfront] at hjoined
    rw [Patch.baseVersion_of_consolidate hjoined]
    exact h p (List.mem_of_mem_take (hfront ▸ List.mem_cons_self))

end Labelled

end Outbox

namespace Session

variable {s t : State} {log : Log} {task : TaskId} {event : Event} {events : List Event}
  {own : Option Nat} {index box delivery count deadline : Nat} {file : FileId} {sent : Patch}
  {r : Traced} {ledgers : Nat → Ledger}

/-! ### The queue -/

/-- Whenever the outbox is drained, its incoming patches were made for versions that the document
has reached. -/
def Traced.DrainsTimely (r : Traced) (box : Nat) (events : List Event) : Prop :=
  r.Throughout (fun s event => (box, .drain) ∈ s.log event → (s.outbox box).Timely) events

theorem Traced.DrainsTimely.of_timely
    (h : ∀ n < events.length, ((r.after (events.take n)).state.outbox box).Timely) :
    r.DrainsTimely box events := by
  induction events generalizing r with
  | nil => trivial
  | cons event more ih =>
    exact ⟨fun _ => h 0 (Nat.zero_lt_succ _), ih fun n hn => h (n + 1) (Nat.succ_lt_succ hn)⟩

theorem OutboxTurn.labelled (h : OutboxTurn s box event t) (hs : (s.outbox box).Labelled)
    (hin : (box, .drain) ∈ s.log event → (s.outbox box).Timely) : (t.outbox box).Labelled := by
  cases h with
  | fresh _ hqueue => exact Outbox.labelled_of_queue_eq_nil hqueue
  | aside hqueue hversion => exact hs.congr hqueue hversion
  | opened _ _ hdrain ho => exact ho ▸ hs.openRound (hin hdrain) _
  | closed _ _ _ ho => exact ho ▸ hs.closeRound _ _ _ _
  | drained _ _ hdrain ho => exact ho ▸ hs.drain (hin hdrain)
  | @settled _ _ _ _ patches _ _ hdrain ho =>
    have hdrained : ((s.outbox box).drain.enqueue patches).Labelled :=
      (hs.drain (hin hdrain)).congr rfl rfl
    exact ho ▸ hdrained.settle _ _ _

theorem labelled_after (ho : Orderly r.state r.ledgers) (hr : (r.state.outbox box).Labelled)
    (h : r.DrainsTimely box events) : ((r.after events).state.outbox box).Labelled :=
  h.keeps (R := fun s => (s.outbox box).Labelled) ho hr fun ho hs hin =>
    (outboxTurn ho.housed box _).labelled hs hin

theorem labelled_start (settings : Settings) (files : List FileSetup) (box : Nat) :
    ((Traced.start settings files).state.outbox box).Labelled := by
  obtain ⟨log, hstart, -⟩ := start_meanwhile settings files
  exact Outbox.labelled_of_queue_eq_nil
    (hstart.queue_new (.bare settings) (Nat.zero_le box) nofun)

/-! ### Requests on their way -/

/-- Time passes only while no task can run. -/
def Traced.Unhurried (r : Traced) (events : List Event) : Prop :=
  r.Throughout (fun s event => ∀ time, event = .tick time → s.ready = []) events

/-- A request that is still to reach the server is about to, and the sender that waits for its
answer sleeps. -/
def Departing (s : State) : Prop :=
  ∀ ⦃delivery : Nat⦄ ⦃d : Delivery⦄, s.deliveries[delivery]? = some d → d.phase = .submitted →
    .delivery delivery ∈ s.ready ∧ .sender d.sender ∉ s.ready ∧
      ∃ file box sent count deadline,
        s.senders[d.sender]? = some ⟨file, .awaiting box delivery sent count deadline⟩

/-- Those who are served have been in line. -/
theorem Guarded.stage_of_served {mode : LockMode} (h : Guarded s)
    (htask : task ∈ (s.lock.release mode).2) : s.stage task = .queued := by
  refine (Lock.Guards.of_mem_line h ?_).1
  cases mode <;> exact Lock.mem_of_mem_serve htask

/-- Only its answer wakes a sender that waits for one. -/
theorem Turn.woken_sender (h : Turn s task log t) (hg : Guarded s)
    (hs : s.senders[index]? = some ⟨file, .awaiting box delivery sent count deadline⟩)
    (hnot : .sender index ∉ s.ready) (hne : task ≠ .delivery delivery) :
    .sender index ∉ t.ready := by
  have hinside : s.stage (.sender index) = .inside := State.stage_sender hs
  have hstill {own : Option Nat} {u : State} {log : Log} (hm : Meanwhile own s log u) :
      .sender index ∉ u.ready := by
    intro hready
    rcases hm.still.woken _ hready with hold | hout
    · exact hnot hold
    · rw [hinside] at hout
      cases hout
  have hserved {woken : List TaskId} {mode : LockMode}
      (hwoken : ∀ task ∈ woken, task ∈ (s.lock.release mode).2) :
      .sender index ∉ s.ready ++ woken := by
    rw [List.mem_append, not_or]
    refine ⟨hnot, fun hmem => ?_⟩
    have hqueued := hg.stage_of_served (hwoken _ hmem)
    rw [hinside] at hqueued
    cases hqueued
  cases h with
  | rest | found | unknown | busy | claimed | served | answered | listened | received | admitted =>
    exact hnot
  | asked _ _ _ _ hwoken =>
    intro hready
    rcases List.mem_append.mp hready with hold | hnew
    · exact hnot hold
    · cases hwoken _ hnew
  | worked _ _ _ _ _ _ _ hmeanwhile | reconciled _ _ _ hmeanwhile =>
    have hasleep := hstill hmeanwhile
    exact hasleep
  | ended _ hwoken | left _ hwoken => exact hserved hwoken
  | delivered hmeanwhile _ _ _ _ _ _ harrived =>
    intro hready
    rcases harrived hready with hold | ⟨_, _, _, _, _, hwaits⟩
    · exact hstill hmeanwhile hold
    · rw [hmeanwhile.still.sender hs] at hwaits
      cases hwaits
      exact hne rfl

namespace Departing

theorem meanwhile (h : Departing s) (hm : Meanwhile own s log t) : Departing t := by
  have hstill := hm.still
  intro delivery d hd hphase
  rw [hstill.deliveries] at hd
  obtain ⟨hready, hasleep, file, box, sent, count, deadline, hs⟩ := h hd hphase
  refine ⟨hstill.ready.subset hready, fun hwoken => ?_, file, box, sent, count, deadline,
    hstill.sender hs⟩
  rcases hstill.woken _ hwoken with hold | hout
  · exact hasleep hold
  · rw [State.stage_sender hs] at hout
    cases hout

/-- A turn takes one request to the server at most, and may make a new one. -/
theorem of_turn (h : Departing s) (hturn : Turn s task log t) (hg : Guarded s)
    (hready : task ∈ s.ready) {d : Delivery} (hd : t.deliveries[delivery]? = some d)
    (hphase : d.phase = .submitted) :
    .delivery delivery ∈ t.ready ∧ task ≠ .delivery delivery ∧
      (.sender d.sender ∈ t.ready → task = .sender d.sender) ∧
      ∃ file box sent count deadline,
        t.senders[d.sender]? = some ⟨file, .awaiting box delivery sent count deadline⟩ := by
  have hold (hd : s.deliveries[delivery]? = some d) (hne : task ≠ .delivery delivery) :
      .delivery delivery ∈ t.ready ∧ task ≠ .delivery delivery ∧
        (.sender d.sender ∈ t.ready → task = .sender d.sender) ∧
        ∃ file box sent count deadline,
          t.senders[d.sender]? = some ⟨file, .awaiting box delivery sent count deadline⟩ := by
    obtain ⟨hthere, hasleep, file, box, sent, count, deadline, hs⟩ := h hd hphase
    have hother : task ≠ .sender d.sender := by
      rintro rfl
      exact hasleep hready
    exact ⟨hturn.ready.1.subset hthere, hne,
      fun hwoken => absurd hwoken (hturn.woken_sender hg hs hasleep hne),
      file, box, sent, count, deadline, hturn.sender_of_ne hother hs⟩
  cases hturn with
  | rest hrest => exact hold hd fun he => hrest he hd hphase
  | found | unknown | busy | claimed | served | answered | ended | listened | received | admitted
  | left => exact hold hd fun he => by cases he
  | worked _ _ _ _ _ _ _ hmeanwhile | reconciled _ _ _ hmeanwhile =>
    exact hold (hmeanwhile.still.deliveries ▸ hd) fun he => by cases he
  | delivered hmeanwhile _ _ _ _ _ hothers =>
    obtain ⟨hne, hbefore⟩ := hothers hd hphase
    rw [hmeanwhile.still.deliveries] at hbefore
    exact hold hbefore fun he => hne (TaskId.delivery.inj he).symm
  | asked hs _ _ _ _ _ hthere =>
    rcases Nat.lt_or_ge delivery s.deliveries.length with hlt | hge
    · exact hold (List.getElem?_append_left hlt ▸ hd) fun he => by cases he
    · -- the request that the turn has made
      have hlast : delivery = s.deliveries.length := by
        obtain ⟨hbound, -⟩ := List.getElem?_eq_some_iff.mp hd
        simp only [State.setSender, List.length_append, List.length_singleton] at hbound
        omega
      subst hlast
      obtain rfl := Option.some.inj ((List.getElem?_concat_length).symm.trans hd)
      exact ⟨hthere, (fun he => by cases he), fun _ => rfl, _, _, _, _, _,
        State.senders_setSender (by exact hs) _⟩

theorem happen (h : Departing s) (ho : Orderly s ledgers)
    (htick : ∀ time, event = .tick time → s.ready = []) : Departing (s.happen event) := by
  cases event with
  | act action => exact h.meanwhile (perform_meanwhile s action)
  | tick time =>
    obtain ⟨woken, hjump, -⟩ := s.jump_eq time
    rw [State.happen, hjump]
    intro delivery d hd hphase
    -- a request on its way keeps time from passing
    obtain ⟨hready, -⟩ := h hd hphase
    rw [htick time rfl] at hready
    cases hready
  | run task =>
    unfold State.happen
    dsimp only
    split
    · rename_i hready
      have hturn := turn_stepTask ho.housed task
      obtain ⟨ready, hsettle, hsub, -, hgone⟩ := (s.stepTask task).settle_eq task
      intro delivery d hd hphase
      have hkept : .delivery delivery ∈ (s.stepTask task).ready → .delivery delivery ≠ task →
          .delivery delivery ∈ ((s.stepTask task).settle task).ready := State.mem_settle
      rw [hsettle] at hd hkept ⊢
      obtain ⟨hthere, hne, hself, hwaits⟩ := h.of_turn hturn ho.guarded hready hd hphase
      refine ⟨hkept hthere (Ne.symm hne), fun hwoken => ?_, hwaits⟩
      obtain ⟨file, box, sent, count, deadline, hs⟩ := hwaits
      have htask := hself (hsub _ hwoken)
      subst htask
      refine hgone (hturn.ready.2 ho.nodup) ?_ hwoken
      simp only [State.waits, hs, Option.map_some]
    · exact h

end Departing

theorem departing_after (ho : Orderly r.state r.ledgers) (hr : Departing r.state)
    (h : r.Unhurried events) : Departing (r.after events).state :=
  h.keeps ho hr fun ho hs htick => hs.happen ho htick

theorem deliveries_start (settings : Settings) (files : List FileSetup) :
    (Traced.start settings files).state.deliveries = [] := by
  obtain ⟨log, hstart, -⟩ := start_meanwhile settings files
  exact hstart.still.deliveries

theorem departing_start (settings : Settings) (files : List FileSetup) :
    Departing (Traced.start settings files).state := by
  intro delivery d hd
  rw [deliveries_start] at hd
  cases hd

/-! ### Requests that have been made -/

/-- The request of a delivery stays the same, whatever happens. -/
theorem happen_requests (hh : Housed s) (event : Event) :
    s.deliveries.map Delivery.request <+: (s.happen event).deliveries.map Delivery.request := by
  rcases happen_cases s event with ⟨_, hm⟩ | ⟨_, _, _, hjump⟩ | ⟨task, _, -, -, hrun⟩
  · exact hm.still.deliveries ▸ List.prefix_rfl
  · exact hjump ▸ List.prefix_rfl
  · exact hrun ▸ (turn_stepTask hh task).requests

theorem requests_after (ho : Orderly r.state r.ledgers) (events : List Event) :
    r.state.deliveries.map Delivery.request <+:
      (r.after events).state.deliveries.map Delivery.request := by
  induction events generalizing r with
  | nil => exact List.prefix_rfl
  | cons event more ih =>
    have hmore := @ih (r.happen event) (ho.happen event)
    exact (happen_requests ho.housed event).trans hmore

def Awaited (s : State) (delivery : Nat) : Prop :=
  ∃ (index : Nat) (file : FileId) (box : Nat) (sent : Patch) (count deadline : Nat),
    s.senders[index]? = some ⟨file, .awaiting box delivery sent count deadline⟩

/-- Nobody makes a delivery but a sender that waits for its answer from then on. -/
theorem Turn.awaited (h : Turn s task log t) (hnew : delivery < t.deliveries.length)
    (hold : s.deliveries.length ≤ delivery) : Awaited t delivery := by
  have hsame (he : t.deliveries.length = s.deliveries.length) : Awaited t delivery :=
    absurd hnew (Nat.not_lt.mpr (he ▸ hold))
  cases h with
  | rest | found | unknown | busy | claimed | served | answered | ended | listened | received
  | admitted | left => exact hsame rfl
  | worked _ _ _ _ _ _ _ hmeanwhile | reconciled _ _ _ hmeanwhile =>
    exact hsame (congrArg List.length hmeanwhile.still.deliveries)
  | delivered hmeanwhile hrequests =>
    have hlength := congrArg List.length hrequests
    rw [List.length_map, List.length_map, hmeanwhile.still.deliveries] at hlength
    exact hsame hlength
  | @asked index file box sent count deadline _ hs =>
    have hlast : delivery = s.deliveries.length := by
      simp only [State.setSender, List.length_append, List.length_singleton] at hnew
      omega
    subst hlast
    exact ⟨index, file, box, sent, count, deadline, State.senders_setSender hs _⟩

/-- Whoever has made a delivery waited for its answer at some time. -/
theorem awaited_after (ho : Orderly r.state r.ledgers) (hold : r.state.deliveries.length ≤ delivery)
    (hnew : delivery < (r.after events).state.deliveries.length) :
    ∃ n ≤ events.length, Awaited (r.after (events.take n)).state delivery := by
  induction events generalizing r with
  | nil => exact absurd hnew (Nat.not_lt.mpr hold)
  | cons event more ih =>
    rcases Nat.lt_or_ge delivery (r.happen event).state.deliveries.length with hlt | hge
    · refine ⟨1, Nat.succ_le_succ (Nat.zero_le _), ?_⟩
      have hone : (r.after ((event :: more).take 1)).state = r.state.happen event := rfl
      have hlt : delivery < (r.state.happen event).deliveries.length := hlt
      rw [hone]
      rcases happen_cases r.state event with ⟨_, hm⟩ | ⟨_, _, _, hjump⟩ | ⟨task, _, -, -, hrun⟩
      · rw [hm.still.deliveries] at hlt
        omega
      · rw [hjump] at hlt
        exact absurd hlt (Nat.not_lt.mpr hold)
      · rw [hrun] at hlt ⊢
        have hawaited := (turn_stepTask ho.housed task).awaited hlt hold
        exact hawaited
    · obtain ⟨n, hn, hawaited⟩ := @ih (r.happen event) (ho.happen event) hge hnew
      exact ⟨n + 1, Nat.succ_le_succ hn, hawaited⟩

/-- A sender waits for the answer to the request, and if it was made of an outbox, it bears the
version that the document has. -/
def Current (s : State) (box delivery : Nat) (request : Request) : Prop :=
  ∃ (index own : Nat) (sent : Patch) (count deadline : Nat),
    s.senders[index]? = some ⟨request.file, .awaiting own delivery sent count deadline⟩ ∧
      request = Request.ofPatch (Uuid.ofNat delivery) request.file sent ∧
      (own = box → sent.baseVersion = (s.outbox box).version)

/-- A request is current while a sender waits for its answer. -/
theorem current_of_awaited (settings : Settings) (files : List FileSetup) (events more : List Event)
    {d : Delivery} (hdrains : (Traced.start settings files).DrainsTimely box events)
    (hd : (((Traced.start settings files).after events).after more).state.deliveries[delivery]? =
      some d)
    (hawaited : Awaited ((Traced.start settings files).after events).state delivery) :
    Current ((Traced.start settings files).after events).state box delivery d.request := by
  have ho := orderly_after settings files events
  obtain ⟨index, file, own, sent, count, deadline, hs⟩ := hawaited
  have hfront := rounds_after settings files events hs
  have hkept := request_of_prefix (requests_after ho more) hfront.request
  rw [hd] at hkept
  have hrequest : d.request = Request.ofPatch (Uuid.ofNat delivery) file sent :=
    Option.some.inj hkept
  rw [hrequest]
  refine ⟨index, own, sent, count, deadline, hs, rfl, ?_⟩
  rintro rfl
  have hlabelled := labelled_after (orderly_start settings files)
    (labelled_start settings files own) hdrains
  exact hlabelled.baseVersion_eq hfront.joined

/-- The patches in a queue bear the version of the document, whatever has happened, provided that no
local patch is drained before the document has the version that it was made for. So does the patch
that a sender asks the server about, for as long as it waits for the answer. Every request has been
such a one when it was made; that it still is when it reaches the server is certain if time passes
only while no task can run, which is how a session passes it. -/
theorem requests_labelled (settings : Settings) (files : List FileSetup) (events : List Event)
    (box : Nat) (hdrains : (Traced.start settings files).DrainsTimely box events) :
    let r := Traced.start settings files
    let s := (r.after events).state
    (s.outbox box).Labelled ∧
      (∀ (index delivery count deadline : Nat) (file : FileId) (sent : Patch),
        s.senders[index]? = some ⟨file, .awaiting box delivery sent count deadline⟩ →
          sent.baseVersion = (s.outbox box).version ∧
            s.deliveries[delivery]?.map Delivery.request =
              some (Request.ofPatch (Uuid.ofNat delivery) file sent)) ∧
      ∀ (delivery : Nat) (d : Delivery), s.deliveries[delivery]? = some d →
        (∃ n ≤ events.length, Current (r.after (events.take n)).state box delivery d.request) ∧
          (r.Unhurried events → d.phase = .submitted → Current s box delivery d.request) := by
  intro r s
  have ho := orderly_start settings files
  have hlabelled : (s.outbox box).Labelled :=
    labelled_after ho (labelled_start settings files box) hdrains
  refine ⟨hlabelled, fun index delivery count deadline file sent hs => ?_,
    fun delivery d hd => ⟨?_, fun hunhurried hphase => ?_⟩⟩
  · have hfront := rounds_after settings files events hs
    exact ⟨hlabelled.baseVersion_eq hfront.joined, hfront.request⟩
  · have hnone : r.state.deliveries.length ≤ delivery := by
      rw [deliveries_start]
      exact Nat.zero_le _
    obtain ⟨n, hn, hawaited⟩ := awaited_after ho hnone (List.getElem?_eq_some_iff.mp hd).1
    have hsplit : s = ((r.after (events.take n)).after (events.drop n)).state := by
      rw [← Traced.after_append, List.take_append_drop]
    rw [hsplit] at hd
    rw [← List.take_append_drop n events] at hdrains
    exact ⟨n, hn, current_of_awaited settings files _ _ hdrains.append.1 hd hawaited⟩
  · obtain ⟨-, -, file, own, sent, count, deadline, hs⟩ :=
      departing_after ho (departing_start settings files) hunhurried hd hphase
    exact current_of_awaited settings files events [] hdrains hd
      ⟨d.sender, file, own, sent, count, deadline, hs⟩

/-- Two patches for version 0 go into two requests, and the second one is on its way. -/
def oneByOne : List Event :=
  [.act (.send ⟨['f']⟩ (.ok [.forDocument 0 [.insertion 0 ['x']] 0])),
    .act (.send ⟨['f']⟩ (.ok [.forDocument 0 [.insertion 1 ['y']] 1])),
    .run (.sender 0), .run (.sender 0), .run (.sender 0), .run (.delivery 0), .run (.sender 0),
    .run (.sender 0), .run (.sender 0), .run (.sender 0)]

theorem requests_labelled_one_by_one :
    let r := (Traced.start { writeThreshold := 1 } [⟨⟨['f']⟩, [], some 0, []⟩]).after oneByOne
    let second := Request.ofPatch (Uuid.ofNat 1) ⟨['f']⟩ ⟨1, [.insertion 1 ['y']], 2⟩
    r.state.deliveries[1]? = some ⟨second, 0, .submitted⟩ ∧ (r.state.outbox 0).version = 1 ∧
      (r.state.outbox 0).Labelled ∧ Current r.state 0 1 second := by
  intro r second
  have hdrains : (Traced.start { writeThreshold := 1 } [⟨⟨['f']⟩, [], some 0, []⟩]).DrainsTimely 0
      oneByOne := .of_timely (by decide +kernel)
  have hunhurried : (Traced.start { writeThreshold := 1 } [⟨⟨['f']⟩, [], some 0, []⟩]).Unhurried
      oneByOne :=
    ⟨nofun, nofun, nofun, nofun, nofun, nofun, nofun, nofun, nofun, nofun, trivial⟩
  obtain ⟨hlabelled, hwaiting, hmade⟩ :=
    requests_labelled { writeThreshold := 1 } [⟨⟨['f']⟩, [], some 0, []⟩] oneByOne 0 hdrains
  have hwaits : r.state.senders[0]? =
      some ⟨⟨['f']⟩, .awaiting 0 1 ⟨1, [.insertion 1 ['y']], 2⟩ 1 5000⟩ := by
    with_unfolding_all rfl
  have hsecond : r.state.deliveries[1]? = some ⟨second, 0, .submitted⟩ := by
    with_unfolding_all rfl
  obtain ⟨hversion, -⟩ := hwaiting _ _ _ _ _ _ hwaits
  exact ⟨hsecond, hversion.symm, hlabelled, (hmade 1 _ hsecond).2 hunhurried rfl⟩

/-- The answer to a request does not come in time, while the request itself has not left yet. The
sender gives up, and a notification is taken in. -/
def leavesLate : List Event :=
  [.act (.edit ⟨['f']⟩ [.insertion 0 ['x']] none), .run (.sender 0), .run (.sender 0),
    .run (.sender 0), .tick 5000, .run (.sender 0), .run (.sender 0),
    .act (.notify ⟨⟨['f']⟩, Patch.render (.forDocument 0 [.insertion 0 ['r']] 0), 1⟩),
    .run .notifier, .run .notifier, .run .notifier, .run .notifier, .run .notifier]

/-- So the request reaches the server under version 0 although the document has version 1. -/
theorem request_leaves_late :
    let start := Traced.start {} [⟨⟨['f']⟩, [], some 0, []⟩]
    let r := start.after leavesLate
    let late := Request.ofPatch (Uuid.ofNat 0) ⟨['f']⟩ ⟨0, [.insertion 0 ['x']], 1⟩
    start.DrainsTimely 0 leavesLate ∧ r.state.tracked.get? ⟨['f']⟩ = some 0 ∧
      (r.state.outbox 0).version = 1 ∧ r.state.deliveries.map Delivery.request = [late] ∧
      r.state.record.requests = [] ∧
      (r.happen (.run (.delivery 0))).state.record.requests =
        [(⟨['f']⟩, "v0:\n0:+1:x:\n1".toList)] ∧
      ¬ Current r.state 0 0 late := by
  intro start r late
  have hnobody : r.state.senders.all (fun sender => !sender.phase.isAwaiting) = true := by
    decide +kernel
  refine ⟨.of_timely (by decide +kernel), by decide +kernel, by decide +kernel, by decide +kernel,
    by decide +kernel, by decide +kernel, ?_⟩
  rintro ⟨index, own, sent, count, deadline, hs, -⟩
  cases List.all_eq_true.mp hnobody _ (List.mem_of_getElem? hs)

/-- A file is closed and opened at another version while a request for it is on its way. -/
def reopened : List Event :=
  [.act (.edit ⟨['f']⟩ [.insertion 0 ['x']] none), .run (.sender 0), .run (.sender 0),
    .run (.sender 0), .act (.closeFile ⟨['f']⟩), .act (.openFile ⟨['f']⟩ 5), .run (.delivery 0)]

/-- The sender goes on with the outbox that it has started with. -/
example :
    let s := ((Traced.start {} [⟨⟨['f']⟩, [], some 0, []⟩]).after reopened).state
    (s.outboxOf? ⟨['f']⟩).map Outbox.version = some 5 ∧ (s.outbox 0).version = 0 ∧
      s.record.requests = [(⟨['f']⟩, "v0:\n0:+1:x:\n1".toList)] := by
  decide +kernel

end Session

end Coedit
