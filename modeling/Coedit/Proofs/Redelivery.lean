import Coedit.Proofs.Versions

/-!
A remote change takes effect once. A task that ends a notification or a confirmation without a
fault leaves the document at the version of what it took in, or past it (`Pursues`), and the document
does not go back. Therefore a notification that comes again is passed over, whether it was taken in
itself or its change came with a confirmation (`taken_once`).
-/
namespace Coedit.Session

variable {s t : State} {task : TaskId} {event : Event} {events more : List Event} {file : FileId}
  {index box own : Nat} {version : Int} {response : Response} {n : Notification} {r : Traced}
  {ledgers : Nat → Ledger}

/-! ### Notifications that come again -/

/-- Texts, stamps, versions and queues of all files are the same. -/
structure Unchanged (s t : State) : Prop where
  documents : t.documents = s.documents
  tracked : t.tracked = s.tracked
  outboxes : t.outboxes = s.outboxes

/-- The notification that the notifier is about to open. -/
def State.inHand? (s : State) : Option Notification :=
  match s.notifier with
  | .receiving => s.notifications.head?
  | .queued notification | .opening notification => some notification
  | .idle | .reconciling .. | .closing _ => none

/-- Delivering a notification changes nothing: neither that it comes, nor that the notifier has it
in hand until it ends, nor that the notifier leaves it. -/
structure PassedOver (s : State) (n : Notification) : Prop where
  comes : Unchanged s (s.happen (.act (.notify n)))
  inHand : s.inHand? = some n → Unchanged s (s.happen (.run .notifier)) ∧
    ((s.happen (.run .notifier)).inHand? = some n ∨
      ∃ result, (s.happen (.run .notifier)).notifier = .closing result ∧
        ∀ patch, n.patch = .ok patch → result = .ok ())
  ends : ∀ result, s.notifier = .closing result → Unchanged s (s.happen (.run .notifier)) ∧
    (.notifier ∈ s.ready → (s.happen (.run .notifier)).notifier = .receiving)

theorem unchanged_notify (s : State) (n : Notification) :
    Unchanged s (s.happen (.act (.notify n))) := by
  obtain ⟨record, hmention⟩ := s.mention_eq n.file
  simp only [State.happen, perform, hmention, State.pushNotification]
  split
  · rw [State.wake_eq]
    exact ⟨rfl, rfl, rfl⟩
  · exact ⟨rfl, rfl, rfl⟩

theorem openNotification_of_le (htracked : s.tracked.get? n.file = some box)
    (hle : n.version ≤ (s.outbox box).version) :
    ∃ result, s.openNotification n = { s with notifier := .closing result } ∧
      ∀ patch, n.patch = .ok patch → result = .ok () := by
  simp only [State.openNotification, State.track, htracked]
  cases n.patch with
  | error error => exact ⟨_, rfl, fun _ he => by cases he⟩
  | ok patch =>
    refine ⟨.ok (), ?_, fun _ _ => rfl⟩
    dsimp only
    rw [if_pos hle]

/-- The notifier has a notification in hand that the document has reached. -/
theorem stepNotifier_of_le (htracked : s.tracked.get? n.file = some box)
    (hle : n.version ≤ (s.outbox box).version) (hhand : s.inHand? = some n) :
    Unchanged s s.stepNotifier ∧ (s.stepNotifier.inHand? = some n ∨
      ∃ result, s.stepNotifier.notifier = .closing result ∧
        ∀ patch, n.patch = .ok patch → result = .ok ()) := by
  unfold State.inHand? at hhand
  unfold State.stepNotifier
  cases hphase : s.notifier with
  | idle | reconciling | closing =>
    rw [hphase] at hhand
    cases hhand
  | receiving =>
    simp only [hphase] at hhand
    obtain ⟨more, hwaiting⟩ := List.head?_eq_some_iff.mp hhand
    simp only [hwaiting]
    refine ⟨⟨rfl, rfl, rfl⟩, .inl ?_⟩
    simp only [State.inHand?]
    split <;> rename_i hnext <;> split at hnext <;> cases hnext <;> rfl
  | queued notification =>
    simp only [hphase] at hhand
    cases hhand
    exact ⟨⟨rfl, rfl, rfl⟩, .inl rfl⟩
  | opening notification =>
    simp only [hphase] at hhand
    cases hhand
    obtain ⟨result, hopen, hresult⟩ := openNotification_of_le htracked hle
    simp only [hopen]
    exact ⟨⟨rfl, rfl, rfl⟩, .inr ⟨result, rfl, hresult⟩⟩

theorem passedOver_of_le (htracked : s.tracked.get? n.file = some box)
    (hle : n.version ≤ (s.outbox box).version) : PassedOver s n := by
  by_cases hready : .notifier ∈ s.ready
  · obtain ⟨ready, hstep⟩ := State.happen_run hready
    replace hstep : s.happen (.run .notifier) = { s.stepNotifier with ready } := hstep
    refine ⟨unchanged_notify s n, fun hhand => ?_, fun result hphase => ?_⟩
    · obtain ⟨hsame, hnext⟩ := stepNotifier_of_le htracked hle hhand
      rw [hstep]
      exact ⟨⟨hsame.documents, hsame.tracked, hsame.outboxes⟩, hnext⟩
    · obtain ⟨woken, hrelease, -⟩ := s.releaseLock_eq .exclusive
      rw [hstep, State.stepNotifier, hphase, hrelease]
      exact ⟨⟨rfl, rfl, rfl⟩, fun _ => rfl⟩
  · have hrest : s.happen (.run .notifier) = s := by simp only [State.happen, hready, if_false]
    refine ⟨unchanged_notify s n, fun hhand => ?_, fun result hphase => ?_⟩
    · rw [hrest]
      exact ⟨⟨rfl, rfl, rfl⟩, .inl hhand⟩
    · rw [hrest]
      exact ⟨⟨rfl, rfl, rfl⟩, fun hin => absurd hin hready⟩

/-! ### What a task pursues -/

/-- A task brings a document to a version: it is taking such a change in, or ends, and without a
fault only when the document is there. -/
def Pursues (s : State) (task : TaskId) (box : Nat) (version : Int) : Prop :=
  (∃ change, s.taking? task = some (box, change) ∧ version ≤ change.version) ∨
    ∃ result, s.result? task = some result ∧ (result = .ok () → s.Reached box version)

theorem Pursues.reached (h : Pursues s task box version) (hended : s.result? task = some (.ok ())) :
    s.Reached box version := by
  rcases h with ⟨change, htaking, -⟩ | ⟨result, hresult, hreached⟩
  · rw [State.result?_of_taking htaking] at hended
    cases hended
  · exact hreached (Option.some.inj (hresult.symm.trans hended))

/-- A task that ends leaves the lock. -/
theorem stage_stepTask_of_result {result : Except SyncError Unit}
    (h : s.result? task = some result) : (s.stepTask task).stage task = .outside := by
  cases task with
  | notifier =>
    rw [State.result?] at h
    cases hphase : s.notifier <;> rw [hphase] at h <;> cases h
    simp only [State.stepTask, State.stepNotifier, hphase]
    rfl
  | sender index =>
    rw [State.result?] at h
    cases hphase : s.phase index <;> rw [hphase] at h <;> cases h
    obtain ⟨file, hs⟩ := State.sender_of_phase hphase rfl
    obtain ⟨woken, hrelease, -⟩ := s.releaseLock_eq .shared
    simp only [State.stepTask, hs, State.stepSender, State.finishRound, hrelease]
    cases result with
    | error error =>
      rw [State.stage, State.phase_setSender_self (by exact hs)]
      rfl
    | ok =>
      rw [State.stage, State.phase_setSender_self (by exact hs)]
      split <;> rfl
  | delivery index => cases h

theorem Pursues.happen (h : Pursues s task box version) (hh : Housed s)
    (hin : (s.happen event).stage task = .inside)
    (hkept : s.Reached box version → (s.happen event).Reached box version) :
    Pursues (s.happen event) task box version := by
  by_cases hrun : event = .run task ∧ task ∈ s.ready
  · obtain ⟨rfl, hready⟩ := hrun
    have hlength := length_happen hh (.run task)
    obtain ⟨ready, hrun⟩ := State.happen_run hready
    rw [hrun] at hin hlength ⊢
    rcases h with ⟨change, htaking, hle⟩ | ⟨result, hresult, -⟩
    · have hknown := Nat.lt_of_lt_of_le (State.known_of_taking hh htaking) hlength
      rcases stepTask_of_taking hh htaking with hsame | ⟨result, hresult, hversion⟩
      · exact .inl ⟨change, hsame, hle⟩
      · exact .inr ⟨result, hresult, fun hok => ⟨hknown, (hversion hok).symm ▸ hle⟩⟩
    · have hout : (s.stepTask task).stage task = .inside := hin
      rw [stage_stepTask_of_result hresult] at hout
      cases hout
  · obtain ⟨htaking, hresult⟩ := work_of_rests hh fun he hready => hrun ⟨he, hready⟩
    rw [Pursues, htaking, hresult]
    rcases h with h | ⟨result, hend, hreached⟩
    · exact .inl h
    · exact .inr ⟨result, hend, fun hok => hkept (hreached hok)⟩

/-- A sender that takes a confirmation in pursues its version. -/
theorem pursues_of_confirms (hh : Housed s)
    (h : s.confirms? (.run (.sender index)) = some (box, response))
    (hle : version ≤ response.version) :
    Pursues (s.happen (.run (.sender index))) (.sender index) box version := by
  obtain ⟨hready, -, file, delivery, sent, count, deadline, hs, -⟩ := State.awaiting_of_confirms h
  have hknown := Nat.lt_of_lt_of_le (hh.sender hs rfl).1 (length_happen hh (.run (.sender index)))
  obtain ⟨ready, hrun⟩ := State.happen_run hready
  rw [hrun] at hknown ⊢
  rcases stepTask_of_confirms hh h with ⟨change, htaking, hchange, -⟩ | ⟨result, hresult, hversion⟩
  · exact .inl ⟨change, htaking, hchange ▸ hle⟩
  · exact .inr ⟨result, hresult, fun hok => ⟨hknown, (hversion hok).symm ▸ hle⟩⟩

/-- So does the notifier once it has opened a notification. -/
theorem pursues_of_opening (hh : Housed s) (h : s.notifier = .opening n)
    (hbox : ∀ own, (s.happen event).tracked.get? n.file = some own → own = box) :
    (s.happen event).notifier = .opening n ∨ Pursues (s.happen event) .notifier box n.version := by
  by_cases hrun : event = .run .notifier ∧ .notifier ∈ s.ready
  · obtain ⟨rfl, hready⟩ := hrun
    obtain ⟨ready, hrun⟩ := State.happen_run hready
    have hopen : s.stepTask .notifier = s.openNotification n := by
      rw [State.stepTask, State.stepNotifier, h]
    rw [hrun, hopen] at hbox ⊢
    simp only [State.openNotification] at hbox ⊢
    cases hpatch : n.patch with
    | error error => exact .inr (.inr ⟨_, rfl, fun he => by cases he⟩)
    | ok patch =>
      obtain ⟨-, hknown, htracked⟩ := hh.tracks.track n.file patch.baseVersion
      simp only [hpatch] at hbox ⊢
      split at hbox
      · rename_i hle
        obtain rfl := hbox _ htracked
        rw [if_pos hle]
        exact .inr (.inr ⟨_, rfl, fun _ => ⟨hknown, hle⟩⟩)
      · rename_i hbehind
        obtain rfl := hbox _ htracked
        rw [if_neg hbehind]
        exact .inr (.inl ⟨_, rfl, Int.le_refl _⟩)
  · exact .inl ((notifier_of_rests hh fun he hready => hrun ⟨he, hready⟩).trans h)

/-! ### Runs -/

/-- The file is not closed once it is open. -/
def Traced.StaysOpen (r : Traced) (file : FileId) (events : List Event) : Prop :=
  r.Throughout (fun s event =>
    ∀ own ∈ s.tracked.get? file, (s.happen event).tracked.get? file = some own) events

/-- A task holds the lock all the while. -/
def Traced.Works (r : Traced) (task : TaskId) (events : List Event) : Prop :=
  r.Throughout (fun s event => (s.happen event).stage task = .inside) events

/-- The events end where a task is done, without a fault, with what brings a document to the version
of a notification: the notification, or a confirmation with that version at least. -/
inductive Traced.Takes (r : Traced) (box : Nat) (n : Notification) : List Event → Prop
  | notified {before during : List Event} :
      (r.after before).state.notifier = .opening n →
      (r.after before).Works .notifier during →
      (r.after (before ++ during)).state.result? .notifier = some (.ok ()) →
      Takes r box n (before ++ during)
  | confirmed {before during : List Event} {index : Nat} {response : Response} :
      (r.after before).state.confirms? (.run (.sender index)) = some (box, response) →
      n.version ≤ response.version →
      ((r.after before).happen (.run (.sender index))).Works (.sender index) during →
      (r.after (before ++ .run (.sender index) :: during)).state.result? (.sender index) =
        some (.ok ()) →
      Takes r box n (before ++ .run (.sender index) :: during)

theorem Traced.StaysOpen.tracked_after (h : r.StaysOpen file events)
    (ho : Orderly r.state r.ledgers) (htracked : r.state.tracked.get? file = some own) :
    (r.after events).state.tracked.get? file = some own :=
  h.keeps (R := fun s => s.tracked.get? file = some own) ho htracked fun _ hs hopen => hopen own hs

/-- A file that stays open had no other outbox before. -/
theorem Traced.StaysOpen.settled (h : r.StaysOpen file events) (ho : Orderly r.state r.ledgers)
    (hbox : ∀ own, (r.after events).state.tracked.get? file = some own → own = box) :
    r.Throughout (fun s event =>
      ∀ own, (s.happen event).tracked.get? file = some own → own = box) events := by
  induction events generalizing r with
  | nil => trivial
  | cons event more ih =>
    have hlater : (r.happen event).StaysOpen file more := h.2
    have horderly : Orderly (r.happen event).state (r.happen event).ledgers := ho.happen event
    exact ⟨fun own hown => hbox own (hlater.tracked_after horderly hown), ih hlater horderly hbox⟩

theorem pursues_after (h : Pursues r.state task box version) (ho : Orderly r.state r.ledgers)
    (ha : Ahead r.state box) (hforward : r.Forward box events) (hworks : r.Works task events) :
    Pursues (r.after events).state task box version := by
  refine ((hforward.and hworks).keeps
    (R := fun s => Ahead s box ∧ Pursues s task box version) ho ⟨ha, h⟩ ?_).2
  rintro s ledgers event ho ⟨ha, hpursues⟩ ⟨hforward, hin⟩
  exact ⟨ha.happen ho hforward, hpursues.happen ho.housed hin fun hreached =>
    hreached.happen ho.housed ha hforward⟩

theorem pursues_after_opening (h : r.state.notifier = .opening n) (ho : Orderly r.state r.ledgers)
    (ha : Ahead r.state box) (hforward : r.Forward box events) (hworks : r.Works .notifier events)
    (hopen : r.StaysOpen n.file events)
    (hbox : ∀ own, (r.after events).state.tracked.get? n.file = some own → own = box) :
    (r.after events).state.notifier = .opening n ∨
      Pursues (r.after events).state .notifier box n.version := by
  refine (((hforward.and hworks).and (hopen.settled ho hbox)).keeps
    (R := fun s => Ahead s box ∧ (s.notifier = .opening n ∨ Pursues s .notifier box n.version))
    ho ⟨ha, .inl h⟩ ?_).2
  -- until it runs again, the notifier still is to open the notification
  rintro s ledgers event ho ⟨ha, hopening | hpursues⟩ ⟨⟨hforward, hin⟩, hbox⟩
  · exact ⟨ha.happen ho hforward, pursues_of_opening ho.housed hopening hbox⟩
  · exact ⟨ha.happen ho hforward, .inr (hpursues.happen ho.housed hin fun hreached =>
      hreached.happen ho.housed ha hforward)⟩

/-- Who has taken something in without a fault has brought the document there. -/
theorem Traced.Takes.reached (h : r.Takes box n events) (ho : Orderly r.state r.ledgers)
    (ha : Ahead r.state box) (hforward : r.Forward box events) (hopen : r.StaysOpen n.file events)
    (hbox : ∀ own, (r.after events).state.tracked.get? n.file = some own → own = box) :
    (r.after events).state.Reached box n.version := by
  cases h with
  | @notified before during hopening hworks hended =>
    obtain ⟨hbefore, hduring⟩ := hforward.append
    rw [after_append] at hbox hended ⊢
    have hpursues := pursues_after_opening hopening (ho.after before)
      (ahead_after ho ha hbefore).1 hduring hworks hopen.append.2 hbox
    rcases hpursues with hopening | hpursues
    · rw [State.result?, hopening] at hended
      cases hended
    · exact hpursues.reached hended
  | @confirmed before during index response hconfirms hle hworks hended =>
    obtain ⟨hbefore, hduring⟩ := hforward.append
    rw [after_append] at hended ⊢
    have horderly := ho.after before
    have hahead := (ahead_after ho ha hbefore).1
    have hpursues := pursues_after (r := (r.after before).happen (.run (.sender index)))
      (pursues_of_confirms horderly.housed hconfirms hle)
      (horderly.happen (.run (.sender index))) (hahead.happen horderly hduring.1) hduring.2 hworks
    exact hpursues.reached hended

/-- The version of a file that stays open never goes back, if no confirmation does. A notification
that has been taken in, or whose change has come with a confirmation, is passed over ever after. -/
theorem taken_once (settings : Settings) (files : List FileSetup) (events : List Event)
    (file : FileId) (box : Nat) (hforward : (Traced.start settings files).Forward box events)
    (hopen : (Traced.start settings files).StaysOpen file events)
    (htracked : ((Traced.start settings files).after events).state.tracked.get? file = some box) :
    let r := Traced.start settings files
    ∀ before later, before ++ later = events →
      ((r.after before).state.tracked.get? file = some box →
        ((r.after before).state.outbox box).version ≤
          ((r.after events).state.outbox box).version) ∧
      ∀ n : Notification, n.file = file → r.Takes box n before →
        PassedOver (r.after events).state n := by
  rintro r before later rfl
  have ho : Orderly r.state r.ledgers := orderly_start settings files
  have ha : Ahead r.state box := ahead_start settings files box
  obtain ⟨hbefore, hlater⟩ := hforward.append
  obtain ⟨hopenBefore, hopenLater⟩ := hopen.append
  have horderly : Orderly (r.after before).state (r.after before).ledgers := ho.after before
  obtain ⟨-, hkept⟩ := ahead_after horderly (ahead_after ho ha hbefore).1 hlater
  rw [Traced.after_append] at htracked ⊢
  refine ⟨fun hbox => ?_, ?_⟩
  · exact (hkept _ ⟨horderly.housed.tracks.known hbox, Int.le_refl _⟩).2
  · rintro n rfl htakes
    have hreached := htakes.reached ho ha hbefore hopenBefore fun own hown =>
      Option.some.inj ((Traced.StaysOpen.tracked_after hopenLater horderly hown).symm.trans htracked)
    exact passedOver_of_le htracked (hkept _ hreached).2

/-- Another client has inserted a character. -/
def insertedByOther : Notification := .ofPatch ⟨['f']⟩ (.forDocument 0 [.insertion 0 ['r']] 0) 1

/-- The notifier opens the notification of that. -/
def notified : List Event := [.act (.notify insertedByOther), .run .notifier, .run .notifier]

/-- When the notification has been taken in, it comes again and the notifier opens it again. -/
def notifiedAgain : List Event := .run .notifier :: notified.take 2

theorem taken_once_notified_again :
    let s := ((Traced.start {} [⟨⟨['f']⟩, [], some 0, []⟩]).after
      (notified ++ [.run .notifier, .run .notifier] ++ notifiedAgain)).state
    (s.documents.buffer ⟨['f']⟩).text = ['r'] ∧ (s.outbox 0).version = 1 ∧
      s.inHand? = some insertedByOther ∧ PassedOver s insertedByOther := by
  intro s
  let r := Traced.start {} [⟨⟨['f']⟩, [], some 0, []⟩]
  have hforward : r.Forward 0 (notified ++ [.run .notifier, .run .notifier] ++ notifiedAgain) :=
    ⟨nofun, nofun, nofun, nofun, nofun, nofun, nofun, nofun, trivial⟩
  have hopen : r.StaysOpen ⟨['f']⟩
      (notified ++ [.run .notifier, .run .notifier] ++ notifiedAgain) := by
    refine ⟨?_, ?_, ?_, ?_, ?_, ?_, ?_, ?_, trivial⟩ <;> decide +kernel
  have htakes : r.Takes 0 insertedByOther (notified ++ [.run .notifier, .run .notifier]) :=
    .notified (by with_unfolding_all rfl) ⟨by decide +kernel, by decide +kernel, trivial⟩
      (by decide +kernel)
  obtain ⟨-, hpassed⟩ := taken_once {} [⟨⟨['f']⟩, [], some 0, []⟩] _ ⟨['f']⟩ 0 hforward hopen
    (by decide +kernel) (notified ++ [.run .notifier, .run .notifier]) notifiedAgain rfl
  exact ⟨by decide +kernel, by decide +kernel, by decide +kernel,
    hpassed insertedByOther rfl htakes⟩

end Coedit.Session
