import Coedit.Proofs.Reconcile

/-!
What a confirmed batch leaves behind, whatever the answer carries, whatever the document says and
whatever comes in meanwhile. The batch leaves the queue before the missing patches are joined, and
the version moves last: where the missing patches, or the patches that wait, do not fit one another,
or the document fails, the batch is gone and the version stays (`confirmation_outcome`). Only a
missing patch that cannot be read leaves the batch in its place.
-/
namespace Coedit

/-- Patches do not fit one another, or one does not fit the document. -/
def SyncError.Misfit : SyncError → Prop
  | .consolidate _ | .apply _ => True
  | .sendFailure _ | .rejected _ _ | .format _ => False

/-- A change is taken in, attempt by attempt. Patches may come in at any time, and the document may
say anything. -/
inductive RemoteChange.Taking (change : RemoteChange) :
    Outbox → Outbox → Except SyncError Unit → Prop
  | enqueue {o o' : Outbox} {result : Except SyncError Unit} (patches : List Patch) :
      Taking change (o.enqueue patches) o' result → Taking change o o' result
  | apart {o : Outbox} {error : SequenceError} : change.plan o.drain.queue = .error error →
      Taking change o o.drain (.error (.consolidate error))
  | finished {o o' : Outbox} {plan : Plan} {result : Except SyncError Unit} (verdict : Verdict)
      (patches : List Patch) : change.plan o.drain.queue = .ok plan →
      change.settle plan verdict (o.drain.enqueue patches) = (o', .finished result) →
      Taking change o o' result
  | again {o o' o'' : Outbox} {plan : Plan} {result : Except SyncError Unit} (verdict : Verdict)
      (patches : List Patch) : change.plan o.drain.queue = .ok plan →
      change.settle plan verdict (o.drain.enqueue patches) = (o', .again) →
      Taking change o' o'' result → Taking change o o'' result

/-- A round takes an answer in, and with it the missing patches. -/
inductive Outbox.Closes (file : FileId) (sent : Patch) (count : Nat) (answer : Answer) :
    Outbox → Outbox → Except SyncError Unit → Prop
  | atOnce {o o' : Outbox} {result : Except SyncError Unit} :
      o.closeRound file sent count answer = (o', .finished result) →
      Closes file sent count answer o o' result
  | behind {o closed o' : Outbox} {change : RemoteChange} {result : Except SyncError Unit} :
      o.closeRound file sent count answer = (closed, .reconcile change) →
      change.Taking closed o' result → Closes file sent count answer o o' result

namespace RemoteChange

variable {change : RemoteChange} {o o' : Outbox} {plan : Plan} {verdict : Verdict}
  {result : Except SyncError Unit}

/-- A refusal changes neither queue nor version. -/
theorem settle_again (h : change.settle plan verdict o = (o', .again)) :
    o'.queue = o.queue ∧ o'.version = o.version := by
  cases verdict with
  | accepted stamp => cases h
  | refused stamp =>
    cases h
    exact ⟨rfl, rfl⟩
  | failed error => cases h

/-- A change that is taken in sets queue and version, a failure neither. -/
theorem settle_finished (h : change.settle plan verdict o = (o', .finished result)) :
    (result = .ok () ∧ o'.version = change.version ∧
        o'.queue = plan.rebased.map (·.rebased change.version)) ∨
      ∃ error, result = .error (.apply error) ∧ o' = o := by
  cases verdict with
  | accepted stamp =>
    cases h
    exact .inl ⟨rfl, rfl, rfl⟩
  | refused stamp => cases h
  | failed error =>
    cases h
    exact .inr ⟨error, rfl, rfl⟩

/-- In the end all that waited is merged with the change and the version is the change's, or there
was a misfit, and nothing has left the queue and the version stays. -/
theorem Taking.outcome (h : change.Taking o o' result) :
    (result = .ok () ∧ o'.version = change.version ∧
        ∃ waiting plan, o.queue <+: waiting ∧ change.plan waiting = .ok plan ∧
          o'.queue = plan.rebased.map (·.rebased change.version)) ∨
      ∃ error, result = .error error ∧ error.Misfit ∧ o'.version = o.version ∧
        o.queue <+: o'.queue := by
  induction h with
  | enqueue patches _ ih => exact ih
  | apart => exact .inr ⟨_, rfl, trivial, rfl, List.prefix_append _ _⟩
  | @finished o o' plan result verdict patches hplan hsettle =>
    rcases settle_finished hsettle with ⟨hok, hversion, hqueue⟩ | ⟨error, hfailed, rfl⟩
    · exact .inl ⟨hok, hversion, _, plan, List.prefix_append _ _, hplan, hqueue⟩
    · exact .inr ⟨_, hfailed, trivial, rfl, List.prefix_append _ _⟩
  | @again o o' o'' plan result verdict patches hplan hsettle _ ih =>
    obtain ⟨hqueue, hversion⟩ := settle_again hsettle
    have hprefix : o.queue <+: o'.queue := hqueue ▸ List.prefix_append _ _
    rcases ih with ⟨hok, hv, waiting, plan', hwaiting, hplan', hq⟩ | ⟨error, he, hmisfit, hv, hq⟩
    · exact .inl ⟨hok, hv, waiting, plan', hprefix.trans hwaiting, hplan', hq⟩
    · exact .inr ⟨error, he, hmisfit, hv.trans hversion, hprefix.trans hq⟩

end RemoteChange

namespace Outbox

variable {o o' : Outbox} {file : FileId} {sent : Patch} {count : Nat} {response : Response}
  {result : Except SyncError Unit}

/-- The four ends of a round whose batch is committed. -/
theorem closeRound_cases (o : Outbox) (file : FileId) (sent : Patch) (count : Nat)
    (hok : response.isOk) :
    (∃ error, response.missingPatches = .error error ∧
      o.closeRound file sent count (some (.ok response)) =
        (o, .finished (.error (.format error)))) ∨
    ∃ missing, response.missingPatches = .ok missing ∧
      ((∃ error, Patch.consolidate missing = .error error ∧
          o.closeRound file sent count (some (.ok response)) =
            (o.removeSent count, .finished (.error (.consolidate error)))) ∨
        (Patch.consolidate missing = .ok none ∧
          o.closeRound file sent count (some (.ok response)) =
            ((o.removeSent count).advance response.version, .finished (.ok ()))) ∨
        ∃ remote, Patch.consolidate missing = .ok (some remote) ∧
          o.closeRound file sent count (some (.ok response)) =
            (o.removeSent count,
              .reconcile (RemoteChange.pastSent ⟨remote, response.version⟩ sent))) := by
  simp only [closeRound, hok, if_true, closeCommitted]
  cases response.missingPatches with
  | error error => exact .inl ⟨error, rfl, rfl⟩
  | ok missing =>
    refine .inr ⟨missing, rfl, ?_⟩
    dsimp only
    cases Patch.consolidate missing with
    | error error => exact .inl ⟨error, rfl, rfl⟩
    | ok joined =>
      cases joined with
      | none => exact .inr (.inl ⟨rfl, rfl⟩)
      | some remote => exact .inr (.inr ⟨remote, rfl, rfl⟩)

/-- How a confirmed batch leaves the outbox. A missing patch that cannot be read leaves the batch at
the head of the queue under the old version. Otherwise the batch is out of the queue: with success
the version is the server's and what waits behind the batch is labelled so, merged with the missing
patches if there are any; with a misfit the version is the old one. -/
theorem confirmation_outcome (hok : response.isOk)
    (h : Closes file sent count (some (.ok response)) o o' result) :
    (∃ error, response.missingPatches = .error error ∧ result = .error (.format error) ∧
        o'.queue = o.queue ∧ o'.version = o.version) ∨
      ∃ missing, response.missingPatches = .ok missing ∧
        ((result = .ok () ∧ o'.version = response.version ∧
            ∃ waiting kept, o.queue.drop count <+: waiting ∧
              o'.queue = kept.map (·.rebased response.version) ∧
              (Patch.consolidate missing = .ok none ∧ kept = waiting ∨
                ∃ remote plan, Patch.consolidate missing = .ok (some remote) ∧
                  (RemoteChange.pastSent ⟨remote, response.version⟩ sent).plan waiting = .ok plan ∧
                  kept = plan.rebased)) ∨
          ∃ error, result = .error error ∧ error.Misfit ∧ o'.version = o.version ∧
            o.queue.drop count <+: o'.queue) := by
  rcases o.closeRound_cases file sent count hok with ⟨error, hmissing, hclose⟩ |
    ⟨missing, hmissing, ⟨error, -, hclose⟩ | ⟨hnone, hclose⟩ | ⟨remote, hremote, hclose⟩⟩
  · cases h with
    | atOnce h =>
      cases hclose.symm.trans h
      exact .inl ⟨error, hmissing, rfl, rfl, rfl⟩
    | behind h => cases hclose.symm.trans h
  · cases h with
    | atOnce h =>
      cases hclose.symm.trans h
      exact .inr ⟨missing, hmissing, .inr ⟨_, rfl, trivial, rfl, List.prefix_rfl⟩⟩
    | behind h => cases hclose.symm.trans h
  · cases h with
    | atOnce h =>
      cases hclose.symm.trans h
      exact .inr ⟨missing, hmissing, .inl ⟨rfl, rfl, _, _, List.prefix_rfl, rfl, .inl ⟨hnone, rfl⟩⟩⟩
    | behind h => cases hclose.symm.trans h
  · cases h with
    | atOnce h => cases hclose.symm.trans h
    | behind h htaking =>
      cases hclose.symm.trans h
      refine .inr ⟨missing, hmissing, ?_⟩
      rcases htaking.outcome with
        ⟨hdone, hversion, waiting, plan, hwaiting, hplan, hqueue⟩ | hmisfit
      · exact .inl ⟨hdone, hversion, waiting, _, hwaiting, hqueue,
          .inr ⟨remote, plan, hremote, hplan, rfl⟩⟩
      · exact .inr hmisfit

/-- A patch that comes in while the document refuses the missing patch stays behind the batch. -/
theorem confirmation_outcome_refused_once :
    let file : FileId := ⟨['f']⟩
    let sent : Patch := .forDocument 0 [.insertion 1 ['B']] 2
    let response := Response.committed (Uuid.ofNat 0) 2 [.forDocument 0 [.insertion 0 ['A']] 2]
    let o : Outbox := { queue := [sent], version := 0, stamp := 1, sending := true }
    ∃ o', response.isOk ∧ Closes file sent 1 (some (.ok response)) o o' (.ok ()) ∧
      o'.version = 2 ∧ o'.queue = [.forDocument 2 [.insertion 4 ['!']] 4] := by
  intro file sent response o
  let next : Patch := .forDocument 0 [.insertion 3 ['!']] 3
  let remote : Patch := .forDocument 0 [.insertion 0 ['A']] 2
  let change := RemoteChange.pastSent ⟨remote, 2⟩ sent
  have hmissing : response.missingPatches = .ok [remote] := by decide +kernel
  have hclose : o.closeRound file sent 1 (some (.ok response)) =
      (o.removeSent 1, .reconcile change) := by
    simp only [closeRound, closeCommitted, hmissing]
    rfl
  have htaking : change.Taking (o.removeSent 1) _ (.ok ()) :=
    .again (.refused 2) [next] rfl rfl (.finished (.accepted 3) [] rfl rfl)
  have hcloses := Closes.behind hclose htaking
  obtain ⟨_, _, hfailed, -⟩ | ⟨_, -, ⟨-, hversion, -⟩ | ⟨_, hfailed, -⟩⟩ :=
    confirmation_outcome (show response.isOk from rfl) hcloses
  · cases hfailed
  · exact ⟨_, rfl, hcloses, hversion, rfl⟩
  · cases hfailed

/-- Two missing patches of which the second does not fit what the first one makes: the batch is no
longer in the queue, and the version is not the server's. -/
theorem confirmation_half_taken :
    let file : FileId := ⟨['f']⟩
    let sent : Patch := .forDocument 0 [.insertion 1 ['B']] 2
    let response := Response.committed (Uuid.ofNat 0) 3
      [⟨0, [.insertion 0 ['a']], 3⟩, ⟨1, [.insertion 1 ['b']], 9⟩]
    let o : Outbox := { queue := [sent], version := 0, stamp := 1, sending := true }
    ∃ o' error, response.isOk ∧
      Closes file sent 1 (some (.ok response)) o o' (.error (.consolidate error)) ∧
      ¬((o.queue.take 1 <+: o'.queue ∧ o'.version = o.version) ∨
        (¬o.queue.take 1 <+: o'.queue ∧ o'.version = response.version)) := by
  intro file sent response o
  have hmissing : response.missingPatches =
      .ok [⟨0, [.insertion 0 ['a']], 3⟩, ⟨1, [.insertion 1 ['b']], 9⟩] := by
    decide +kernel
  have hjoined : Patch.consolidate [⟨0, [.insertion 0 ['a']], 3⟩, ⟨1, [.insertion 1 ['b']], 9⟩] =
      .error (.lengthMismatch 0 5) := by
    decide +kernel
  have hclose : o.closeRound file sent 1 (some (.ok response)) =
      (o.removeSent 1, .finished (.error (.consolidate (.lengthMismatch 0 5)))) := by
    simp only [closeRound, closeCommitted, hmissing, hjoined]
    rfl
  exact ⟨_, _, rfl, .atOnce hclose, by decide⟩

end Outbox

namespace Session

variable {s t : State} {file : FileId} {box i count : Nat} {change : RemoteChange} {sent : Patch}
  {result : Except SyncError Unit}

/-- An attempt of a session: the document has its say, and patches come in before. -/
theorem attempt_cases {attempt : Attempt} (hs : Tracks s) (hbox : box < s.outboxes.length)
    (h : s.attempt file box change = (t, attempt)) :
    (∃ error, change.plan (s.outbox box).drain.queue = .error error ∧
      t.outbox box = (s.outbox box).drain ∧ attempt = .finished (.error (.consolidate error))) ∨
    ∃ plan verdict patches, change.plan (s.outbox box).drain.queue = .ok plan ∧
      change.settle plan verdict ((s.outbox box).drain.enqueue patches) =
        (t.outbox box, attempt) := by
  cases hplan : change.plan (s.outbox box).drain.queue with
  | error error =>
    simp only [State.attempt, hplan] at h
    obtain ⟨rfl, rfl⟩ := Prod.mk.inj h
    exact .inl ⟨error, rfl, State.outbox_setOutbox hbox, rfl⟩
  | ok plan =>
    have hdrained : box < (s.setOutbox box (s.outbox box).drain).outboxes.length := by
      rwa [State.length_setOutbox]
    have hmeanwhile := offer_meanwhile (s.setOutbox box (s.outbox box).drain) file plan.incoming
      (s.outbox box).stamp
    cases hoffer : (s.setOutbox box (s.outbox box).drain).offer file plan.incoming
      (s.outbox box).stamp with
    | mk offered verdict =>
      rw [hoffer] at hmeanwhile
      obtain ⟨patches, hpatches⟩ := hmeanwhile.exists_enqueue (hs.setOutbox box _) hdrained
        fun he => by cases he
      have hknown := Nat.lt_of_lt_of_le hdrained hmeanwhile.length_le
      obtain ⟨rfl, rfl⟩ := Prod.mk.inj ((attempt_eq hplan hoffer).symm.trans h)
      rw [State.outbox_setOutbox hbox] at hpatches
      rw [State.outbox_setOutbox hknown, hpatches]
      exact .inr ⟨plan, verdict, patches, rfl, rfl⟩

/-- The attempts of a session take a change in. -/
theorem Attempts.taking (h : Attempts file box change s t result) (hs : Tracks s)
    (hbox : box < s.outboxes.length) : change.Taking (s.outbox box) (t.outbox box) result := by
  induction h with
  | finished h =>
    rcases attempt_cases hs hbox h with ⟨error, hplan, houtbox, hended⟩ |
      ⟨plan, verdict, patches, hplan, hsettle⟩
    · cases hended
      rw [houtbox]
      exact .apart hplan
    · exact .finished verdict patches hplan hsettle
  | @again s t u result h _ ih =>
    have hmeanwhile := attempt_meanwhile hs hbox file change
    rw [h] at hmeanwhile
    have hlater := ih (hmeanwhile.tracks hs).1 (Nat.lt_of_lt_of_le hbox hmeanwhile.length_le)
    rcases attempt_cases hs hbox h with ⟨_, -, -, hended⟩ | ⟨plan, verdict, patches, hplan, hsettle⟩
    · cases hended
    · exact .again verdict patches hplan hsettle hlater

/-- A sender that has got its answer closes the round: at once, or by its attempts to take the
missing patches in. -/
theorem closes_of_answer {delivery deadline : Nat} {answer : Except SendError Response}
    (hs : Tracks s) (hbox : box < s.outboxes.length)
    (hsender : s.senders[i]? = some ⟨file, .awaiting box delivery sent count deadline⟩)
    (hanswer : s.answer? delivery = some answer) :
    (∃ result, (s.stepTask (.sender i)).senders[i]? = some ⟨file, .closing box result⟩ ∧
      Outbox.Closes file sent count (some answer) (s.outbox box)
        ((s.stepTask (.sender i)).outbox box) result) ∨
    ∃ change, (s.stepTask (.sender i)).senders[i]? = some ⟨file, .reconciling box change⟩ ∧
      ∀ t result, Attempts file box change (s.stepTask (.sender i)) t result →
        Outbox.Closes file sent count (some answer) (s.outbox box) (t.outbox box) result := by
  have hstep : s.stepTask (.sender i) =
      s.closeRound i file box sent count (some answer) := by
    simp only [State.stepTask, hsender, State.stepSender, hanswer]
  rw [hstep]
  simp only [State.closeRound]
  cases hclose : (s.outbox box).closeRound file sent count (some answer) with
  | mk closed ending =>
    let later := (s.cancelTimers (.sender i)).setOutbox box closed
    have houtbox : later.outbox box = closed :=
      State.outbox_setOutbox (s := s.cancelTimers (.sender i)) hbox
    cases ending with
    | finished result =>
      refine .inl ⟨result, State.senders_setSender hsender _, .atOnce ?_⟩
      rw [hclose]
      exact congrArg (·, RoundEnd.finished result) houtbox.symm
    | reconcile change =>
      refine .inr ⟨change, State.senders_setSender hsender _, fun t result hattempts => ?_⟩
      have htracks : Tracks (later.setSender i (.reconciling box change)) :=
        ⟨(hs.setOutbox box closed).known, hs.distinct⟩
      have hknown : box < later.outboxes.length := by
        rw [State.length_setOutbox]
        exact hbox
      have htaking := hattempts.taking htracks hknown
      refine .behind hclose ?_
      rw [← houtbox]
      exact htaking

end Session

end Coedit
