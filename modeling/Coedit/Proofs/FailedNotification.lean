import Coedit.Proofs.Notification
import Coedit.Proofs.Stamps

/-!
A notification that cannot be taken in leaves everything that can be seen as it was
(`failed_notification_unharmed`). It may fail before the first attempt, over the waiting patches, or
over the document after some refusals. Until then the attempts have moved patches into the queue,
labelled them and noted the document's stamp (`attempt_retried`); no document has changed.
-/
namespace Coedit

namespace Outbox

/-- What waits, but for its version labels. -/
def contents (o : Outbox) : List (List Diff × Nat) :=
  o.pending.map fun p => (p.diffs, p.docLength)

@[simp] theorem contents_drain (o : Outbox) : o.drain.contents = o.contents := by
  have hrelabel (p : Patch) :
      ((relabel o.version p).diffs, (relabel o.version p).docLength) = (p.diffs, p.docLength) := by
    unfold relabel
    split <;> rfl
  simp [contents, pending, drain, hrelabel]

@[simp] theorem contents_expectStamp (o : Outbox) (stamp : Int) :
    (o.expectStamp stamp).contents = o.contents := rfl

end Outbox

namespace Session

variable {s t u : State} {file : FileId} {box : Nat} {change : RemoteChange} {patch : Patch}
  {expected : Int} {n : Notification} {error : SyncError}

/-- The faults that the taking in of a notification ends with. -/
inductive NotificationFault : SyncError → Prop
  | format (error : FormatError) : NotificationFault (.format error)
  | consolidate (error : SequenceError) : NotificationFault (.consolidate error)
  | apply (error : ApplyError) : NotificationFault (.apply error)

/-- Two states that cannot be told apart from outside, but for the labels of the patches in one
outbox. -/
structure Retried (box : Nat) (s t : State) : Prop where
  script : t.applyScript = s.applyScript
  buffer : ∀ file, t.documents.buffer file = s.documents.buffer file
  tracked : t.tracked = s.tracked
  length : t.outboxes.length = s.outboxes.length
  others : ∀ other, other ≠ box → t.outbox other = s.outbox other
  version : (t.outbox box).version = (s.outbox box).version
  sending : (t.outbox box).sending = (s.outbox box).sending
  contents : (t.outbox box).contents = (s.outbox box).contents

namespace Retried

theorem refl (box : Nat) (s : State) : Retried box s s :=
  ⟨rfl, fun _ => rfl, rfl, rfl, fun _ _ => rfl, rfl, rfl, rfl⟩

theorem trans (h : Retried box s t) (h' : Retried box t u) : Retried box s u where
  script := h'.script.trans h.script
  buffer file := (h'.buffer file).trans (h.buffer file)
  tracked := h'.tracked.trans h.tracked
  length := h'.length.trans h.length
  others other hother := (h'.others other hother).trans (h.others other hother)
  version := h'.version.trans h.version
  sending := h'.sending.trans h.sending
  contents := h'.contents.trans h.contents

/-- Where the notifier stands is not seen. -/
theorem of_notifier {before after : NotifierPhase}
    (h : Retried box { s with notifier := before } t) :
    Retried box s { t with notifier := after } :=
  ⟨h.script, h.buffer, h.tracked, h.length, h.others, h.version, h.sending, h.contents⟩

theorem setOutbox {o : Outbox} (hbox : box < s.outboxes.length)
    (hversion : o.version = (s.outbox box).version) (hsending : o.sending = (s.outbox box).sending)
    (hcontents : o.contents = (s.outbox box).contents) : Retried box s (s.setOutbox box o) where
  script := rfl
  buffer _ := rfl
  tracked := rfl
  length := State.length_setOutbox
  others other hother := by
    rw [State.outbox_setOutbox_eq_update hbox, Function.update_of_ne hother]
  version := by rw [State.outbox_setOutbox hbox, hversion]
  sending := by rw [State.outbox_setOutbox hbox, hsending]
  contents := by rw [State.outbox_setOutbox hbox, hcontents]

end Retried

/-- Without a script, an offer that is not accepted changes no document. It is refused only while
refusals are ordered, which uses one of them up, or for another stamp. -/
theorem offer_declined {verdict : Verdict} (box : Nat) (hscript : s.applyScript = [])
    (hoffer : s.offer file patch expected = (t, verdict)) :
    t.outboxes = s.outboxes ∧ ((∃ stamp, verdict = .accepted stamp) ∨ Retried box s t ∧
      ((∃ error, verdict = .failed error) ∨ verdict = .refused (t.documents.stamp file) ∧
        (t.refusals < s.refusals ∨
          t.refusals = s.refusals ∧ expected ≠ s.documents.stamp file))) := by
  have hbefore : s.beforeOffer = s := by rw [State.beforeOffer, hscript]
  simp only [State.offer, hbefore] at hoffer
  cases hrefusals : s.refusals with
  | zero =>
    simp only [hrefusals] at hoffer
    obtain ⟨rfl, rfl⟩ := Prod.mk.inj hoffer
    refine ⟨rfl, ?_⟩
    have hbuffer := s.documents.buffer_set_self file
    rcases s.documents.apply_cases file patch expected with
      ⟨text, -, -, happly⟩ | ⟨error, -, -, happly⟩ | ⟨hstamp, happly⟩
    · exact .inl ⟨_, by rw [happly]⟩
    · rw [happly]
      exact .inr ⟨⟨rfl, hbuffer, rfl, rfl, fun _ _ => rfl, rfl, rfl, rfl⟩, .inl ⟨error, rfl⟩⟩
    · rw [happly]
      exact .inr ⟨⟨rfl, hbuffer, rfl, rfl, fun _ _ => rfl, rfl, rfl, rfl⟩,
        .inr ⟨rfl, .inr ⟨rfl, hstamp.symm⟩⟩⟩
  | succ refusals =>
    simp only [hrefusals] at hoffer
    obtain ⟨rfl, rfl⟩ := Prod.mk.inj hoffer
    refine ⟨rfl, .inr ⟨⟨rfl, fun _ => rfl, rfl, rfl, fun _ _ => rfl, rfl, rfl, rfl⟩, ?_⟩⟩
    exact .inr ⟨rfl, .inl (Nat.lt_succ_self refusals)⟩

theorem retried_drain (hbox : box < s.outboxes.length) :
    Retried box s (s.setOutbox box (s.outbox box).drain) :=
  .setOutbox hbox rfl rfl (s.outbox box).contents_drain

/-- An attempt that does not take the change in fails, or it is to be made again for the stamp that
the document has now. -/
theorem attempt_retried {attempt : Attempt} (hscript : s.applyScript = [])
    (hbox : box < s.outboxes.length) (h : s.attempt file box change = (t, attempt)) :
    attempt = .finished (.ok ()) ∨ Retried box s t ∧
      ((∃ error, NotificationFault error ∧ attempt = .finished (.error error)) ∨
        attempt = .again ∧ (t.outbox box).stamp = t.documents.stamp file ∧
          (t.refusals < s.refusals ∨
            t.refusals = s.refusals ∧ (s.outbox box).stamp ≠ s.documents.stamp file)) := by
  have hdrained := retried_drain hbox
  cases hplan : change.plan (s.outbox box).drain.queue with
  | error error =>
    simp only [State.attempt, hplan] at h
    obtain ⟨rfl, rfl⟩ := Prod.mk.inj h
    exact .inr ⟨hdrained, .inl ⟨_, .consolidate error, rfl⟩⟩
  | ok plan =>
    cases hoffer : (s.setOutbox box (s.outbox box).drain).offer file plan.incoming
      (s.outbox box).stamp with
    | mk offered verdict =>
      obtain ⟨rfl, rfl⟩ := Prod.mk.inj ((attempt_eq hplan hoffer).symm.trans h)
      obtain ⟨houtboxes, ⟨stamp, rfl⟩ | ⟨hoffered, hverdict⟩⟩ :=
        offer_declined box (hdrained.script.trans hscript) hoffer
      · exact .inl rfl
      · have hknown : box < offered.outboxes.length := by
          rw [houtboxes, State.length_setOutbox]
          exact hbox
        have hretried := hdrained.trans hoffered
        rcases hverdict with ⟨error, rfl⟩ | ⟨rfl, hrefused⟩
        · refine .inr ⟨?_, .inl ⟨_, .apply error, rfl⟩⟩
          dsimp only [RemoteChange.settle]
          rwa [State.setOutbox_self]
        · refine .inr ⟨hretried.trans (.setOutbox hknown rfl rfl rfl), .inr ⟨rfl, ?_, hrefused⟩⟩
          rw [State.outbox_setOutbox hknown]
          rfl

/-- The attempts come to an end, since each refusal leaves the expected stamp up to date or uses up
an ordered one. -/
theorem exists_attempts (hscript : s.applyScript = []) (hbox : box < s.outboxes.length) :
    ∃ t result, Attempts file box change s t result ∧
      ∀ error, result = .error error → NotificationFault error ∧ Retried box s t := by
  induction hn : 2 * s.refusals + (if (s.outbox box).stamp = s.documents.stamp file then 0 else 1)
    using Nat.strongRecOn generalizing s with
  | ind measure ih =>
    cases hattempt : s.attempt file box change with
    | mk t attempt =>
      rcases attempt_retried hscript hbox hattempt with
        rfl | ⟨hretried, ⟨error, hfault, rfl⟩ | ⟨rfl, hstamp, hless⟩⟩
      · exact ⟨t, _, .finished hattempt, nofun⟩
      · refine ⟨t, _, .finished hattempt, fun later he => ?_⟩
        cases he
        exact ⟨hfault, hretried⟩
      · have hmeasure : 2 * t.refusals +
            (if (t.outbox box).stamp = t.documents.stamp file then 0 else 1) < measure := by
          rw [if_pos hstamp]
          rcases hless with hless | ⟨hsame, hother⟩
          · omega
          · rw [if_neg hother] at hn
            omega
        obtain ⟨u, result, hattempts, hend⟩ := ih _ hmeasure (hretried.script.trans hscript)
          (hretried.length ▸ hbox) rfl
        refine ⟨u, result, .again hattempt hattempts, fun error he => ?_⟩
        exact ⟨(hend error he).1, hretried.trans (hend error he).2⟩

/-- What a notification of a file that fails leaves behind: no document, no version and no other
file is touched, and the same patches wait, but for their labels. The file may have become an open
one, with nothing waiting. -/
structure Unharmed (file : FileId) (s t : State) : Prop where
  buffer : ∀ other, t.documents.buffer other = s.documents.buffer other
  tracked : ∀ other, other ≠ file → t.tracked.get? other = s.tracked.get? other
  others : ∀ box < s.outboxes.length, s.tracked.get? file ≠ some box → t.outbox box = s.outbox box
  kept : ∀ box, s.tracked.get? file = some box → t.tracked.get? file = some box ∧
    (t.outbox box).version = (s.outbox box).version ∧
    (t.outbox box).sending = (s.outbox box).sending ∧
    (t.outbox box).contents = (s.outbox box).contents
  opened : s.tracked.get? file = none →
    ∀ box, t.tracked.get? file = some box → (t.outbox box).pending = []

theorem Unharmed.of_notifier (s : State) (file : FileId) (notifier : NotifierPhase) :
    Unharmed file s { s with notifier } where
  buffer _ := rfl
  tracked _ _ := rfl
  others _ _ _ := rfl
  kept _ hbox := ⟨hbox, rfl, rfl, rfl⟩
  opened hnone box hbox := absurd (hnone.symm.trans hbox) (Option.some_ne_none box).symm

/-- Attempts on the outbox of a file that is opened if need be. -/
theorem Retried.unharmed {version : Int} {opened : State}
    (htrack : s.track file version = (opened, box)) (h : Retried box opened t) :
    Unharmed file s t := by
  rcases s.track_cases file version with ⟨own, hown, htrack', -⟩ | ⟨hnone, stamp, htrack', -⟩
  · obtain ⟨rfl, rfl⟩ := Prod.mk.inj (htrack'.symm.trans htrack)
    refine ⟨h.buffer, fun _ _ => by rw [h.tracked], fun other _ hother => ?_,
      fun other hother => ?_, fun hnone => by rw [hown] at hnone; cases hnone⟩
    · exact h.others other fun he => hother (he ▸ hown)
    · obtain rfl : own = other := Option.some.inj (hown.symm.trans hother)
      exact ⟨h.tracked ▸ hown, h.version, h.sending, h.contents⟩
  · obtain ⟨rfl, rfl⟩ := Prod.mk.inj (htrack'.symm.trans htrack)
    refine ⟨h.buffer, fun other hother => ?_, fun other hother _ => ?_, fun box hbox => ?_,
      fun _ box hbox => ?_⟩
    · rw [h.tracked, Table.get?_set_of_ne (Ne.symm hother)]
    · have hne : other ≠ s.outboxes.length := Nat.ne_of_lt hother
      rw [h.others other hne, State.outbox_append_eq_update, Function.update_of_ne hne]
    · rw [hnone] at hbox
      cases hbox
    · rw [h.tracked, Table.get?_set_self] at hbox
      obtain rfl := Option.some.inj hbox
      have hcontents := h.contents
      rw [State.outbox_append_eq_update, Function.update_self] at hcontents
      exact List.map_eq_nil_iff.mp hcontents

/-- The taking in of a notification comes to an end, and if it fails, with a patch that cannot be
read, waiting patches that do not fit each other or a change that does not fit the document, it
changes nothing. -/
theorem failed_notification_unharmed (hs : Tracks s) (hscript : s.applyScript = [])
    (hn : s.notifier = .opening n) :
    ∃ k result, (∀ j < k, (State.stepNotifier^[j] s).notifier.result? = none) ∧
      (State.stepNotifier^[k] s).notifier.result? = some result ∧
      ∀ error, result = .error error →
        NotificationFault error ∧ Unharmed n.file s (State.stepNotifier^[k] s) := by
  have hfirst : ∀ j < 1, (State.stepNotifier^[j] s).notifier.result? = none := by
    intro j hj
    rw [Nat.lt_one_iff.mp hj, Function.iterate_zero_apply, hn]
    rfl
  cases hpatch : n.patch with
  | error error =>
    refine ⟨1, .error (.format error), hfirst, ?_⟩
    simp only [Function.iterate_one, State.stepNotifier, hn, State.openNotification, hpatch]
    refine ⟨rfl, ?_⟩
    rintro _ ⟨⟩
    exact ⟨.format error, .of_notifier s n.file _⟩
  | ok patch =>
    obtain ⟨-, hbox, -⟩ := hs.track n.file patch.baseVersion
    obtain ⟨tracked, outboxes, hopened⟩ := s.track_eq n.file patch.baseVersion
    obtain ⟨opened, box, htrack⟩ : ∃ opened box, s.track n.file patch.baseVersion = (opened, box) :=
      ⟨_, _, rfl⟩
    rw [htrack] at hbox hopened
    have hscript' : opened.applyScript = [] :=
      (congrArg State.applyScript hopened).trans hscript
    by_cases hknown : n.version ≤ (opened.outbox box).version
    · refine ⟨1, .ok (), hfirst, ?_, fun _ he => by cases he⟩
      simp only [Function.iterate_one, State.stepNotifier, hn, State.openNotification, hpatch,
        htrack, if_pos hknown]
      rfl
    · let change : RemoteChange := ⟨patch, n.version⟩
      let begun : State := { opened with notifier := .reconciling n.file box change }
      have hbegin : s.stepNotifier = begun := by
        simp only [State.stepNotifier, hn, State.openNotification, hpatch, htrack, if_neg hknown]
        rfl
      obtain ⟨t, result, hattempts, hend⟩ := exists_attempts (s := begun) hscript' hbox
      obtain ⟨k, hbefore, hk⟩ := hattempts.stepNotifier_first rfl
      refine ⟨k + 1, result, fun j hj => ?_, ?_, fun error he => ?_⟩
      · cases j with
        | zero => exact hfirst 0 Nat.one_pos
        | succ j =>
          rw [Function.iterate_succ_apply, hbegin, hbefore j (Nat.lt_of_succ_lt_succ hj)]
          rfl
      · rw [Function.iterate_succ_apply, hbegin, hk]
        rfl
      · rw [Function.iterate_succ_apply, hbegin, hk]
        exact ⟨(hend error he).1, Retried.unharmed htrack (hend error he).2.of_notifier⟩

/-- The document refuses the first attempt, for its stamp, and finds another text than the one that
the second attempt would delete. Meanwhile the incoming patch has come into the queue, under the
file's version. -/
theorem failed_notification_unharmed_refused_once :
    let file : FileId := ⟨['f']⟩
    let s : State := {
      settings := {}
      documents := ⟨[(file, ⟨['a', 'X'], 3⟩)]⟩
      tracked := ⟨[(file, 0)]⟩
      outboxes := [{
        queue := [.forDocument 4 [.insertion 1 ['X']] 2]
        incoming := [.forDocument 3 [.deletion 2 ['b']] 3]
        version := 4
        stamp := 1 }]
      notifier := .opening (.ofPatch file (.forDocument 4 [.deletion 0 ['q']] 2) 5) }
    let t := State.stepNotifier^[3] s
    t.notifier.result? = some (.error (.apply (.consistency 0 ['q'] ['a']))) ∧
      (s.outbox 0).pending.map Patch.baseVersion = [4, 3] ∧
      (t.outbox 0).pending.map Patch.baseVersion = [4, 4] ∧ Unharmed file s t := by
  intro file s t
  have hopen {other : FileId} {box : Nat} (hbox : s.tracked.get? other = some box) :
      other = file ∧ box = 0 := by
    rw [show s.tracked = Table.set {} file 0 from rfl, Table.get?_set] at hbox
    split at hbox
    · rename_i hfile
      exact ⟨hfile.symm, (Option.some.inj hbox).symm⟩
    · cases hbox
  have htracks : Tracks s :=
    ⟨fun hbox => (hopen hbox).2 ▸ Nat.one_pos,
      fun hone hother => (hopen hone).1.trans (hopen hother).1.symm⟩
  have hend : t.notifier.result? = some (.error (.apply (.consistency 0 ['q'] ['a']))) := by
    decide +kernel
  have hbefore : ∀ j < 3, (State.stepNotifier^[j] s).notifier.result? = none := by decide +kernel
  obtain ⟨k, result, hnone, hresult, hunharmed⟩ := failed_notification_unharmed htracks rfl rfl
  obtain rfl : k = 3 := by
    refine Nat.le_antisymm (Nat.not_lt.mp fun hlt => ?_) (Nat.not_lt.mp fun hlt => ?_)
    · cases (hnone 3 hlt).symm.trans hend
    · cases (hbefore k hlt).symm.trans hresult
  obtain rfl := Option.some.inj (hresult.symm.trans hend)
  exact ⟨hend, rfl, by decide +kernel, (hunharmed _ rfl).2⟩

end Session

end Coedit
