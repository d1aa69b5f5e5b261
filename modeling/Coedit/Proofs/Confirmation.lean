import Coedit.Proofs.Reconcile
import Mathlib.Logic.Function.Iterate

/-!
A batch is confirmed behind patches that the client has not seen. The server transforms the batch
past them one at a time, the client past their consolidation. The live text agrees with the server
exactly if both ways make the same text (`confirmation_agrees_iff`), which they always do for a
single missing patch, and do not for two that put text where the first one deletes
(`confirmation_disagrees`).
-/
namespace Coedit

namespace ServerFile

variable {f : ServerFile} {sent : Patch} {base mid : Text}

/-- The patches since a version were made one after another, the first of them on a text. -/
structure Since (f : ServerFile) (version : Int) (base : Text) : Prop where
  nonneg : 0 ≤ version
  le_version : version ≤ f.version
  free : '\r' ∉ base
  made : Patch.Sequential base (f.history.drop version.toNat) f.text

theorem Since.length_missing {version : Int} (h : f.Since version base) :
    version + (f.history.drop version.toNat).length = f.version := by
  obtain ⟨hn, hle, -, -⟩ := h
  rw [ServerFile.version] at hle ⊢
  rw [List.length_drop]
  omega

/-- A patch that fits the text of a version is committed behind everything since. -/
theorem Since.commit (h : f.Since sent.baseVersion base) (hs : sent.Leads base mid) :
    ∃ text,
      f.commit sent =
        .ok (f.push (sent.transform false (f.history.drop sent.baseVersion.toNat)) text,
          f.history.drop sent.baseVersion.toNat) ∧
      (sent.transform false (f.history.drop sent.baseVersion.toNat)).Leads f.text text := by
  obtain ⟨text, hl⟩ := h.made.transform hs false
  have hknown : ¬(sent.baseVersion < 0 ∨ (f.version : Int) < sent.baseVersion) := by
    have := h.nonneg
    have := h.le_version
    omega
  refine ⟨text, ?_, hl⟩
  rw [ServerFile.commit, if_neg hknown]
  simp only [hl.apply_eq]

end ServerFile

namespace Outbox

variable {o : Outbox} {file : FileId} {sent joined : Patch} {count : Nat} {response : Response}

theorem closeRound_of_none_missing (hok : response.isOk)
    (hmissing : response.missingPatches = .ok []) :
    o.closeRound file sent count (some (.ok response)) =
      ((o.removeSent count).advance response.version, .finished (.ok ())) := by
  simp only [closeRound, hok, if_true, closeCommitted, hmissing, Patch.consolidate_nil]

theorem closeRound_of_missing {missing : List Patch} (hok : response.isOk)
    (hmissing : response.missingPatches = .ok missing)
    (hjoined : Patch.consolidate missing = .ok (some joined)) :
    o.closeRound file sent count (some (.ok response)) =
      (o.removeSent count,
        .reconcile (RemoteChange.pastSent ⟨joined, response.version⟩ sent)) := by
  simp only [closeRound, hok, if_true, closeCommitted, hmissing, hjoined]

end Outbox

namespace Session

variable {s t : State} {file : FileId} {box i count : Nat} {change : RemoteChange}
  {result : Except SyncError Unit} {sent : Patch} {response : Response} {missing : List Patch}
  {base mid server next text : Text}

/-- A sender makes its attempts until one of them ends the reconciliation. -/
theorem Attempts.stepSender (h : Attempts file box change s t result)
    (hs : s.senders[i]? = some ⟨file, .reconciling box change⟩) :
    ∃ k, (State.stepTask · (.sender i))^[k] s = t.setSender i (.closing box result) ∧
      t.senders[i]? = some ⟨file, .reconciling box change⟩ := by
  induction h with
  | @finished s t result h =>
    have hkeeps := s.keepsPhases_attempt file box change
    rw [h] at hkeeps
    refine ⟨1, ?_, hkeeps.sender hs⟩
    simp only [Function.iterate_one, State.stepTask, hs, State.stepSender, h]
  | @again s t u result h _ ih =>
    have hkeeps := s.keepsPhases_attempt file box change
    rw [h] at hkeeps
    obtain ⟨k, hk, hu⟩ := ih (hkeeps.sender hs)
    have hstep : s.stepTask (.sender i) = t := by
      simp only [State.stepTask, hs, State.stepSender, h]
    exact ⟨k + 1, by rw [Function.iterate_succ_apply, hstep, hk], hu⟩

/-- The answer has come to a sender that its batch, the first `count` patches of the queue in one,
is committed behind the missing patches. -/
structure Confirmed (s : State) (i : Nat) (file : FileId) (box : Nat) (sent : Patch) (count : Nat)
    (response : Response) (missing : List Patch) : Prop where
  tracked : s.tracked.get? file = some box
  known : box < s.outboxes.length
  answered : ∃ delivery deadline,
    s.senders[i]? = some ⟨file, .awaiting box delivery sent count deadline⟩ ∧
      s.answer? delivery = some (.ok response)
  isOk : response.isOk
  missing : response.missingPatches = .ok missing

theorem Confirmed.stepTask (h : Confirmed s i file box sent count response missing) :
    s.stepTask (.sender i) = s.closeRound i file box sent count (some (.ok response)) := by
  obtain ⟨delivery, deadline, hsender, hanswer⟩ := h.answered
  simp only [State.stepTask, hsender, State.stepSender, hanswer]

/-- Without missing patches the round ends at once. -/
theorem Confirmed.nothing_missing (h : Confirmed s i file box sent count response [])
    (hfree : '\r' ∉ mid) (hpending : Patch.Sequential mid ((s.outbox box).removeSent count).pending
      (s.documents.buffer file).text) :
    ∃ t, s.stepTask (.sender i) = t ∧ t.senders[i]? = some ⟨file, .closing box (.ok ())⟩ ∧
      TakenIn t file box mid response.version := by
  obtain ⟨delivery, deadline, hsender, -⟩ := h.answered
  have htaken := takenIn_advance (s := s.cancelTimers (.sender i)) h.tracked h.known hfree hpending
    response.version
  refine ⟨_, rfl, ?_, ?_⟩ <;> rw [h.stepTask, State.closeRound,
    Outbox.closeRound_of_none_missing h.isOk h.missing]
  · exact State.senders_setSender hsender _
  · exact htaken.transfer rfl rfl rfl

/-- Missing patches are taken in past the batch. The client arrives at the text that the batch makes
of the server's when it goes past their consolidation. -/
theorem Confirmed.taken_in {joined : Patch} (h : Confirmed s i file box sent count response missing)
    (hjoined : Patch.consolidate missing = .ok (some joined)) (hl : joined.Leads base server)
    (hsent : sent.Leads base mid)
    (hpending : Patch.Sequential mid ((s.outbox box).removeSent count).pending
      (s.documents.buffer file).text) (he : EditsWhileRefused s file box) :
    ∃ k t next, (State.stepTask · (.sender i))^[k] s = t ∧
      t.senders[i]? = some ⟨file, .closing box (.ok ())⟩ ∧
      TakenIn t file box next response.version ∧
      (sent.transform false [joined]).Leads server next := by
  obtain ⟨delivery, deadline, hsender, -⟩ := h.answered
  let change := RemoteChange.pastSent ⟨joined, response.version⟩ sent
  let later := ((s.cancelTimers (.sender i)).setOutbox box
    ((s.outbox box).removeSent count)).setSender i (.reconciling box change)
  have hclose : s.stepTask (.sender i) = later := by
    rw [h.stepTask, State.closeRound, Outbox.closeRound_of_missing h.isOk h.missing hjoined]
  have houtbox : later.outbox box = (s.outbox box).removeSent count :=
    State.outbox_setOutbox (s := s.cancelTimers (.sender i)) h.known
  have hsynced : Synced later file box mid :=
    (synced_setOutbox (s := s.cancelTimers (.sender i)) h.tracked h.known hsent.free_after
      hpending).transfer rfl rfl rfl
  have hstamp : (later.outbox box).stamp = (s.outbox box).stamp := by
    rw [houtbox]
    rfl
  have hedits : EditsWhileRefused later file box :=
    ⟨he.fit, fun hs => (he.refused hs).imp_right fun hne => by rwa [hstamp]⟩
  have hserver := hsent.transform hl false
  have hnext : change.patch.Leads mid _ := hl.transform hsent true
  rw [Patch.merged_comm] at hnext
  obtain ⟨t, hattempts, htaken, -⟩ := attempts_finish hsynced hnext hedits
  obtain ⟨k, hk, hphase⟩ := hattempts.stepSender (State.senders_setSender hsender _)
  refine ⟨k + 1, _, _, ?_, State.senders_setSender hphase _, htaken.transfer rfl rfl rfl, hserver⟩
  rw [Function.iterate_succ_apply, hclose, hk]

/-- After a confirmed batch the live text is what the waiting patches make of a text at which the
client has arrived; it is the server's exactly if the batch makes the server's text both past the
missing patches one at a time and past their consolidation. -/
theorem Confirmed.arrives (h : Confirmed s i file box sent count response missing)
    (hseq : Patch.Sequential base missing server) (hsent : sent.Leads base mid)
    (hcommitted : (sent.transform false missing).Leads server text)
    (hpending : Patch.Sequential mid ((s.outbox box).removeSent count).pending
      (s.documents.buffer file).text) (he : EditsWhileRefused s file box) :
    ∃ k t next, (State.stepTask · (.sender i))^[k] s = t ∧
      t.senders[i]? = some ⟨file, .closing box (.ok ())⟩ ∧
      TakenIn t file box next response.version ∧
      ((∀ joined, Patch.consolidate missing = .ok (some joined) →
        (sent.transform false [joined]).apply server = .ok text) ↔ text = next) := by
  cases missing with
  | nil =>
    cases hseq
    obtain ⟨t, ht, hphase, htaken⟩ := h.nothing_missing hsent.free_after hpending
    refine ⟨1, t, mid, ht, hphase, htaken, fun _ => hcommitted.target_unique hsent, ?_⟩
    exact fun _ joined hnone => nomatch hnone
  | cons p ps =>
    obtain ⟨joined, hjoined, hl, -⟩ := hseq.consolidate hsent.free
    obtain ⟨k, t, next, hk, hphase, htaken, hnext⟩ := h.taken_in hjoined hl hsent hpending he
    refine ⟨k, t, next, hk, hphase, htaken, fun hways => ?_, ?_⟩
    · exact Except.ok.inj ((hways joined hjoined).symm.trans hnext.apply_eq)
    · rintro rfl other hother
      obtain rfl := Option.some.inj (Except.ok.inj (hjoined.symm.trans hother))
      exact hnext.apply_eq

theorem transform_joined_of_length_le_one {joined : Patch} (hfew : missing.length ≤ 1)
    (hjoined : Patch.consolidate missing = .ok (some joined)) :
    sent.transform false [joined] = sent.transform false missing := by
  match missing, hfew with
  | [], _ => cases hjoined
  | [m], _ =>
    obtain rfl := Option.some.inj (Except.ok.inj hjoined)
    rfl

/-- After a confirmed batch the live text is what the waiting patches make of the server's text
exactly if the batch goes past the missing patches one at a time as it goes past their
consolidation. Up to one missing patch it does. -/
theorem confirmation_agrees_iff {f : ServerFile}
    (h : Confirmed s i file box sent count response missing)
    (hbase : sent.baseVersion = (s.outbox box).version) (hsince : f.Since sent.baseVersion base)
    (hm : missing = f.history.drop sent.baseVersion.toNat)
    (hversion : response.version = f.version + 1) (hmade : sent.MadeFor base.length)
    (hfree : sent.ReturnFree) (happly : sent.apply base = .ok mid)
    (hpending : Patch.Sequential mid ((s.outbox box).removeSent count).pending
      (s.documents.buffer file).text) (he : EditsWhileRefused s file box) :
    ∃ committed k t, f.commit sent = .ok (committed, missing) ∧
      (State.stepTask · (.sender i))^[k] s = t ∧
      t.senders[i]? = some ⟨file, .closing box (.ok ())⟩ ∧
      (t.outbox box).version = (s.outbox box).version + missing.length + 1 ∧
      (Patch.applyAll committed.text (t.outbox box).pending =
          .ok (t.documents.buffer file).text ↔
        ∀ joined, Patch.consolidate missing = .ok (some joined) →
          (sent.transform false [joined]).apply f.text = .ok committed.text) ∧
      (missing.length ≤ 1 → Patch.applyAll committed.text (t.outbox box).pending =
        .ok (t.documents.buffer file).text) := by
  have hsent : sent.Leads base mid := .of_madeFor hsince.free hmade hfree happly
  obtain ⟨text, hcommit, hcommitted⟩ := hsince.commit hsent
  have hlength := hsince.length_missing
  have hseq := hsince.made
  rw [← hm] at hcommit hcommitted hlength hseq
  obtain ⟨k, t, next, hk, hphase, htaken, hways⟩ := h.arrives hseq hsent hcommitted hpending he
  have hagree : Patch.applyAll text (t.outbox box).pending = .ok (t.documents.buffer file).text ↔
      text = next := by
    refine ⟨htaken.pending.source_unique htaken.free hcommitted.free_after, ?_⟩
    rintro rfl
    exact htaken.pending.applyAll_eq
  refine ⟨_, k, t, hcommit, hk, hphase, ?_, hagree.trans hways.symm, fun hfew => ?_⟩
  · rw [htaken.version_eq, hversion, ← hbase, hlength]
  · refine hagree.mpr (hways.mp fun joined hjoined => ?_)
    rw [transform_joined_of_length_le_one hfew hjoined]
    exact hcommitted.apply_eq

/-- Two missing patches and text that came in behind the batch. -/
theorem confirmation_agrees_iff_behind_two :
    let file : FileId := ⟨['f']⟩
    let first : Patch := .forDocument 0 [.insertion 0 ['A']] 2
    let second : Patch := .forDocument 1 [.deletion 2 ['y']] 3
    let sent : Patch := .forDocument 0 [.insertion 1 ['B']] 2
    let f : ServerFile := ⟨['A', 'x'], [first, second]⟩
    let committed := f.push (sent.transform false [first, second]) ['A', 'x', 'B']
    let response := Response.committed (Uuid.ofNat 0) committed.version [first, second]
    let s : State := {
      settings := {}
      documents := ⟨[(file, ⟨['x', 'B', 'y', '!'], 3⟩)]⟩
      tracked := ⟨[(file, 0)]⟩
      outboxes := [{
        queue := [sent]
        incoming := [.forDocument 0 [.insertion 3 ['!']] 3]
        version := 0
        stamp := 1
        sending := true }]
      senders := [⟨file, .awaiting 0 0 sent 1 5000⟩]
      deliveries := [⟨.ofPatch (Uuid.ofNat 0) file sent, 0, .answered (.ok response)⟩] }
    ∃ k t, f.commit sent = .ok (committed, [first, second]) ∧
      (State.stepTask · (.sender 0))^[k] s = t ∧
      t.senders[0]? = some ⟨file, .closing 0 (.ok ())⟩ ∧ (t.outbox 0).version = 3 ∧
      Patch.applyAll committed.text (t.outbox 0).pending = .ok (t.documents.buffer file).text := by
  intro file first second sent f committed response s
  have hsince : f.Since 0 ['x', 'y'] :=
    ⟨by decide, by decide, by decide, .cons ⟨0, _, rfl⟩ (by decide) rfl
      (.cons ⟨1, _, rfl⟩ (by decide) rfl (.nil ['A', 'x']))⟩
  have hpending : Patch.Sequential ['x', 'B', 'y'] ((s.outbox 0).removeSent 1).pending
      (s.documents.buffer file).text :=
    .cons ⟨0, _, rfl⟩ (by decide) rfl (.nil ['x', 'B', 'y', '!'])
  have hmissing : response.missingPatches = .ok [first, second] := by
    with_unfolding_all rfl
  obtain ⟨_, k, t, hcommit, hk, hphase, hversion, hagree, -⟩ :=
    confirmation_agrees_iff (s := s) (i := 0) ⟨rfl, by decide, ⟨0, 5000, rfl, rfl⟩, rfl, hmissing⟩
      rfl hsince rfl rfl ⟨0, _, rfl⟩ (by decide) rfl hpending
      ⟨⟨_, .nil _⟩, fun h => absurd rfl h⟩
  have hknown : f.commit sent = .ok (committed, [first, second]) := rfl
  obtain rfl := congrArg Prod.fst (Except.ok.inj (hknown.symm.trans hcommit))
  refine ⟨k, t, hknown, hk, hphase, hversion, hagree.mpr fun joined hjoined => ?_⟩
  have hjoin : Patch.consolidate [first, second] =
      .ok (some ⟨0, [.insertion 0 ['A'], .deletion 1 ['y']], 2⟩) := by
    with_unfolding_all rfl
  obtain rfl := Option.some.inj (Except.ok.inj (hjoin.symm.trans hjoined))
  rfl

/-- Two missing patches that put text where the first of them deletes: the server has the batch's
text first, the client has it last. -/
theorem confirmation_disagrees :
    let file : FileId := ⟨['f']⟩
    let first : Patch := .forDocument 0 [.deletion 0 ['x']] 2
    let second : Patch := .forDocument 1 [.insertion 0 ['A']] 1
    let sent : Patch := .forDocument 0 [.insertion 1 ['B']] 2
    let f : ServerFile := ⟨['A', 'y'], [first, second]⟩
    let committed := f.push (sent.transform false [first, second]) ['B', 'A', 'y']
    let response := Response.committed (Uuid.ofNat 0) committed.version [first, second]
    let s : State := {
      settings := {}
      documents := ⟨[(file, ⟨['x', 'B', 'y'], 2⟩)]⟩
      tracked := ⟨[(file, 0)]⟩
      outboxes := [{ queue := [sent], version := 0, stamp := 1, sending := true }]
      senders := [⟨file, .awaiting 0 0 sent 1 5000⟩]
      deliveries := [⟨.ofPatch (Uuid.ofNat 0) file sent, 0, .answered (.ok response)⟩] }
    let t := (State.stepTask · (.sender 0))^[3] s
    f.Since 0 ['x', 'y'] ∧ sent.apply ['x', 'y'] = .ok ['x', 'B', 'y'] ∧
      f.commit sent = .ok (committed, [first, second]) ∧
      t.senders[0]? = some ⟨file, .closing 0 (.ok ())⟩ ∧ (t.outbox 0).version = 3 ∧
      (t.documents.buffer file).text = ['A', 'B', 'y'] ∧
      Patch.applyAll committed.text (t.outbox 0).pending ≠ .ok (t.documents.buffer file).text := by
  refine ⟨⟨by decide, by decide, by decide, ?_⟩, rfl, rfl, ?_, ?_, ?_, ?_⟩
  · exact .cons ⟨0, _, rfl⟩ (by decide) rfl (.cons ⟨1, _, rfl⟩ (by decide) rfl (.nil ['A', 'y']))
  · with_unfolding_all rfl
  · decide +kernel
  · decide +kernel
  · decide +kernel

end Session

end Coedit
