import Coedit.Proofs.Actions
import Coedit.Proofs.Consolidate
import Coedit.Proofs.Converge
import Coedit.Session.Task

/-!
Taking a remote change in. What a plan offers to the live text and what then waits meet in the
merge of both (`RemoteChange.plan_meets`). An attempt is refused or accepted; either way the waiting
patches lead from a server text to the live text (`attempt_refused`, `attempt_accepted`). Since a
refusal renews the expected stamp, the attempts come to an end (`attempts_finish`).
-/
namespace Coedit

namespace RemoteChange

variable {change : RemoteChange} {queue : List Patch} {base live next : Text}

/-- A change and a queue of one text have a plan; what it offers to the live text and what then
waits meet in the merge of both. -/
theorem plan_meets (hr : change.patch.Leads base next) (hq : Patch.Sequential base queue live) :
    ∃ plan waiting, change.plan queue = .ok plan ∧ Patch.Leads waiting base live ∧
      plan.incoming.Leads live (Patch.merged true waiting change.patch base) ∧
      Patch.Sequential next plan.rebased (Patch.merged true waiting change.patch base) := by
  cases queue with
  | nil =>
    cases hq
    have hmerged : Patch.merged true (.unchanged 0 base.length) change.patch base = next :=
      hr.rewrites.eq_apply.symm
    refine ⟨_, .unchanged 0 base.length, rfl, .unchanged 0 hr.free, ?_, ?_⟩
    · rw [hmerged]
      exact hr
    · rw [hmerged]
      exact .nil next
  | cons p ps =>
    obtain ⟨waiting, hw, hl, -⟩ := hq.consolidate hr.free
    have hincoming := hr.transform hl true
    have hrebased := hl.transform hr false
    have hmade := Patch.madeFor_transform waiting false change.patch
    rw [Patch.merged_comm] at hincoming
    rw [hr.docLength] at hmade
    refine ⟨⟨_, [_]⟩, waiting, ?_, hl, hincoming, .singleton hmade hrebased⟩
    rw [plan, hw]
    rfl

end RemoteChange

namespace Session

variable {s t u : State} {file : FileId} {box : Nat} {change : RemoteChange}
  {base live next text : Text}

namespace State

variable (s : State)

theorem keepsPhases_attempt (file : FileId) (box : Nat) (change : RemoteChange) :
    KeepsPhases s (s.attempt file box change).1 := by
  simp only [attempt]
  split
  · exact ⟨rfl, List.prefix_rfl⟩
  · obtain ⟨hn, hs⟩ :=
      (offer_meanwhile (s.setOutbox box (s.outbox box).drain) file _ _).keepsPhases
    exact ⟨hn, hs⟩

end State

/-- What the script lets happen are edits. -/
theorem beforeOffer_edits (ht : s.tracked.get? file = some box) (hb : box < s.outboxes.length)
    (he : Edits file (s.documents.buffer file).text (s.applyScript.headD []) text) :
    ∃ patches, Edited file box { s with applyScript := s.applyScript.tail } s.beforeOffer patches
        text ∧
      Patch.Sequential (s.documents.buffer file).text patches text ∧
      patches.length = (s.applyScript.headD []).length := by
  unfold State.beforeOffer
  split
  · rename_i hs
    rw [hs] at he
    cases he
    exact ⟨[], ⟨rfl, rfl, by simp [State.outbox, Outbox.enqueue], by simp [Documents.stamp],
      by rw [hs]; rfl, rfl⟩, .nil _, by rw [hs]; rfl⟩
  · rename_i actions more hs
    rw [hs] at he ⊢
    obtain ⟨patches, hedited, hseq, hlength⟩ :=
      performAll_edits (s := { s with applyScript := more }) ht hb he
    exact ⟨patches, ⟨hedited.tracked, hedited.length, hedited.outbox, hedited.buffer,
      hedited.applyScript, hedited.refusals⟩, hseq, hlength⟩

/-- An offer is refused if the document refuses whatever it gets or has another stamp than the
expected one. -/
theorem offer_refused (patch : Patch) (expected : Int) (ht : s.tracked.get? file = some box)
    (hb : box < s.outboxes.length)
    (he : Edits file (s.documents.buffer file).text (s.applyScript.headD []) text)
    (hrefuse : 0 < s.refusals ∨
      expected ≠ s.documents.stamp file + (s.applyScript.headD []).length) :
    ∃ t patches, s.offer file patch expected = (t, .refused (t.documents.stamp file)) ∧
      Edited file box
        { s with applyScript := s.applyScript.tail, refusals := s.refusals - 1 } t patches text ∧
      Patch.Sequential (s.documents.buffer file).text patches text := by
  obtain ⟨patches, hedited, hseq, hlength⟩ := beforeOffer_edits ht hb he
  have hrefusals : s.beforeOffer.refusals = s.refusals := hedited.refusals
  simp only [State.offer]
  split
  · rename_i hn
    have hstamp : s.beforeOffer.documents.stamp file ≠ expected := by
      rw [Documents.stamp, hedited.buffer, hlength]
      exact (hrefuse.resolve_left (by omega)).symm
    simp only [Documents.apply, if_neg hstamp]
    refine ⟨_, patches, rfl, ⟨hedited.tracked, hedited.length, hedited.outbox, ?_,
      hedited.applyScript, ?_⟩, hseq⟩
    · rw [Documents.buffer_set_same]
      exact hedited.buffer
    · change s.beforeOffer.refusals = s.refusals - 1
      omega
  · rename_i refusals hn
    refine ⟨_, patches, rfl, ⟨hedited.tracked, hedited.length, hedited.outbox, hedited.buffer,
      hedited.applyScript, ?_⟩, hseq⟩
    change refusals = s.refusals - 1
    omega

/-- An offer is accepted if the patch fits, nothing happens meanwhile and the stamp is the expected
one. -/
theorem offer_accepted {patch : Patch} (ht : s.tracked.get? file = some box)
    (hb : box < s.outboxes.length) (hs : s.applyScript.headD [] = []) (hn : s.refusals = 0)
    (hp : patch.apply (s.documents.buffer file).text = .ok text) :
    ∃ t stamp, s.offer file patch (s.documents.stamp file) = (t, .accepted stamp) ∧
      t.tracked = s.tracked ∧ t.outboxes.length = s.outboxes.length ∧
      t.outbox box = s.outbox box ∧ (t.documents.buffer file).text = text := by
  have hnone : Edits file (s.documents.buffer file).text (s.applyScript.headD [])
      (s.documents.buffer file).text := by
    rw [hs]
    exact .nil _
  obtain ⟨patches, hedited, -, hlength⟩ := beforeOffer_edits ht hb hnone
  rw [hs] at hlength
  obtain rfl := List.eq_nil_of_length_eq_zero hlength
  have hbuffer : s.beforeOffer.documents.buffer file = s.documents.buffer file := by
    rw [hedited.buffer]
    simp [Documents.stamp]
  have hrefusals : s.beforeOffer.refusals = 0 := hedited.refusals.trans hn
  have houtbox : s.beforeOffer.outbox box = s.outbox box := by
    rw [hedited.outbox]
    simp [State.outbox, Outbox.enqueue]
  simp only [State.offer]
  split
  · simp only [Documents.apply, Documents.stamp, Documents.edit, hbuffer, if_true, hp]
    refine ⟨_, _, rfl, hedited.tracked, hedited.length, houtbox, ?_⟩
    rw [Documents.buffer_set_same]
    rfl
  · rename_i hrefuse
    rw [hrefusals] at hrefuse
    cases hrefuse

theorem synced_setOutbox {o : Outbox} (ht : s.tracked.get? file = some box)
    (hb : box < s.outboxes.length) (hfree : '\r' ∉ base)
    (ho : Patch.Sequential base o.pending (s.documents.buffer file).text) :
    Synced (s.setOutbox box o) file box base where
  tracked := ht
  known := by rw [State.length_setOutbox]; exact hb
  free := hfree
  pending := by rw [State.outbox_setOutbox hb]; exact ho

theorem Synced.drained (h : Synced s file box base) :
    Synced (s.setOutbox box (s.outbox box).drain) file box base := by
  refine synced_setOutbox h.tracked h.known h.free ?_
  rw [Outbox.pending, Outbox.incoming_drain, List.append_nil]
  exact Outbox.sequential_drain h.pending

theorem attempt_eq {plan : Plan} {verdict : Verdict}
    (hplan : change.plan (s.outbox box).drain.queue = .ok plan)
    (hoffer : (s.setOutbox box (s.outbox box).drain).offer file plan.incoming
      (s.outbox box).stamp = (t, verdict)) :
    s.attempt file box change =
      (t.setOutbox box (change.settle plan verdict (t.outbox box)).1,
        (change.settle plan verdict (t.outbox box)).2) := by
  have hstamp : (s.outbox box).drain.stamp = (s.outbox box).stamp := rfl
  simp only [State.attempt, hplan, hstamp, hoffer]

/-- The next attempt is refused: because refusals were ordered, or because the document does not
have the expected stamp once the next part of the script has happened. -/
def Refuses (s : State) (file : FileId) (box : Nat) : Prop :=
  0 < s.refusals ∨
    (s.outbox box).stamp ≠ s.documents.stamp file + (s.applyScript.headD []).length

/-- An attempt that is refused keeps what waits behind the same server text and expects the stamp
that the document has now. -/
theorem attempt_refused (h : Synced s file box base) (hr : change.patch.Leads base next)
    (he : Edits file (s.documents.buffer file).text (s.applyScript.headD []) text)
    (hrefuse : Refuses s file box) :
    ∃ t, s.attempt file box change = (t, .again) ∧ Synced t file box base ∧
      (t.documents.buffer file).text = text ∧
      (t.outbox box).stamp = t.documents.stamp file ∧ t.refusals = s.refusals - 1 ∧
      t.applyScript = s.applyScript.tail := by
  obtain ⟨plan, -, hplan, -, -, -⟩ :=
    RemoteChange.plan_meets hr (Outbox.sequential_drain h.pending)
  obtain ⟨ht, hb, hfree, -⟩ := h.drained
  obtain ⟨t, patches, hoffer, hedited, hseq⟩ :=
    offer_refused plan.incoming (s.outbox box).stamp ht hb he hrefuse
  have hsynced : Synced t file box base := by
    refine Synced.edited ?_ hedited hseq
    exact h.drained.transfer rfl rfl rfl
  refine ⟨_, attempt_eq hplan hoffer, ?_, congrArg Buffer.text hedited.buffer, ?_,
    hedited.refusals, hedited.applyScript⟩
  · exact synced_setOutbox hsynced.tracked hsynced.known hfree hsynced.pending
  · rw [State.outbox_setOutbox hsynced.known]
    rfl

/-- The waiting patches of a file lead from a server text to the live text, under the version of
that text. -/
structure TakenIn (s : State) (file : FileId) (box : Nat) (base : Text) (version : Int) : Prop
    extends Synced s file box base where
  version_eq : (s.outbox box).version = version
  baseVersion : ∀ p ∈ (s.outbox box).queue, p.baseVersion = version

theorem TakenIn.transfer {version : Int} (h : TakenIn s file box base version)
    (ht : t.tracked = s.tracked) (ho : t.outboxes = s.outboxes) (hd : t.documents = s.documents) :
    TakenIn t file box base version := by
  have hbox : t.outbox box = s.outbox box := congrFun (State.outbox_congr ho) box
  exact ⟨h.toSynced.transfer ht ho hd, hbox ▸ h.version_eq, hbox ▸ h.baseVersion⟩

theorem takenIn_advance {o : Outbox} (ht : s.tracked.get? file = some box)
    (hb : box < s.outboxes.length) (hfree : '\r' ∉ base)
    (ho : Patch.Sequential base o.pending (s.documents.buffer file).text) (version : Int) :
    TakenIn (s.setOutbox box (o.advance version)) file box base version where
  toSynced := synced_setOutbox ht hb hfree (Outbox.sequential_advance ho version)
  version_eq := by
    rw [State.outbox_setOutbox hb]
    rfl
  baseVersion := by
    rw [State.outbox_setOutbox hb]
    intro p hp
    obtain ⟨q, -, rfl⟩ := List.mem_map.mp hp
    rfl

/-- An attempt that is accepted takes the change in and merges it with what waits. -/
theorem attempt_accepted (h : Synced s file box base) (hr : change.patch.Leads base next)
    (hs : s.applyScript.headD [] = []) (hn : s.refusals = 0)
    (hstamp : (s.outbox box).stamp = s.documents.stamp file) :
    ∃ t waiting, s.attempt file box change = (t, .finished (.ok ())) ∧
      TakenIn t file box next change.version ∧
      Patch.Leads waiting base (s.documents.buffer file).text ∧
      (t.documents.buffer file).text = Patch.merged true waiting change.patch base := by
  obtain ⟨plan, waiting, hplan, hwaiting, hincoming, hrebased⟩ :=
    RemoteChange.plan_meets hr (Outbox.sequential_drain h.pending)
  obtain ⟨ht, hb, -, -⟩ := h.drained
  obtain ⟨t, stamp, hoffer, htracked, hlength, houtbox, htext⟩ :=
    offer_accepted ht hb hs hn hincoming.apply_eq
  rw [State.outbox_setOutbox h.known] at houtbox
  have hpending : (((t.outbox box).replaceQueue plan.rebased).expectStamp stamp).pending =
      plan.rebased := by
    rw [houtbox]
    exact List.append_nil _
  refine ⟨_, waiting, attempt_eq hplan (hstamp ▸ hoffer), ?_, hwaiting, ?_⟩
  · refine takenIn_advance (htracked ▸ ht) (hlength ▸ hb) hr.free_after ?_ change.version
    rw [hpending, htext]
    exact hrebased
  · exact htext

/-- Attempts to take a change in, until one of them ends the reconciliation. -/
inductive Attempts (file : FileId) (box : Nat) (change : RemoteChange) :
    State → State → Except SyncError Unit → Prop
  | finished {s t : State} {result : Except SyncError Unit} :
      s.attempt file box change = (t, .finished result) → Attempts file box change s t result
  | again {s t u : State} {result : Except SyncError Unit} :
      s.attempt file box change = (t, .again) → Attempts file box change t u result →
      Attempts file box change s u result

theorem Edits.of_flatten {script : List (List Action)} (h : Edits file live script.flatten text) :
    ∃ t, Edits file live (script.headD []) t ∧ Edits file t script.tail.flatten text := by
  cases script with
  | nil => exact ⟨live, .nil live, h⟩
  | cons actions more => exact Edits.of_append h

/-- The document went from one state to the other by edits, and then by the merge of everything
local with a remote patch, local text first. -/
def MergesBehindEdits (file : FileId) (base : Text) (remote : Patch) (s t : State) : Prop :=
  ∃ edits text waiting, edits <+: s.applyScript.flatten ∧
    Edits file (s.documents.buffer file).text edits text ∧ Patch.Leads waiting base text ∧
    (t.documents.buffer file).text = Patch.merged true waiting remote base

/-- Edits in a refused attempt come first. -/
theorem MergesBehindEdits.edited {remote : Patch} (hm : MergesBehindEdits file base remote t u)
    (he : Edits file (s.documents.buffer file).text (s.applyScript.headD [])
      (t.documents.buffer file).text)
    (hs : t.applyScript = s.applyScript.tail) : MergesBehindEdits file base remote s u := by
  obtain ⟨edits, text, waiting, ⟨more, hmore⟩, hedits, hwaiting, hmerged⟩ := hm
  refine ⟨s.applyScript.headD [] ++ edits, text, waiting, ⟨more, ?_⟩, he.append hedits, hwaiting,
    hmerged⟩
  rw [List.append_assoc, hmore, hs]
  cases s.applyScript <;> rfl

theorem refuses_of_not_quiet (hstamp : (s.outbox box).stamp = s.documents.stamp file)
    (h : ¬(s.refusals = 0 ∧ s.applyScript.headD [] = [])) :
    Refuses s file box ∧ 0 < s.refusals + s.applyScript.length := by
  rcases Nat.eq_zero_or_pos s.refusals with hz | hpos
  · have hs : s.applyScript.headD [] ≠ [] := fun hs => h ⟨hz, hs⟩
    have hscript : s.applyScript ≠ [] := fun hnil => hs (by rw [hnil]; rfl)
    have := List.length_pos_iff.mpr hs
    have := List.length_pos_iff.mpr hscript
    exact ⟨.inr (by omega), by omega⟩
  · exact ⟨.inl hpos, by omega⟩

/-- Attempts that expect the document's stamp come to an end: each refusal uses up a part of the
script or one of the refusals that were ordered, and leaves the expected stamp up to date. -/
theorem attempts_finish_of_stamp (h : Synced s file box base) (hr : change.patch.Leads base next)
    (he : Edits file (s.documents.buffer file).text s.applyScript.flatten text)
    (hstamp : (s.outbox box).stamp = s.documents.stamp file) :
    ∃ t, Attempts file box change s t (.ok ()) ∧ TakenIn t file box next change.version ∧
      MergesBehindEdits file base change.patch s t := by
  induction hn : s.refusals + s.applyScript.length using Nat.strongRecOn generalizing s with
  | ind n ih =>
    obtain ⟨live, hfirst, hlater⟩ := he.of_flatten
    by_cases hquiet : s.refusals = 0 ∧ s.applyScript.headD [] = []
    · obtain ⟨t, waiting, ht, hnext, hwaiting, hmerged⟩ :=
        attempt_accepted h hr hquiet.2 hquiet.1 hstamp
      exact ⟨t, .finished ht, hnext, [], _, waiting, List.nil_prefix, .nil _, hwaiting, hmerged⟩
    · obtain ⟨hrefuse, hpos⟩ := refuses_of_not_quiet hstamp hquiet
      obtain ⟨t, ht, hsynced, htext, htstamp, hrefusals, hscript⟩ :=
        attempt_refused h hr hfirst hrefuse
      have hless : t.refusals + t.applyScript.length < n := by
        rw [hrefusals, hscript, List.length_tail]
        omega
      subst htext
      obtain ⟨u, hu, hnext, hmerged⟩ := ih _ hless hsynced (hscript ▸ hlater) htstamp rfl
      exact ⟨u, .again ht hu, hnext, hmerged.edited hfirst hscript⟩

/-- While a change is offered to a document nothing happens but edits of it which fit, and the first
attempt is refused if any happen in it. The later attempts need no mention: they expect the stamp
that the document had before the edits. -/
structure EditsWhileRefused (s : State) (file : FileId) (box : Nat) : Prop where
  fit : ∃ text, Edits file (s.documents.buffer file).text s.applyScript.flatten text
  refused : s.applyScript.headD [] ≠ [] → Refuses s file box

/-- Whatever stamp is expected at first, the change is taken in. -/
theorem attempts_finish (h : Synced s file box base) (hr : change.patch.Leads base next)
    (he : EditsWhileRefused s file box) :
    ∃ t, Attempts file box change s t (.ok ()) ∧ TakenIn t file box next change.version ∧
      MergesBehindEdits file base change.patch s t := by
  obtain ⟨⟨text, hedits⟩, hedited⟩ := he
  by_cases hrefuse : Refuses s file box
  · obtain ⟨live, hfirst, hlater⟩ := hedits.of_flatten
    obtain ⟨t, ht, hsynced, htext, htstamp, -, hscript⟩ := attempt_refused h hr hfirst hrefuse
    subst htext
    obtain ⟨u, hu, hnext, hmerged⟩ :=
      attempts_finish_of_stamp hsynced hr (hscript ▸ hlater) htstamp
    exact ⟨u, .again ht hu, hnext, hmerged.edited hfirst hscript⟩
  · obtain ⟨hn, hstamp⟩ := not_or.mp hrefuse
    have hs : s.applyScript.headD [] = [] := not_not.mp fun hs => hrefuse (hedited hs)
    rw [not_not, hs, List.length_nil, Int.natCast_zero, Int.add_zero] at hstamp
    obtain ⟨t, waiting, ht, hnext, hwaiting, hmerged⟩ :=
      attempt_accepted h hr hs (Nat.eq_zero_of_not_pos hn) hstamp
    exact ⟨t, .finished ht, hnext, [], _, waiting, List.nil_prefix, .nil _, hwaiting, hmerged⟩

end Session

end Coedit
