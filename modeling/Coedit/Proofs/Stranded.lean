import Coedit.Proofs.Runs

/-!
No patch is left behind. Whatever waits for an open file has a sender that answers for it: one that
is still to come, one that is busy with the outbox, or the one that had the send slot last and has
failed (`covered_after`). A sender that finds the slot taken may leave, because the one that has it
looks at the queue again once it has given the slot back.
-/
namespace Coedit.Session

variable {own : Option Nat} {s t : State} {log : Log} {task : TaskId} {index box : Nat}
  {sender : Sender} {file : FileId} {ledgers : Nat → Ledger} {holder holder' : Nat → Option Nat}

/-- Why a sender answers for what waits in the outbox of a file. -/
inductive Sender.Answers (holder : Nat → Option Nat) (file : FileId) (box index : Nat) :
    Sender → Prop
  | coming : Answers holder file box index ⟨file, .starting⟩
  | busy {home : FileId} {phase : SenderPhase} : phase.box? = some box →
      Answers holder file box index ⟨home, phase⟩
  | failed {error : SyncError} : holder box = some index →
      Answers holder file box index ⟨file, .finished (.error error)⟩

/-- Whatever waits for an open file has a sender that answers for it. -/
def Covered (s : State) (holder : Nat → Option Nat) : Prop :=
  ∀ ⦃file : FileId⦄ ⦃box : Nat⦄, s.tracked.get? file = some box →
    (s.outbox box).hasPending = true →
    ∃ (index : Nat) (sender : Sender),
      s.senders[index]? = some sender ∧ sender.Answers holder file box index

theorem Sender.Answers.congr (h : sender.Answers holder file box index)
    (hholder : holder' box = holder box) : sender.Answers holder' file box index := by
  cases h with
  | coming => exact .coming
  | busy hbox => exact .busy hbox
  | failed hfailed => exact .failed (hholder.trans hfailed)

theorem State.hasPending_setOutbox {o : Outbox} (h : box < s.outboxes.length)
    (ho : o.hasPending = (s.outbox box).hasPending) (other : Nat) :
    ((s.setOutbox box o).outbox other).hasPending = (s.outbox other).hasPending := by
  rw [State.outbox_setOutbox_eq_update h]
  by_cases hother : other = box
  · subst hother
    rw [Function.update_self, ho]
  · rw [Function.update_of_ne hother]

namespace Covered

/-- Nothing new waits and no sender moves. -/
theorem kept (h : Covered s holder)
    (hpending : ∀ {file box}, t.tracked.get? file = some box →
      (t.outbox box).hasPending = true →
      s.tracked.get? file = some box ∧ (s.outbox box).hasPending = true)
    (hsenders : s.senders <+: t.senders) : Covered t holder := by
  intro file box htracked hwaits
  obtain ⟨hbefore, hwaited⟩ := hpending htracked hwaits
  obtain ⟨index, sender, hs, hanswers⟩ := h hbefore hwaited
  obtain ⟨hlt, rfl⟩ := List.getElem?_eq_some_iff.mp hs
  exact ⟨index, _, List.prefix_iff_getElem?.mp hsenders index hlt, hanswers⟩

/-- Who hands patches over sends a sender after them. -/
theorem hand (h : Covered s holder) (hs : Tracks s) (hbox : s.tracked.get? file = some box)
    (patches : List Patch) :
    Covered ((s.setOutbox box ((s.outbox box).enqueue patches)).spawnSender file) holder := by
  obtain ⟨ready, hspawn⟩ :=
    (s.setOutbox box ((s.outbox box).enqueue patches)).spawnSender_eq file
  rw [hspawn]
  intro other held htracked hwaits
  have hupdate := State.outbox_setOutbox_eq_update (hs.known hbox) ((s.outbox box).enqueue patches)
  by_cases hheld : held = box
  · subst hheld
    -- the outbox belongs to no other file, so that the new sender is the right one
    obtain rfl := hs.distinct hbox htracked
    exact ⟨s.senders.length, ⟨file, .starting⟩, by simp [State.setOutbox], .coming⟩
  · have hwaited : (s.outbox held).hasPending = true := by
      have hsame := congrFun hupdate held
      rw [Function.update_of_ne hheld] at hsame
      exact hsame ▸ hwaits
    obtain ⟨index, sender, hsender, hanswers⟩ := h htracked hwaited
    obtain ⟨hlt, -⟩ := List.getElem?_eq_some_iff.mp hsender
    exact ⟨index, sender, (List.getElem?_append_left hlt).trans hsender, hanswers⟩

theorem meanwhile (h : Covered s holder) (hs : Tracks s) (hm : Meanwhile own s log t) :
    Covered t holder := by
  induction hm with
  | alike ha =>
    refine h.kept (fun htracked hwaits => ⟨ha.tracked ▸ htracked, ?_⟩)
      (ha.senders ▸ List.prefix_rfl)
    rwa [State.outbox, ha.outboxes] at hwaits
  | track s file version =>
    rcases s.track_cases file version with ⟨_, -, htrack, -⟩ | ⟨-, stamp, htrack, -⟩
    · rw [htrack]
      exact h
    · rw [htrack]
      refine h.kept (fun {other box} htracked hwaits => ?_) List.prefix_rfl
      rw [State.outbox_append_eq_update] at hwaits
      rw [Table.get?_set] at htracked
      split at htracked
      · cases htracked
        rw [Function.update_self] at hwaits
        cases hwaits
      · rw [Function.update_of_ne (Nat.ne_of_lt (hs.known htracked))] at hwaits
        exact ⟨htracked, hwaits⟩
  | close s file =>
    refine h.kept (fun {other box} htracked hwaits => ⟨?_, hwaits⟩) List.prefix_rfl
    rw [Table.get?_erase] at htracked
    split at htracked
    · cases htracked
    · exact htracked
  | spawn s file =>
    obtain ⟨ready, hspawn⟩ := s.spawnSender_eq file
    rw [hspawn]
    exact h.kept (fun htracked hwaits => ⟨htracked, hwaits⟩) (List.prefix_append _ _)
  | hand patches hbox => exact h.hand hs hbox patches
  | wake =>
    rw [State.wake_eq]
    exact h.kept (fun htracked hwaits => ⟨htracked, hwaits⟩) List.prefix_rfl
  | @move s box m _ hbox hfits =>
    refine h.kept (fun {file other} htracked hwaits => ⟨htracked, ?_⟩) List.prefix_rfl
    rw [State.outbox_setOutbox_eq_update hbox] at hwaits
    by_cases hother : other = box
    · subst hother
      rw [Function.update_self] at hwaits
      exact Outbox.hasPending_of_move hfits hwaits
    · rwa [Function.update_of_ne hother] at hwaits
  | trans hfirst _ ih ih' => exact ih' (ih h hs) (hfirst.tracks hs).1

/-- A sender moves. What it answered for is still answered for, and who takes a slot is busy with
that outbox. -/
theorem moved {next : SenderPhase} (h : Covered s holder)
    (hs : s.senders[index]? = some sender) (hsenders : t.senders = (s.setSender index next).senders)
    (htracked : t.tracked = s.tracked)
    (hpending : ∀ box, (t.outbox box).hasPending = true → (s.outbox box).hasPending = true)
    (hholder : ∀ box, holder' box = holder box ∨ next.box? = some box)
    (hmoved : ∀ {file box}, s.tracked.get? file = some box → (t.outbox box).hasPending = true →
      sender.Answers holder file box index →
      Sender.Answers holder' file box index ⟨sender.file, next⟩ ∨
        ∃ other, other ≠ index ∧ (s.phase other).box? = some box) : Covered t holder' := by
  intro file box hbox hwaits
  rw [htracked] at hbox
  have hnow : t.senders[index]? = some ⟨sender.file, next⟩ :=
    hsenders ▸ State.senders_setSender hs next
  have hother {other : Nat} (hne : other ≠ index) : t.senders[other]? = s.senders[other]? :=
    hsenders ▸ State.senders_setSender_of_ne hne next
  obtain ⟨before, answering, hanswering, hanswers⟩ := h hbox (hpending box hwaits)
  by_cases hindex : before = index
  · subst hindex
    obtain rfl := Option.some.inj (hs.symm.trans hanswering)
    rcases hmoved hbox hwaits hanswers with hstill | ⟨other, hne, hbusy⟩
    · exact ⟨before, _, hnow, hstill⟩
    · obtain ⟨⟨home, phase⟩, hsender, hphase⟩ := State.exists_sender hbusy
      exact ⟨other, _, (hother hne).trans hsender, .busy ((congrArg _ hphase).trans hbusy)⟩
  · rcases hholder box with hsame | hbusy
    · exact ⟨before, answering, (hother hindex).trans hanswering, hanswers.congr hsame⟩
    · exact ⟨index, _, hnow, .busy hbusy⟩

/-- A sender that stays busy with its outbox answers for the same as before. -/
theorem worked {home : FileId} {phase next : SenderPhase} (h : Covered s holder)
    (hs : s.senders[index]? = some ⟨home, phase⟩)
    (hsenders : t.senders = (s.setSender index next).senders) (htracked : t.tracked = s.tracked)
    (houtboxes : t.outboxes = s.outboxes) (hphase : phase.box? = some box)
    (hnext : next.box? = some box) : Covered t holder := by
  refine h.moved hs hsenders htracked (fun box hwaits => ?_) (fun _ => .inl rfl) ?_
  · rwa [State.outbox, houtboxes] at hwaits
  · intro file held _ _ hanswers
    cases hanswers with
    | coming | failed => cases hphase
    | busy hheld => exact .inl (.busy (hnext.trans (hphase.symm.trans hheld)))

/-- A sender gives the slot back and starts over if anything waits, unless its round has failed. -/
theorem ended {result : Except SyncError Unit} {next : SenderPhase}
    (h : Covered s fun box => (ledgers box).holder)
    (ho : Orderly s ledgers) (hs : s.senders[index]? = some ⟨file, .closing box result⟩)
    (hsenders : t.senders = (s.setSender index next).senders) (htracked : t.tracked = s.tracked)
    (houtboxes : t.outboxes = (s.setOutbox box (s.outbox box).release).outboxes)
    (hfailed : ∀ error, result = .error error → next = .finished (.error error))
    (hagain : result = .ok () → (s.outbox box).hasPending = true → next = .claiming box) :
    Covered t fun held => (record ledgers [(box, .release)] held).holder := by
  obtain ⟨hbox, hfile⟩ := ho.housed.sender hs rfl
  have hpending (other : Nat) : (t.outbox other).hasPending = (s.outbox other).hasPending := by
    rw [← State.hasPending_setOutbox (o := (s.outbox box).release) hbox rfl, State.outbox, houtboxes]
    rfl
  have hholder (other : Nat) :
      (record ledgers [(box, .release)] other).holder = (ledgers other).holder := by
    by_cases hother : other = box
    · subst hother
      rw [record_self]
      rfl
    · rw [record_of_ne hother]
  refine h.moved hs hsenders htracked (fun other hwaits => hpending other ▸ hwaits)
    (fun other => .inl (hholder other)) ?_
  intro other held htracked hwaits hanswers
  cases hanswers with
  | busy hheld =>
    obtain rfl := Option.some.inj hheld
    obtain rfl := hfile htracked
    cases result with
    | error error =>
      have hslot : (s.phase index).slot? = some box := by
        rw [State.phase_of_getElem? hs]
        rfl
      rw [hfailed error rfl]
      exact .inl (.failed ((hholder box).trans (ho.slots.held hslot).2))
    | ok =>
      rw [hagain rfl (hpending box ▸ hwaits)]
      exact .inl (.busy rfl)

end Covered

/-- Whatever a turn does, what waits has someone who answers for it. -/
theorem Turn.covered (h : Turn s task log t) (ho : Orderly s ledgers)
    (hc : Covered s fun box => (ledgers box).holder) :
    Covered t fun box => (record ledgers log box).holder := by
  have hduring {own : Option Nat} {log : Log} {u : State} (hm : Meanwhile own s log u) :
      Covered u fun box => (record ledgers log box).holder := by
    simp only [hm.holder]
    exact hc.meanwhile ho.housed.tracks hm
  cases h with
  | rest => exact hc
  | @found index file box hs hbox =>
    refine hc.moved hs rfl rfl (fun _ => id) (fun _ => .inl rfl) ?_
    intro other held htracked _ hanswers
    cases hanswers with
    | coming =>
      obtain rfl := Option.some.inj (hbox.symm.trans htracked)
      exact .inl (.busy rfl)
    | busy hheld => cases hheld
  | @unknown index file hs hnone =>
    refine hc.moved hs rfl rfl (fun _ => id) (fun _ => .inl rfl) ?_
    intro other held htracked _ hanswers
    cases hanswers with
    | coming => cases hnone.symm.trans htracked
    | busy hheld => cases hheld
  | @busy index file box hs hsending =>
    refine hc.moved hs rfl rfl (fun _ => id) (fun _ => .inl rfl) ?_
    intro other held _ _ hanswers
    cases hanswers with
    | busy hheld =>
      obtain rfl := Option.some.inj hheld
      -- who has the slot looks at the queue again before it leaves
      obtain ⟨rival, -, hslot⟩ := ho.slots.taken hsending
      refine .inr ⟨rival, ?_, SenderPhase.box?_of_slot? hslot⟩
      rintro rfl
      rw [State.phase_of_getElem? hs] at hslot
      cases hslot
  | @claimed index file box lock held hs hfree hacquire =>
    have hnext : (if held then SenderPhase.opening box else .queued box).box? = some box := by
      cases held <;> rfl
    have hpending := State.hasPending_setOutbox (o := (s.outbox box).move (.claim index))
      (ho.housed.sender hs rfl).1 rfl
    refine hc.moved hs rfl rfl (fun other hwaits => hpending other ▸ hwaits) (fun other => ?_) ?_
    · by_cases hother : other = box
      · exact .inr (hother ▸ hnext)
      · exact .inl (by rw [record_of_ne hother])
    · intro other held _ _ hanswers
      cases hanswers with
      | busy hheld => exact .inl (.busy (hnext.trans hheld))
  | served hs => exact hc.worked hs rfl rfl rfl rfl rfl
  | asked hs _ _ hmoves => exact (hduring hmoves).worked (by exact hs) rfl rfl rfl rfl rfl
  | answered hs _ hnext _ hmoves =>
    exact (hduring hmoves).worked (by exact hs) rfl rfl rfl rfl hnext
  | worked hs _ hphase _ _ hnext _ hmeanwhile =>
    exact (hduring hmeanwhile).worked (hmeanwhile.still.sender hs) rfl rfl rfl hphase hnext
  | ended hs =>
    refine hc.ended ho hs rfl rfl rfl ?_ ?_
    · rintro error rfl
      rfl
    · rintro rfl hagain
      exact if_pos hagain
  | listened | received | admitted | left =>
    exact hc.kept (fun htracked hwaits => ⟨htracked, hwaits⟩) List.prefix_rfl
  | reconciled _ _ _ hmeanwhile | delivered hmeanwhile =>
    exact (hduring hmeanwhile).kept (fun htracked hwaits => ⟨htracked, hwaits⟩) List.prefix_rfl

/-- Whatever happens, what waits for an open file has a sender that answers for it. -/
theorem covered_after (settings : Settings) (files : List FileSetup) (events : List Event) :
    Covered ((Traced.start settings files).after events).state
      fun box => (((Traced.start settings files).after events).ledgers box).holder := by
  refine (orderly_start settings files).keeps_after
    (P := fun s ledgers => Covered s fun box => (ledgers box).holder) ?_
    (fun ho hc hm => ?_) (fun ho hc hturn => hturn.covered ho hc)
    (fun _ _ _ hc => hc.kept (fun htracked hwaits => ⟨htracked, hwaits⟩) List.prefix_rfl) events
  · obtain ⟨log, hstart, -⟩ := start_meanwhile settings files
    have hnone : Covered { settings } fun _ => none := fun _ _ htracked => by cases htracked
    exact hnone.meanwhile (.bare settings) hstart
  · simp only [hm.holder]
    exact hc.meanwhile ho.housed.tracks hm

/-- When every sender of an open file has finished and a patch still waits, the last sender that had
the send slot has failed. If all of them have succeeded, no patch waits. -/
theorem no_patch_stranded (settings : Settings) (files : List FileSetup) (events : List Event)
    (file : FileId) (box : Nat)
    (htracked : ((Traced.start settings files).after events).state.tracked.get? file = some box)
    (hfinished : ∀ sender ∈ ((Traced.start settings files).after events).state.senders,
      sender.file = file → ∃ result, sender.phase = .finished result) :
    let r := (Traced.start settings files).after events
    ((r.state.outbox box).hasPending = true → ∃ index error,
      (r.ledgers box).holder = some index ∧
        r.state.senders[index]? = some ⟨file, .finished (.error error)⟩) ∧
    ((∀ sender ∈ r.state.senders, sender.file = file → sender.phase = .finished (.ok ())) →
      (r.state.outbox box).incoming = [] ∧ (r.state.outbox box).queue = []) := by
  intro r
  have hlast (hwaits : (r.state.outbox box).hasPending = true) : ∃ index error,
      (r.ledgers box).holder = some index ∧
        r.state.senders[index]? = some ⟨file, .finished (.error error)⟩ := by
    obtain ⟨index, sender, hs, hanswers⟩ := covered_after settings files events htracked hwaits
    have hmem := List.mem_of_getElem? hs
    cases hanswers with
    | coming =>
      obtain ⟨result, hphase⟩ := hfinished _ hmem rfl
      cases hphase
    | busy hbox =>
      have hhome := ((orderly_after settings files events).housed.sender hs hbox).2 htracked
      obtain ⟨result, rfl⟩ := hfinished _ hmem hhome.symm
      cases hbox
    | failed hholder => exact ⟨index, _, hholder, hs⟩
  refine ⟨hlast, fun hall => (Outbox.hasPending_eq_false_iff _).mp ?_⟩
  rw [Bool.eq_false_iff]
  intro hwaits
  obtain ⟨index, error, -, hs⟩ := hlast hwaits
  cases hall _ (List.mem_of_getElem? hs) rfl

/-- A patch is sent and the sender of another one leaves it the slot. The request does not get
through. -/
def oneLost : List Event :=
  [.act (.respond [.mk [] 0 (.fail (.delivery []))]),
    .act (.send ⟨['f']⟩ (.ok [.forDocument 0 [.insertion 0 ['x']] 0])),
    .run (.sender 0), .run (.sender 0), .run (.sender 0),
    .act (.send ⟨['f']⟩ (.ok [.forDocument 0 [.insertion 1 ['y']] 1])),
    .run (.sender 1), .run (.sender 1), .run (.delivery 0), .run (.delivery 0), .run (.sender 0),
    .run (.sender 0)]

def Traced.lost : Traced := (Traced.start {} [⟨⟨['f']⟩, [], some 0, []⟩]).after oneLost

theorem no_patch_stranded_lost :
    (Traced.lost.state.outbox 0).hasPending = true ∧ (Traced.lost.ledgers 0).holder = some 0 ∧
      Traced.lost.state.senders = [⟨⟨['f']⟩, .finished (.error (.sendFailure (.delivery [])))⟩,
        ⟨⟨['f']⟩, .finished (.ok ())⟩] := by
  have hsenders : Traced.lost.state.senders =
      [⟨⟨['f']⟩, .finished (.error (.sendFailure (.delivery [])))⟩,
        ⟨⟨['f']⟩, .finished (.ok ())⟩] := by
    with_unfolding_all rfl
  have htracked : Traced.lost.state.tracked.get? ⟨['f']⟩ = some 0 := by decide +kernel
  have hwaits : (Traced.lost.state.outbox 0).hasPending = true := by decide +kernel
  have hfinished : ∀ sender ∈ Traced.lost.state.senders, sender.file = ⟨['f']⟩ →
      ∃ result, sender.phase = .finished result := by
    rw [hsenders]
    simp
  obtain ⟨index, error, hholder, hfailed⟩ :=
    (no_patch_stranded {} [⟨⟨['f']⟩, [], some 0, []⟩] oneLost ⟨['f']⟩ 0 htracked hfinished).1 hwaits
  refine ⟨hwaits, hholder.trans ?_, hsenders⟩
  change Traced.lost.state.senders[index]? = _ at hfailed
  rw [hsenders] at hfailed
  rcases index with _ | _ | index
  · rfl
  · cases hfailed
  · cases hfailed

end Coedit.Session
