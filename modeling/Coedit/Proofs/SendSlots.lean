import Coedit.Proofs.Exclusion
import Coedit.Proofs.Ledger

/-!
Who has a send slot, and what a turn does to outboxes (`Effect`): it works on one outbox whose slot
its sender has, or on any if the notifier holds the lock; or it takes a free slot, or gives one back.
Therefore the slot of an outbox belongs to the sender that took it last (`Effect.slots`).
-/
namespace Coedit.Session

variable {s t : State} {log : Log} {task : TaskId} {index box : Nat}
  {sender : Sender} {ledgers : Nat → Ledger}

/-- The outbox whose send slot a sender has. -/
def SenderPhase.slot? : SenderPhase → Option Nat
  | .queued box | .opening box | .awaiting box .. | .reconciling box _ | .closing box _ => some box
  | .starting | .claiming _ | .finished _ => none

theorem SenderPhase.slot?_of_inside {phase : SenderPhase} (h : phase.stage = .inside) :
    phase.slot? = phase.box? := by
  cases phase <;> first | rfl | cases h

theorem SenderPhase.box?_of_slot? {phase : SenderPhase} (h : phase.slot? = some box) :
    phase.box? = some box := by
  cases phase <;> first | exact h | cases h

/-- What a turn does to outboxes: it works on one at most, which is that of a sender that has its
slot or any if the notifier holds the lock; or it takes a free slot, or gives its slot back. -/
inductive Effect (s : State) (task : TaskId) (log : Log) (t : State) : Prop
  | worked {own : Option Nat} {u : State} : Meanwhile own s log u → t.tracked = u.tracked →
      t.outboxes = u.outboxes → (∀ index, (t.phase index).slot? = (s.phase index).slot?) →
      (∀ {box}, own = some box → task = .notifier ∧ s.stage task = .inside ∨
        ∃ index, task = .sender index ∧ (s.phase index).slot? = some box) →
      Effect s task log t
  | claimed {index box : Nat} {phase : SenderPhase} : task = .sender index →
      log = [(box, .claim index)] → (s.phase index).slot? = none →
      (s.outbox box).sending = false → t.tracked = s.tracked →
      t.outbox = Function.update s.outbox box ((s.outbox box).move (.claim index)) →
      t.phase = Function.update s.phase index phase → phase.slot? = some box →
      Effect s task log t
  | freed {index box : Nat} {phase : SenderPhase} : task = .sender index →
      log = [(box, .release)] → (s.phase index).slot? = some box → t.tracked = s.tracked →
      t.outbox = Function.update s.outbox box ((s.outbox box).move .release) →
      t.phase = Function.update s.phase index phase → phase.slot? = none →
      Effect s task log t

theorem State.slot?_sender (h : s.senders[index]? = some sender) :
    (s.phase index).slot? = sender.phase.slot? :=
  congrArg SenderPhase.slot? (State.phase_of_getElem? h)

theorem State.slot?_setSender (hs : s.senders[index]? = some sender) {phase : SenderPhase}
    (h : phase.slot? = sender.phase.slot?) (other : Nat) :
    ((s.setSender index phase).phase other).slot? = (s.phase other).slot? := by
  rw [State.phase_setSender hs]
  by_cases hother : other = index
  · subst hother
    rw [Function.update_self, h, State.phase_of_getElem? hs]
  · rw [Function.update_of_ne hother]

theorem Turn.effect (h : Turn s task log t) (hh : Housed s) : Effect s task log t := by
  cases h with
  | rest => exact .worked (.refl none s) rfl rfl (fun _ => rfl) nofun
  | found hs | unknown hs | busy hs | served hs =>
    exact .worked (.refl none s) rfl rfl (State.slot?_setSender hs rfl) nofun
  | @claimed index file box lock held hs hfree =>
    refine .claimed rfl rfl ?_ hfree rfl
      (State.outbox_setOutbox_eq_update (hh.sender hs rfl).1 _)
      (State.phase_setSender (by exact hs) _) ?_
    · rw [State.phase_of_getElem? hs]
      rfl
    · cases held <;> rfl
  | @asked index file box sent count deadline woken hs _ _ hmoves =>
    refine .worked hmoves rfl rfl (State.slot?_setSender (by exact hs) rfl) ?_
    rintro other ⟨⟩
    refine .inr ⟨index, rfl, ?_⟩
    rw [State.phase_of_getElem? hs]
    rfl
  | @answered index file box delivery count deadline sent phase hs hin hphase _ hmoves =>
    refine .worked hmoves rfl rfl
      (State.slot?_setSender
        (show _ = some (Sender.mk file (.awaiting box delivery sent count deadline)) from hs)
        ((SenderPhase.slot?_of_inside hin).trans hphase)) ?_
    rintro other ⟨⟩
    refine .inr ⟨index, rfl, ?_⟩
    rw [State.phase_of_getElem? hs]
    rfl
  | @worked index file phase next box log u hs hin hphase _ hin' hnext _ hmeanwhile =>
    have hslot : phase.slot? = some box := (SenderPhase.slot?_of_inside hin).trans hphase
    refine .worked hmeanwhile rfl rfl (fun other => ?_) ?_
    · rw [State.slot?_setSender (hmeanwhile.still.sender hs)
        (((SenderPhase.slot?_of_inside hin').trans hnext).trans hslot.symm), hmeanwhile.still.phase]
    · rintro other ⟨⟩
      refine .inr ⟨index, rfl, ?_⟩
      rw [State.phase_of_getElem? hs, hslot]
  | @ended index file box result woken hs =>
    refine .freed rfl rfl ?_ rfl (State.outbox_setOutbox_eq_update (hh.sender hs rfl).1 _)
      (State.phase_setSender (by exact hs) _) ?_
    · rw [State.phase_of_getElem? hs]
      rfl
    · rcases result with error | _
      · rfl
      · cases (s.outbox box).hasPending <;> rfl
  | listened | received | admitted | left =>
    exact .worked (.refl none s) rfl rfl (fun _ => rfl) nofun
  | reconciled _ hin _ hmeanwhile =>
    refine .worked hmeanwhile rfl rfl (fun other => ?_) fun _ => .inl ⟨rfl, hin⟩
    rw [← hmeanwhile.still.phase]
    rfl
  | delivered hmeanwhile =>
    refine .worked hmeanwhile rfl rfl (fun other => ?_) nofun
    rw [← hmeanwhile.still.phase]
    rfl

/-- Who has the send slot of an outbox is the one that took it last, and it is taken only if someone
has it. -/
structure Slots (s : State) (ledgers : Nat → Ledger) : Prop where
  held : ∀ {index box : Nat}, (s.phase index).slot? = some box →
    (s.outbox box).sending = true ∧ (ledgers box).holder = some index
  taken : ∀ {box : Nat}, (s.outbox box).sending = true →
    ∃ index, (ledgers box).holder = some index ∧ (s.phase index).slot? = some box

/-- No two senders have the same slot. -/
theorem Slots.eq_of_slot? {other : Nat} (h : Slots s ledgers)
    (hindex : (s.phase index).slot? = some box) (hother : (s.phase other).slot? = some box) :
    index = other := by
  have hholder := (h.held hindex).2
  rw [(h.held hother).2] at hholder
  exact (Option.some.inj hholder).symm

/-- A sender takes a free slot. -/
theorem Slots.claimed {phase : SenderPhase} (h : Slots s ledgers)
    (hnone : (s.phase index).slot? = none) (hfree : (s.outbox box).sending = false)
    (houtbox : t.outbox = Function.update s.outbox box ((s.outbox box).move (.claim index)))
    (hphase : t.phase = Function.update s.phase index phase) (hslot : phase.slot? = some box) :
    Slots t (record ledgers [(box, .claim index)]) := by
  refine ⟨fun {other held} hheld => ?_, fun {held} htaken => ?_⟩
  · rw [hphase] at hheld
    by_cases hother : other = index
    · subst hother
      rw [Function.update_self, hslot] at hheld
      obtain rfl := Option.some.inj hheld
      rw [houtbox, Function.update_self, record_self]
      exact ⟨rfl, rfl⟩
    · rw [Function.update_of_ne hother] at hheld
      obtain ⟨hsending, hholder⟩ := h.held hheld
      have hne : held ≠ box := by
        rintro rfl
        rw [hfree] at hsending
        cases hsending
      rw [houtbox, Function.update_of_ne hne, record_of_ne hne]
      exact ⟨hsending, hholder⟩
  · by_cases hne : held = box
    · subst hne
      refine ⟨index, by rw [record_self]; rfl, ?_⟩
      rw [hphase, Function.update_self, hslot]
    · rw [houtbox, Function.update_of_ne hne] at htaken
      obtain ⟨other, hholder, hheld⟩ := h.taken htaken
      have hother : other ≠ index := by
        rintro rfl
        rw [hnone] at hheld
        cases hheld
      refine ⟨other, by rw [record_of_ne hne, hholder], ?_⟩
      rw [hphase, Function.update_of_ne hother, hheld]

/-- A sender gives its slot back. -/
theorem Slots.freed {phase : SenderPhase} (h : Slots s ledgers)
    (hsome : (s.phase index).slot? = some box)
    (houtbox : t.outbox = Function.update s.outbox box ((s.outbox box).move .release))
    (hphase : t.phase = Function.update s.phase index phase) (hslot : phase.slot? = none) :
    Slots t (record ledgers [(box, .release)]) := by
  refine ⟨fun {other held} hheld => ?_, fun {held} htaken => ?_⟩
  · rw [hphase] at hheld
    by_cases hother : other = index
    · subst hother
      rw [Function.update_self, hslot] at hheld
      cases hheld
    · rw [Function.update_of_ne hother] at hheld
      have hne : held ≠ box := by
        rintro rfl
        exact hother (h.eq_of_slot? hheld hsome)
      rw [houtbox, Function.update_of_ne hne, record_of_ne hne]
      exact h.held hheld
  · by_cases hne : held = box
    · subst hne
      rw [houtbox, Function.update_self] at htaken
      cases htaken
    · rw [houtbox, Function.update_of_ne hne] at htaken
      obtain ⟨other, hholder, hheld⟩ := h.taken htaken
      have hother : other ≠ index := by
        rintro rfl
        rw [hsome] at hheld
        exact hne (Option.some.inj hheld).symm
      refine ⟨other, by rw [record_of_ne hne, hholder], ?_⟩
      rw [hphase, Function.update_of_ne hother, hheld]

namespace Effect

theorem slots (h : Effect s task log t) (hs : Tracks s) (hslots : Slots s ledgers) :
    Slots t (record ledgers log) := by
  cases h with
  | @worked own u hmeanwhile _ houtboxes hslot =>
    have hsending (box : Nat) : (t.outbox box).sending = (s.outbox box).sending := by
      rw [← hmeanwhile.sending hs box, State.outbox, houtboxes]
      rfl
    refine ⟨fun {index box} hbox => ?_, fun {box} htaken => ?_⟩
    · rw [hsending, hmeanwhile.holder]
      exact hslots.held (hslot index ▸ hbox)
    · rw [hsending] at htaken
      obtain ⟨index, hholder, hbox⟩ := hslots.taken htaken
      exact ⟨index, by rw [hmeanwhile.holder, hholder], by rw [hslot, hbox]⟩
  | claimed _ hlog hnone hfree _ houtbox hphase hslot =>
    exact hlog ▸ hslots.claimed hnone hfree houtbox hphase hslot
  | freed _ hlog hsome _ houtbox hphase hslot =>
    exact hlog ▸ hslots.freed hsome houtbox hphase hslot

theorem accounts (h : Effect s task log t) (hs : Tracks s) (ha : Accounts s ledgers) :
    Accounts t (record ledgers log) := by
  cases h with
  | worked hmeanwhile _ houtboxes =>
    exact (hmeanwhile.accounts hs ha).of_outbox_eq (State.outbox_congr houtboxes)
  | claimed _ hlog _ _ _ houtbox =>
    subst hlog
    exact ha.noted houtbox ((ha.balanced _).claim _)
  | freed _ hlog _ _ houtbox =>
    subst hlog
    exact ha.noted houtbox (ha.balanced _).release

end Effect

end Coedit.Session
