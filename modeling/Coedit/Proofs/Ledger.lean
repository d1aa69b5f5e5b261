import Coedit.Proofs.Outboxes

/-!
A ledger follows one outbox move by move and keeps account of the patches that were handed over.
Each of them has a tag, its place among all of them. A patch of the queue carries tags: its own one,
or those of all patches in whose place it was put. The tags that have left the queue, those of the
queue and those of the incoming patches are at any time the tags of all patches in order
(`Ledger.Balanced`), and no move breaks that (`Ledger.Balanced.note`).
-/
namespace Coedit

/-- An outbox and where the patches are that were handed over. -/
structure Ledger where
  outbox : Outbox
  /-- Every patch so far; its place is its tag. -/
  given : List Patch := []
  /-- The tags that each incoming patch carries. -/
  incoming : List (List Nat) := []
  /-- The tags that each patch of the queue carries. -/
  queue : List (List Nat) := []
  /-- The tags that have left the queue. -/
  removed : List Nat := []
  /-- The tags of the patches that a delivery asks to be committed. -/
  batch : Nat → List Nat := fun _ => []
  /-- The last sender that took the send slot. -/
  holder : Option Nat := none

namespace Ledger

def note (l : Ledger) (m : Move) : Ledger :=
  let l := { l with outbox := l.outbox.move m }
  match m with
  | .enqueue patches =>
    let tags := (List.range' l.given.length patches.length).map fun tag => [tag]
    { l with given := l.given ++ patches, incoming := l.incoming ++ tags }
  | .drain => { l with incoming := [], queue := l.queue ++ l.incoming }
  | .remove count =>
    { l with
      removed := l.removed ++ (l.queue.take count).flatten
      queue := l.queue.drop count }
  | .replace patches => { l with queue := patches.map fun _ => l.queue.flatten }
  | .ask delivery count =>
    { l with batch := Function.update l.batch delivery (l.queue.take count).flatten }
  | .claim sender => { l with holder := some sender }
  | .opened _ _ | .advance _ | .expect _ | .release => l

/-- Every patch that waits has its tags, and all tags are there in order, each once. -/
structure Balanced (l : Ledger) : Prop where
  incoming : l.incoming.length = l.outbox.incoming.length
  queue : l.queue.length = l.outbox.queue.length
  tags : l.removed ++ l.queue.flatten ++ l.incoming.flatten = List.range l.given.length

variable {l : Ledger} {m : Move} {patches : List Patch}

theorem Balanced.opened (h : l.Balanced) (hnone : l.outbox.hasPending = false) (version stamp : Int) :
    (l.note (.opened version stamp)).Balanced := by
  obtain ⟨hincoming, hqueue⟩ := (Outbox.hasPending_eq_false_iff _).mp hnone
  refine ⟨h.incoming.trans ?_, h.queue.trans ?_, h.tags⟩
  · rw [hincoming]
    rfl
  · rw [hqueue]
    rfl

theorem Balanced.enqueue (h : l.Balanced) (patches : List Patch) :
    (l.note (.enqueue patches)).Balanced where
  incoming := by simp [note, Outbox.move, Outbox.enqueue, h.incoming]
  queue := h.queue
  tags := by
    have hnew : ((List.range' l.given.length patches.length).map fun tag => [tag]).flatten =
        List.range' l.given.length patches.length := by
      rw [← List.flatMap_def, List.flatMap_singleton']
    simp only [note, List.flatten_append, hnew, List.length_append]
    rw [← List.append_assoc, h.tags, List.range_eq_range', List.range_eq_range',
      List.range'_append_1.symm]
    simp

/-- The tags of a queue go with whatever takes its place. -/
theorem Balanced.replace (h : l.Balanced) (hp : patches.length = min 1 l.outbox.queue.length) :
    (l.note (.replace patches)).Balanced := by
  refine ⟨h.incoming, List.length_map .., ?_⟩
  have hflat : (patches.map fun _ => l.queue.flatten).flatten = l.queue.flatten := by
    -- nothing takes the place of an empty queue, and one patch that of any other
    rcases patches with _ | ⟨p, _ | ⟨q, more⟩⟩
    · have hnil : l.queue = [] := by
        apply List.eq_nil_of_length_eq_zero
        rw [h.queue]
        simp only [List.length_nil] at hp
        omega
      rw [hnil]
      rfl
    · simp
    · simp only [List.length_cons] at hp
      omega
  exact Eq.trans (by rw [← hflat]; rfl) h.tags

/-- A move of a round or a reconciliation loses no tag and keeps the order. -/
theorem Balanced.note (h : l.Balanced) (hm : l.outbox.Fits m) : (l.note m).Balanced := by
  cases m with
  | drain =>
    refine ⟨rfl, ?_, ?_⟩
    · simp [Ledger.note, Outbox.move, Outbox.drain, h.incoming, h.queue]
    · simpa [Ledger.note] using h.tags
  | remove count =>
    refine ⟨h.incoming, ?_, ?_⟩
    · simp [Ledger.note, Outbox.move, Outbox.removeSent, h.queue]
    · simp only [Ledger.note]
      rw [List.append_assoc l.removed, ← List.flatten_append, List.take_append_drop, h.tags]
  | replace patches => exact h.replace (hm.2 patches rfl)
  | advance version =>
    refine ⟨h.incoming, ?_, h.tags⟩
    simp [Ledger.note, Outbox.move, Outbox.advance, h.queue]
  | expect | ask => exact ⟨h.incoming, h.queue, h.tags⟩
  | opened | enqueue | claim | release => exact hm.isWork.elim

theorem Balanced.claim (h : l.Balanced) (sender : Nat) : (l.note (.claim sender)).Balanced :=
  ⟨h.incoming, h.queue, h.tags⟩

theorem Balanced.release (h : l.Balanced) : (l.note .release).Balanced :=
  ⟨h.incoming, h.queue, h.tags⟩

end Ledger

namespace Session

def record (ledgers : Nat → Ledger) (log : Log) : Nat → Ledger := replay Ledger.note ledgers log

/-- Every outbox has a ledger that is balanced. -/
structure Accounts (s : State) (ledgers : Nat → Ledger) : Prop where
  outbox : ∀ box, (ledgers box).outbox = s.outbox box
  balanced : ∀ box, (ledgers box).Balanced

variable {own : Option Nat} {s t : State} {log : Log} {box : Nat} {ledgers : Nat → Ledger}
  {m : Move}

theorem record_self (ledgers : Nat → Ledger) (box : Nat) (m : Move) :
    record ledgers [(box, m)] box = (ledgers box).note m := Function.update_self ..

theorem record_of_ne {other : Nat} (h : other ≠ box) (ledgers : Nat → Ledger) (m : Move) :
    record ledgers [(box, m)] other = ledgers other := Function.update_of_ne h ..

/-- Moves of one outbox are noted in its ledger one after another. -/
theorem record_map (ledgers : Nat → Ledger) (box : Nat) (moves : List Move) :
    record ledgers (moves.map (box, ·)) box = moves.foldl Ledger.note (ledgers box) := by
  induction moves generalizing ledgers with
  | nil => rfl
  | cons m moves ih =>
    have hfirst : record ledgers ((m :: moves).map (box, ·)) =
        record (record ledgers [(box, m)]) (moves.map (box, ·)) := rfl
    rw [hfirst, ih, record_self, List.foldl_cons]

namespace Accounts

theorem of_outbox_eq (h : Accounts s ledgers) (ho : t.outbox = s.outbox) : Accounts t ledgers :=
  ⟨fun box => (h.outbox box).trans (congrFun ho box).symm, h.balanced⟩

/-- One move is noted in one ledger. -/
theorem noted (h : Accounts s ledgers)
    (ho : t.outbox = Function.update s.outbox box ((s.outbox box).move m))
    (hm : ((ledgers box).note m).Balanced) : Accounts t (record ledgers [(box, m)]) := by
  have hmove : ((ledgers box).note m).outbox = (ledgers box).outbox.move m := by
    cases m <;> rfl
  refine ⟨fun other => ?_, fun other => ?_⟩
  · rw [ho]
    by_cases hother : other = box
    · subst hother
      rw [record_self, Function.update_self, hmove, h.outbox]
    · rw [record_of_ne hother, Function.update_of_ne hother, h.outbox]
  · by_cases hother : other = box
    · subst hother
      rw [record_self]
      exact hm
    · rw [record_of_ne hother]
      exact h.balanced other

theorem track (h : Accounts s ledgers) (file : FileId) (version : Int) :
    Accounts (s.track file version).1 (record ledgers (s.trackLog file version)) := by
  rcases s.track_cases file version with ⟨box, -, htrack, hlog⟩ | ⟨-, stamp, htrack, hlog⟩
  · rw [htrack, hlog]
    exact h
  · rw [htrack, hlog]
    refine h.noted (s.outbox_append_eq_update _ _) ((h.balanced _).opened ?_ version stamp)
    rw [h.outbox]
    simp [State.outbox, Outbox.hasPending, Outbox.opened]

end Accounts

namespace Meanwhile

/-- The accounts are kept. -/
theorem accounts (h : Meanwhile own s log t) (hs : Tracks s) (ha : Accounts s ledgers) :
    Accounts t (record ledgers log) := by
  induction h generalizing ledgers with
  | alike h => exact ha.of_outbox_eq (State.outbox_congr h.outboxes)
  | track s file version => exact ha.track file version
  | close => exact ha.of_outbox_eq rfl
  | spawn s file =>
    obtain ⟨ready, h⟩ := s.spawnSender_eq file
    rw [h]
    exact ha.of_outbox_eq rfl
  | @hand s file box patches hbox =>
    obtain ⟨ready, h⟩ := (s.setOutbox box ((s.outbox box).enqueue patches)).spawnSender_eq file
    rw [h]
    exact ha.noted (m := .enqueue patches) (State.outbox_setOutbox_eq_update (hs.known hbox) _)
      ((ha.balanced box).enqueue patches)
  | wake =>
    rw [State.wake_eq]
    exact ha.of_outbox_eq rfl
  | @move s box m _ hbox hfits =>
    exact ha.noted (State.outbox_setOutbox_eq_update hbox _)
      ((ha.balanced box).note (by rwa [ha.outbox]))
  | trans hfirst _ ih ih' =>
    rw [record, replay_append]
    exact ih' (hfirst.tracks hs).1 (ih hs ha)

/-- Nobody takes a send slot, so the last one that did stays the last. -/
theorem holder (h : Meanwhile own s log t) (ledgers : Nat → Ledger) (box : Nat) :
    (record ledgers log box).holder = (ledgers box).holder := by
  refine replay_invariant (fun l : Ledger => l.holder = (ledgers box).holder) ?_ rfl
  rintro m hmem l hl
  rw [← hl]
  rcases h.mem_log hmem with ⟨-, hwork⟩ | ⟨patches, rfl⟩ | ⟨-, version, stamp, rfl⟩
  · cases m with
    | drain | remove | replace | advance | expect | ask => rfl
    | opened | enqueue | claim | release => exact hwork.elim
  · rfl
  · rfl

/-- The account of a queue that is not worked on stays as it is. -/
theorem account (h : Meanwhile own s log t) (hbox : box < s.outboxes.length)
    (hown : own ≠ some box) (ledgers : Nat → Ledger) :
    (record ledgers log box).queue = (ledgers box).queue ∧
      (record ledgers log box).batch = (ledgers box).batch := by
  refine replay_invariant
    (fun l : Ledger => l.queue = (ledgers box).queue ∧ l.batch = (ledgers box).batch) ?_ ⟨rfl, rfl⟩
  rintro m hmem l hl
  rcases h.mem_log hmem with ⟨hwork, -⟩ | ⟨patches, rfl⟩ | ⟨hle, -⟩
  · exact absurd hwork hown
  · exact hl
  · exact absurd hbox (Nat.not_lt.mpr hle)

end Meanwhile

end Session

end Coedit
