import Coedit.Proofs.Meanwhile

/-!
What happens to outboxes while no task moves. Open files keep outboxes of their own
(`Meanwhile.tracks`), send slots stay as they are (`Meanwhile.sending`), and a queue that is not
worked on stays as it is (`Meanwhile.queue`), so that an attempt to take a remote change in is a
reconciliation of one outbox (`attempt_meanwhile`).
-/
namespace Coedit.Session

/-- Every open file has an outbox of its own. -/
structure Tracks (s : State) : Prop where
  known : ∀ {file box}, s.tracked.get? file = some box → box < s.outboxes.length
  distinct : ∀ {file other box}, s.tracked.get? file = some box →
    s.tracked.get? other = some box → file = other

variable {own : Option Nat} {s t : State} {log : Log} {file : FileId} {box : Nat}

namespace State

@[simp] theorem outbox_setOutbox {o : Outbox} (h : box < s.outboxes.length) :
    (s.setOutbox box o).outbox box = o := by
  simp [outbox, setOutbox, h]

theorem outbox_congr (h : t.outboxes = s.outboxes) : t.outbox = s.outbox := by
  funext box
  rw [outbox, h]
  rfl

@[simp] theorem length_setOutbox {o : Outbox} :
    (s.setOutbox box o).outboxes.length = s.outboxes.length :=
  List.length_set

theorem outbox_setOutbox_eq_update (h : box < s.outboxes.length) (o : Outbox) :
    (s.setOutbox box o).outbox = Function.update s.outbox box o := by
  funext other
  by_cases hother : other = box
  · subst hother
    simp [outbox, setOutbox, h]
  · simp [outbox, setOutbox, Ne.symm hother, Function.update_of_ne hother,
      List.getElem?_set_ne]

/-- Opening a file changes nothing, or it makes a new outbox. -/
theorem track_cases (s : State) (file : FileId) (version : Int) :
    (∃ box, s.tracked.get? file = some box ∧ s.track file version = (s, box) ∧
      s.trackLog file version = []) ∨
    s.tracked.get? file = none ∧ ∃ stamp,
      s.track file version = ({ s with
        tracked := s.tracked.set file s.outboxes.length
        outboxes := s.outboxes ++ [.opened version stamp] }, s.outboxes.length) ∧
      s.trackLog file version = [(s.outboxes.length, .opened version stamp)] := by
  unfold track trackLog
  cases h : s.tracked.get? file with
  | none => exact .inr ⟨rfl, _, rfl, rfl⟩
  | some box => exact .inl ⟨box, rfl, rfl, rfl⟩

theorem outbox_append_eq_update (s : State) (tracked : Table FileId Nat) (o : Outbox) :
    outbox { s with tracked, outboxes := s.outboxes ++ [o] } =
      Function.update s.outbox s.outboxes.length o := by
  funext other
  by_cases hother : other = s.outboxes.length
  · subst hother
    simp [outbox]
  · by_cases hlt : other < s.outboxes.length
    · simp [outbox, List.getElem?_append_left hlt, Function.update_of_ne hother]
    · have hafter : (s.outboxes ++ [o])[other]? = none :=
        List.getElem?_eq_none (by rw [List.length_append, List.length_singleton]; omega)
      have hbefore : s.outboxes[other]? = none := List.getElem?_eq_none (Nat.le_of_not_lt hlt)
      simp only [Function.update_of_ne hother, outbox, List.getD_eq_getElem?_getD, hafter, hbefore]

end State

namespace Tracks

theorem track (h : Tracks s) (file : FileId) (version : Int) :
    Tracks (s.track file version).1 ∧
      (s.track file version).2 < (s.track file version).1.outboxes.length ∧
      (s.track file version).1.tracked.get? file = some (s.track file version).2 := by
  rcases s.track_cases file version with ⟨box, hbox, htrack, -⟩ | ⟨-, stamp, htrack, -⟩
  · rw [htrack]
    exact ⟨h, h.known hbox, hbox⟩
  · rw [htrack]
    refine ⟨⟨?_, ?_⟩, by simp, Table.get?_set_self ..⟩
    · intro other box hbox
      rw [Table.get?_set] at hbox
      rw [List.length_append]
      split at hbox
      · cases hbox
        exact Nat.lt_succ_self _
      · exact Nat.lt_succ_of_lt (h.known hbox)
    · intro one other box hone hother
      rw [Table.get?_set] at hone hother
      split at hone <;> split at hother
      · simp_all
      · cases hone
        exact absurd (h.known hother) (Nat.lt_irrefl _)
      · cases hother
        exact absurd (h.known hone) (Nat.lt_irrefl _)
      · exact h.distinct hone hother

theorem setOutbox (h : Tracks s) (box : Nat) (o : Outbox) : Tracks (s.setOutbox box o) where
  known hbox := by
    rw [State.setOutbox, List.length_set]
    exact h.known hbox
  distinct := h.distinct

end Tracks

theorem State.setOutbox_setOutbox (s : State) (box : Nat) (o o' : Outbox) :
    (s.setOutbox box o).setOutbox box o' = s.setOutbox box o' := by
  simp [State.setOutbox]

theorem State.setOutbox_self (s : State) (box : Nat) : s.setOutbox box (s.outbox box) = s := by
  have hset : s.outboxes.set box (s.outbox box) = s.outboxes := by
    apply List.ext_getElem (List.length_set ..)
    intro i hi hi'
    rw [List.getElem_set]
    split
    · rename_i heq
      subst heq
      simp [State.outbox, hi']
    · rfl
  rw [State.setOutbox, hset]

/-- Patches of an open file wait at once, and a new task is to send them. -/
theorem State.sendPatches_of_tracked (h : s.tracked.get? file = some box) (ps : List Patch) :
    ∃ ready, s.sendPatches file ps =
      { s.setOutbox box ((s.outbox box).enqueue ps) with
        senders := s.senders ++ [⟨file, .starting⟩]
        ready } := by
  have henqueue : s.enqueue file ps = s.setOutbox box ((s.outbox box).enqueue ps) := by
    cases ps with
    | nil =>
      have hsame : (s.outbox box).enqueue [] = s.outbox box := by simp [Outbox.enqueue]
      rw [hsame, State.setOutbox_self]
      rfl
    | cons p ps => simp only [State.enqueue, State.track, h]
  rw [State.sendPatches, henqueue]
  exact (s.setOutbox box _).spawnSender_eq file

theorem Meanwhile.moves {moves : List Move} (hbox : box < s.outboxes.length)
    (hfits : (s.outbox box).FitsAll moves) :
    Meanwhile (some box) s (moves.map (box, ·)) (s.setOutbox box ((s.outbox box).moveAll moves)) := by
  induction moves generalizing s with
  | nil =>
    rw [Outbox.moveAll, List.foldl_nil, State.setOutbox_self]
    exact .refl _ s
  | cons m ms ih =>
    obtain ⟨hfirst, hrest⟩ := hfits
    have hset := State.outbox_setOutbox (o := (s.outbox box).move m) hbox
    have hnext := ih (s := s.setOutbox box ((s.outbox box).move m))
      (by simpa [State.setOutbox] using hbox) (by rwa [hset])
    rw [hset, State.setOutbox_setOutbox] at hnext
    exact (Meanwhile.move rfl hbox hfirst).trans hnext

/-- What moves make of something that every outbox has. -/
def replay {α : Type} (step : α → Move → α) (start : Nat → α) (log : Log) : Nat → α :=
  log.foldl (fun now entry => Function.update now entry.1 (step (now entry.1) entry.2)) start

theorem replay_append {α : Type} (step : α → Move → α) (start : Nat → α) (log more : Log) :
    replay step start (log ++ more) = replay step (replay step start log) more :=
  List.foldl_append ..

/-- Only the moves of an outbox matter to it. -/
theorem replay_invariant {α : Type} {step : α → Move → α} {start : Nat → α} (P : α → Prop)
    (hstep : ∀ m, (box, m) ∈ log → ∀ a, P a → P (step a m)) (hstart : P (start box)) :
    P (replay step start log box) := by
  induction log generalizing start with
  | nil => exact hstart
  | cons entry log ih =>
    refine ih (fun m hm => hstep m (List.mem_cons_of_mem _ hm)) ?_
    dsimp only
    by_cases hbox : box = entry.1
    · subst hbox
      rw [Function.update_self]
      exact hstep entry.2 List.mem_cons_self _ hstart
    · rw [Function.update_of_ne hbox]
      exact hstart

namespace Meanwhile

theorem length_le (h : Meanwhile own s log t) : s.outboxes.length ≤ t.outboxes.length := by
  induction h with
  | alike h => exact Nat.le_of_eq (congrArg List.length h.outboxes.symm)
  | track s file version =>
    rcases s.track_cases file version with ⟨box, -, htrack, -⟩ | ⟨-, stamp, htrack, -⟩
    · exact Nat.le_of_eq (by rw [htrack])
    · rw [htrack]
      simp
  | close => exact Nat.le_refl _
  | spawn s file =>
    obtain ⟨ready, h⟩ := s.spawnSender_eq file
    exact Nat.le_of_eq (by rw [h])
  | @hand s file box patches hbox =>
    obtain ⟨ready, h⟩ := (s.setOutbox box ((s.outbox box).enqueue patches)).spawnSender_eq file
    rw [h]
    simp [State.setOutbox]
  | wake => exact Nat.le_of_eq (by rw [State.wake_eq])
  | move => simp [State.setOutbox]
  | trans _ _ ih ih' => exact Nat.le_trans ih ih'

/-- Open files keep having outboxes of their own, and who is new gets a new one. -/
theorem tracks (h : Meanwhile own s log t) (hs : Tracks s) :
    Tracks t ∧ ∀ {file box}, t.tracked.get? file = some box →
      s.tracked.get? file = some box ∨ s.outboxes.length ≤ box := by
  induction h with
  | alike h =>
    exact ⟨⟨fun hbox => h.outboxes ▸ hs.known (h.tracked ▸ hbox),
      fun hone hother => hs.distinct (h.tracked ▸ hone) (h.tracked ▸ hother)⟩,
      fun hbox => .inl (h.tracked ▸ hbox)⟩
  | track s file version =>
    refine ⟨(hs.track file version).1, fun {other box} hbox => ?_⟩
    rcases s.track_cases file version with ⟨_, -, htrack, -⟩ | ⟨-, stamp, htrack, -⟩
    · rw [htrack] at hbox
      exact .inl hbox
    · rw [htrack, Table.get?_set] at hbox
      split at hbox
      · cases hbox
        exact .inr (Nat.le_refl _)
      · exact .inl hbox
  | close s file =>
    have herase {other : FileId} {box : Nat} (hbox : (s.tracked.erase file).get? other = some box) :
        s.tracked.get? other = some box := by
      rw [Table.get?_erase] at hbox
      split at hbox
      · cases hbox
      · exact hbox
    exact ⟨⟨fun hbox => hs.known (herase hbox),
      fun hone hother => hs.distinct (herase hone) (herase hother)⟩, fun hbox => .inl (herase hbox)⟩
  | spawn s file =>
    obtain ⟨ready, h⟩ := s.spawnSender_eq file
    rw [h]
    exact ⟨⟨hs.known, hs.distinct⟩, .inl⟩
  | @hand s file box patches hbox =>
    obtain ⟨ready, h⟩ := (s.setOutbox box ((s.outbox box).enqueue patches)).spawnSender_eq file
    rw [h]
    exact ⟨⟨(hs.setOutbox box _).known, hs.distinct⟩, .inl⟩
  | wake =>
    rw [State.wake_eq]
    exact ⟨⟨hs.known, hs.distinct⟩, .inl⟩
  | move => exact ⟨hs.setOutbox _ _, .inl⟩
  | trans hfirst _ ih ih' =>
    obtain ⟨ht, hold⟩ := ih hs
    obtain ⟨hu, hold'⟩ := ih' ht
    refine ⟨hu, fun hbox => ?_⟩
    rcases hold' hbox with hbox | hnew
    · exact hold hbox
    · exact .inr (Nat.le_trans hfirst.length_le hnew)

/-- Every move is part of the work on `own`, hands patches over, or opens a new outbox. -/
theorem mem_log (h : Meanwhile own s log t) {entry : Nat × Move} (hmem : entry ∈ log) :
    own = some entry.1 ∧ entry.2.IsWork ∨ (∃ patches, entry.2 = .enqueue patches) ∨
      s.outboxes.length ≤ entry.1 ∧ ∃ version stamp, entry.2 = .opened version stamp := by
  induction h with
  | alike | close | spawn | wake => cases hmem
  | track s file version =>
    rcases s.track_cases file version with ⟨_, -, -, hlog⟩ | ⟨-, stamp, -, hlog⟩
    · rw [hlog] at hmem
      cases hmem
    · rw [hlog] at hmem
      obtain rfl := List.mem_singleton.mp hmem
      exact .inr (.inr ⟨Nat.le_refl _, _, _, rfl⟩)
  | hand patches =>
    obtain rfl := List.mem_singleton.mp hmem
    exact .inr (.inl ⟨patches, rfl⟩)
  | move hown _ hfits =>
    obtain rfl := List.mem_singleton.mp hmem
    exact .inl ⟨hown, hfits.isWork⟩
  | trans hfirst _ ih ih' =>
    rcases List.mem_append.mp hmem with hmem | hmem
    · exact ih hmem
    · rcases ih' hmem with hwork | hhand | ⟨hle, hopened⟩
      · exact .inl hwork
      · exact .inr (.inl hhand)
      · exact .inr (.inr ⟨Nat.le_trans hfirst.length_le hle, hopened⟩)

/-- The outboxes are what the moves make of them. -/
theorem outbox_eq (h : Meanwhile own s log t) (hs : Tracks s) :
    t.outbox = replay Outbox.move s.outbox log := by
  induction h with
  | alike h => exact State.outbox_congr h.outboxes
  | track s file version =>
    rcases s.track_cases file version with ⟨_, -, htrack, hlog⟩ | ⟨-, stamp, htrack, hlog⟩
    · rw [htrack, hlog]
      rfl
    · rw [htrack, hlog]
      exact s.outbox_append_eq_update _ _
  | close => rfl
  | spawn s file =>
    obtain ⟨ready, h⟩ := s.spawnSender_eq file
    rw [h]
    rfl
  | @hand s file box patches hbox =>
    obtain ⟨ready, h⟩ := (s.setOutbox box ((s.outbox box).enqueue patches)).spawnSender_eq file
    rw [h]
    exact State.outbox_setOutbox_eq_update (hs.known hbox) _
  | wake =>
    rw [State.wake_eq]
    rfl
  | move _ hbox => exact State.outbox_setOutbox_eq_update hbox _
  | trans hfirst _ ih ih' => rw [replay_append, ← ih hs, ih' (hfirst.tracks hs).1]

/-- Nobody takes a send slot or frees one. -/
theorem sending (h : Meanwhile own s log t) (hs : Tracks s) (box : Nat) :
    (t.outbox box).sending = (s.outbox box).sending := by
  rw [h.outbox_eq hs]
  refine replay_invariant (fun o : Outbox => o.sending = (s.outbox box).sending) ?_ rfl
  rintro m hmem o ho
  rcases h.mem_log hmem with ⟨-, hwork⟩ | ⟨patches, rfl⟩ | ⟨hle, version, stamp, rfl⟩
  · rw [Outbox.sending_move hwork, ho]
  · exact ho
  · simp only at hle
    simp [Outbox.move, Outbox.opened, State.outbox, hle]

/-- Patches may come into an outbox that is not worked on, and nothing else. -/
theorem exists_enqueue (h : Meanwhile own s log t) (hs : Tracks s)
    (hbox : box < s.outboxes.length) (hown : own ≠ some box) :
    ∃ patches, t.outbox box = (s.outbox box).enqueue patches := by
  rw [h.outbox_eq hs]
  refine replay_invariant (fun o : Outbox => ∃ patches, o = (s.outbox box).enqueue patches) ?_
    ⟨[], by simp [Outbox.enqueue]⟩
  rintro m hmem o ⟨before, rfl⟩
  rcases h.mem_log hmem with ⟨hwork, -⟩ | ⟨patches, rfl⟩ | ⟨hle, -⟩
  · exact absurd hwork hown
  · exact ⟨before ++ patches, by simp [Outbox.move, Outbox.enqueue]⟩
  · exact absurd hbox (Nat.not_lt.mpr hle)

/-- A queue that is not worked on stays as it is. -/
theorem queue (h : Meanwhile own s log t) (hs : Tracks s) (hbox : box < s.outboxes.length)
    (hown : own ≠ some box) : (t.outbox box).queue = (s.outbox box).queue := by
  obtain ⟨patches, houtbox⟩ := h.exists_enqueue hs hbox hown
  rw [houtbox]
  rfl

/-- Nothing is in the queue of an outbox that comes anew. -/
theorem queue_new (h : Meanwhile own s log t) (hs : Tracks s) (hbox : s.outboxes.length ≤ box)
    (hown : own ≠ some box) : (t.outbox box).queue = [] := by
  rw [h.outbox_eq hs]
  refine replay_invariant (fun o : Outbox => o.queue = []) ?_ ?_
  · rintro m hmem o ho
    rcases h.mem_log hmem with ⟨hwork, -⟩ | ⟨patches, rfl⟩ | ⟨-, version, stamp, rfl⟩
    · exact absurd hwork hown
    · exact ho
    · rfl
  · rw [State.outbox, List.getD_eq_getElem?_getD, List.getElem?_eq_none hbox]
    rfl

end Meanwhile

/-- An attempt to take a remote change in works on one outbox while no task moves. -/
theorem attempt_meanwhile (hs : Tracks s) (hbox : box < s.outboxes.length) (file : FileId)
    (change : RemoteChange) :
    Meanwhile (some box) s (s.attemptLog file box change) (s.attempt file box change).1 := by
  have hdrain : Meanwhile (some box) s [(box, .drain)] (s.setOutbox box (s.outbox box).drain) :=
    .move rfl hbox ⟨trivial, nofun⟩
  unfold State.attempt State.attemptLog
  dsimp only
  cases hplan : change.plan (s.outbox box).drain.queue with
  | error error => exact hdrain
  | ok plan =>
    have hset := State.outbox_setOutbox (o := (s.outbox box).drain) hbox
    have hbox' : box < (s.setOutbox box (s.outbox box).drain).outboxes.length := by
      simpa [State.setOutbox] using hbox
    have hoffer := offer_meanwhile (s.setOutbox box (s.outbox box).drain) file plan.incoming
      (s.outbox box).drain.stamp
    have hqueue := hoffer.queue (hs.setOutbox box _) hbox' (by simp)
    rw [hset] at hqueue
    have hfits := change.fitsAll_settleMoves
      (hqueue ▸ RemoteChange.length_rebased hplan :
        plan.rebased.length = min 1 (State.outbox _ box).queue.length)
    have hsettle (verdict : Verdict) := Meanwhile.moves
      (Nat.lt_of_lt_of_le hbox' hoffer.length_le) (hfits verdict)
    dsimp only
    rw [RemoteChange.settle_eq]
    exact hdrain.trans (hoffer.of_none.trans (hsettle _))

end Coedit.Session
