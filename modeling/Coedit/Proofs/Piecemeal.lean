import Coedit.Proofs.Carrying
import Coedit.Proofs.Stamps
import Mathlib.Logic.Function.Iterate

/-!
Taking a remote change in, step by step, while an editor is at work between the steps. An attempt
reads the expected stamp, takes the incoming patches in and makes a plan, offers the change to the
document, and settles (`State.takeStep`); without an editor in between the four steps are one
attempt of a session (`attempt_eq_takeSteps`). The editor hands a patch over first and changes the
document later. A change that the document accepts was transformed against every edit that the
document shows, unless that had left the queue already (`accepted_overlooks_nothing`).
-/
namespace Coedit

/-- A refusal that is looked at later, when the document has another stamp. -/
def Verdict.renewed (stamp : Int) : Verdict → Verdict
  | .refused _ => .refused stamp
  | verdict => verdict

/-- Moves that fit are noted one after another. -/
theorem Ledger.Balanced.noteAll {l : Ledger} {moves : List Move} (h : l.Balanced)
    (hfits : l.outbox.FitsAll moves) :
    (moves.foldl Ledger.note l).Balanced ∧
      (moves.foldl Ledger.note l).outbox = l.outbox.moveAll moves := by
  induction moves generalizing l with
  | nil => exact ⟨h, rfl⟩
  | cons m moves ih =>
    have hmove : (l.note m).outbox = l.outbox.move m := by cases m <;> rfl
    obtain ⟨hbalanced, houtbox⟩ := ih (h.note hfits.1) (hmove ▸ hfits.2)
    rw [hmove] at houtbox
    exact ⟨hbalanced, houtbox⟩

/-- Only what is handed over becomes part of the account. -/
theorem Ledger.given_noteAll (l : Ledger) {moves : List Move}
    (h : ∀ m ∈ moves, ∀ patches, m ≠ .enqueue patches) :
    (moves.foldl Ledger.note l).given = l.given := by
  induction moves generalizing l with
  | nil => rfl
  | cons m moves ih =>
    obtain ⟨hm, hmoves⟩ := List.forall_mem_cons.mp h
    refine (ih (l.note m) hmoves).trans ?_
    cases m with
    | enqueue patches => exact absurd rfl (hm patches)
    | opened | drain | remove | replace | advance | expect | claim | release | ask => rfl

namespace Session

/-- How far the taking in of a remote change has come. -/
inductive Stance where
  | ended (result : Except SyncError Unit)
  /-- An attempt is to begin. -/
  | ready (change : RemoteChange)
  /-- The expected stamp is read. -/
  | looked (change : RemoteChange) (expected : Int)
  /-- The incoming patches are in the queue, and there is a plan for all of it. -/
  | planned (change : RemoteChange) (expected : Int) (plan : Plan)
  /-- The document has accepted or refused. -/
  | judged (change : RemoteChange) (plan : Plan) (verdict : Verdict)
  deriving DecidableEq, Repr

/-- Where an attempt leaves the taking in of its change. -/
def Stance.after (change : RemoteChange) : Attempt → Stance
  | .again => .ready change
  | .finished result => .ended result

/-- One step of taking a change in. -/
def State.takeStep (s : State) (file : FileId) (box : Nat) : Stance → State × Stance
  | .ended result => (s, .ended result)
  | .ready change => (s, .looked change (s.outbox box).stamp)
  | .looked change expected =>
    let drained := (s.outbox box).drain
    (s.setOutbox box drained,
      match change.plan drained.queue with
      | .error error => .ended (.error (.consolidate error))
      | .ok plan => .planned change expected plan)
  | .planned change expected plan =>
    let (s, verdict) := s.offer file plan.incoming expected
    (s, .judged change plan verdict)
  | .judged change plan verdict =>
    let (settled, attempt) :=
      change.settle plan (verdict.renewed (s.documents.stamp file)) (s.outbox box)
    (s.setOutbox box settled, .after change attempt)

def State.takeMoves (s : State) (file : FileId) : Stance → List Move
  | .looked .. => [.drain]
  | .judged change plan verdict =>
    change.settleMoves plan (verdict.renewed (s.documents.stamp file))
  | _ => []

/-- Whether a sender may move the outbox that way. The slot is taken and freed outside the lock; the
rest of a round waits until no change is being taken in. -/
def Stance.admits (stance : Stance) : Move → Bool
  | .claim _ | .release => true
  | .drain | .remove _ | .advance _ | .ask .. => (stance matches .ended _)
  | .opened .. | .enqueue _ | .replace _ | .expect _ => false

variable {s t : State} {file : FileId} {box : Nat} {change : RemoteChange} {patch : Patch}
  {expected : Int}

/-- A refusal tells the stamp that the document has then. -/
theorem State.renewed_offer (s : State) (file : FileId) (patch : Patch) (expected : Int) :
    (s.offer file patch expected).2.renewed
        ((s.offer file patch expected).1.documents.stamp file) =
      (s.offer file patch expected).2 := by
  unfold State.offer
  dsimp only
  split
  · dsimp only
    cases (s.beforeOffer.documents.apply file patch expected).2 with
    | error error => rfl
    | ok stamp => cases stamp <;> rfl
  · rfl

/-- The steps of an attempt, one right after the other. -/
theorem attempt_eq_takeSteps (s : State) (file : FileId) (box : Nat) (change : RemoteChange) :
    (fun p : State × Stance => p.1.takeStep file box p.2)^[4] (s, .ready change) =
      ((s.attempt file box change).1, Stance.after change (s.attempt file box change).2) := by
  simp only [Function.iterate_succ_apply, Function.iterate_zero_apply, State.takeStep,
    State.attempt]
  cases hplan : change.plan (s.outbox box).drain.queue with
  | error error => rfl
  | ok plan =>
    have hrenewed := (s.setOutbox box (s.outbox box).drain).renewed_offer file plan.incoming
      (s.outbox box).stamp
    simp only [hrenewed]
    rfl

/-- What a document does with a change that is offered to it. -/
inductive Judged (file : FileId) (patch : Patch) (expected : Int) (before after : Documents) :
    Verdict → Prop
  | accepted {text : Text} : before.stamp file = expected →
      patch.apply (before.buffer file).text = .ok text →
      after.buffer file = (before.buffer file).write text →
      Judged file patch expected before after (.accepted (expected + 1))
  | failed {error : ApplyError} : before.stamp file = expected →
      patch.apply (before.buffer file).text = .error error →
      after.buffer file = before.buffer file →
      Judged file patch expected before after (.failed error)
  | refused : after.buffer file = before.buffer file →
      Judged file patch expected before after (.refused (before.stamp file))

theorem Judged.stamp_le {before after : Documents} {verdict : Verdict}
    (h : Judged file patch expected before after verdict) :
    before.stamp file ≤ after.stamp file ∧ ∀ later, verdict = .accepted later →
      before.stamp file = expected ∧ later = after.stamp file := by
  cases h with
  | accepted hstamp _ hbuffer =>
    have hlater : after.stamp file = before.stamp file + 1 := congrArg Buffer.stamp hbuffer
    refine ⟨by omega, ?_⟩
    rintro later ⟨⟩
    exact ⟨hstamp, by rw [hlater, hstamp]⟩
  | failed _ _ hbuffer | refused hbuffer =>
    exact ⟨Int.le_of_eq (congrArg Buffer.stamp hbuffer).symm, nofun⟩

/-- Without a script, the document alone decides about an offer. -/
theorem State.offer_of_script_nil (h : s.applyScript = []) (file : FileId) (patch : Patch)
    (expected : Int) :
    ∃ documents refusals record verdict,
      s.offer file patch expected = ({ s with documents, refusals, record }, verdict) ∧
        Judged file patch expected s.documents documents verdict := by
  have hbefore : s.beforeOffer = s := by rw [State.beforeOffer, h]
  simp only [State.offer, hbefore]
  cases hrefusals : s.refusals with
  | zero =>
    dsimp only
    by_cases hstamp : s.documents.stamp file = expected
    · simp only [Documents.apply, hstamp, if_true]
      rcases s.documents.edit_cases file patch with ⟨text, happly, hedit⟩ | ⟨error, happly, hedit⟩
      · rw [hedit, hstamp]
        exact ⟨_, _, _, _, rfl, .accepted hstamp happly (s.documents.buffer_set_same file _)⟩
      · rw [hedit]
        exact ⟨_, _, _, _, rfl, .failed hstamp happly (s.documents.buffer_set_same file _)⟩
    · simp only [Documents.apply, hstamp, if_false]
      have hbuffer := s.documents.buffer_set_same file (s.documents.buffer file)
      have hsame : Documents.stamp
          (Table.set s.documents file (s.documents.buffer file)) file = s.documents.stamp file :=
        congrArg Buffer.stamp hbuffer
      rw [hsame]
      exact ⟨_, _, _, _, rfl, .refused hbuffer⟩
  | succ refusals => exact ⟨_, _, _, _, rfl, .refused rfl⟩

/-- Another client's commit changes the server alone, and that by one commit if the diffs fit. -/
theorem State.commitOther_cases (s : State) (file : FileId) (diffs : List Diff) :
    ∃ server, (s.commitOther file diffs false).1 = { s with server } ∧
      (server.file file = s.server.file file ∨ ∃ version text,
        let patch := Patch.forDocument version diffs (s.server.file file).text.length
        patch.apply (s.server.file file).text = .ok text ∧
          server.file file = (s.server.file file).push patch text) := by
  have hset : ∀ f, Server.file (s.server.set file f) file = f := by
    intro f
    rw [Server.file, Table.get?_set_self]
    rfl
  unfold State.commitOther ServerFile.commitDiffs
  dsimp only
  cases happly : (Patch.forDocument (s.server.file file).version diffs
      (s.server.file file).text.length).apply (s.server.file file).text with
  | error error => exact ⟨_, rfl, .inl (hset _)⟩
  | ok text => exact ⟨_, rfl, .inr ⟨_, text, happly, hset _⟩⟩

/-! ### A file that is edited while changes come in -/

inductive Piece where
  /-- The editor hands patches over. -/
  | hand (patches : List Patch)
  /-- The editor changes the document. -/
  | write (patch : Patch)
  /-- A sender moves the outbox. -/
  | round (m : Move)
  /-- Another client commits. -/
  | commit (diffs : List Diff)
  /-- A remote change comes. -/
  | come (change : RemoteChange)
  /-- The next step of taking it in. -/
  | step

def Piece.handed : Piece → List Patch
  | .hand patches => patches
  | _ => []

/-- A file of a session with its account, and how far the taking in of a change has come. -/
structure Piecemeal where
  file : FileId
  box : Nat
  state : State
  ledger : Ledger
  stance : Stance

namespace Piecemeal

def outbox (p : Piecemeal) : Outbox := p.state.outbox p.box

def stamp (p : Piecemeal) : Int := p.state.documents.stamp p.file

def opened (s : State) (file : FileId) (version : Int) : Piecemeal :=
  let (state, box) := s.track file version
  ⟨file, box, state, { outbox := state.outbox box }, .ended (.ok ())⟩

/-- What comes of a piece. While a change is being taken in, the lock keeps senders' rounds away and
makes the next change wait. -/
def happen (p : Piecemeal) : Piece → Piecemeal
  | .hand patches =>
    { p with
      state := p.state.sendPatches p.file patches
      ledger := p.ledger.note (.enqueue patches) }
  | .write patch => { p with state := (p.state.editDocument p.file patch).1 }
  | .round m =>
    if p.stance.admits m then
      { p with
        state := p.state.setOutbox p.box (p.outbox.move m)
        ledger := p.ledger.note m }
    else p
  | .commit diffs => { p with state := (p.state.commitOther p.file diffs false).1 }
  | .come change =>
    match p.stance with
    | .ended _ => { p with stance := .ready change }
    | _ => p
  | .step =>
    let (state, stance) := p.state.takeStep p.file p.box p.stance
    { p with
      state
      stance
      ledger := (p.state.takeMoves p.file p.stance).foldl Ledger.note p.ledger }

def after (p : Piecemeal) (pieces : List Piece) : Piecemeal := pieces.foldl happen p

end Piecemeal

/-- What a stance says of the queue and of the document's stamp. -/
def Stance.Agrees (queue : List Patch) (stamp : Int) : Stance → Prop
  | .ended _ | .ready _ => True
  | .looked _ expected => expected ≤ stamp
  | .planned change expected plan => expected ≤ stamp ∧ change.plan queue = .ok plan
  | .judged change plan verdict =>
    change.plan queue = .ok plan ∧ ∀ later, verdict = .accepted later → later ≤ stamp

theorem Stance.Agrees.later {queue : List Patch} {stamp later : Int} {stance : Stance}
    (h : stance.Agrees queue stamp) (hle : stamp ≤ later) : stance.Agrees queue later := by
  cases stance with
  | ended | ready => trivial
  | looked => exact Int.le_trans h hle
  | planned => exact ⟨Int.le_trans h.1 hle, h.2⟩
  | judged => exact ⟨h.1, fun accepted he => Int.le_trans (h.2 accepted he) hle⟩

/-- No stamp is expected that the document has not had. -/
structure Steady (p : Piecemeal) : Prop where
  script : p.state.applyScript = []
  tracked : p.state.tracked.get? p.file = some p.box
  known : p.box < p.state.outboxes.length
  account : p.ledger.outbox = p.outbox
  balanced : p.ledger.Balanced
  faithful : p.ledger.Faithful
  stamp_le : p.outbox.stamp ≤ p.stamp
  stance : p.stance.Agrees p.outbox.queue p.stamp

namespace Steady

variable {p : Piecemeal}

theorem track_of_new (hnew : s.tracked.get? file = none) (version : Int) :
    s.track file version =
      ({ s with
        tracked := s.tracked.set file s.outboxes.length
        outboxes := s.outboxes ++ [.opened version (s.documents.stamp file)] },
        s.outboxes.length) := by
  simp only [State.track, hnew]

theorem outbox_opened (hnew : s.tracked.get? file = none) (version : Int) :
    (Piecemeal.opened s file version).outbox = .opened version (s.documents.stamp file) := by
  simp [Piecemeal.opened, Piecemeal.outbox, track_of_new hnew, State.outbox]

theorem opened (hnew : s.tracked.get? file = none) (hscript : s.applyScript = []) (version : Int) :
    Steady (Piecemeal.opened s file version) := by
  have htrack := track_of_new hnew version
  have houtbox := outbox_opened hnew version
  have hledger : (Piecemeal.opened s file version).ledger =
      { outbox := .opened version (s.documents.stamp file) } :=
    congrArg (fun o => ({ outbox := o } : Ledger)) houtbox
  refine ⟨?_, ?_, ?_, ?_, ?_, ?_, ?_, trivial⟩
  · simp only [Piecemeal.opened, htrack]
    exact hscript
  · simp only [Piecemeal.opened, htrack]
    exact Table.get?_set_self ..
  · simp [Piecemeal.opened, htrack]
  · rw [hledger, houtbox]
  · rw [hledger]
    exact ⟨rfl, rfl, rfl⟩
  · rw [hledger]
    exact .opened _ _
  · rw [houtbox]
    simp only [Piecemeal.opened, Piecemeal.stamp, htrack]
    exact Int.le_refl _

/-- What is handed over waits in front of the queue, and nothing else changes for now. -/
theorem view_hand (h : Steady p) (patches : List Patch) :
    (p.happen (.hand patches)).outbox = p.outbox.enqueue patches ∧
      (p.happen (.hand patches)).state.documents = p.state.documents ∧
      (p.happen (.hand patches)).state.server = p.state.server := by
  obtain ⟨ready, hsend⟩ := State.sendPatches_of_tracked h.tracked patches
  simp only [Piecemeal.happen, Piecemeal.outbox, hsend]
  exact ⟨State.outbox_setOutbox h.known, rfl, rfl⟩

theorem hand (h : Steady p) (patches : List Patch) : Steady (p.happen (.hand patches)) := by
  obtain ⟨ready, hsend⟩ := State.sendPatches_of_tracked h.tracked patches
  obtain ⟨houtbox, hdocuments, -⟩ := h.view_hand patches
  have hstamp : (p.happen (.hand patches)).stamp = p.stamp :=
    congrArg (Documents.stamp · p.file) hdocuments
  refine ⟨?_, ?_, ?_, ?_, h.balanced.enqueue patches, h.faithful.enqueue patches, ?_, ?_⟩
  · simp only [Piecemeal.happen, hsend]
    exact h.script
  · simp only [Piecemeal.happen, hsend]
    exact h.tracked
  · simp only [Piecemeal.happen, hsend, State.length_setOutbox]
    exact h.known
  · rw [houtbox, ← h.account]
    rfl
  · rw [houtbox, hstamp]
    exact h.stamp_le
  · rw [houtbox, hstamp]
    exact h.stance

theorem write (h : Steady p) (patch : Patch) : Steady (p.happen (.write patch)) := by
  have hle : p.stamp ≤ (p.happen (.write patch)).stamp :=
    p.state.documents.stamp_le_edit p.file patch
  exact ⟨h.script, h.tracked, h.known, h.account, h.balanced, h.faithful,
    Int.le_trans h.stamp_le hle, h.stance.later hle⟩

/-- A sender changes neither the expected stamp nor the document, and the queue only while no change
is being taken in. -/
theorem round (h : Steady p) (m : Move) : Steady (p.happen (.round m)) := by
  unfold Piecemeal.happen
  dsimp only
  split
  · rename_i hadmits
    have houtbox : State.outbox (p.state.setOutbox p.box (p.outbox.move m)) p.box =
        p.outbox.move m := State.outbox_setOutbox h.known
    have hmove : (p.ledger.note m).outbox = p.ledger.outbox.move m := by cases m <;> rfl
    have hbalanced : (p.ledger.note m).Balanced := by
      cases m with
      | drain | remove | advance | ask => exact h.balanced.note ⟨trivial, nofun⟩
      | claim sender => exact h.balanced.claim sender
      | release => exact h.balanced.release
      | opened | enqueue | replace | expect => cases hadmits
    have hfaithful : (p.ledger.note m).Faithful := by
      cases m with
      | drain | remove | advance | ask | claim | release => exact h.faithful.note nofun nofun
      | opened | enqueue | replace | expect => cases hadmits
    have hstamp : (p.outbox.move m).stamp = p.outbox.stamp := by
      cases m with
      | drain | remove | advance | ask | claim | release => rfl
      | opened | enqueue | replace | expect => cases hadmits
    have hagrees : p.stance.Agrees (p.outbox.move m).queue p.stamp := by
      cases m with
      | claim | release => exact h.stance
      | drain | remove | advance | ask =>
        cases hstance : p.stance with
        | ended => trivial
        | ready | looked | planned | judged =>
          rw [hstance] at hadmits
          cases hadmits
      | opened | enqueue | replace | expect => cases hadmits
    refine ⟨h.script, h.tracked, ?_, ?_, hbalanced, hfaithful, ?_, ?_⟩
    · rw [State.length_setOutbox]
      exact h.known
    · exact hmove.trans ((congrArg (Outbox.move · m) h.account).trans houtbox.symm)
    · exact Int.le_trans (Int.le_of_eq ((congrArg Outbox.stamp houtbox).trans hstamp)) h.stamp_le
    · exact (congrArg (p.stance.Agrees ·.queue p.stamp) houtbox).mpr hagrees
  · exact h

theorem commit (h : Steady p) (diffs : List Diff) : Steady (p.happen (.commit diffs)) := by
  obtain ⟨server, hcommit, -⟩ := p.state.commitOther_cases p.file diffs
  simp only [Piecemeal.happen, hcommit]
  exact ⟨h.script, h.tracked, h.known, h.account, h.balanced, h.faithful, h.stamp_le, h.stance⟩

theorem come (h : Steady p) (change : RemoteChange) : Steady (p.happen (.come change)) := by
  unfold Piecemeal.happen
  dsimp only
  split
  · exact ⟨h.script, h.tracked, h.known, h.account, h.balanced, h.faithful, h.stamp_le, trivial⟩
  · exact h

theorem look (h : Steady p) (hstance : p.stance = .ready change) : Steady (p.happen .step) := by
  simp only [Piecemeal.happen, hstance, State.takeStep, State.takeMoves, List.foldl_nil]
  exact ⟨h.script, h.tracked, h.known, h.account, h.balanced, h.faithful, h.stamp_le, h.stamp_le⟩

theorem drain (h : Steady p) (hstance : p.stance = .looked change expected) :
    Steady (p.happen .step) := by
  have hagrees := h.stance
  rw [hstance] at hagrees
  have houtbox : State.outbox (p.state.setOutbox p.box p.outbox.drain) p.box = p.outbox.drain :=
    State.outbox_setOutbox h.known
  have hbalanced : (p.ledger.note .drain).Balanced := h.balanced.note ⟨trivial, nofun⟩
  have hdrained : (p.ledger.note .drain).outbox = p.outbox.drain := congrArg Outbox.drain h.account
  simp only [Piecemeal.happen, hstance, State.takeStep, State.takeMoves, List.foldl_cons,
    List.foldl_nil]
  refine ⟨h.script, h.tracked, ?_, hdrained.trans houtbox.symm, hbalanced, h.faithful.drain,
    Int.le_trans (Int.le_of_eq (congrArg Outbox.stamp houtbox)) h.stamp_le, ?_⟩
  · rw [State.length_setOutbox]
    exact h.known
  · cases hplan : change.plan (p.state.outbox p.box).drain.queue with
    | error error => trivial
    | ok plan => exact ⟨hagrees, (congrArg (change.plan ·.queue) houtbox).trans hplan⟩

theorem offer {plan : Plan} (h : Steady p) (hstance : p.stance = .planned change expected plan) :
    Steady (p.happen .step) := by
  have hagrees := h.stance
  rw [hstance] at hagrees
  obtain ⟨documents, refusals, record, verdict, hoffer, hjudged⟩ :=
    p.state.offer_of_script_nil h.script p.file plan.incoming expected
  obtain ⟨hlater, haccepted⟩ := hjudged.stamp_le
  simp only [Piecemeal.happen, hstance, State.takeStep, State.takeMoves, hoffer, List.foldl_nil]
  exact ⟨h.script, h.tracked, h.known, h.account, h.balanced, h.faithful,
    Int.le_trans h.stamp_le hlater, hagrees.2, fun later he => Int.le_of_eq (haccepted later he).2⟩

theorem settle {plan : Plan} {verdict : Verdict} (h : Steady p)
    (hstance : p.stance = .judged change plan verdict) : Steady (p.happen .step) := by
  have hagrees := h.stance
  rw [hstance] at hagrees
  generalize hrenewed : verdict.renewed (p.state.documents.stamp p.file) = renewed
  have hfits : p.ledger.outbox.FitsAll (change.settleMoves plan renewed) := by
    rw [h.account]
    exact change.fitsAll_settleMoves (RemoteChange.length_rebased hagrees.1) renewed
  have hfaithful : ((change.settleMoves plan renewed).foldl Ledger.note p.ledger).Faithful :=
    h.faithful.settle (by rw [h.account]; exact hagrees.1) renewed
  obtain ⟨hbalanced, haccount⟩ := h.balanced.noteAll hfits
  have houtbox : State.outbox
      (p.state.setOutbox p.box (change.settle plan renewed p.outbox).1) p.box =
      (change.settle plan renewed p.outbox).1 := State.outbox_setOutbox h.known
  have hstamp : (change.settle plan renewed p.outbox).1.stamp ≤ p.stamp := by
    subst hrenewed
    cases verdict with
    | accepted later => exact hagrees.2 later rfl
    | refused => exact Int.le_refl _
    | failed => exact h.stamp_le
  simp only [Piecemeal.happen, hstance, State.takeStep, State.takeMoves, hrenewed]
  refine ⟨h.script, h.tracked, ?_, ?_, hbalanced, hfaithful, ?_, ?_⟩
  · rw [State.length_setOutbox]
    exact h.known
  · rw [haccount, h.account, ← RemoteChange.settle_eq]
    exact houtbox.symm
  · exact Int.le_trans (Int.le_of_eq (congrArg Outbox.stamp houtbox)) hstamp
  · cases (change.settle plan renewed (p.state.outbox p.box)).2 <;> trivial

theorem step (h : Steady p) : Steady (p.happen .step) := by
  cases hstance : p.stance with
  | ended result =>
    simp only [Piecemeal.happen, hstance, State.takeStep, State.takeMoves, List.foldl_nil]
    exact ⟨h.script, h.tracked, h.known, h.account, h.balanced, h.faithful, h.stamp_le, trivial⟩
  | ready change => exact h.look hstance
  | looked change expected => exact h.drain hstance
  | planned change expected plan => exact h.offer hstance
  | judged change plan verdict => exact h.settle hstance

theorem happen (h : Steady p) (piece : Piece) : Steady (p.happen piece) := by
  cases piece with
  | hand patches => exact h.hand patches
  | write patch => exact h.write patch
  | round m => exact h.round m
  | commit diffs => exact h.commit diffs
  | come change => exact h.come change
  | step => exact h.step

theorem after (h : Steady p) (pieces : List Piece) : Steady (p.after pieces) := by
  induction pieces generalizing p with
  | nil => exact h
  | cons piece pieces ih => exact ih (h.happen piece)

/-- The stamp of the document never goes back. -/
theorem stamp_le_happen (h : Steady p) (piece : Piece) : p.stamp ≤ (p.happen piece).stamp := by
  cases piece with
  | hand patches =>
    exact Int.le_of_eq (congrArg (Documents.stamp · p.file) (h.view_hand patches).2.1).symm
  | write patch => exact p.state.documents.stamp_le_edit p.file patch
  | round m =>
    unfold Piecemeal.happen
    dsimp only
    split <;> exact Int.le_refl _
  | commit diffs =>
    simp only [Piecemeal.happen, State.commitOther]
    split <;> exact Int.le_refl _
  | come change =>
    unfold Piecemeal.happen
    dsimp only
    split <;> exact Int.le_refl _
  | step =>
    cases hstance : p.stance with
    | ended | ready | looked | judged =>
      simp only [Piecemeal.happen, hstance, State.takeStep]
      exact Int.le_refl _
    | planned change expected plan =>
      obtain ⟨documents, refusals, record, verdict, hoffer, hjudged⟩ :=
        p.state.offer_of_script_nil h.script p.file plan.incoming expected
      simp only [Piecemeal.happen, hstance, State.takeStep, hoffer]
      exact hjudged.stamp_le.1

end Steady

/-- The account has the patches that the pieces hand over, and no others. -/
theorem Piecemeal.given_happen (p : Piecemeal) (piece : Piece) :
    (p.happen piece).ledger.given = p.ledger.given ++ piece.handed := by
  cases piece with
  | hand patches => rfl
  | write | commit => exact (List.append_nil _).symm
  | round m =>
    unfold Piecemeal.happen
    dsimp only
    split
    · rename_i hadmits
      cases m with
      | drain | remove | advance | ask | claim | release => exact (List.append_nil _).symm
      | opened | enqueue | replace | expect => cases hadmits
    · exact (List.append_nil _).symm
  | come change =>
    unfold Piecemeal.happen
    dsimp only
    split <;> exact (List.append_nil _).symm
  | step =>
    refine Eq.trans ?_ (List.append_nil _).symm
    refine p.ledger.given_noteAll fun m hm patches he => ?_
    subst he
    cases hstance : p.stance with
    | ended | ready | looked | planned => simp [hstance, State.takeMoves] at hm
    | judged change plan verdict =>
      rw [hstance, State.takeMoves] at hm
      cases hverdict : verdict.renewed (p.state.documents.stamp p.file) <;>
        simp [hverdict, RemoteChange.settleMoves] at hm

theorem Piecemeal.given_after (p : Piecemeal) (pieces : List Piece) :
    (p.after pieces).ledger.given = p.ledger.given ++ pieces.flatMap Piece.handed := by
  induction pieces generalizing p with
  | nil => exact (List.append_nil _).symm
  | cons piece pieces ih =>
    rw [List.flatMap_cons, ← List.append_assoc, ← p.given_happen piece]
    exact ih (p.happen piece)

theorem Piecemeal.length_given_le_happen (p : Piecemeal) (piece : Piece) :
    p.ledger.given.length ≤ (p.happen piece).ledger.given.length := by
  rw [p.given_happen, List.length_append]
  exact Nat.le_add_right ..

/-- There is a plan because there was one, or because it was made of what is in the queue now. -/
theorem Piecemeal.planned_cases {p : Piecemeal} {piece : Piece} {plan : Plan}
    (h : (p.happen piece).stance = .planned change expected plan) :
    p.stance = .planned change expected plan ∧
      ((p.happen piece).ledger.incoming = p.ledger.incoming ∨
        ∃ patches, (p.happen piece).ledger = p.ledger.note (.enqueue patches)) ∨
    p.stance = .looked change expected ∧ (p.happen piece).ledger = p.ledger.note .drain := by
  cases piece with
  | hand patches => exact .inl ⟨h, .inr ⟨patches, rfl⟩⟩
  | write | commit => exact .inl ⟨h, .inl rfl⟩
  | round m =>
    have hstance : p.stance = .planned change expected plan := by
      rw [← h, happen]
      split <;> rfl
    refine .inl ⟨hstance, .inl ?_⟩
    cases m with
    | claim | release => rfl
    | drain | remove | advance | ask | opened | enqueue | replace | expect =>
      rw [happen, hstance]
      rfl
  | come later =>
    cases hstance : p.stance with
    | ended result =>
      simp only [happen, hstance] at h
      cases h
    | ready | looked | planned | judged =>
      simp only [happen, hstance] at h ⊢
      exact .inl ⟨h, .inl trivial⟩
  | step =>
    cases hstance : p.stance with
    | looked later expected =>
      simp only [happen, hstance, State.takeStep, State.takeMoves] at h ⊢
      split at h
      · cases h
      · cases h
        exact .inr ⟨rfl, rfl⟩
    | ended | ready | planned =>
      simp only [happen, hstance, State.takeStep] at h
      cases h
    | judged later plan verdict =>
      simp only [happen, hstance, State.takeStep] at h
      cases he : (later.settle plan _ (p.state.outbox p.box)).2 <;> rw [he] at h <;> cases h

/-- The document shows what it shows since the stamp `shown`, and `count` patches had been handed
over by then. A plan for that stamp or a later one leaves none of them in front of the queue. -/
structure Overseen (count : Nat) (shown : Int) (p : Piecemeal) : Prop where
  steady : Steady p
  shown_le : shown ≤ p.stamp
  count_le : count ≤ p.ledger.given.length
  planned : ∀ {change : RemoteChange} {expected : Int} {plan : Plan},
    p.stance = .planned change expected plan → shown ≤ expected →
    ∀ tag ∈ p.ledger.incoming.flatten, count ≤ tag

namespace Overseen

variable {p : Piecemeal} {count : Nat} {shown : Int}

/-- An expected stamp that was read before an edit is older than the edit. -/
theorem shows (h : Steady p) {piece : Piece} (hshows : p.stamp < (p.happen piece).stamp) :
    Overseen (p.happen piece).ledger.given.length (p.happen piece).stamp (p.happen piece) := by
  refine ⟨h.happen piece, Int.le_refl _, Nat.le_refl _, ?_⟩
  intro change expected plan hplanned hle
  have hold : expected ≤ p.stamp := by
    have hagrees := h.stance
    rcases Piecemeal.planned_cases hplanned with ⟨hstance, -⟩ | ⟨hstance, -⟩
    · rw [hstance] at hagrees
      exact hagrees.1
    · rw [hstance] at hagrees
      exact hagrees
  exact absurd hshows (Int.not_lt.mpr (Int.le_trans hle hold))

theorem happen (h : Overseen count shown p) (piece : Piece) :
    Overseen count shown (p.happen piece) := by
  refine ⟨h.steady.happen piece, Int.le_trans h.shown_le (h.steady.stamp_le_happen piece),
    Nat.le_trans h.count_le (p.length_given_le_happen piece), ?_⟩
  intro change expected plan hplanned hle tag htag
  rcases Piecemeal.planned_cases hplanned with
    ⟨hstance, hledger | ⟨patches, hledger⟩⟩ | ⟨-, hledger⟩
  · rw [hledger] at htag
    exact h.planned hstance hle tag htag
  · rw [hledger] at htag
    simp only [Ledger.note, List.flatten_append, List.mem_append] at htag
    rcases htag with htag | htag
    · exact h.planned hstance hle tag htag
    · -- what is handed over now gets a tag behind all that there are
      rw [← List.flatMap_def, List.flatMap_singleton', List.mem_range'_1] at htag
      exact Nat.le_trans h.count_le htag.1
  · rw [hledger] at htag
    cases htag

theorem after (h : Overseen count shown p) (pieces : List Piece) :
    Overseen count shown (p.after pieces) := by
  induction pieces generalizing p with
  | nil => exact h
  | cons piece pieces ih => exact ih (h.happen piece)

end Overseen

/-- A change that the document accepts was planned for all that waits in the queue. Once the
document shows an edit, no patch that was handed over before it waits in front of the queue then:
each is in the queue, in a patch that stands for it, or has left the queue. -/
theorem accepted_overlooks_nothing (s : State) (file : FileId) (version : Int)
    (hnew : s.tracked.get? file = none) (hscript : s.applyScript = []) (before later : List Piece)
    (edit : Piece) {plan : Plan} {accepted : Int}
    (hshows : ((Piecemeal.opened s file version).after before).stamp <
      (((Piecemeal.opened s file version).after before).happen edit).stamp)
    (hplanned : ((Piecemeal.opened s file version).after (before ++ edit :: later)).stance =
      .planned change expected plan)
    (haccepted : (((Piecemeal.opened s file version).after (before ++ edit :: later)).happen
      .step).stance = .judged change plan (.accepted accepted)) :
    let q := (Piecemeal.opened s file version).after (before ++ edit :: later)
    change.plan q.outbox.queue = .ok plan ∧
      q.ledger.outbox = q.outbox ∧ q.ledger.Balanced ∧ q.ledger.Faithful ∧
      q.ledger.given = (before ++ edit :: later).flatMap Piece.handed ∧
      ∀ tag < ((before ++ [edit]).flatMap Piece.handed).length,
        tag ∉ q.ledger.incoming.flatten ∧
          (tag ∈ q.ledger.queue.flatten ∨ tag ∈ q.ledger.removed) := by
  intro q
  have hnone : (Piecemeal.opened s file version).ledger.given = [] := rfl
  have hopened := (Steady.opened hnew hscript version).after before
  have hover : Overseen ((before ++ [edit]).flatMap Piece.handed).length
      (((Piecemeal.opened s file version).after before).happen edit).stamp q := by
    have hq : q = (((Piecemeal.opened s file version).after before).happen edit).after later :=
      List.foldl_append ..
    have hgiven := Piecemeal.given_after (Piecemeal.opened s file version) (before ++ [edit])
    rw [hnone, List.nil_append, Piecemeal.after, List.foldl_append] at hgiven
    rw [hq, ← hgiven]
    exact (Overseen.shows hopened hshows).after later
  have hagrees := hover.steady.stance
  rw [hplanned] at hagrees
  refine ⟨hagrees.2, hover.steady.account, hover.steady.balanced, hover.steady.faithful, ?_,
    fun tag htag => ?_⟩
  · rw [Piecemeal.given_after, hnone, List.nil_append]
  have hexpected : q.stamp = expected := by
    obtain ⟨documents, refusals, record, verdict, hoffer, hjudged⟩ :=
      q.state.offer_of_script_nil hover.steady.script q.file plan.incoming expected
    simp only [Piecemeal.happen, q, hplanned, State.takeStep] at haccepted hoffer
    rw [hoffer] at haccepted
    cases haccepted
    exact (hjudged.stamp_le.2 accepted rfl).1
  have hgone : tag ∉ q.ledger.incoming.flatten := fun hmem =>
    absurd htag (Nat.not_lt.mpr (hover.planned hplanned (hexpected ▸ hover.shown_le) tag hmem))
  have hmem : tag ∈ q.ledger.removed ++ q.ledger.queue.flatten ++ q.ledger.incoming.flatten := by
    rw [hover.steady.balanced.tags, List.mem_range]
    exact Nat.lt_of_lt_of_le htag hover.count_le
  rw [List.mem_append, List.mem_append] at hmem
  exact ⟨hgone, (hmem.resolve_right hgone).symm⟩

/-- The document is edited behind the look at its stamp, so the first offer is refused; when the
second one is accepted, the edit is the queue, and a patch that the document does not show yet waits
in front of it. -/
theorem accepted_overlooks_nothing_refused_once :
    let start : State := { settings := {}, documents := .insert {} ⟨['f']⟩ ['a', 'b'] }
    let first : Patch := .forDocument 0 [.insertion 0 ['x']] 2
    let second : Patch := .forDocument 0 [.insertion 1 ['y']] 3
    let change : RemoteChange := ⟨.forDocument 0 [.insertion 1 ['r']] 2, 1⟩
    let plan : Plan :=
      ⟨.forDocument 1 [.insertion 2 ['r']] 3, [.forDocument 1 [.insertion 0 ['x']] 3]⟩
    let q := (Piecemeal.opened start ⟨['f']⟩ 0).after
      ([.come change, .step, .hand [first]] ++ .write first ::
        [.step, .step, .step, .step, .step, .hand [second]])
    q.outbox.queue = [first] ∧ q.outbox.incoming = [second] ∧ change.plan [first] = .ok plan ∧
      List.Forall₂ (Carries [first, second]) [[0]] [first] ∧ 0 ∉ q.ledger.incoming.flatten ∧
      (0 ∈ q.ledger.queue.flatten ∨ 0 ∈ q.ledger.removed) := by
  intro start first second change plan q
  have hplanned : q.stance = .planned change 2 plan := by
    decide +kernel
  have haccepted : (q.happen .step).stance = .judged change plan (.accepted 3) := by
    decide +kernel
  have hqueue : q.outbox.queue = [first] := by decide +kernel
  have htags : q.ledger.queue = [[0]] := by decide +kernel
  obtain ⟨hplan, haccount, -, hfaithful, hgiven, htag⟩ :=
    accepted_overlooks_nothing start ⟨['f']⟩ 0 rfl rfl
      [.come change, .step, .hand [first]] [.step, .step, .step, .step, .step, .hand [second]]
      (.write first) (by decide +kernel) hplanned haccepted
  have hcarried := hfaithful.queue
  rw [hgiven, haccount] at hcarried
  obtain ⟨hgone, hthere⟩ := htag 0 (by decide)
  change List.Forall₂ (Carries [first, second]) q.ledger.queue q.outbox.queue at hcarried
  rw [htags, hqueue] at hcarried
  exact ⟨hqueue, by decide +kernel, hqueue ▸ hplan, hcarried, hgone, hthere⟩

end Session
end Coedit
