import Coedit.Proofs.Confirmation
import Coedit.Proofs.Piecemeal

/-!
An editor hands a patch over before it makes the edit in the document; in between the edit is half
made. As long as the document takes no change in while an edit is half made, the patches that wait
lead from the server's text to the live text with the half-made edits made, and every change fits
(`undelivered_agrees`). A change that the document does take in meanwhile was planned for a text
that the document does not have yet (`half_made_disagrees`).
-/
namespace Coedit

namespace ServerFile

variable {f : ServerFile} {version : Int} {base text : Text} {change : RemoteChange} {patch : Patch}

/-- The change is the commit right behind a version. -/
structure IsNext (f : ServerFile) (version : Int) (change : RemoteChange) : Prop where
  committed : f.history[version.toNat]? = some change.patch
  version_eq : change.version = version + 1

/-- The next commit fits the text of a version and makes the text of the version behind it. -/
theorem Since.next (h : f.Since version base) (hn : f.IsNext version change) :
    ∃ next, change.patch.Leads base next ∧ f.Since change.version next := by
  obtain ⟨hlt, hpatch⟩ := List.getElem?_eq_some_iff.mp hn.committed
  have hmade := h.made
  rw [List.drop_eq_getElem_cons hlt, hpatch] at hmade
  obtain ⟨next, -, hleads, hrest⟩ := hmade.of_cons h.free
  have hnonneg := h.nonneg
  have hversion := hn.version_eq
  refine ⟨next, hleads, by omega, ?_, hleads.free_after, ?_⟩
  · rw [ServerFile.version]
    omega
  · have hnat : change.version.toNat = version.toNat + 1 := by omega
    rw [hnat]
    exact hrest

theorem Since.push (h : f.Since version base) (hmade : patch.MadeFor f.text.length)
    (hfree : patch.ReturnFree) (happly : patch.apply f.text = .ok text) :
    (f.push patch text).Since version base := by
  have hnonneg := h.nonneg
  have hle := h.le_version
  refine ⟨hnonneg, ?_, h.free, ?_⟩
  · rw [version_push]
    omega
  · have hdrop : version.toNat ≤ f.history.length := by
      rw [ServerFile.version] at hle
      omega
    change Patch.Sequential base ((f.history ++ [patch.rebased f.version]).drop version.toNat) text
    rw [List.drop_append_of_le_length hdrop]
    exact h.made.append (.cons (hmade.rebased _) hfree
      ((Patch.apply_rebased _ _ _).trans happly) (.nil text))

theorem IsNext.push (h : f.IsNext version change) (patch : Patch) (text : Text) :
    (f.push patch text).IsNext version change := by
  obtain ⟨hlt, -⟩ := List.getElem?_eq_some_iff.mp h.committed
  exact ⟨(List.getElem?_append_left hlt).trans h.committed, h.version_eq⟩

end ServerFile

namespace Patch

variable {base live text : Text} {waiting unmade patches : List Patch} {patch : Patch}

/-- Two lists of patches lead from two texts to the same one. -/
def Meet (base : Text) (waiting : List Patch) (live : Text) (unmade : List Patch) : Prop :=
  ∃ text, Sequential base waiting text ∧ Sequential live unmade text

theorem Meet.hand (h : Meet base waiting live unmade)
    (hfit : Sequential live (unmade ++ patches) text) :
    Meet base (waiting ++ patches) live (unmade ++ patches) := by
  obtain ⟨made, hwaiting, hunmade⟩ := h
  obtain ⟨made', hunmade', hpatches⟩ := hfit.of_append
  obtain rfl := Except.ok.inj (hunmade.applyAll_eq.symm.trans hunmade'.applyAll_eq)
  exact ⟨text, hwaiting.append hpatches, hfit⟩

theorem Meet.write (h : Meet base waiting live (patch :: unmade)) :
    ∃ text, patch.apply live = .ok text ∧ Meet base waiting text unmade := by
  obtain ⟨made, hwaiting, hunmade⟩ := h
  cases hunmade with
  | cons hm hr happly hrest => exact ⟨_, happly, made, hwaiting, hrest⟩

/-- With nothing half made, the patches lead to the live text itself. -/
theorem Meet.of_nil (h : Meet base waiting live []) : Sequential base waiting live := by
  obtain ⟨made, hwaiting, hunmade⟩ := h
  cases hunmade
  exact hwaiting

end Patch

namespace Outbox

/-- A move of a sender that gets nothing delivered. A batch that changes nothing is dropped
unsent. -/
def DeliversNothing (o : Outbox) : Move → Prop
  | .drain | .ask .. | .claim _ | .release => True
  | .remove count =>
    ∃ joined, Patch.consolidate (o.queue.take count) = .ok (some joined) ∧ joined.isEmpty
  | .opened .. | .enqueue _ | .replace _ | .advance _ | .expect _ => False

variable {o : Outbox} {m : Move} {count : Nat} {base text : Text} {joined : Patch}

/-- To drop a batch that changes nothing changes nothing. -/
theorem sequential_removeSent (hfree : '\r' ∉ base)
    (hjoined : Patch.consolidate (o.queue.take count) = .ok (some joined))
    (hempty : joined.isEmpty) (h : Patch.Sequential base o.pending text) :
    Patch.Sequential base (o.removeSent count).pending text := by
  rw [pending, ← List.take_append_drop count o.queue, List.append_assoc] at h
  obtain ⟨mid, hbatch, hrest⟩ := h.of_append
  cases hqueue : o.queue.take count with
  | nil =>
    rw [hqueue] at hjoined
    cases hjoined
  | cons p ps =>
    rw [hqueue] at hjoined hbatch
    obtain ⟨m, hm, hleads, -⟩ := hbatch.consolidate hfree
    obtain rfl := Option.some.inj (Except.ok.inj (hm.symm.trans hjoined))
    obtain rfl := hleads.eq_of_isEmpty hempty
    exact hrest

theorem DeliversNothing.version_move (hm : o.DeliversNothing m) :
    (o.move m).version = o.version := by
  cases m with
  | drain | remove | ask | claim | release => rfl
  | opened | enqueue | replace | advance | expect => exact hm.elim

theorem DeliversNothing.incoming_move {unmade : List Patch} (hm : o.DeliversNothing m)
    (h : o.incoming <:+ unmade) : (o.move m).incoming <:+ unmade := by
  cases m with
  | drain => exact List.nil_suffix
  | remove | ask | claim | release => exact h
  | opened | enqueue | replace | advance | expect => exact hm.elim

theorem DeliversNothing.sequential (hm : o.DeliversNothing m) (hfree : '\r' ∉ base)
    (h : Patch.Sequential base o.pending text) :
    Patch.Sequential base (o.move m).pending text := by
  cases m with
  | ask | claim | release => exact h
  | drain =>
    change Patch.Sequential base (o.drain.queue ++ []) text
    rw [List.append_nil]
    exact sequential_drain h
  | remove count =>
    obtain ⟨joined, hjoined, hempty⟩ := hm
    exact sequential_removeSent hfree hjoined hempty h
  | opened | enqueue | replace | advance | expect => exact hm.elim

end Outbox

namespace Session

variable {s : State} {file : FileId} {version expected : Int} {p : Piecemeal}
  {unmade patches : List Patch} {patch : Patch} {change : RemoteChange} {plan : Plan}

namespace Piecemeal

def live (p : Piecemeal) : Text := (p.state.documents.buffer p.file).text

def served (p : Piecemeal) : ServerFile := p.state.server.file p.file

end Piecemeal

/-- The server's version in the document, and the patches on top of it. Once the document has
accepted a change they are ahead of the outbox. -/
def Stance.contained (o : Outbox) : Stance → Int × List Patch
  | .judged change plan (.accepted _) => (change.version, plan.rebased ++ o.incoming)
  | _ => (o.version, o.pending)

theorem Stance.contained_enqueue (stance : Stance) (o : Outbox) (patches : List Patch) :
    stance.contained (o.enqueue patches) =
      ((stance.contained o).1, (stance.contained o).2 ++ patches) := by
  cases stance with
  | ended | ready | looked | planned => simp [contained, Outbox.enqueue, Outbox.pending]
  | judged change plan verdict => cases verdict <;> simp [contained, Outbox.enqueue, Outbox.pending]

theorem Stance.contained_move {stance : Stance} {o : Outbox} {m : Move} {base live : Text}
    (hadmits : stance.admits m) (hm : o.DeliversNothing m) (hfree : '\r' ∉ base)
    (h : Patch.Meet base (stance.contained o).2 live unmade) :
    (stance.contained (o.move m)).1 = (stance.contained o).1 ∧
      Patch.Meet base (stance.contained (o.move m)).2 live unmade := by
  cases m with
  | claim | release => exact ⟨rfl, h⟩
  | drain | remove | ask =>
    cases stance with
    | ended result =>
      obtain ⟨made, hwaiting, hunmade⟩ := h
      exact ⟨hm.version_move, made, hm.sequential hfree hwaiting, hunmade⟩
    | ready | looked | planned | judged => cases hadmits
  | opened | enqueue | replace | advance | expect => exact hm.elim

/-- The change that is taken in is the server's next one, and a plan that does not know all that is
handed over is for an older stamp unless the rest is half made. -/
def Stance.OnCourse (f : ServerFile) (o : Outbox) (stamp : Int) (unmade : List Patch) :
    Stance → Prop
  | .ended result => result = .ok ()
  | .ready change | .looked change _ => f.IsNext o.version change
  | .planned change expected _ =>
    f.IsNext o.version change ∧ (expected < stamp ∨ o.incoming <:+ unmade)
  | .judged change _ verdict => f.IsNext o.version change ∧ ∀ error, verdict ≠ .failed error

theorem Stance.OnCourse.later {stance : Stance} {f f' : ServerFile} {o o' : Outbox}
    {stamp stamp' : Int} {unmade' : List Patch} (h : stance.OnCourse f o stamp unmade)
    (hnext : ∀ change, f.IsNext o.version change → f'.IsNext o'.version change)
    (hle : stamp ≤ stamp') (hrest : ∀ change expected plan,
      stance = .planned change expected plan → o.incoming <:+ unmade →
        expected < stamp' ∨ o'.incoming <:+ unmade') :
    stance.OnCourse f' o' stamp' unmade' := by
  cases stance with
  | ended => exact h
  | ready | looked => exact hnext _ h
  | planned change expected plan =>
    exact ⟨hnext _ h.1, h.2.elim (fun hlt => .inl (Int.lt_of_lt_of_le hlt hle))
      (hrest change expected plan rfl)⟩
  | judged => exact ⟨hnext _ h.1, h.2⟩

def Stance.isDecided : Stance → Bool
  | .judged _ _ (.refused _) => false
  | .judged .. => true
  | _ => false

/-- Runs of an open file that others edit on the server too, while nothing that is handed over is
delivered. The patches in the list are handed over and not made in the document yet. -/
inductive Undelivered (s : State) (file : FileId) (version : Int) : Piecemeal → List Patch → Prop
  | opened : Undelivered s file version (.opened s file version) []
  /-- Patches are made for the live text with the half-made edits made. -/
  | hand {p : Piecemeal} {unmade : List Patch} {text : Text} (patches : List Patch) :
      Undelivered s file version p unmade →
      Patch.Sequential p.live (unmade ++ patches) text →
      Undelivered s file version (p.happen (.hand patches)) (unmade ++ patches)
  /-- Edits are made in the order in which they are handed over. -/
  | write {p : Piecemeal} {patch : Patch} {unmade : List Patch} :
      Undelivered s file version p (patch :: unmade) →
      Undelivered s file version (p.happen (.write patch)) unmade
  | round {p : Piecemeal} {unmade : List Patch} (m : Move) : Undelivered s file version p unmade →
      p.outbox.DeliversNothing m → Undelivered s file version (p.happen (.round m)) unmade
  | commit {p : Piecemeal} {unmade : List Patch} (diffs : List Diff) :
      Undelivered s file version p unmade → (∀ d ∈ diffs, '\r' ∉ d.text) →
      Undelivered s file version (p.happen (.commit diffs)) unmade
  /-- Changes come in the order in which they are committed. -/
  | come {p : Piecemeal} {unmade : List Patch} (change : RemoteChange) :
      Undelivered s file version p unmade → p.served.IsNext p.outbox.version change →
      Undelivered s file version (p.happen (.come change)) unmade
  /-- While an edit is half made the document refuses what it is offered. -/
  | step {p : Piecemeal} {unmade : List Patch} : Undelivered s file version p unmade →
      (unmade ≠ [] → (p.happen .step).stance.isDecided = false) →
      Undelivered s file version (p.happen .step) unmade

/-- What is contained in the document leads to the live text with the half-made edits made. -/
structure Agreeing (p : Piecemeal) (unmade : List Patch) : Prop where
  steady : Steady p
  meets : ∃ base, p.served.Since (p.stance.contained p.outbox).1 base ∧
    Patch.Meet base (p.stance.contained p.outbox).2 p.live unmade
  onCourse : p.stance.OnCourse p.served p.outbox p.stamp unmade

namespace Agreeing

/-- Where the live text and the server stay the same, the outbox and the stance decide. -/
theorem of_same {q : Piecemeal} {stance : Stance} {o : Outbox} (hsteady : Steady q)
    (hsame : q.live = p.live ∧ q.served = p.served) (hstance : q.stance = stance)
    (houtbox : q.outbox = o)
    (hmeets : ∃ base, p.served.Since (stance.contained o).1 base ∧
      Patch.Meet base (stance.contained o).2 p.live unmade)
    (hcourse : stance.OnCourse p.served o q.stamp unmade) : Agreeing q unmade := by
  refine ⟨hsteady, ?_, ?_⟩
  · rw [hstance, houtbox, hsame.1, hsame.2]
    exact hmeets
  · rw [hstance, houtbox, hsame.2]
    exact hcourse

theorem opened (hnew : s.tracked.get? file = none) (hscript : s.applyScript = [])
    (hsince : (s.server.file file).Since version (s.documents.buffer file).text) :
    Agreeing (.opened s file version) [] := by
  have houtbox := Steady.outbox_opened hnew version
  have hstate : (Piecemeal.opened s file version).state.documents = s.documents ∧
      (Piecemeal.opened s file version).state.server = s.server := by
    simp only [Piecemeal.opened, Steady.track_of_new hnew, and_self]
  refine ⟨.opened hnew hscript version, ⟨(s.documents.buffer file).text, ?_, ?_⟩, rfl⟩
  · rw [houtbox, Piecemeal.served, hstate.2]
    exact hsince
  · rw [houtbox, Piecemeal.live, hstate.1]
    exact ⟨_, .nil _, .nil _⟩

theorem hand {text : Text} (h : Agreeing p unmade)
    (hfit : Patch.Sequential p.live (unmade ++ patches) text) :
    Agreeing (p.happen (.hand patches)) (unmade ++ patches) := by
  obtain ⟨base, hsince, hmeet⟩ := h.meets
  obtain ⟨houtbox, hdocuments, hserver⟩ := h.steady.view_hand patches
  have hlive : (p.happen (.hand patches)).live = p.live :=
    congrArg (fun d => (Documents.buffer d p.file).text) hdocuments
  have hstamp : (p.happen (.hand patches)).stamp = p.stamp :=
    congrArg (Documents.stamp · p.file) hdocuments
  have hserved : (p.happen (.hand patches)).served = p.served :=
    congrArg (Server.file · p.file) hserver
  refine .of_same (h.steady.hand patches) ⟨hlive, hserved⟩ rfl houtbox ?_ ?_
  · rw [Stance.contained_enqueue]
    exact ⟨base, hsince, hmeet.hand hfit⟩
  · rw [hstamp]
    refine h.onCourse.later (fun _ hnext => hnext) (Int.le_refl _) ?_
    rintro change expected plan - ⟨made, hmade⟩
    exact .inr ⟨made, by rw [← hmade, List.append_assoc]; rfl⟩

theorem write (h : Agreeing p (patch :: unmade)) : Agreeing (p.happen (.write patch)) unmade := by
  obtain ⟨base, hsince, hmeet⟩ := h.meets
  obtain ⟨text, happly, hmeet⟩ := hmeet.write
  have hbuffer : (p.happen (.write patch)).state.documents.buffer p.file =
      (p.state.documents.buffer p.file).write text := by
    rcases p.state.documents.edit_cases p.file patch with
      ⟨text', happly', hedit⟩ | ⟨error, happly', -⟩
    · obtain rfl := Except.ok.inj (happly.symm.trans happly')
      change (p.state.documents.edit p.file patch).1.buffer p.file = _
      rw [hedit, Documents.buffer_set_same]
    · cases happly.symm.trans happly'
  have hlive : (p.happen (.write patch)).live = text := congrArg Buffer.text hbuffer
  have hstamp : (p.happen (.write patch)).stamp = p.stamp + 1 := congrArg Buffer.stamp hbuffer
  refine ⟨h.steady.write patch, ⟨base, hsince, ?_⟩, ?_⟩
  · rw [hlive]
    exact hmeet
  · rw [hstamp]
    refine h.onCourse.later (fun _ hnext => hnext) (Int.le_add_one (Int.le_refl _)) ?_
    intro change expected plan hstance _
    have hagrees := h.steady.stance
    rw [hstance] at hagrees
    exact .inl (Int.lt_add_one_of_le hagrees.1)

theorem round {m : Move} (h : Agreeing p unmade) (hm : p.outbox.DeliversNothing m) :
    Agreeing (p.happen (.round m)) unmade := by
  obtain ⟨base, hsince, hmeet⟩ := h.meets
  by_cases hadmits : p.stance.admits m
  · have hhappen : p.happen (.round m) =
        { p with
          state := p.state.setOutbox p.box (p.outbox.move m)
          ledger := p.ledger.note m } := if_pos hadmits
    have houtbox : (p.happen (.round m)).outbox = p.outbox.move m := by
      rw [hhappen]
      exact State.outbox_setOutbox h.steady.known
    have hsame : (p.happen (.round m)).live = p.live ∧ (p.happen (.round m)).served = p.served := by
      rw [hhappen]
      exact ⟨rfl, rfl⟩
    obtain ⟨hversion, hmeet⟩ := Stance.contained_move hadmits hm hsince.free hmeet
    refine .of_same (h.steady.round m) hsame (congrArg Piecemeal.stance hhappen) houtbox
      ⟨base, hversion ▸ hsince, hmeet⟩ ?_
    rw [hhappen]
    exact h.onCourse.later (fun _ hnext => hm.version_move.symm ▸ hnext) (Int.le_refl _)
      fun _ _ _ _ hrest => .inr (hm.incoming_move hrest)
  · have hhappen : p.happen (.round m) = p := if_neg hadmits
    rw [hhappen]
    exact h

theorem commit {diffs : List Diff} (h : Agreeing p unmade) (hdiffs : ∀ d ∈ diffs, '\r' ∉ d.text) :
    Agreeing (p.happen (.commit diffs)) unmade := by
  obtain ⟨base, hsince, hmeet⟩ := h.meets
  obtain ⟨server, hcommit, hserver⟩ := p.state.commitOther_cases p.file diffs
  have hsteady := h.steady.commit diffs
  have hcourse := h.onCourse
  simp only [Piecemeal.happen, hcommit] at hsteady ⊢
  change Agreeing { p with state := { p.state with server } } unmade
  have hfile : Piecemeal.served { p with state := { p.state with server } } =
      server.file p.file := rfl
  rcases hserver with hsame | ⟨version, text, happly, hpush⟩
  · rw [hsame] at hfile
    exact ⟨hsteady, ⟨base, hfile ▸ hsince, hmeet⟩, hfile ▸ hcourse⟩
  · have hfree : (Patch.forDocument version diffs p.served.text.length).ReturnFree :=
      fun _ hd => Diff.not_mem_text_of_mem_simplify hdiffs hd
    rw [hpush] at hfile
    refine ⟨hsteady, ⟨base, hfile ▸ hsince.push ⟨_, _, rfl⟩ hfree happly, hmeet⟩, ?_⟩
    exact hcourse.later (fun _ hnext => hfile ▸ hnext.push _ _) (Int.le_refl _)
      fun _ _ _ _ hrest => .inr hrest

theorem come (h : Agreeing p unmade) (hnext : p.served.IsNext p.outbox.version change) :
    Agreeing (p.happen (.come change)) unmade := by
  have hsteady := h.steady.come change
  unfold Piecemeal.happen at hsteady ⊢
  dsimp only at hsteady ⊢
  split
  · rename_i result hended
    have hmeets := h.meets
    simp only [hended] at hsteady hmeets
    exact ⟨hsteady, hmeets, hnext⟩
  · exact h

theorem look (h : Agreeing p unmade) (hstance : p.stance = .ready change) :
    Agreeing (p.happen .step) unmade := by
  have hsteady := h.steady.step
  have hmeets := h.meets
  have hcourse := h.onCourse
  rw [hstance] at hmeets hcourse
  simp only [Piecemeal.happen, hstance, State.takeStep, State.takeMoves,
    List.foldl_nil] at hsteady ⊢
  exact ⟨hsteady, hmeets, hcourse⟩

theorem drain (h : Agreeing p unmade) (hstance : p.stance = .looked change expected) :
    Agreeing (p.happen .step) unmade := by
  obtain ⟨base, hsince, text, hwaiting, hunmade⟩ := h.meets
  have hcourse := h.onCourse
  have hsteady := h.steady.step
  rw [hstance] at hsince hwaiting hcourse
  obtain ⟨next, hleads, -⟩ := hsince.next hcourse
  obtain ⟨plan, -, hplan, -⟩ := RemoteChange.plan_meets hleads (Outbox.sequential_drain hwaiting)
  have houtbox : (p.happen .step).outbox = p.outbox.drain := by
    simp only [Piecemeal.happen, hstance, State.takeStep]
    exact State.outbox_setOutbox h.steady.known
  have hstance' : (p.happen .step).stance = .planned change expected plan := by
    change change.plan (p.state.outbox p.box).drain.queue = .ok plan at hplan
    simp only [Piecemeal.happen, hstance, State.takeStep, hplan]
  have hsame : (p.happen .step).live = p.live ∧ (p.happen .step).served = p.served := by
    simp only [Piecemeal.happen, hstance, State.takeStep]
    exact ⟨rfl, rfl⟩
  have hpending : Patch.Sequential base p.outbox.drain.pending text :=
    Outbox.DeliversNothing.sequential (m := .drain) trivial hsince.free hwaiting
  exact .of_same hsteady hsame hstance' houtbox ⟨base, hsince, text, hpending, hunmade⟩
    ⟨hcourse, .inr List.nil_suffix⟩

/-- With nothing half made, a plan for the stamp that the document has knows all that waits, and
fits. -/
theorem plan_fits (h : Agreeing p []) (hstance : p.stance = .planned change expected plan)
    (hstamp : p.stamp = expected) :
    p.outbox.incoming = [] ∧ ∃ next merged, p.served.Since change.version next ∧
      plan.incoming.Leads p.live merged ∧ Patch.Sequential next plan.rebased merged := by
  obtain ⟨base, hsince, hmeet⟩ := h.meets
  have hcourse := h.onCourse
  have hagrees := h.steady.stance
  rw [hstance] at hsince hmeet hcourse hagrees
  obtain ⟨next, hleads, hnext⟩ := hsince.next hcourse.1
  have hincoming : p.outbox.incoming = [] :=
    List.suffix_nil.mp (hcourse.2.resolve_left (Int.not_lt.mpr (Int.le_of_eq hstamp)))
  have hqueue : Patch.Sequential base (p.outbox.queue ++ p.outbox.incoming) p.live := hmeet.of_nil
  rw [hincoming, List.append_nil] at hqueue
  obtain ⟨plan', _, hplan, -, hfits, hrebased⟩ := RemoteChange.plan_meets hleads hqueue
  obtain rfl := Except.ok.inj (hplan.symm.trans hagrees.2)
  exact ⟨hincoming, next, _, hnext, hfits, hrebased⟩

theorem offer (h : Agreeing p unmade) (hstance : p.stance = .planned change expected plan)
    (hrefuses : unmade ≠ [] → (p.happen .step).stance.isDecided = false) :
    Agreeing (p.happen .step) unmade := by
  have hsteady := h.steady.step
  obtain ⟨documents, refusals, record, verdict, hoffer, hjudged⟩ :=
    p.state.offer_of_script_nil h.steady.script p.file plan.incoming expected
  have hhappen : p.happen .step =
      { p with
        state := { p.state with documents, refusals, record }
        stance := .judged change plan verdict } := by
    simp only [Piecemeal.happen, hstance, State.takeStep, State.takeMoves, hoffer, List.foldl_nil]
  rw [hhappen] at hsteady hrefuses ⊢
  have hcourse := h.onCourse
  rw [hstance] at hcourse
  cases hjudged with
  | refused hbuffer =>
    obtain ⟨base, hsince, hmeet⟩ := h.meets
    rw [hstance] at hsince hmeet
    refine ⟨hsteady, ⟨base, hsince, ?_⟩, hcourse.1, fun _ he => by cases he⟩
    rw [Piecemeal.live, hbuffer]
    exact hmeet
  | accepted hstamp happly hbuffer =>
    obtain rfl : unmade = [] := by
      by_contra hne
      cases hrefuses hne
    obtain ⟨hincoming, next, merged, hnext, hfits, hrebased⟩ := h.plan_fits hstance hstamp
    obtain rfl := Except.ok.inj (hfits.apply_eq.symm.trans happly)
    refine ⟨hsteady, ⟨next, hnext, merged, ?_, ?_⟩, hcourse.1, fun _ he => by cases he⟩
    · change Patch.Sequential next (plan.rebased ++ p.outbox.incoming) merged
      rw [hincoming, List.append_nil]
      exact hrebased
    · rw [Piecemeal.live, hbuffer]
      exact .nil merged
  | failed hstamp happly _ =>
    obtain rfl : unmade = [] := by
      by_contra hne
      cases hrefuses hne
    obtain ⟨-, next, merged, -, hfits, -⟩ := h.plan_fits hstance hstamp
    cases hfits.apply_eq.symm.trans happly

theorem settle {verdict : Verdict} (h : Agreeing p unmade)
    (hstance : p.stance = .judged change plan verdict) : Agreeing (p.happen .step) unmade := by
  obtain ⟨base, hsince, text, hwaiting, hunmade⟩ := h.meets
  have hcourse := h.onCourse
  have hsteady := h.steady.step
  rw [hstance] at hsince hwaiting hcourse
  have houtbox : (p.happen .step).outbox =
      (change.settle plan (verdict.renewed p.stamp) p.outbox).1 := by
    simp only [Piecemeal.happen, hstance, State.takeStep]
    exact State.outbox_setOutbox h.steady.known
  have hstance' : (p.happen .step).stance =
      .after change (change.settle plan (verdict.renewed p.stamp) p.outbox).2 := by
    simp only [Piecemeal.happen, hstance, State.takeStep]
    rfl
  have hsame : (p.happen .step).live = p.live ∧ (p.happen .step).served = p.served := by
    simp only [Piecemeal.happen, hstance, State.takeStep]
    exact ⟨rfl, rfl⟩
  cases verdict with
  | failed error => exact absurd rfl (hcourse.2 error)
  | refused stamp =>
    exact .of_same hsteady hsame hstance' houtbox ⟨base, hsince, text, hwaiting, hunmade⟩ hcourse.1
  | accepted stamp =>
    have hpending := Outbox.sequential_advance
      (o := (p.outbox.replaceQueue plan.rebased).expectStamp stamp) hwaiting change.version
    exact .of_same hsteady hsame hstance' houtbox ⟨base, hsince, text, hpending, hunmade⟩ rfl

theorem of_undelivered (hnew : s.tracked.get? file = none) (hscript : s.applyScript = [])
    (hsince : (s.server.file file).Since version (s.documents.buffer file).text)
    (h : Undelivered s file version p unmade) : Agreeing p unmade := by
  induction h with
  | opened => exact .opened hnew hscript hsince
  | hand patches _ hfit ih => exact ih.hand hfit
  | write _ ih => exact ih.write
  | round m _ hm ih => exact ih.round hm
  | commit diffs _ hdiffs ih => exact ih.commit hdiffs
  | come change _ hnext ih => exact ih.come hnext
  | @step p unmade _ hrefuses ih =>
    cases hstance : p.stance with
    | ended result =>
      have hhappen : p.happen .step = p := by
        simp only [Piecemeal.happen, hstance, State.takeStep, State.takeMoves, List.foldl_nil]
        rw [← hstance]
      rw [hhappen]
      exact ih
    | ready change => exact ih.look hstance
    | looked change expected => exact ih.drain hstance
    | planned change expected plan => exact ih.offer hstance hrefuses
    | judged change plan verdict => exact ih.settle hstance

end Agreeing

/-- While nothing is delivered and no change is taken in over a half-made edit, every change that
comes is taken in. What waits leads from the server's text at the client's version to the live text
with the half-made edits made, which is the live text itself if there are none. -/
theorem undelivered_agrees (hnew : s.tracked.get? file = none) (hscript : s.applyScript = [])
    (hsince : (s.server.file file).Since version (s.documents.buffer file).text)
    (h : Undelivered s file version p unmade) :
    (∀ result, p.stance = .ended result → result = .ok ()) ∧
      (∀ change plan error, p.stance ≠ .judged change plan (.failed error)) ∧
      (p.stance.isDecided = false →
        ∃ base text, p.served.Since p.outbox.version base ∧
          Patch.applyAll base p.outbox.pending = .ok text ∧
          Patch.applyAll p.live unmade = .ok text ∧ (unmade = [] → text = p.live)) := by
  have hagreeing := Agreeing.of_undelivered hnew hscript hsince h
  have hcourse := hagreeing.onCourse
  refine ⟨?_, ?_, fun hundecided => ?_⟩
  · intro result hstance
    rw [hstance] at hcourse
    exact hcourse
  · intro change plan error hstance
    rw [hstance] at hcourse
    exact hcourse.2 error rfl
  · obtain ⟨base, hsince, text, hwaiting, hunmade⟩ := hagreeing.meets
    have hcontained : p.stance.contained p.outbox = (p.outbox.version, p.outbox.pending) := by
      cases hstance : p.stance with
      | ended | ready | looked | planned => rfl
      | judged change plan verdict =>
        rw [hstance] at hundecided
        cases verdict with
        | refused => rfl
        | accepted | failed => cases hundecided
    rw [hcontained] at hsince hwaiting
    refine ⟨base, text, hsince, hwaiting.applyAll_eq, hunmade.applyAll_eq, ?_⟩
    rintro rfl
    cases hunmade
    rfl

/-- A change is refused while a second edit is half made, and taken in once it is made. -/
theorem undelivered_agrees_refused_once :
    let file : FileId := ⟨['f']⟩
    let start : State := {
      settings := {}
      documents := .insert {} file ['a', 'b']
      server := ⟨[(file, ⟨['a', 'b'], []⟩)]⟩ }
    let first : Patch := .forDocument 0 [.insertion 0 ['x']] 2
    let second : Patch := .forDocument 0 [.insertion 1 ['y']] 3
    let edited := Piecemeal.opened start file 0
      |>.happen (.commit [.insertion 1 ['r']])
      |>.happen (.come ⟨.forDocument 0 [.insertion 1 ['r']] 2, 1⟩)
      |>.happen .step
      |>.happen (.hand [first])
      |>.happen (.write first)
      |>.happen .step
    let taken := edited
      |>.happen (.hand [second])
      |>.happen .step
      |>.happen (.write second)
      |>.happen .step
      |>.happen .step
      |>.happen .step
      |>.happen .step
      |>.happen .step
    taken.live = ['x', 'y', 'a', 'r', 'b'] ∧ taken.outbox.version = 1 ∧ ∃ base,
      taken.served.Since 1 base ∧ Patch.applyAll base taken.outbox.pending = .ok taken.live := by
  intro file start first second edited taken
  have hsince : (start.server.file file).Since 0 (start.documents.buffer file).text :=
    ⟨by decide, by decide, by decide, .nil ['a', 'b']⟩
  have hopened : Undelivered start file 0 (.opened start file 0) [] := .opened
  have hcome := (hopened.commit [.insertion 1 ['r']] (by decide)).come
    ⟨.forDocument 0 [.insertion 1 ['r']] 2, 1⟩ ⟨by decide +kernel, by decide +kernel⟩
  have hfirst := ((hcome.step (fun h => absurd rfl h)).hand [first]
    (.cons ⟨0, _, rfl⟩ (by decide) (by decide +kernel) (.nil ['x', 'a', 'b']))).write
  have hedited : Undelivered start file 0 edited [] := hfirst.step (fun h => absurd rfl h)
  have hlive : edited.live = ['x', 'a', 'b'] := by decide +kernel
  have hfit : Patch.Sequential edited.live [second] ['x', 'y', 'a', 'b'] := by
    rw [hlive]
    exact .cons ⟨0, _, rfl⟩ (by decide) rfl (.nil _)
  have hrefused := ((hedited.hand [second] hfit).step (fun _ => by decide +kernel)).write
  have htaken : Undelivered start file 0 taken [] :=
    ((((hrefused.step (fun h => absurd rfl h)).step (fun h => absurd rfl h)).step
      (fun h => absurd rfl h)).step (fun h => absurd rfl h)).step (fun h => absurd rfl h)
  have hended : taken.stance.isDecided = false := by decide +kernel
  have hversion : taken.outbox.version = 1 := by decide +kernel
  obtain ⟨-, -, hagrees⟩ := undelivered_agrees rfl rfl hsince htaken
  obtain ⟨base, text, hbase, htext, -, hlive⟩ := hagrees hended
  exact ⟨by decide +kernel, hversion, base, hversion ▸ hbase, hlive rfl ▸ htext⟩

/-- The document takes a change in before the edit that it was planned for is made: the client ends
with another text than the server's with what waits, and for good. -/
theorem half_made_disagrees :
    let file : FileId := ⟨['f']⟩
    let start : State := {
      settings := {}
      documents := .insert {} file ['a', 'b']
      server := ⟨[(file, ⟨['a', 'b'], []⟩)]⟩ }
    let edit : Patch := .forDocument 0 [.insertion 0 ['x']] 2
    let planned := Piecemeal.opened start file 0
      |>.happen (.hand [edit])
      |>.happen (.commit [.insertion 1 ['r']])
      |>.happen (.come ⟨.forDocument 0 [.insertion 1 ['r']] 2, 1⟩)
      |>.happen .step
      |>.happen .step
    let made := planned
      |>.happen .step
      |>.happen .step
      |>.happen (.write edit)
    Undelivered start file 0 planned [edit] ∧ made.stance = .ended (.ok ()) ∧
      made.outbox.version = 1 ∧ made.served.version = 1 ∧
      Patch.applyAll made.served.text made.outbox.pending = .ok ['x', 'a', 'r', 'b'] ∧
      made.live = ['x', 'a', 'b', 'r'] := by
  intro file start edit planned made
  have hopened : Undelivered start file 0 (.opened start file 0) [] := .opened
  have hhanded := hopened.hand [edit]
    (.cons ⟨0, _, rfl⟩ (by decide) (by decide +kernel) (.nil ['x', 'a', 'b']))
  have hcome := (hhanded.commit [.insertion 1 ['r']] (by decide)).come
    ⟨.forDocument 0 [.insertion 1 ['r']] 2, 1⟩ ⟨by decide +kernel, by decide +kernel⟩
  have hplanned := (hcome.step (fun _ => by decide +kernel)).step (fun _ => by decide +kernel)
  refine ⟨hplanned, ?_⟩
  decide +kernel

end Session
end Coedit
