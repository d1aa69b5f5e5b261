import Coedit.Proofs.Outboxes
import Coedit.Proofs.Sequence

/-!
What actions do to a session beside their results. No action moves a task (`Meanwhile.keepsPhases`).
The user's edits of an open file put their patches behind those that wait and change the document
once each (`performAll_edits`), so that the waiting patches still lead from the server's text to
the live one.
-/
namespace Coedit

namespace Outbox

variable {o : Outbox} {t u : Text}

theorem exists_relabel_eq (version : Int) (p : Patch) :
    ∃ label, relabel version p = p.rebased label := by
  unfold relabel
  split
  · exact ⟨version, rfl⟩
  · exact ⟨p.baseVersion, rfl⟩

/-- Taking the incoming patches in changes their labels only. -/
theorem sequential_drain (h : Patch.Sequential t o.pending u) :
    Patch.Sequential t o.drain.queue u := by
  obtain ⟨v, hqueue, hincoming⟩ := Patch.Sequential.of_append h
  exact hqueue.append (hincoming.map_rebased (exists_relabel_eq o.version))

/-- So does a new version. -/
theorem sequential_advance (h : Patch.Sequential t o.pending u) (version : Int) :
    Patch.Sequential t (o.advance version).pending u := by
  obtain ⟨v, hqueue, hincoming⟩ := Patch.Sequential.of_append h
  exact (hqueue.map_rebased fun p => ⟨version, rfl⟩).append hincoming

end Outbox

namespace Session

/-- No task has moved from one state to the other; senders may have come. -/
structure KeepsPhases (s t : State) : Prop where
  notifier : t.notifier = s.notifier
  senders : s.senders <+: t.senders

namespace KeepsPhases

variable {s t : State}

theorem sender {index : Nat} {sender : Sender} (h : KeepsPhases s t)
    (hs : s.senders[index]? = some sender) : t.senders[index]? = some sender := by
  obtain ⟨hlt, rfl⟩ := List.getElem?_eq_some_iff.mp hs
  exact List.prefix_iff_getElem?.mp h.senders index hlt

end KeepsPhases

theorem Meanwhile.keepsPhases {own : Option Nat} {log : Log} {s t : State}
    (h : Meanwhile own s log t) : KeepsPhases s t :=
  ⟨h.still.notifier, h.still.senders⟩

/-! ### Edits of the user -/

/-- Edits of a file that fit a text one after another. -/
inductive Edits (file : FileId) : Text → List Action → Text → Prop
  | nil (t : Text) : Edits file t [] t
  | cons {diffs : List Diff} {version : Option Int} {actions : List Action} {t u v : Text} :
      (∀ d ∈ diffs, '\r' ∉ d.text) → (Patch.forDocument 0 diffs t.length).apply t = .ok u →
      Edits file u actions v → Edits file t (.edit file diffs version :: actions) v

theorem Edits.append {file : FileId} {actions more : List Action} {t u v : Text}
    (h : Edits file t actions u) (h' : Edits file u more v) :
    Edits file t (actions ++ more) v := by
  induction h with
  | nil => exact h'
  | cons hd happly _ ih => exact .cons hd happly (ih h')

theorem Edits.of_append {file : FileId} {actions more : List Action} {t v : Text}
    (h : Edits file t (actions ++ more) v) :
    ∃ u, Edits file t actions u ∧ Edits file u more v := by
  induction actions generalizing t with
  | nil => exact ⟨t, .nil t, h⟩
  | cons action actions ih =>
    cases h with
    | cons hd happly h =>
      obtain ⟨u, hfront, hback⟩ := ih h
      exact ⟨u, .cons hd happly hfront, hback⟩

/-- One state came of the other by edits of an open file: the patches wait behind those that
waited, and each has changed the document once. -/
structure Edited (file : FileId) (box : Nat) (s t : State) (patches : List Patch) (text : Text) :
    Prop where
  tracked : t.tracked = s.tracked
  length : t.outboxes.length = s.outboxes.length
  outbox : t.outbox box = (s.outbox box).enqueue patches
  buffer : t.documents.buffer file = ⟨text, s.documents.stamp file + patches.length⟩
  applyScript : t.applyScript = s.applyScript
  refusals : t.refusals = s.refusals

variable {file : FileId} {box : Nat} {s t u : State} {ps qs : List Patch} {live text : Text}

namespace Edited

theorem refl (file : FileId) (box : Nat) (s : State) :
    Edited file box s s [] (s.documents.buffer file).text where
  tracked := rfl
  length := rfl
  outbox := by simp [Outbox.enqueue]
  buffer := by simp [Documents.stamp]
  applyScript := rfl
  refusals := rfl

theorem trans (h : Edited file box s t ps live) (h' : Edited file box t u qs text) :
    Edited file box s u (ps ++ qs) text where
  tracked := h'.tracked.trans h.tracked
  length := h'.length.trans h.length
  outbox := by rw [h'.outbox, h.outbox]; simp [Outbox.enqueue]
  buffer := by
    rw [h'.buffer, Documents.stamp, h.buffer, List.length_append]
    simp [Int.add_assoc]
  applyScript := h'.applyScript.trans h.applyScript
  refusals := h'.refusals.trans h.refusals

end Edited

/-- An edit that fits puts its patch behind those that wait and changes the document. -/
theorem perform_edit {diffs : List Diff} (version : Option Int)
    (ht : s.tracked.get? file = some box) (hb : box < s.outboxes.length)
    (happly : (s.localPatch file diffs version).apply (s.documents.buffer file).text = .ok text) :
    Edited file box s (perform s (.edit file diffs version)).1 [s.localPatch file diffs version]
      text := by
  obtain ⟨record, hm⟩ := s.mention_eq file
  obtain ⟨ready, hs⟩ := State.sendPatches_of_tracked (s := { s with record }) ht
    [s.localPatch file diffs version]
  have hlocal : State.localPatch { s with record } file diffs version =
      s.localPatch file diffs version := rfl
  rw [perform, hm, hlocal, hs]
  simp only [State.editDocument, Documents.edit, State.setOutbox, happly]
  refine ⟨rfl, List.length_set, ?_, ?_, rfl, rfl⟩
  · simp [State.outbox, hb]
  · simp [Documents.buffer_set, Buffer.write, Documents.stamp]

/-- Edits that fit make patches of which each fits the text that the ones before it make. -/
theorem performAll_edits (ht : s.tracked.get? file = some box) (hb : box < s.outboxes.length)
    {actions : List Action} (h : Edits file (s.documents.buffer file).text actions text) :
    ∃ patches, Edited file box s (performAll s actions).1 patches text ∧
      Patch.Sequential (s.documents.buffer file).text patches text ∧
      patches.length = actions.length := by
  generalize hlive : (s.documents.buffer file).text = live at h
  induction h generalizing s with
  | nil t =>
    subst hlive
    rw [performAll]
    exact ⟨[], .refl file box s, .nil _, rfl⟩
  | @cons diffs version actions t v w hd happly _ ih =>
    subst hlive
    have hfits : (s.localPatch file diffs version).apply (s.documents.buffer file).text = .ok v :=
      (Patch.apply_rebased _ _ _).trans happly
    have hfirst := perform_edit version ht hb hfits
    obtain ⟨patches, hrest, hseq, hlength⟩ := ih (hfirst.tracked ▸ ht) (hfirst.length ▸ hb)
      (congrArg Buffer.text hfirst.buffer)
    rw [performAll]
    refine ⟨_, hfirst.trans hrest, .cons ⟨_, _, rfl⟩ ?_ hfits hseq, ?_⟩
    · exact fun d he => Diff.not_mem_text_of_mem_simplify hd he
    · rw [List.length_append, List.length_cons, hlength, Nat.add_comm]
      rfl

/-- The patches that wait for an open file lead from a server text to the live text. -/
structure Synced (s : State) (file : FileId) (box : Nat) (base : Text) : Prop where
  tracked : s.tracked.get? file = some box
  known : box < s.outboxes.length
  free : '\r' ∉ base
  pending : Patch.Sequential base (s.outbox box).pending (s.documents.buffer file).text

/-- Only the outboxes and the documents count. -/
theorem Synced.transfer {base : Text} (h : Synced s file box base) (ht : t.tracked = s.tracked)
    (ho : t.outboxes = s.outboxes) (hd : t.documents = s.documents) : Synced t file box base := by
  obtain ⟨htracked, hknown, hfree, hpending⟩ := h
  have hbox : t.outbox box = s.outbox box := congrFun (State.outbox_congr ho) box
  refine ⟨ht ▸ htracked, ho ▸ hknown, hfree, ?_⟩
  rw [hbox, hd]
  exact hpending

theorem Synced.edited {base : Text} (h : Synced s file box base)
    (he : Edited file box s t ps text)
    (hp : Patch.Sequential (s.documents.buffer file).text ps text) : Synced t file box base where
  tracked := he.tracked ▸ h.tracked
  known := he.length ▸ h.known
  free := h.free
  pending := by
    have hpending : (t.outbox box).pending = (s.outbox box).pending ++ ps := by
      simp [he.outbox, Outbox.enqueue, Outbox.pending]
    rw [hpending, he.buffer]
    exact h.pending.append hp

end Session

end Coedit
