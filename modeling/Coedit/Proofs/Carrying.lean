import Coedit.Proofs.Ledger
import Coedit.Proofs.Rewrites
import Mathlib.Data.List.Forall2

/-!
What the tags of a ledger are tags of. An incoming patch is the one that was handed over; a patch of
the queue is such a patch, under whatever version, or what was joined of the patches in whose place it
was put and then taken past a remote change (`Carries`). Every move that a sender or the editor makes
leaves that so (`Ledger.Faithful.note`), and so does the plan that puts one patch in place of the queue
(`Ledger.Faithful.replace`).
-/
namespace Coedit

/-- The patch stands for the patches with these tags among all that were handed over. -/
inductive Carries (given : List Patch) : List Nat → Patch → Prop
  | handed {tag : Nat} {patch : Patch} (version : Int) : given[tag]? = some patch →
      Carries given [tag] (patch.rebased version)
  /-- Patches joined to one, which was taken past a remote change. -/
  | joined {queue : List (List Nat × Patch)} {waiting : Patch} (change : Patch) (version : Int) :
      (∀ entry ∈ queue, Carries given entry.1 entry.2) →
      Patch.consolidate (queue.map Prod.snd) = .ok (some waiting) →
      Carries given (queue.map Prod.fst).flatten
        ((waiting.transform false [change]).rebased version)

namespace Carries

variable {given : List Patch} {tags : List Nat} {patch : Patch}

theorem rebased (h : Carries given tags patch) (version : Int) :
    Carries given tags (patch.rebased version) := by
  cases h with
  | @handed tag patch _ hgiven => exact @handed given tag patch version hgiven
  | @joined queue waiting change _ hqueue hjoined =>
    exact @joined given queue waiting change version hqueue hjoined

theorem of_given {tag : Nat} (h : given[tag]? = some patch) : Carries given [tag] patch :=
  handed patch.baseVersion h

/-- Tags stay as they are when more patches are handed over. -/
theorem append (h : Carries given tags patch) (more : List Patch) :
    Carries (given ++ more) tags patch := by
  induction h with
  | handed version hgiven =>
    have hlt := (List.getElem?_eq_some_iff.mp hgiven).1
    exact handed version (by rwa [List.getElem?_append_left hlt])
  | joined change version _ hjoined ih => exact joined change version ih hjoined

end Carries

namespace Ledger

/-- Tags and patches go together: what is incoming is what was handed over under the tag, and what is
in the queue stands for the patches of its tags. -/
structure Faithful (l : Ledger) : Prop where
  incoming : List.Forall₂ (fun tags patch => ∃ tag, tags = [tag] ∧ l.given[tag]? = some patch)
    l.incoming l.outbox.incoming
  queue : List.Forall₂ (Carries l.given) l.queue l.outbox.queue

variable {l : Ledger} {m : Move} {patches : List Patch}

theorem Faithful.opened (version stamp : Int) : Faithful { outbox := .opened version stamp } :=
  ⟨.nil, .nil⟩

/-- New patches get the next tags. -/
theorem Faithful.enqueue (h : l.Faithful) (patches : List Patch) :
    (l.note (.enqueue patches)).Faithful where
  incoming := by
    refine List.rel_append (h.incoming.imp ?_) ?_
    · rintro _ patch ⟨tag, rfl, hgiven⟩
      have hlt := (List.getElem?_eq_some_iff.mp hgiven).1
      exact ⟨tag, rfl, (List.getElem?_append_left hlt).trans hgiven⟩
    · rw [List.forall₂_iff_get]
      refine ⟨by simp, fun i hi hpatch => ⟨l.given.length + i, by simp, ?_⟩⟩
      have hnew : (l.given ++ patches)[l.given.length + i]? = patches[i]? := by
        rw [List.getElem?_append_right (Nat.le_add_right ..), Nat.add_sub_cancel_left]
      exact hnew.trans (List.getElem?_eq_getElem hpatch)
  queue := h.queue.imp fun _ _ hcarries => hcarries.append patches

/-- What is taken in gets the version of the file at most. -/
theorem Faithful.drain (h : l.Faithful) : (l.note .drain).Faithful where
  incoming := .nil
  queue := by
    refine List.rel_append h.queue (List.forall₂_map_right_iff.mpr (h.incoming.imp ?_))
    rintro _ patch ⟨tag, rfl, hgiven⟩
    unfold Outbox.relabel
    split
    · exact (Carries.of_given hgiven).rebased _
    · exact .of_given hgiven

/-- A plan puts one patch in place of all that wait, and that stands for them. -/
theorem Faithful.replace {change : RemoteChange} {plan : Plan} (h : l.Faithful)
    (hplan : change.plan l.outbox.queue = .ok plan) : (l.note (.replace plan.rebased)).Faithful where
  incoming := h.incoming
  queue := by
    obtain ⟨joined, hjoined, rfl⟩ := map_eq_ok_iff.mp hplan
    cases joined with
    | none => exact .nil
    | some waiting =>
      obtain ⟨hlength, hentries⟩ := List.forall₂_iff_zip.mp h.queue
      have htags : (l.queue.zip l.outbox.queue).map Prod.fst = l.queue :=
        List.map_fst_zip (Nat.le_of_eq hlength)
      have hpatches : (l.queue.zip l.outbox.queue).map Prod.snd = l.outbox.queue :=
        List.map_snd_zip (Nat.le_of_eq hlength.symm)
      have hcarries : Carries l.given ((l.queue.zip l.outbox.queue).map Prod.fst).flatten
          (waiting.transform false [change.patch]) :=
        .joined change.patch (waiting.transform false [change.patch]).baseVersion
          (fun entry hentry => hentries hentry) (hpatches.symm ▸ hjoined)
      rw [htags] at hcarries
      exact .cons hcarries .nil

/-- Any other move leaves every patch with its tags, or takes both away. -/
theorem Faithful.note (h : l.Faithful) (hm : ∀ patches, m ≠ .replace patches)
    (hopened : ∀ version stamp, m ≠ .opened version stamp) : (l.note m).Faithful := by
  cases m with
  | opened version stamp => exact absurd rfl (hopened version stamp)
  | enqueue patches => exact h.enqueue patches
  | drain => exact h.drain
  | remove count => exact ⟨h.incoming, List.forall₂_drop count h.queue⟩
  | replace patches => exact absurd rfl (hm patches)
  | advance version =>
    refine ⟨h.incoming, List.forall₂_map_right_iff.mpr (h.queue.imp fun _ _ hcarries => ?_)⟩
    exact hcarries.rebased version
  | expect | claim | release | ask => exact ⟨h.incoming, h.queue⟩

/-- Settling a plan that was made for the queue. -/
theorem Faithful.settle {change : RemoteChange} {plan : Plan} (h : l.Faithful)
    (hplan : change.plan l.outbox.queue = .ok plan) (verdict : Verdict) :
    ((change.settleMoves plan verdict).foldl Ledger.note l).Faithful := by
  cases verdict with
  | accepted stamp =>
    exact ((h.replace hplan).note (m := .expect stamp) nofun nofun).note
      (m := .advance change.version) nofun nofun
  | refused stamp => exact h.note (m := .expect stamp) nofun nofun
  | failed error => exact h

end Ledger

end Coedit
