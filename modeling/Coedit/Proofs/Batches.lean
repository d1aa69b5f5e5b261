import Coedit.Client.Round
import Coedit.Proofs.Consolidate
import Coedit.Proofs.Wire
import Coedit.Server

/-!
Patches on their way to a server that hears of nobody else. A round joins the first of them
(`Outbox.Holds.openRound`), and the server commits what it is sent under the version that it has
(`ServerFile.commit_eq`). What has been asked so far are the joined batches, in order and under one
version after another (`Patch.Requested`).
-/
namespace Coedit

namespace Diff.Rewrites

variable {i : Nat} {cs out : Text} {ds : List Diff}

theorem start_le (h : Rewrites i cs ds out) : ∀ d ∈ ds, d.start ≤ i + cs.length := by
  induction h with
  | done => simp
  | keep c _ ih =>
    intro d hd
    have hle := ih d hd
    simp only [List.length_cons]
    omega
  | insert text _ ih =>
    exact List.forall_mem_cons.mpr ⟨Nat.le_add_right _ _, ih⟩
  | delete text _ ih =>
    refine List.forall_mem_cons.mpr ⟨Nat.le_add_right _ _, fun d hd => ?_⟩
    rw [List.length_append, ← Nat.add_assoc]
    exact ih d hd

theorem length_le (h : Rewrites i cs ds out) : ∀ d ∈ ds, d.length ≤ max cs.length out.length := by
  induction h with
  | done => simp
  | keep c _ ih =>
    intro d hd
    have hle := ih d hd
    simp only [List.length_cons]
    omega
  | insert text _ ih =>
    refine List.forall_mem_cons.mpr ⟨?_, fun d hd => ?_⟩
    · simp only [length, insertion, List.length_append]
      omega
    · have hle := ih d hd
      rw [List.length_append]
      omega
  | delete text _ ih =>
    refine List.forall_mem_cons.mpr ⟨?_, fun d hd => ?_⟩
    · simp only [length, deletion, List.length_append]
      omega
    · have hle := ih d hd
      rw [List.length_append]
      omega

end Diff.Rewrites

namespace Patch

variable {p m : Patch} {ps qs : List Patch} {t u : Text}

theorem MadeFor.simplified {n : Nat} (h : p.MadeFor n) : Diff.Simplified p.diffs := by
  obtain ⟨version, diffs, rfl⟩ := h
  exact Diff.simplified_simplify diffs

theorem Sequential.simplified (h : Sequential t ps u) : ∀ p ∈ ps, Diff.Simplified p.diffs := by
  induction h with
  | nil => simp
  | cons hm _ _ _ ih => exact List.forall_mem_cons.mpr ⟨hm.simplified, ih⟩

/-- What fits texts of 64-bit lengths can be sent. -/
theorem Leads.sendable (h : p.Leads t u) (hs : Diff.Simplified p.diffs)
    (hv : Numeral.fits p.baseVersion = true) (ht : t.length < Numeral.wordLimit)
    (hu : u.length < Numeral.wordLimit) : p.Sendable where
  simplified := hs
  diffs d hd := by
    have hstart := h.rewrites.start_le d hd
    have hlength := h.rewrites.length_le d hd
    exact ⟨hs.text_ne_nil d hd, by omega, by omega⟩
  baseVersion := hv
  docLength := h.docLength ▸ hu

theorem composeAll_map_rebased (version : Int) (walk : Walk) (ps : List Patch) :
    walk.composeAll (ps.map (·.rebased version)) = walk.composeAll ps := by
  induction ps generalizing walk with
  | nil => rfl
  | cons p ps ih =>
    simp only [List.map_cons, Walk.composeAll, ih]
    rfl

/-- The labels of patches are no part of what they do together. -/
theorem consolidate_map_rebased (version : Int) (ps : List Patch) :
    consolidate (ps.map (·.rebased version)) =
      (consolidate ps).map (Option.map (·.rebased version)) := by
  rcases ps with _ | ⟨p, _ | ⟨next, more⟩⟩
  · rfl
  · rfl
  · have hwalk : Walk.ofPatch (p.rebased version) = Walk.ofPatch p := rfl
    have hcompose (walk : Walk) := composeAll_map_rebased version walk (next :: more)
    have hlast : (((next :: more).map (rebased · version)).getLast (by simp)).docLength =
        ((next :: more).getLast (List.cons_ne_nil next more)).docLength := by
      rw [List.getLast_map]
      rfl
    simp only [List.map_cons] at hcompose hlast
    simp only [List.map_cons, consolidate, hwalk, hcompose, hlast]
    cases Walk.ofPatch p with
    | error error => rfl
    | ok walk =>
      show (walk.composeAll (next :: more)).map _ = ((walk.composeAll (next :: more)).map _).map _
      cases walk.composeAll (next :: more) <;> rfl

/-- Patches made one after another are joined to one that can be sent. -/
theorem Sequential.joined {v : Text} (ht : '\r' ∉ t) (h : Sequential t ps v) (hne : ps ≠ []) :
    ∃ m, Patch.consolidate ps = .ok (some m) ∧ m.Leads t v ∧ Diff.Simplified m.diffs := by
  obtain ⟨p, more, rfl⟩ := List.exists_cons_of_ne_nil hne
  obtain ⟨m, hm, hleads, -⟩ := h.consolidate ht
  refine ⟨m, hm, hleads, simplified_of_consolidate (fun q hq => ?_) hm⟩
  exact h.simplified q hq

/-- What is asked for groups of patches: the joined group under the version that the server has
then. Nothing is asked for a group that changes nothing. -/
inductive Requested : Nat → List (List Patch) → List Patch → Prop
  | nil (version : Nat) : Requested version [] []
  | sent {version : Nat} {group : List Patch} {joined : Patch} {groups : List (List Patch)}
      {requests : List Patch} : consolidate group = .ok (some joined) → joined.isEmpty = false →
      Requested (version + 1) groups requests →
      Requested version (group :: groups) (joined.rebased version :: requests)
  | idle {version : Nat} {group : List Patch} {joined : Patch} {groups : List (List Patch)}
      {requests : List Patch} : consolidate group = .ok (some joined) → joined.isEmpty = true →
      Requested version groups requests → Requested version (group :: groups) requests

namespace Requested

variable {version : Nat} {groups more : List (List Patch)} {requests others : List Patch}

theorem append (h : Requested version groups requests)
    (h' : Requested (version + requests.length) more others) :
    Requested version (groups ++ more) (requests ++ others) := by
  induction h with
  | nil => exact h'
  | sent hjoined hsome _ ih =>
    refine sent hjoined hsome (ih ?_)
    rwa [List.length_cons, Nat.add_comm _ 1, ← Nat.add_assoc] at h'
  | idle hjoined hnone _ ih => exact idle hjoined hnone (ih h')

/-- Each request is labelled with the number of the requests before it. -/
theorem baseVersion (h : Requested version groups requests) {k : Nat} {request : Patch}
    (hk : requests[k]? = some request) : request.baseVersion = (version + k : Nat) := by
  induction h generalizing k with
  | nil => cases hk
  | sent _ _ _ ih =>
    cases k with
    | zero =>
      obtain rfl := Option.some.inj hk
      rfl
    | succ k =>
      rw [ih hk, Nat.add_right_comm]
      rfl
  | idle _ _ _ ih => exact ih hk

theorem length_le (h : Requested version groups requests) (hne : ∀ group ∈ groups, group ≠ []) :
    requests.length ≤ groups.flatten.length := by
  induction h with
  | nil => exact Nat.le_refl _
  | sent _ _ _ ih =>
    obtain ⟨hgroup, hne⟩ := List.forall_mem_cons.mp hne
    have hpos := List.length_pos_iff.mpr hgroup
    have hle := ih hne
    simp only [List.length_cons, List.flatten_cons, List.length_append]
    omega
  | idle _ _ _ ih =>
    have hle := ih (List.forall_mem_cons.mp hne).2
    rw [List.flatten_cons, List.length_append]
    omega

end Requested

end Patch

namespace Outbox

open Patch

variable {o : Outbox} {rest ps : List Patch} {t v : Text}

/-- The outbox waits with these patches: the queue has taken some of them under the version of the
document, and the others are still as they came. -/
structure Holds (o : Outbox) (rest : List Patch) : Prop where
  waiting : ∃ taken, rest = taken ++ o.incoming ∧ o.queue = taken.map (rebased · o.version)
  incoming : ∀ p ∈ o.incoming, p.baseVersion ≤ o.version

theorem relabel_eq {p : Patch} {version : Int} (h : p.baseVersion ≤ version) :
    relabel version p = p.rebased version := by
  unfold relabel
  split
  · rfl
  · rename_i hge
    obtain rfl : p.baseVersion = version := by omega
    rfl

namespace Holds

theorem congr {o' : Outbox} (h : o.Holds rest) (hincoming : o'.incoming = o.incoming)
    (hqueue : o'.queue = o.queue) (hversion : o'.version = o.version) : o'.Holds rest := by
  refine ⟨?_, ?_⟩
  · rw [hincoming, hqueue, hversion]
    exact h.waiting
  · rw [hincoming, hversion]
    exact h.incoming

theorem enqueue (h : o.Holds rest) (hps : ∀ p ∈ ps, p.baseVersion ≤ o.version) :
    (o.enqueue ps).Holds (rest ++ ps) := by
  obtain ⟨taken, rfl, hqueue⟩ := h.waiting
  refine ⟨⟨taken, List.append_assoc .., hqueue⟩, fun p hp => ?_⟩
  rcases List.mem_append.mp hp with hp | hp
  · exact h.incoming p hp
  · exact hps p hp

theorem queue_drain (h : o.Holds rest) : o.drain.queue = rest.map (rebased · o.version) := by
  obtain ⟨taken, rfl, hqueue⟩ := h.waiting
  show o.queue ++ o.incoming.map (relabel o.version) = _
  rw [hqueue, List.map_append, List.map_congr_left fun p hp => relabel_eq (h.incoming p hp)]

theorem drain (h : o.Holds rest) : o.drain.Holds rest :=
  ⟨⟨rest, (List.append_nil _).symm, h.queue_drain⟩, nofun⟩

theorem removeSent {count : Nat} (h : o.Holds rest) (hcount : count ≤ o.queue.length) :
    (o.removeSent count).Holds (rest.drop count) := by
  obtain ⟨taken, rfl, hqueue⟩ := h.waiting
  refine ⟨⟨taken.drop count, ?_, ?_⟩, h.incoming⟩
  · rw [hqueue, List.length_map] at hcount
    exact List.drop_append_of_le_length hcount
  · show o.queue.drop count = _
    rw [hqueue, List.map_drop]
    rfl

theorem advance {version : Int} (h : o.Holds rest) (hversion : o.version ≤ version) :
    (o.advance version).Holds rest := by
  obtain ⟨taken, rfl, hqueue⟩ := h.waiting
  refine ⟨⟨taken, rfl, ?_⟩, fun p hp => Int.le_trans (h.incoming p hp) hversion⟩
  show o.queue.map _ = taken.map _
  rw [hqueue, List.map_map]
  rfl

theorem hasPending_eq_false_iff (h : o.Holds rest) : o.hasPending = false ↔ rest = [] := by
  obtain ⟨taken, rfl, hqueue⟩ := h.waiting
  rw [Outbox.hasPending_eq_false_iff, hqueue, List.map_eq_nil_iff, List.append_eq_nil_iff, and_comm]

/-- A round begins with the first patches that wait, joined; it drops them if they change
nothing. -/
theorem openRound {threshold : Nat} (h : o.Holds rest) (ht : '\r' ∉ t) (hs : Sequential t rest v)
    (hne : rest ≠ []) (hpos : 1 ≤ threshold) :
    ∃ count joined u, 0 < count ∧ count ≤ threshold ∧ count ≤ rest.length ∧
      consolidate (rest.take count) = .ok (some joined) ∧ joined.Leads t u ∧
      Diff.Simplified joined.diffs ∧ Sequential t (rest.take count) u ∧
      o.openRound threshold =
        if joined.isEmpty then (o.drain.removeSent count, .finished (.ok ()))
        else (o.drain, .request (joined.rebased o.version) count) := by
  have hlength := List.length_pos_iff.mpr hne
  have hsplit := hs
  rw [← List.take_append_drop (min threshold rest.length) rest] at hsplit
  obtain ⟨u, hfirst, -⟩ := hsplit.of_append
  have hfirst_ne : rest.take (min threshold rest.length) ≠ [] := by
    intro he
    rcases List.take_eq_nil_iff.mp he with hzero | hnil
    · omega
    · exact hne hnil
  obtain ⟨joined, hjoined, hleads, hsimple⟩ := hfirst.joined ht hfirst_ne
  refine ⟨min threshold rest.length, joined, u, by omega, by omega, by omega, hjoined, hleads,
    hsimple, hfirst, ?_⟩
  have hbatch : o.drain.snapshot threshold =
      (rest.take (min threshold rest.length)).map (rebased · o.version) := by
    rw [snapshot, h.queue_drain, ← List.map_take, List.take_eq_take_min]
  have hbatched := consolidate_map_rebased o.version (rest.take (min threshold rest.length))
  rw [hjoined] at hbatched
  have hcount : ((rest.take (min threshold rest.length)).map (rebased · o.version)).length =
      min threshold rest.length := by
    simp
  simp only [Outbox.openRound, hbatch, hbatched, hcount]
  rfl

/-- Nothing is asked when nothing waits. -/
theorem openRound_nil (h : o.Holds []) (threshold : Nat) :
    o.openRound threshold = (o.drain, .finished (.ok ())) := by
  have hbatch : o.drain.snapshot threshold = [] := by
    rw [snapshot, h.queue_drain, List.map_nil, List.take_nil]
  simp only [Outbox.openRound, hbatch, consolidate_nil]

end Holds

end Outbox

/-- A patch of the current version is committed as it is. -/
theorem ServerFile.commit_eq {f : ServerFile} {p : Patch} {u : Text} (h : p.Leads f.text u) :
    f.commit (p.rebased f.version) = .ok (⟨u, f.history ++ [p.rebased f.version]⟩, []) := by
  have happly : (p.rebased f.version).apply f.text = .ok u := by
    rw [Patch.apply_rebased]
    exact h.apply_eq
  have hmissing : f.history.drop f.version = [] := List.drop_length
  simp only [commit, Patch.baseVersion_rebased, Int.toNat_natCast, hmissing, Patch.transform_nil,
    happly]
  rw [if_neg (by omega)]
  rfl

end Coedit
