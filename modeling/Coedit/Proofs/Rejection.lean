import Coedit.Proofs.Actions
import Coedit.Proofs.ConsolidateApart
import Coedit.Proofs.Edit

/-!
What a refused batch leaves behind. The batch leaves the queue for good; what waits behind it was
made on top of it, and still leads from the text that the batch would have made to the live text.
The server has kept the text that the batch started from, and there the rest is out of place, unless
the two texts are of one length and agree wherever the rest deletes (`rejection_leaves_rest`).
-/
namespace Coedit

namespace Patch

variable {p m : Patch} {ps : List Patch} {t u v w : Text}

/-- Where the consolidation of patches leads from a text of the first length, there they lead. -/
theorem InTurn.of_consolidate (ht : '\r' ∉ t) (hps : ∀ r ∈ p :: ps, r.Proper)
    (hm : Patch.consolidate (p :: ps) = .ok (some m)) (hlen : p.baseLength = t.length)
    (h : Diff.Rewrites 0 t m.diffs v) : InTurn t (p :: ps) v := by
  cases ps with
  | nil =>
    cases hm
    exact .cons hlen ((apply_eq_ok_iff ht).mpr h) (.nil v)
  | cons q ps =>
    obtain ⟨joined, hproper, hbase, hdiffs, hturn⟩ := walk_of_consolidate hps hm
    rw [hdiffs] at h
    exact hturn ht (Walk.leads_of_rewrites_diffsFrom hproper (hbase.trans hlen)
      (h.of_simplify (hproper.text_ne_nil 0)))

/-- Patches that fit one text one after another fit another one exactly if that is as long and holds
the same characters where their consolidation deletes. -/
theorem InTurn.elsewhere_iff (ht : '\r' ∉ t) (hu : '\r' ∉ u) (hps : ∀ r ∈ p :: ps, r.Proper)
    (hm : Patch.consolidate (p :: ps) = .ok (some m)) (h : InTurn u (p :: ps) w) :
    (∃ v, InTurn t (p :: ps) v) ↔
      t.length = u.length ∧ ∀ i, Diff.isDeletedBy m.diffs i = true → t[i]? = u[i]? := by
  obtain ⟨m', hm', hr, -⟩ := h.consolidate hu hps
  cases hm.symm.trans hm'
  have hbase : p.baseLength = u.length := by
    cases h with
    | cons hlen => exact hlen
  have hfits (hlen : t.length = u.length) : (∃ v, Diff.Rewrites 0 t m.diffs v) ↔
      ∀ i, Diff.isDeletedBy m.diffs i = true → t[i]? = u[i]? := by
    simpa only [Nat.zero_add] using hr.fits_iff hlen
  constructor
  · rintro ⟨v, hturn⟩
    obtain ⟨m', hm', hrewrites, -⟩ := hturn.consolidate ht hps
    cases hm.symm.trans hm'
    have hlen : t.length = u.length := by
      cases hturn with
      | cons hlen => rw [← hlen, hbase]
    exact ⟨hlen, (hfits hlen).mp ⟨v, hrewrites⟩⟩
  · rintro ⟨hlen, hsame⟩
    obtain ⟨v, hrewrites⟩ := (hfits hlen).mpr hsame
    exact ⟨v, .of_consolidate ht hps hm (hbase.trans hlen.symm) hrewrites⟩

end Patch

namespace Outbox

variable {o opened : Outbox} {file : FileId} {sent : Patch} {threshold count : Nat}
  {response : Response} {more : List Patch} {base live text : Text}

/-- A round that asks has joined the first patches of all that wait. -/
theorem of_openRound_request (h : o.openRound threshold = (opened, .request sent count)) :
    opened = o.drain ∧ Patch.consolidate (o.drain.queue.take count) = .ok (some sent) := by
  unfold openRound at h
  dsimp only at h
  split at h
  · cases h
  · cases h
  · rename_i hjoined
    split at h
    · cases h
    · cases h
      refine ⟨rfl, ?_⟩
      rw [snapshot, List.length_take, ← List.take_eq_take_min]
      exact hjoined

/-- The batch of a refused request is dropped and the version stays. What waits behind the batch,
and what came in meanwhile, still leads one after another from the text that the batch would have
made to the live text, each patch for the length of the text that it meets. It fits the server's
text, which the batch started from, exactly if nothing waits or the two texts are of one length and
hold the same characters where the rest deletes. -/
theorem rejection_leaves_rest (hfree : '\r' ∉ base)
    (hpending : Patch.Sequential base o.pending live)
    (hopen : o.openRound threshold = (opened, .request sent count))
    (hmore : Patch.Sequential live more text) (hrefused : response.isOk = false) :
    ∃ closed mid,
      (opened.enqueue more).closeRound file sent count (some (.ok response)) =
        (closed, .finished (.error (.rejected file (response.reason.getD [])))) ∧
      closed.version = o.version ∧ closed.pending = opened.queue.drop count ++ more ∧
      sent.apply base = .ok mid ∧ Patch.InTurn mid closed.pending text ∧
      ((∃ v, Patch.InTurn base closed.pending v) ↔
        closed.pending = [] ∨ base.length = mid.length ∧
          ∃ joined, Patch.consolidate closed.pending = .ok (some joined) ∧
            ∀ i, Diff.isDeletedBy joined.diffs i = true → base[i]? = mid[i]?) := by
  obtain ⟨rfl, hjoined⟩ := of_openRound_request hopen
  have hqueue := sequential_drain hpending
  rw [← List.take_append_drop count o.drain.queue] at hqueue
  obtain ⟨mid, hbatch, hrest⟩ := Patch.Sequential.of_append hqueue
  have hmid := hbatch.free_after hfree
  have hsent : sent.apply base = .ok mid := by
    cases hqueued : o.drain.queue.take count with
    | nil =>
      rw [hqueued] at hjoined
      cases hjoined
    | cons p ps =>
      rw [hqueued] at hbatch hjoined
      obtain ⟨m, hm, hleads, -⟩ := hbatch.consolidate hfree
      cases hjoined.symm.trans hm
      exact hleads.apply_eq
  let closed := (o.drain.enqueue more).removeSent count
  have hclosed : closed.pending = o.drain.queue.drop count ++ more := rfl
  have hsequential : Patch.Sequential mid closed.pending text := hrest.append hmore
  have hturn := hsequential.inTurn hmid
  refine ⟨closed, mid, ?_, rfl, hclosed, hsent, hturn, ?_⟩
  · simp only [closeRound, hrefused, Bool.false_eq_true, if_false]
    rfl
  · cases hwaiting : closed.pending with
    | nil => exact ⟨fun _ => .inl rfl, fun _ => ⟨base, .nil base⟩⟩
    | cons p ps =>
      rw [hwaiting] at hturn hsequential
      obtain ⟨m, hm, -⟩ := hturn.consolidate hmid hsequential.proper
      rw [Patch.InTurn.elsewhere_iff hfree hmid hsequential.proper hm hturn]
      constructor
      · rintro ⟨hlen, hsame⟩
        exact .inr ⟨hlen, m, hm, hsame⟩
      · rintro (hnil | ⟨hlen, m', hm', hsame⟩)
        · cases hnil
        · cases hm.symm.trans hm'
          exact ⟨hlen, hsame⟩

/-- A refused batch that puts one character in place of another, and text behind it. -/
theorem rejection_leaves_rest_in_place :
    let base : Text := ['x', 'y']
    let exchanged : Patch := .forDocument 0 [.deletion 0 ['x'], .insertion 1 ['z']] 2
    let appended : Patch := .forDocument 0 [.insertion 2 ['c']] 2
    let o : Outbox := { queue := [exchanged], incoming := [appended], version := 0, stamp := 1 }
    let response := Response.rejected (Uuid.ofNat 0) 0 ['n', 'o']
    ∃ closed mid,
      o.drain.closeRound ⟨['f']⟩ exchanged 1 (some (.ok response)) =
        (closed, .finished (.error (.rejected ⟨['f']⟩ ['n', 'o']))) ∧
      closed.pending = [appended] ∧ exchanged.apply base = .ok mid ∧
      Patch.InTurn mid closed.pending ['z', 'y', 'c'] ∧
      ∃ v, Patch.InTurn base closed.pending v := by
  intro base exchanged appended o response
  have hpending : Patch.Sequential base o.pending ['z', 'y', 'c'] :=
    .cons ⟨0, _, rfl⟩ (by decide) rfl (.cons ⟨0, _, rfl⟩ (by decide) rfl (.nil _))
  have hopen : o.openRound 1 = (o.drain, .request exchanged 1) := rfl
  have hrefused : response.isOk = false := rfl
  obtain ⟨closed, mid, hclose, -, hwaiting, hmid, hturn, hfits⟩ :=
    rejection_leaves_rest (by decide) hpending hopen (.nil _) hrefused
  cases hmid
  refine ⟨closed, _, hclose, hwaiting, rfl, hturn, hfits.mpr (.inr ⟨rfl, appended, ?_, ?_⟩)⟩
  · rw [hwaiting]
    rfl
  · exact fun i hi => nomatch hi

/-- Text behind a refused insertion lies outside the server's text. -/
theorem rejection_strands_rest :
    let typed : Patch := .forDocument 0 [.insertion 0 ['a', 'b']] 0
    let behind : Patch := .forDocument 0 [.insertion 2 ['c']] 2
    let o : Outbox := { queue := [typed, behind], version := 0, stamp := 1 }
    let response := Response.rejected (Uuid.ofNat 0) 0 []
    ∃ closed, Patch.Sequential [] o.pending ['a', 'b', 'c'] ∧
      o.openRound 1 = (o, .request typed 1) ∧
      o.closeRound ⟨['f']⟩ typed 1 (some (.ok response)) =
        (closed, .finished (.error (.rejected ⟨['f']⟩ []))) ∧
      closed.pending = [behind] ∧ Patch.applyAll [] closed.pending = .error (.outOfBounds 2 0) :=
  ⟨_, .cons ⟨0, _, rfl⟩ (by decide) rfl (.cons ⟨0, _, rfl⟩ (by decide) rfl (.nil _)), rfl, rfl, rfl,
    rfl⟩

end Outbox

end Coedit
