import Coedit.Proofs.Consolidate
import Coedit.Proofs.WalkApart

/-!
Patches that have a consolidation can be made one after another (`consolidated_apart`): there is a
text for them, on which every check of a patch is passed, also where what it looks at has left no
trace in the consolidation; and on every text that the consolidation fits they make what it makes.
So exactly the patches that fit one after another are joined (`exists_consolidate_iff`). However a
patch comes about, every diff of it has text; to be proper it only has to hold no carriage return.
-/
namespace Coedit.Patch

variable {p q m : Patch} {ps : List Patch} {t u v : Text} {walk joined : Walk}

theorem Proper.ofPatch (hp : p.Proper) (h : Walk.ofPatch p = .ok walk) : walk.Proper :=
  Walk.proper_of_ofDiffsFrom hp.text_ne_nil hp.returnFree h

theorem consumed_of_ofPatch (h : Walk.ofPatch p = .ok walk) : walk.consumed = p.baseLength := by
  rw [← Walk.add_consumed_of_ofDiffsFrom h, Nat.zero_add]

/-- A patch that was read as a walk leads where the walk leads. -/
theorem InTurn.cons_of_leads (ht : '\r' ∉ t) (hp : p.ReturnFree) (hw : Walk.ofPatch p = .ok walk)
    (h : Walk.Leads walk t u) (hps : '\r' ∉ u → InTurn u ps v) : InTurn t (p :: ps) v := by
  have hrewrites := h.rewrites 0
  rw [Walk.diffsFrom_of_ofDiffsFrom hw] at hrewrites
  have happly := (apply_eq_ok_iff ht).mpr hrewrites
  have hlen : p.baseLength = t.length := by rw [← consumed_of_ofPatch hw, h.consumed_eq]
  exact .cons hlen happly (hps (free_of_apply ht hp happly))

theorem proper_composeAll (hw : walk.Proper) (hps : ∀ r ∈ ps, r.Proper)
    (h : walk.composeAll ps = .ok joined) : joined.Proper := by
  induction ps generalizing walk with
  | nil =>
    obtain rfl := Except.ok.inj h
    exact hw
  | cons p ps ih =>
    obtain ⟨next, both, hnext, hboth, hjoined⟩ := composeAll_cons_eq_ok_iff.mp h
    obtain ⟨hp, hps⟩ := List.forall_mem_cons.mp hps
    exact ih (hw.compose (hp.ofPatch hnext) hboth) hps hjoined

/-- Where the composition of a walk and of patches leads, there the walk leads to a text that the
patches lead on from. -/
theorem InTurn.of_composeAll (hw : walk.Proper) (hps : ∀ r ∈ ps, r.Proper)
    (hjoined : walk.composeAll ps = .ok joined) (h : Walk.Leads joined t v) :
    ∃ u, Walk.Leads walk t u ∧ ('\r' ∉ u → InTurn u ps v) := by
  induction ps generalizing walk with
  | nil =>
    obtain rfl := Except.ok.inj hjoined
    exact ⟨v, h, fun _ => .nil v⟩
  | cons p ps ih =>
    obtain ⟨next, both, hnext, hboth, hjoined⟩ := composeAll_cons_eq_ok_iff.mp hjoined
    obtain ⟨hp, hps⟩ := List.forall_mem_cons.mp hps
    have hproper := hp.ofPatch hnext
    obtain ⟨w, hl, hturn⟩ := ih (hw.compose hproper hboth) hps hjoined
    obtain ⟨u, hu, hlater⟩ := hl.of_compose hw hproper hboth
    exact ⟨u, hu, fun hfree => .cons_of_leads hfree hp.returnFree hnext hlater hturn⟩

/-- What is behind a consolidation: a walk over texts of the first length, which leads nowhere that
the patches do not lead one after another. -/
theorem walk_of_consolidate (hps : ∀ r ∈ p :: q :: ps, r.Proper)
    (h : consolidate (p :: q :: ps) = .ok (some m)) :
    ∃ joined : Walk, joined.Proper ∧ joined.consumed = p.baseLength ∧
      m.diffs = Diff.simplify joined.diffs ∧
      ∀ {t v : Text}, '\r' ∉ t → Walk.Leads joined t v → InTurn t (p :: q :: ps) v := by
  obtain ⟨first, joined, hfirst, hjoined, rfl⟩ := consolidate_eq_ok_iff.mp h
  obtain ⟨hp, hrest⟩ := List.forall_mem_cons.mp hps
  have hproper := proper_composeAll (hp.ofPatch hfirst) hrest hjoined
  refine ⟨joined, hproper, ?_, rfl, fun ht hl => ?_⟩
  · obtain ⟨t, v, -, hl⟩ := hproper.exists_leads
    obtain ⟨u, hu, -⟩ := InTurn.of_composeAll (hp.ofPatch hfirst) hrest hjoined hl
    rw [hl.consumed_eq, ← hu.consumed_eq, consumed_of_ofPatch hfirst]
  · obtain ⟨u, hu, hturn⟩ := InTurn.of_composeAll (hp.ofPatch hfirst) hrest hjoined hl
    exact .cons_of_leads ht hp.returnFree hfirst hu hturn

/-- Patches that have a consolidation fit one after another, each the length of the text that it
meets, and make of every text of the first length what their consolidation makes of it. -/
theorem consolidated_apart (hps : ∀ r ∈ p :: q :: ps, r.Proper)
    (h : consolidate (p :: q :: ps) = .ok (some m)) :
    (∃ t v, '\r' ∉ t ∧ t.length = p.baseLength ∧ InTurn t (p :: q :: ps) v) ∧
      ∀ t u, '\r' ∉ t → t.length = p.baseLength → applyAll t [m] = .ok u →
        InTurn t (p :: q :: ps) u ∧ applyAll t (p :: q :: ps) = .ok u := by
  obtain ⟨joined, hproper, hlen, hdiffs, hturn⟩ := walk_of_consolidate hps h
  constructor
  · obtain ⟨t, v, ht, hl⟩ := hproper.exists_leads
    exact ⟨t, v, ht, hl.consumed_eq.symm.trans hlen, hturn ht hl⟩
  · intro t u ht hbase happly
    obtain ⟨_, hm, hnil⟩ := exists_apply_of_applyAll_cons happly
    obtain rfl := Except.ok.inj hnil
    have hrewrites := (apply_eq_ok_iff ht).mp hm
    rw [hdiffs] at hrewrites
    have hl := Walk.leads_of_rewrites_diffsFrom hproper (hlen.trans hbase.symm)
      (hrewrites.of_simplify (hproper.text_ne_nil 0))
    exact ⟨hturn ht hl, (hturn ht hl).applyAll_eq⟩

/-- The second patch takes back the first of two characters that were put in, which leaves no trace
of it. -/
theorem consolidated_apart_taken_back :
    let p : Patch := ⟨0, [.insertion 1 ['a', 'b']], 4⟩
    let q : Patch := ⟨9, [.deletion 0 ['x', 'a'], .insertion 4 ['z']], 3⟩
    let m : Patch := ⟨0, [.deletion 0 ['x'], .insertion 1 ['b'], .insertion 2 ['z']], 3⟩
    consolidate [p, q] = .ok (some m) ∧ (∃ t v, '\r' ∉ t ∧ t.length = 2 ∧ InTurn t [p, q] v) ∧
      applyAll ['x', 'y'] [m] = .ok ['b', 'y', 'z'] ∧
      applyAll ['x', 'y'] [p, q] = .ok ['b', 'y', 'z'] := by
  intro p q m
  have hm : consolidate [p, q] = .ok (some m) := by decide +kernel
  obtain ⟨hexists, happly⟩ := consolidated_apart (by decide) hm
  exact ⟨hm, hexists, rfl, (happly ['x', 'y'] _ (by decide) rfl rfl).2⟩

/-- Exactly the patches that fit some text one after another are joined. -/
theorem exists_consolidate_iff (hps : ∀ r ∈ p :: q :: ps, r.Proper) :
    (∃ m, consolidate (p :: q :: ps) = .ok (some m)) ↔
      ∃ t v, '\r' ∉ t ∧ InTurn t (p :: q :: ps) v := by
  constructor
  · rintro ⟨m, hm⟩
    obtain ⟨joined, hproper, -, -, hturn⟩ := walk_of_consolidate hps hm
    obtain ⟨t, v, ht, hl⟩ := hproper.exists_leads
    exact ⟨t, v, ht, hturn ht hl⟩
  · rintro ⟨t, v, ht, hturn⟩
    obtain ⟨m, hm, -⟩ := hturn.consolidate ht hps
    exact ⟨m, hm⟩

end Coedit.Patch
