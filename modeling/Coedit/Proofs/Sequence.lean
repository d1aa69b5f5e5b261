import Coedit.Proofs.Simplify
import Coedit.Patch.Transform

/-!
Patches on documents without carriage returns. `Leads` says all that a patch which fits a document
does: it makes one text of another and knows how long the result is. `Sequential` says it of
patches made one after another, and `InTurn` of any patches that fit one after another.
-/
namespace Coedit.Patch

/-- No text of the patch holds a carriage return. -/
def ReturnFree (p : Patch) : Prop := ∀ d ∈ p.diffs, '\r' ∉ d.text

instance (p : Patch) : Decidable p.ReturnFree :=
  inferInstanceAs (Decidable (∀ d ∈ p.diffs, '\r' ∉ d.text))

/-- No diff of the patch is idle and none holds a carriage return. -/
structure Proper (p : Patch) : Prop where
  text_ne_nil : ∀ d ∈ p.diffs, d.text ≠ []
  returnFree : p.ReturnFree

instance (p : Patch) : Decidable p.Proper :=
  decidable_of_iff ((∀ d ∈ p.diffs, d.text ≠ []) ∧ p.ReturnFree)
    ⟨fun h => ⟨h.1, h.2⟩, fun h => ⟨h.1, h.2⟩⟩

/-- The patch was made for documents of one length. -/
def MadeFor (length : Nat) (p : Patch) : Prop :=
  ∃ version diffs, p = forDocument version diffs length

/-- The patch makes one text of another and knows the length of the result. -/
structure Leads (p : Patch) (before after : Text) : Prop where
  free : '\r' ∉ before
  returnFree : p.ReturnFree
  rewrites : Diff.Rewrites 0 before p.diffs after
  docLength : p.docLength = after.length

variable {p q : Patch} {ps qs : List Patch} {t u v : Text}

theorem apply_eq_ok_iff (ht : '\r' ∉ t) : p.apply t = .ok u ↔ Diff.Rewrites 0 t p.diffs u := by
  rw [apply, onDocument_of_hasCrlf_eq_false (Text.hasCrlf_eq_false ht)]
  exact Diff.applyAll_eq_ok_iff ht

theorem applyAll_cons_of_apply (h : p.apply t = .ok u) :
    applyAll t (p :: ps) = applyAll u ps := by
  rw [applyAll, h]
  rfl

theorem exists_apply_of_applyAll_cons (h : applyAll t (p :: ps) = .ok v) :
    ∃ u, p.apply t = .ok u ∧ applyAll u ps = .ok v := bind_eq_ok_iff.mp h

theorem free_of_apply (ht : '\r' ∉ t) (hp : p.ReturnFree) (h : p.apply t = .ok u) : '\r' ∉ u :=
  ((apply_eq_ok_iff ht).mp h).not_mem ht hp

theorem applyAll_append (h : applyAll t ps = .ok u) (qs : List Patch) :
    applyAll t (ps ++ qs) = applyAll u qs := by
  induction ps generalizing t with
  | nil =>
    obtain rfl := Except.ok.inj h
    rfl
  | cons p ps ih =>
    obtain ⟨next, happly, h⟩ := exists_apply_of_applyAll_cons h
    rw [List.cons_append, applyAll_cons_of_apply happly, ih h]

theorem resultingLength_eq {ds : List Diff} (h : Diff.Rewrites 0 t ds u) :
    resultingLength t.length ds = u.length := by
  have hl := h.length_add_deletedLength
  rw [resultingLength]
  omega

theorem MadeFor.text_ne_nil {n : Nat} (h : p.MadeFor n) : ∀ d ∈ p.diffs, d.text ≠ [] := by
  obtain ⟨version, diffs, rfl⟩ := h
  exact fun d hd => Diff.text_ne_nil_of_mem_simplify hd

theorem MadeFor.rebased {n : Nat} (h : p.MadeFor n) (version : Int) :
    (p.rebased version).MadeFor n := by
  obtain ⟨_, diffs, rfl⟩ := h
  exact ⟨version, diffs, rfl⟩

theorem madeFor_transform (p : Patch) (othersFirst : Bool) (q : Patch) :
    (p.transform othersFirst [q]).MadeFor q.docLength := ⟨_, _, rfl⟩

@[simp] theorem apply_rebased (p : Patch) (version : Int) (t : Text) :
    (p.rebased version).apply t = p.apply t := by
  unfold apply onDocument
  split <;> rfl

namespace Leads

theorem of_apply (ht : '\r' ∉ t) (hp : p.ReturnFree) (h : p.apply t = .ok u)
    (hl : p.docLength = u.length) : p.Leads t u := ⟨ht, hp, (apply_eq_ok_iff ht).mp h, hl⟩

theorem of_madeFor (ht : '\r' ∉ t) (hm : p.MadeFor t.length) (hp : p.ReturnFree)
    (h : p.apply t = .ok u) : p.Leads t u := by
  refine of_apply ht hp h ?_
  obtain ⟨version, diffs, rfl⟩ := hm
  exact resultingLength_eq ((apply_eq_ok_iff ht).mp h)

theorem apply_eq (h : p.Leads t u) : p.apply t = .ok u := (apply_eq_ok_iff h.free).mpr h.rewrites

theorem free_after (h : p.Leads t u) : '\r' ∉ u := h.rewrites.not_mem h.free h.returnFree

theorem baseLength_eq (h : p.Leads t u) : p.baseLength = t.length := by
  have hl := h.rewrites.length_add_deletedLength
  rw [baseLength, h.docLength]
  omega

/-- Diffs that fit a document are a patch that fits it. -/
theorem forDocument {ds : List Diff} (version : Int) (ht : '\r' ∉ t)
    (hds : ∀ d ∈ ds, '\r' ∉ d.text) (h : Diff.Rewrites 0 t ds u) :
    (forDocument version ds t.length).Leads t u where
  free := ht
  returnFree _ hd := Diff.not_mem_text_of_mem_simplify hds hd
  rewrites := h.simplify
  docLength := resultingLength_eq h.simplify

theorem unchanged (version : Int) (ht : '\r' ∉ t) : (unchanged version t.length).Leads t t where
  free := ht
  returnFree _ hd := nomatch hd
  rewrites := .nothing 0 t
  docLength := rfl

/-- A patch without diffs leads to the text that it starts from. -/
theorem eq_of_isEmpty (h : p.Leads t u) (hempty : p.isEmpty) : u = t := by
  have hrewrites := h.rewrites
  rw [List.isEmpty_iff.mp hempty] at hrewrites
  exact hrewrites.eq_of_nil

theorem target_unique (h : p.Leads t u) (h' : p.Leads t v) : u = v :=
  Except.ok.inj (h.apply_eq.symm.trans h'.apply_eq)

end Leads

/-- Patches made one after another lead from one text to another. Each is made for the length of
the text that it meets. -/
inductive Sequential : Text → List Patch → Text → Prop
  | nil (t : Text) : Sequential t [] t
  | cons {p : Patch} {ps : List Patch} {t u v : Text} : p.MadeFor t.length → p.ReturnFree →
      p.apply t = .ok u → Sequential u ps v → Sequential t (p :: ps) v

namespace Sequential

theorem applyAll_eq (h : Sequential t ps u) : applyAll t ps = .ok u := by
  induction h with
  | nil => rfl
  | cons _ _ happly _ ih => rw [applyAll_cons_of_apply happly, ih]

theorem of_cons (ht : '\r' ∉ t) (h : Sequential t (p :: ps) v) :
    ∃ u, p.MadeFor t.length ∧ p.Leads t u ∧ Sequential u ps v := by
  cases h with
  | cons hm hp happly h => exact ⟨_, hm, .of_madeFor ht hm hp happly, h⟩

theorem free_after (ht : '\r' ∉ t) (h : Sequential t ps u) : '\r' ∉ u := by
  induction h with
  | nil => exact ht
  | cons hm hp happly _ ih => exact ih (Leads.of_madeFor ht hm hp happly).free_after

theorem append (h : Sequential t ps u) (h' : Sequential u qs v) : Sequential t (ps ++ qs) v := by
  induction h with
  | nil => exact h'
  | cons hm hp happly _ ih => exact cons hm hp happly (ih h')

theorem of_append (h : Sequential t (ps ++ qs) v) :
    ∃ u, Sequential t ps u ∧ Sequential u qs v := by
  induction ps generalizing t with
  | nil => exact ⟨t, nil t, h⟩
  | cons p ps ih =>
    cases h with
    | cons hm hp happly h =>
      obtain ⟨u, hps, hqs⟩ := ih h
      exact ⟨u, cons hm hp happly hps, hqs⟩

/-- The labels of patches do not matter. -/
theorem map_rebased {f : Patch → Patch} (hf : ∀ p, ∃ version, f p = p.rebased version)
    (h : Sequential t ps u) : Sequential t (ps.map f) u := by
  induction h with
  | nil => exact nil _
  | @cons p ps t u v hm hp happly _ ih =>
    obtain ⟨version, he⟩ := hf p
    rw [List.map_cons, he]
    exact cons (hm.rebased version) hp ((apply_rebased p version t).trans happly) ih

/-- The last patch knows the length of the last text. -/
theorem docLength_getLast (ht : '\r' ∉ t) (h : Sequential t ps u) (hne : ps ≠ []) :
    (ps.getLast hne).docLength = u.length := by
  induction ps generalizing t with
  | nil => exact absurd rfl hne
  | cons p ps ih =>
    obtain ⟨v, -, hp, hps⟩ := h.of_cons ht
    cases ps with
    | nil =>
      cases hps
      exact hp.docLength
    | cons q qs => exact ih hp.free_after hps (List.cons_ne_nil q qs)

/-- The first text is determined by the patches and the last text. -/
theorem source_unique {t' : Text} (ht : '\r' ∉ t) (ht' : '\r' ∉ t') (h : Sequential t ps u)
    (h' : applyAll t' ps = .ok u) : t' = t := by
  induction ps generalizing t t' with
  | nil =>
    cases h
    exact Except.ok.inj h'
  | cons p ps ih =>
    obtain ⟨w, -, hp, hps⟩ := h.of_cons ht
    obtain ⟨w', happly, h'⟩ := exists_apply_of_applyAll_cons h'
    obtain rfl := ih hp.free_after (free_of_apply ht' hp.returnFree happly) hps h'
    exact ((apply_eq_ok_iff ht').mp happly).source_unique hp.rewrites

theorem singleton (hm : p.MadeFor t.length) (h : p.Leads t u) : Sequential t [p] u :=
  cons hm h.returnFree h.apply_eq (nil u)

end Sequential

/-- Patches lead one after another from one text to another, and each is for a base as long as the
text that it meets. -/
inductive InTurn : Text → List Patch → Text → Prop
  | nil (t : Text) : InTurn t [] t
  | cons {p : Patch} {ps : List Patch} {t u v : Text} : p.baseLength = t.length →
      p.apply t = .ok u → InTurn u ps v → InTurn t (p :: ps) v

theorem InTurn.applyAll_eq (h : InTurn t ps u) : applyAll t ps = .ok u := by
  induction h with
  | nil => rfl
  | cons _ happly _ ih => rw [applyAll_cons_of_apply happly, ih]

theorem Sequential.proper (h : Sequential t ps u) : ∀ p ∈ ps, p.Proper := by
  induction h with
  | nil => exact List.forall_mem_nil _
  | cons hm hp _ _ ih => exact List.forall_mem_cons.mpr ⟨⟨hm.text_ne_nil, hp⟩, ih⟩

theorem Sequential.inTurn (ht : '\r' ∉ t) (h : Sequential t ps u) : InTurn t ps u := by
  induction h with
  | nil => exact .nil _
  | cons hm hp happly _ ih =>
    have hleads := Leads.of_madeFor ht hm hp happly
    exact .cons hleads.baseLength_eq happly (ih hleads.free_after)

end Coedit.Patch
