import Coedit.Proofs.Rewrites
import Mathlib.Data.List.Chain

/-!
Simplifying does not change what diffs do (`Rewrites.simplify`, and `Rewrites.of_simplify` the
other way round), brings in no new character and no new start, and leaves nothing to simplify
(`simplified_simplify`, `simplify_eq_self`). What reads diffs from the head on and sees no merge
reads the same of the simplified ones (`apply_simplify`), so that a document with pairs takes both
alike (`applyAll_simplify_iff`). The list is followed as `simplify` builds
it: what is finished, in reverse, and what is still to come. All of it together, for lists in any
order and with diffs that have no text, is `simplify_normalises`.
-/
namespace Coedit.Diff

variable {i : Nat} {cs out : Text} {d next : Diff} {ds reversed : List Diff}

theorem Rewrites.drop_empty (hd : d.text = []) (h : Rewrites i cs (d :: ds) out) :
    Rewrites i cs ds out := by
  obtain ⟨kept, rest, result, rfl, rfl, hs, hd'⟩ := h.reach
  refine keepAll kept (hs ▸ ?_)
  obtain ⟨kind, start, text⟩ := d
  subst hd
  cases kind with
  | insertion =>
    obtain ⟨result, rfl, hrest⟩ := hd'.of_insertion
    exact hrest
  | deletion =>
    obtain ⟨rest, rfl, hrest⟩ := hd'.of_deletion
    exact hrest

theorem Rewrites.merge (hc : d.isContinuedBy next = true)
    (h : Rewrites i cs (d :: next :: ds) out) : Rewrites i cs (d.merge next :: ds) out := by
  obtain ⟨kept, rest, result, rfl, rfl, hs, hd⟩ := h.reach
  refine keepAll kept (hs ▸ ?_)
  obtain ⟨kind, start, text⟩ := d
  obtain ⟨kind', start', text'⟩ := next
  cases kind with
  | insertion =>
    cases kind' with
    | insertion =>
      obtain rfl : start = start' := by simpa [isContinuedBy] using hc
      obtain ⟨result, rfl, hnext⟩ := hd.of_insertion
      obtain ⟨result, rfl, hrest⟩ := hnext.of_insertion
      rw [← List.append_assoc]
      exact insert (text ++ text') hrest
    | deletion => cases hc
  | deletion =>
    cases kind' with
    | insertion => cases hc
    | deletion =>
      obtain rfl : start + text.length = start' := by
        simpa [isContinuedBy, stop, Diff.length] using hc
      obtain ⟨rest, rfl, hnext⟩ := hd.of_deletion
      obtain ⟨rest, rfl, hrest⟩ := hnext.of_deletion
      rw [← List.append_assoc]
      refine delete (text ++ text') ?_
      rwa [List.length_append, ← Nat.add_assoc]

theorem Rewrites.unmerge (hc : d.isContinuedBy next = true)
    (h : Rewrites i cs (d.merge next :: ds) out) : Rewrites i cs (d :: next :: ds) out := by
  obtain ⟨kept, rest, result, rfl, rfl, hs, hd⟩ := h.reach
  refine keepAll kept (hs ▸ ?_)
  obtain ⟨kind, start, text⟩ := d
  obtain ⟨kind', start', text'⟩ := next
  cases kind with
  | insertion =>
    cases kind' with
    | insertion =>
      obtain rfl : start = start' := by simpa [isContinuedBy] using hc
      obtain ⟨result, rfl, hrest⟩ :=
        of_insertion (show Rewrites start rest (insertion start (text ++ text') :: ds) result from hd)
      rw [List.append_assoc]
      exact insert text (insert text' hrest)
    | deletion => cases hc
  | deletion =>
    cases kind' with
    | insertion => cases hc
    | deletion =>
      obtain rfl : start + text.length = start' := by
        simpa [isContinuedBy, stop, Diff.length] using hc
      obtain ⟨rest, rfl, hrest⟩ :=
        of_deletion (show Rewrites start rest (deletion start (text ++ text') :: ds) result from hd)
      rw [List.append_assoc]
      rw [List.length_append, ← Nat.add_assoc] at hrest
      exact delete text (delete text' hrest)

theorem Rewrites.pushReversed (h : Rewrites i cs (reversed.reverse ++ d :: ds) out) :
    Rewrites i cs ((pushReversed reversed d).reverse ++ ds) out := by
  unfold Diff.pushReversed
  split
  · rename_i hd
    exact h.exchange _ (drop_empty (List.isEmpty_iff.mp hd))
  · cases reversed with
    | nil => exact h
    | cons last before =>
      dsimp only
      split
      · rename_i hc
        rw [List.reverse_cons, List.append_assoc] at h ⊢
        exact h.exchange _ (merge hc)
      · rwa [List.reverse_cons, List.append_assoc]

/-- Simplified diffs do what the diffs did. -/
theorem Rewrites.simplify (h : Rewrites i cs ds out) : Rewrites i cs (simplify ds) out := by
  have aux : ∀ (ds reversed : List Diff), Rewrites i cs (reversed.reverse ++ ds) out →
      Rewrites i cs (ds.foldl Diff.pushReversed reversed).reverse out := by
    intro ds
    induction ds with
    | nil => intro reversed h; rwa [List.append_nil] at h
    | cons d ds ih => intro reversed h; exact ih _ h.pushReversed
  exact aux ds [] h

theorem not_isEmpty (hd : d.text ≠ []) : ¬d.isEmpty = true := fun h => hd (List.isEmpty_iff.mp h)

theorem Rewrites.of_pushReversed (hd : d.text ≠ [])
    (h : Rewrites i cs ((Diff.pushReversed reversed d).reverse ++ ds) out) :
    Rewrites i cs (reversed.reverse ++ d :: ds) out := by
  unfold Diff.pushReversed at h
  rw [if_neg (not_isEmpty hd)] at h
  cases reversed with
  | nil => exact h
  | cons last before =>
    dsimp only at h
    split at h
    · rename_i hc
      rw [List.reverse_cons, List.append_assoc] at h ⊢
      exact h.exchange _ (unmerge hc)
    · rwa [List.reverse_cons, List.append_assoc] at h

/-- Diffs with text do what they do simplified. -/
theorem Rewrites.of_simplify (hds : ∀ d ∈ ds, d.text ≠ [])
    (h : Rewrites i cs (Diff.simplify ds) out) : Rewrites i cs ds out := by
  have aux : ∀ (ds reversed : List Diff), (∀ d ∈ ds, d.text ≠ []) →
      Rewrites i cs (ds.foldl Diff.pushReversed reversed).reverse out →
      Rewrites i cs (reversed.reverse ++ ds) out := by
    intro ds
    induction ds with
    | nil => intro reversed _ h; rwa [List.append_nil]
    | cons d ds ih =>
      intro reversed hds h
      obtain ⟨hd, hds⟩ := List.forall_mem_cons.mp hds
      exact (ih _ hds h).of_pushReversed hd
  exact aux ds [] hds h

section Members

variable {P : Diff → Prop}

theorem forall_mem_pushReversed
    (hmerge : ∀ d next, d.isContinuedBy next = true → P d → P next → P (d.merge next))
    (hd : d.text ≠ [] → P d) (hr : ∀ e ∈ reversed, P e) : ∀ e ∈ pushReversed reversed d, P e := by
  unfold pushReversed
  split
  · exact hr
  rename_i hne
  have hd' : P d := hd fun he => hne (List.isEmpty_iff.mpr he)
  cases reversed with
  | nil => simpa using hd'
  | cons last before =>
    obtain ⟨hlast, hbefore⟩ := List.forall_mem_cons.mp hr
    dsimp only
    split
    · rename_i hc
      exact List.forall_mem_cons.mpr ⟨hmerge _ _ hc hlast hd', hbefore⟩
    · exact List.forall_mem_cons.mpr ⟨hd', hr⟩

/-- What merging keeps, and every diff with text has, all simplified diffs have. -/
theorem forall_mem_simplify
    (hmerge : ∀ d next, d.isContinuedBy next = true → P d → P next → P (d.merge next))
    (hds : ∀ d ∈ ds, d.text ≠ [] → P d) : ∀ d ∈ simplify ds, P d := by
  have aux : ∀ (ds reversed : List Diff), (∀ d ∈ ds, d.text ≠ [] → P d) → (∀ e ∈ reversed, P e) →
      ∀ e ∈ ds.foldl pushReversed reversed, P e := by
    intro ds
    induction ds with
    | nil => intro reversed _ hr; exact hr
    | cons d ds ih =>
      intro reversed hds hr
      obtain ⟨hd, hds⟩ := List.forall_mem_cons.mp hds
      exact ih _ hds (forall_mem_pushReversed hmerge hd hr)
  intro d hd
  exact aux ds [] hds (by simp) d (List.mem_reverse.mp hd)

end Members

theorem text_ne_nil_of_mem_simplify (hd : d ∈ simplify ds) : d.text ≠ [] :=
  forall_mem_simplify (P := fun d => d.text ≠ [])
    (fun _ _ _ hd _ => List.append_ne_nil_of_left_ne_nil hd _) (fun _ _ h => h) d hd

theorem not_mem_text_of_mem_simplify {c : Char} (hds : ∀ d ∈ ds, c ∉ d.text)
    (hd : d ∈ simplify ds) : c ∉ d.text :=
  forall_mem_simplify (P := fun d => c ∉ d.text) (fun _ _ _ hd hn => by simp [merge, hd, hn])
    (fun d hd _ => hds d hd) d hd

/-- Simplified diffs start where diffs start. -/
theorem exists_start_eq_of_mem_simplify (hd : d ∈ simplify ds) : ∃ e ∈ ds, e.start = d.start :=
  forall_mem_simplify (P := fun d => ∃ e ∈ ds, e.start = d.start) (fun _ _ _ hd _ => hd)
    (fun d hd _ => ⟨d, hd, rfl⟩) d hd

/-- There is nothing to simplify: every diff has text and none continues the one before. -/
structure Simplified (ds : List Diff) : Prop where
  text_ne_nil : ∀ d ∈ ds, d.text ≠ []
  apart : ds.IsChain fun d next => d.isContinuedBy next = false

instance (ds : List Diff) : Decidable (Simplified ds) :=
  decidable_of_iff ((∀ d ∈ ds, d.text ≠ []) ∧
      ds.IsChain fun d next => d.isContinuedBy next = false)
    ⟨fun h => ⟨h.1, h.2⟩, fun h => ⟨h.1, h.2⟩⟩

theorem isChain_pushReversed
    (h : reversed.IsChain fun next d => d.isContinuedBy next = false) :
    (pushReversed reversed d).IsChain fun next d => d.isContinuedBy next = false := by
  unfold pushReversed
  split
  · exact h
  cases reversed with
  | nil => exact .singleton d
  | cons last before =>
    dsimp only
    split
    · -- what comes before looks only at the kind and the start of what follows it
      cases before with
      | nil => exact .singleton _
      | cons e before =>
        obtain ⟨he, h⟩ := List.isChain_cons_cons.mp h
        exact List.isChain_cons_cons.mpr ⟨he, h⟩
    · rename_i hc
      exact List.isChain_cons_cons.mpr ⟨Bool.eq_false_iff.mpr hc, h⟩

theorem simplified_simplify (ds : List Diff) : Simplified (simplify ds) where
  text_ne_nil _ hd := text_ne_nil_of_mem_simplify hd
  apart := by
    have aux : ∀ (ds reversed : List Diff),
        (reversed.IsChain fun next d => d.isContinuedBy next = false) →
        (ds.foldl pushReversed reversed).IsChain fun next d => d.isContinuedBy next = false := by
      intro ds
      induction ds with
      | nil => intro reversed h; exact h
      | cons d ds ih => intro reversed h; exact ih _ (isChain_pushReversed h)
    exact List.isChain_reverse.mpr (aux ds [] .nil)

theorem pushReversed_eq_cons (hd : d.text ≠ [])
    (hc : ∀ last ∈ reversed.head?, last.isContinuedBy d = false) :
    pushReversed reversed d = d :: reversed := by
  unfold pushReversed
  rw [if_neg (not_isEmpty hd)]
  cases reversed with
  | nil => rfl
  | cons last before => simp [hc last rfl]

theorem simplify_eq_self (h : Simplified ds) : simplify ds = ds := by
  have aux : ∀ (ds reversed : List Diff), Simplified (reversed.reverse ++ ds) →
      (ds.foldl pushReversed reversed).reverse = reversed.reverse ++ ds := by
    intro ds
    induction ds with
    | nil => intro reversed _; exact (List.append_nil _).symm
    | cons d ds ih =>
      intro reversed h
      have hpush : pushReversed reversed d = d :: reversed := by
        refine pushReversed_eq_cons (h.text_ne_nil d (by simp)) fun last hlast => ?_
        exact (List.isChain_append.mp h.apart).2.2 last (by simpa using hlast) d rfl
      rw [List.append_cons, ← List.reverse_cons] at h ⊢
      rw [List.foldl_cons, hpush, ih _ h]
  exact aux ds [] h

/-! ### What merging does not change -/

theorem isContinuedBy_merge {last : Diff} (h : last.isContinuedBy d = true) (next : Diff) :
    (last.merge d).isContinuedBy next = d.isContinuedBy next := by
  obtain ⟨kind, start, text⟩ := last
  obtain ⟨kind', start', text'⟩ := d
  cases kind with
  | insertion =>
    cases kind' with
    | insertion =>
      obtain rfl : start = start' := by simpa [isContinuedBy] using h
      rfl
    | deletion => cases h
  | deletion =>
    cases kind' with
    | insertion => cases h
    | deletion =>
      obtain rfl : start + text.length = start' := by
        simpa [isContinuedBy, stop, Diff.length] using h
      obtain ⟨kind, start', text''⟩ := next
      cases kind with
      | insertion => rfl
      | deletion => simp [isContinuedBy, merge, stop, Diff.length, Nat.add_assoc]

theorem kind_eq_of_isContinuedBy (h : d.isContinuedBy next = true) : d.kind = next.kind := by
  obtain ⟨kind, start, text⟩ := d
  obtain ⟨kind', start', text'⟩ := next
  cases kind <;> cases kind' <;> first | rfl | cases h

theorem length_merge (d next : Diff) : (d.merge next).length = d.length + next.length :=
  List.length_append

theorem merge_assoc (last d next : Diff) :
    (last.merge d).merge next = last.merge (d.merge next) := by
  simp [merge]

theorem pushReversed_of_empty (hd : d.text = []) (reversed : List Diff) :
    pushReversed reversed d = reversed := if_pos (List.isEmpty_iff.mpr hd)

/-- A merged diff is taken in as its two parts are. -/
theorem pushReversed_merge (hd : d.text ≠ []) (hc : d.isContinuedBy next = true)
    (reversed : List Diff) :
    pushReversed reversed (d.merge next) = pushReversed (pushReversed reversed d) next := by
  have hboth : (d.merge next).text ≠ [] := List.append_ne_nil_of_left_ne_nil hd _
  have hcontinue : ∀ last : Diff, last.isContinuedBy (d.merge next) = last.isContinuedBy d :=
    fun _ => rfl
  by_cases hnext : next.text = []
  · have hsame : d.merge next = d := by rw [merge, hnext, List.append_nil]
    rw [hsame, pushReversed_of_empty hnext]
  unfold pushReversed
  rw [if_neg (not_isEmpty hboth), if_neg (not_isEmpty hd), if_neg (not_isEmpty hnext)]
  cases reversed with
  | nil => simp [hc]
  | cons last before =>
    dsimp only
    rw [hcontinue]
    split
    · rename_i hlast
      simp [isContinuedBy_merge hlast, hc, merge_assoc]
    · simp [hc]

/-- What reads a list of diffs from its head on, and sees neither the diffs without text in it nor
whether two diffs are merged, does not see whether the list is simplified. -/
theorem apply_simplify {α : Type} {f : List Diff → α}
    (hcons : ∀ d ds ds', f ds = f ds' → f (d :: ds) = f (d :: ds'))
    (hmerge : ∀ d next ds, d.isContinuedBy next = true →
      f (d.merge next :: ds) = f (d :: next :: ds))
    (hempty : ∀ d ∈ ds, d.text = [] → ∀ ds, f (d :: ds) = f ds) : f (simplify ds) = f ds := by
  have happend (before : List Diff) {ds ds' : List Diff} (h : f ds = f ds') :
      f (before ++ ds) = f (before ++ ds') := by
    induction before with
    | nil => exact h
    | cons d before ih => exact hcons d _ _ ih
  have hpush (reversed ds : List Diff) {d : Diff}
      (hd : d.text = [] → ∀ ds, f (d :: ds) = f ds) :
      f ((pushReversed reversed d).reverse ++ ds) = f (reversed.reverse ++ d :: ds) := by
    by_cases hnil : d.text = []
    · rw [pushReversed_of_empty hnil]
      exact happend _ (hd hnil ds).symm
    unfold pushReversed
    rw [if_neg (not_isEmpty hnil)]
    cases reversed with
    | nil => rfl
    | cons last before =>
      dsimp only
      split
      · rename_i hc
        rw [List.reverse_cons, List.reverse_cons, List.append_assoc, List.append_assoc]
        exact happend _ (hmerge last d ds hc)
      · rw [List.reverse_cons, List.append_assoc]
        rfl
  have aux : ∀ (ds reversed : List Diff),
      (∀ d ∈ ds, d.text = [] → ∀ ds, f (d :: ds) = f ds) →
      f (ds.foldl pushReversed reversed).reverse = f (reversed.reverse ++ ds) := by
    intro ds
    induction ds with
    | nil => intro reversed _; rw [List.append_nil]; rfl
    | cons d ds ih =>
      intro reversed hempty
      obtain ⟨hd, hempty⟩ := List.forall_mem_cons.mp hempty
      exact (ih _ hempty).trans (hpush reversed ds hd)
  exact aux ds [] hempty

/-- Simplified insertions lie where insertions lie. -/
theorem exists_insertion_simplify_iff (hds : ∀ d ∈ ds, d.text ≠ []) (start : Nat) :
    (∃ d ∈ simplify ds, d.isInsertion = true ∧ d.start = start) ↔
      ∃ d ∈ ds, d.isInsertion = true ∧ d.start = start := by
  refine iff_of_eq (apply_simplify
    (f := fun ds => ∃ d ∈ ds, d.isInsertion = true ∧ d.start = start)
    (fun d ds ds' h => ?_) (fun d next ds hc => ?_) fun d hd hnil => absurd hnil (hds d hd))
  · simp only [List.exists_mem_cons_iff, h]
  · obtain ⟨kind, i, text⟩ := d
    obtain ⟨kind', i', text'⟩ := next
    cases kind with
    | insertion =>
      cases kind' with
      | insertion =>
        obtain rfl : i = i' := by simpa [isContinuedBy] using hc
        simp only [List.exists_mem_cons_iff, ← or_assoc]
        simp [isInsertion, Diff.merge]
      | deletion => cases hc
    | deletion =>
      cases kind' with
      | insertion => cases hc
      | deletion => simp [isInsertion, Diff.merge]

/-- Diffs with text make of a document, pairs or not, what they make of it simplified. -/
theorem applyAll_simplify_iff (hds : ∀ d ∈ ds, d.text ≠ []) {content : Text} :
    applyAll content (simplify ds) = .ok out ↔ applyAll content ds = .ok out := by
  have hsplits : (∀ d ∈ simplify ds, d.isInsertion = true → content.splitsPair d.start = false) ↔
      ∀ d ∈ ds, d.isInsertion = true → content.splitsPair d.start = false := by
    constructor
    · intro h d hd hins
      obtain ⟨e, he, heins, hstart⟩ :=
        (exists_insertion_simplify_iff hds d.start).mpr ⟨d, hd, hins, rfl⟩
      exact hstart ▸ h e he heins
    · intro h d hd hins
      obtain ⟨e, he, heins, hstart⟩ :=
        (exists_insertion_simplify_iff hds d.start).mp ⟨d, hd, hins, rfl⟩
      exact hstart ▸ h e he heins
  rw [applyAll, applyAll, applyFrom_eq_ok_iff_rewrites (Nat.zero_le _),
    applyFrom_eq_ok_iff_rewrites (Nat.zero_le _), hsplits]
  exact and_congr_right fun _ => ⟨Rewrites.of_simplify hds, Rewrites.simplify⟩

/-- Simplifying keeps how many characters the diffs of some kinds carry together. -/
theorem carried_simplify {f : List Diff → Nat} (counts : Kind → Bool)
    (hf : ∀ d ds, f (d :: ds) = (if counts d.kind then d.length else 0) + f ds) (ds : List Diff) :
    f (simplify ds) = f ds := by
  refine apply_simplify (fun d ds ds' h => ?_) (fun d next ds hc => ?_) fun d _ hnil ds => ?_
  · rw [hf, hf, h]
  · have hkind : d.kind = next.kind := kind_eq_of_isContinuedBy hc
    have hmerged : (d.merge next).kind = next.kind := hkind
    rw [hf, hf, hf, hmerged, hkind, length_merge]
    split <;> omega
  · simp [hf, length, hnil]

theorem insertedLength_simplify (ds : List Diff) :
    insertedLength (simplify ds) = insertedLength ds :=
  carried_simplify (· == .insertion) (fun _ _ => rfl) ds

theorem deletedLength_simplify (ds : List Diff) :
    deletedLength (simplify ds) = deletedLength ds :=
  carried_simplify (· == .deletion) (fun _ _ => rfl) ds

/-- Simplifying leaves nothing to simplify and keeps how much is inserted and deleted, whatever the
order of the diffs; a document without pairs that takes them becomes the same. -/
theorem simplify_normalises (ds : List Diff) :
    Simplified (simplify ds) ∧ simplify (simplify ds) = simplify ds ∧
      insertedLength (simplify ds) = insertedLength ds ∧
      deletedLength (simplify ds) = deletedLength ds ∧
      ∀ content out, content.hasCrlf = false → applyAll content ds = .ok out →
        applyAll content (simplify ds) = .ok out := by
  refine ⟨simplified_simplify ds, simplify_eq_self (simplified_simplify ds),
    insertedLength_simplify ds, deletedLength_simplify ds, fun content out hcrlf h => ?_⟩
  have hsplits : ∀ ds : List Diff, ∀ d ∈ ds, content.splitsPair d.start = false :=
    fun _ d _ => Text.splitsPair_eq_false hcrlf d.start
  have hrewrites := (applyFrom_eq_ok_iff (Nat.zero_le _) (hsplits ds)).mp h
  exact (applyFrom_eq_ok_iff (Nat.zero_le _) (hsplits _)).mpr hrewrites.simplify

/-- Diffs that continue each other across diffs without text, in a document with a carriage return
at its end. -/
theorem simplify_normalises_across_empty :
    let content : Text := ['x', 'y', '\r']
    let ds : List Diff := [.insertion 0 ['a'], .deletion 0 [], .insertion 0 ['b'], .deletion 0 ['x'],
      .insertion 1 [], .deletion 1 ['y']]
    content.hasCrlf = false ∧ applyAll content ds = .ok ['a', 'b', '\r'] ∧
      simplify ds = [.insertion 0 ['a', 'b'], .deletion 0 ['x', 'y']] ∧
      applyAll content (simplify ds) = .ok ['a', 'b', '\r'] := by
  intro content ds
  have hcrlf : content.hasCrlf = false := rfl
  have happly : applyAll content ds = .ok ['a', 'b', '\r'] := rfl
  obtain ⟨-, -, -, -, hwalk⟩ := simplify_normalises ds
  exact ⟨hcrlf, happly, rfl, hwalk content _ hcrlf happly⟩

end Coedit.Diff
