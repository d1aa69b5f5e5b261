import Coedit.Proofs.Transform

/-!
A document marked with an edit: each character with the text that the edit puts in front of it, and
whether the edit takes it away. Two diff lists that mark a document alike do the same to it whatever
comes later. Diffs past others mark the document of the others as they mark the base, carried over
(`Rewrites.marking_transformAll`); text of the others goes first where both insert.
-/
namespace Coedit

/-- A character, what an edit puts in front of it, and whether the edit takes it away. -/
structure Mark where
  gap : Text
  char : Char
  gone : Bool

/-- A document marked with an edit, and what the edit puts behind the last character. -/
structure Marking where
  marks : List Mark
  last : Text

namespace Mark

/-- Characters of which an edit takes all away, or none, and between which it inserts nothing. -/
def plain (gone : Bool) (text : Text) : List Mark := text.map fun c => ⟨[], c, gone⟩

/-- All that an edit puts in front of characters. -/
def gaps (marks : List Mark) : Text := marks.flatMap gap

theorem plain_append (gone : Bool) (s t : Text) : plain gone (s ++ t) = plain gone s ++ plain gone t :=
  List.map_append

theorem gaps_append (front back : List Mark) : gaps (front ++ back) = gaps front ++ gaps back :=
  List.flatMap_append

theorem gaps_plain (gone : Bool) (text : Text) : gaps (plain gone text) = [] := by
  simp [gaps, plain]

end Mark

namespace Marking

/-- What the edit makes of the document. -/
def text (m : Marking) : Text :=
  m.marks.flatMap (fun k => k.gap ++ if k.gone then [] else [k.char]) ++ m.last

def after (m : Marking) (front : List Mark) : Marking := ⟨front ++ m.marks, m.last⟩

def push (m : Marking) (gap : Text) : Marking :=
  match m.marks with
  | [] => ⟨[], gap ++ m.last⟩
  | k :: ks => ⟨{ k with gap := gap ++ k.gap } :: ks, m.last⟩

theorem after_after (m : Marking) (front back : List Mark) :
    (m.after back).after front = m.after (front ++ back) := by
  simp [after]

theorem after_inj {m m' : Marking} {front : List Mark} (h : m.after front = m'.after front) :
    m = m' := by
  obtain ⟨marks, last⟩ := m
  obtain ⟨marks', last'⟩ := m'
  simpa [after] using h

@[simp] theorem push_nil (m : Marking) : m.push [] = m := by
  obtain ⟨marks, last⟩ := m
  cases marks <;> rfl

theorem length_push (m : Marking) (gap : Text) : (m.push gap).marks.length = m.marks.length := by
  obtain ⟨marks, last⟩ := m
  cases marks <;> rfl

theorem push_push (m : Marking) (g h : Text) : (m.push h).push g = m.push (g ++ h) := by
  obtain ⟨marks, last⟩ := m
  cases marks <;> simp [push]

/-- What becomes of marks from an index on, when another edit is applied first: the gap in front of
a character that goes joins the next one. -/
def pastMarks (a : Edit) (last : Text) : Nat → List Mark → Marking
  | _, [] => ⟨[], last⟩
  | i, k :: ks =>
    let rest := (pastMarks a last (i + 1) ks).after (Mark.plain false (a.inserted (i + 1)))
    if a.deleted i then rest.push k.gap else rest.after [k]

/-- The marked rest of a document that begins at an index, when another edit is applied first. Its
text comes first where both insert. -/
def past (a : Edit) (i : Nat) (m : Marking) : Marking :=
  (pastMarks a m.last i m.marks).after (Mark.plain false (a.inserted i))

theorem past_cons (a : Edit) (i : Nat) (k : Mark) (m : Marking) :
    past a i (m.after [k]) =
      (if a.deleted i then (past a (i + 1) m).push k.gap else (past a (i + 1) m).after [k]).after
        (Mark.plain false (a.inserted i)) := rfl

theorem pastMarks_congr {a a' : Edit} {i : Nat} (last : Text) (ks : List Mark)
    (hi : a.deleted i = a'.deleted i)
    (h : ∀ j, i + 1 ≤ j → a.inserted j = a'.inserted j ∧ a.deleted j = a'.deleted j) :
    pastMarks a last i ks = pastMarks a' last i ks := by
  induction ks generalizing i with
  | nil => rfl
  | cons k ks ih =>
    obtain ⟨hins, hdel⟩ := h (i + 1) (Nat.le_refl _)
    have hrest := ih hdel fun j hj => h j (Nat.le_of_succ_le hj)
    simp only [pastMarks, hi, hins, hrest]

theorem past_congr {a a' : Edit} {i : Nat} (m : Marking)
    (h : ∀ j, i ≤ j → a.inserted j = a'.inserted j ∧ a.deleted j = a'.deleted j) :
    past a i m = past a' i m := by
  obtain ⟨hins, hdel⟩ := h i (Nat.le_refl i)
  rw [past, past, hins, pastMarks_congr m.last m.marks hdel fun j hj => h j (Nat.le_of_succ_le hj)]

/-- A stretch that the other edit does not touch stays as it is. -/
theorem past_after_kept {a : Edit} {i : Nat} (m : Marking) (front : List Mark)
    (h : ∀ j, i ≤ j → j < i + front.length → a.inserted j = [] ∧ a.deleted j = false) :
    past a i (m.after front) = (past a (i + front.length) m).after front := by
  induction front generalizing i with
  | nil => rfl
  | cons k front ih =>
    have hi : i + (k :: front).length = i + 1 + front.length := by rw [List.length_cons]; omega
    obtain ⟨hins, hdel⟩ := h i (Nat.le_refl i) (by omega)
    have hcons : m.after (k :: front) = (m.after front).after [k] := rfl
    rw [hcons, past_cons, hins, hdel, ih fun j hj hlt => h j (by omega) (by omega), hi]
    rfl

/-- Of a stretch that the other edit takes away the gaps remain. -/
theorem past_after_gone {a : Edit} {i : Nat} (m : Marking) (front : List Mark)
    (h : ∀ j, i ≤ j → j < i + front.length → a.inserted j = [] ∧ a.deleted j = true) :
    past a i (m.after front) = (past a (i + front.length) m).push (Mark.gaps front) := by
  induction front generalizing i with
  | nil => exact (push_nil _).symm
  | cons k front ih =>
    have hi : i + (k :: front).length = i + 1 + front.length := by rw [List.length_cons]; omega
    obtain ⟨hins, hdel⟩ := h i (Nat.le_refl i) (by omega)
    have hcons : m.after (k :: front) = (m.after front).after [k] := rfl
    rw [hcons, past_cons, hins, hdel, if_pos rfl, ih fun j hj hlt => h j (by omega) (by omega), hi,
      push_push]
    rfl

theorem pastMarks_push (a : Edit) (i : Nat) (m : Marking) (gap : Text) :
    pastMarks a (m.push gap).last i (m.push gap).marks =
      (pastMarks a m.last i m.marks).push gap := by
  obtain ⟨marks, last⟩ := m
  cases marks with
  | nil => rfl
  | cons k ks =>
    change pastMarks a last i ({ k with gap := gap ++ k.gap } :: ks) = _
    simp only [pastMarks]
    split
    · rw [push_push]
    · rfl

end Marking

namespace Edit

/-- The rest of a document that begins at an index, marked with an edit. -/
def marking (e : Edit) : Nat → Text → Marking
  | i, [] => ⟨[], e.inserted i⟩
  | i, c :: cs => (marking e (i + 1) cs).after [⟨e.inserted i, c, e.deleted i⟩]

theorem text_marking (e : Edit) (i : Nat) (cs : Text) : (e.marking i cs).text = e.apply i cs := by
  induction cs generalizing i with
  | nil => rfl
  | cons c cs ih => simp [marking, apply, ← ih, Marking.text, Marking.after]

theorem length_marking (e : Edit) (i : Nat) (cs : Text) :
    (e.marking i cs).marks.length = cs.length := by
  induction cs generalizing i with
  | nil => rfl
  | cons c cs ih => simp [marking, Marking.after, ih]

theorem marking_congr {e e' : Edit} {i : Nat} (cs : Text)
    (h : ∀ j, i ≤ j → e.inserted j = e'.inserted j ∧ e.deleted j = e'.deleted j) :
    e.marking i cs = e'.marking i cs := by
  induction cs generalizing i with
  | nil => rw [marking, marking, (h i (Nat.le_refl i)).1]
  | cons c cs ih =>
    rw [marking, marking, (h i (Nat.le_refl i)).1, (h i (Nat.le_refl i)).2,
      ih fun j hj => h j (Nat.le_of_succ_le hj)]

/-- A stretch in which an edit inserts nothing and deletes all or nothing. -/
theorem marking_append {e : Edit} {i : Nat} {gone : Bool} (s cs : Text)
    (h : ∀ j, i ≤ j → j < i + s.length → e.inserted j = [] ∧ e.deleted j = gone) :
    e.marking i (s ++ cs) = (e.marking (i + s.length) cs).after (Mark.plain gone s) := by
  induction s generalizing i with
  | nil => rfl
  | cons c s ih =>
    have hi : i + (c :: s).length = i + 1 + s.length := by rw [List.length_cons]; omega
    obtain ⟨hins, hdel⟩ := h i (Nat.le_refl i) (by omega)
    rw [List.cons_append, marking, ih fun j hj hlt => h j (by omega) (by omega), hins, hdel, hi,
      Marking.after_after]
    rfl

end Edit

namespace Diff

variable {i j : Nat} {cs us out t : Text} {ds es others : List Diff}

/-- Before its first diff a document is not marked. -/
theorem marking_of_le_start (s cs : Text) (hds : ∀ d ∈ ds, i + s.length ≤ d.start) :
    (Edit.ofDiffs ds).marking i (s ++ cs) =
      ((Edit.ofDiffs ds).marking (i + s.length) cs).after (Mark.plain false s) := by
  apply Edit.marking_append
  intro j _ hlt
  have hlater : ∀ d ∈ ds, j < d.start := fun d hd => Nat.lt_of_lt_of_le hlt (hds d hd)
  exact ⟨insertedAt_eq_nil hlater, isDeletedBy_eq_false hlater⟩

theorem marking_insertion (i : Nat) (text cs : Text) (ds : List Diff) :
    (Edit.ofDiffs (insertion i text :: ds)).marking i cs =
      ((Edit.ofDiffs ds).marking i cs).push text := by
  cases cs with
  | nil =>
    rw [Edit.marking, Edit.marking, inserted_insertion, if_pos rfl]
    rfl
  | cons c cs =>
    have hlater : (Edit.ofDiffs (insertion i text :: ds)).marking (i + 1) cs =
        (Edit.ofDiffs ds).marking (i + 1) cs := by
      apply Edit.marking_congr
      intro j hj
      simp [Nat.ne_of_lt hj]
    rw [Edit.marking, Edit.marking, hlater, inserted_insertion, if_pos rfl, deleted_insertion]
    rfl

theorem marking_deletion (text cs : Text) (hds : ∀ d ∈ ds, i + text.length ≤ d.start) :
    (Edit.ofDiffs (deletion i text :: ds)).marking i (text ++ cs) =
      ((Edit.ofDiffs ds).marking (i + text.length) cs).after (Mark.plain true text) := by
  have hspan : (Edit.ofDiffs (deletion i text :: ds)).marking i (text ++ cs) =
      ((Edit.ofDiffs (deletion i text :: ds)).marking (i + text.length) cs).after
        (Mark.plain true text) := by
    apply Edit.marking_append
    intro j hj hlt
    have hrest : (Edit.ofDiffs ds).inserted j = [] :=
      insertedAt_eq_nil fun d hd => Nat.lt_of_lt_of_le hlt (hds d hd)
    simp [hrest, hj, hlt]
  rw [hspan]
  congr 1
  apply Edit.marking_congr
  intro j hj
  simp [Nat.not_lt.mpr hj]

/-! ### Marks behind other diffs -/

variable {m : Marking}

theorem past_of_le_start (front : List Mark) (hds : ∀ d ∈ ds, i + front.length ≤ d.start) :
    Marking.past (Edit.ofDiffs ds) i (m.after front) =
      (Marking.past (Edit.ofDiffs ds) (i + front.length) m).after front := by
  apply Marking.past_after_kept
  intro j _ hlt
  have hlater : ∀ d ∈ ds, j < d.start := fun d hd => Nat.lt_of_lt_of_le hlt (hds d hd)
  exact ⟨insertedAt_eq_nil hlater, isDeletedBy_eq_false hlater⟩

theorem past_insertion (i : Nat) (text : Text) (ds : List Diff) (m : Marking) :
    Marking.past (Edit.ofDiffs (insertion i text :: ds)) i m =
      (Marking.past (Edit.ofDiffs ds) i m).after (Mark.plain false text) := by
  have hmarks : Marking.pastMarks (Edit.ofDiffs (insertion i text :: ds)) m.last i m.marks =
      Marking.pastMarks (Edit.ofDiffs ds) m.last i m.marks := by
    apply Marking.pastMarks_congr
    · exact deleted_insertion i i text ds
    · intro j hj
      simp [Nat.ne_of_lt hj]
  rw [Marking.past, Marking.past, hmarks, inserted_insertion, if_pos rfl, Mark.plain_append,
    Marking.after_after]

theorem past_deletion {front : List Mark} {text : Text} (hlen : front.length = text.length)
    (hds : ∀ d ∈ ds, i + text.length ≤ d.start) :
    Marking.past (Edit.ofDiffs (deletion i text :: ds)) i (m.after front) =
      (Marking.past (Edit.ofDiffs ds) (i + text.length) m).push (Mark.gaps front) := by
  have hspan : Marking.past (Edit.ofDiffs (deletion i text :: ds)) i (m.after front) =
      (Marking.past (Edit.ofDiffs (deletion i text :: ds)) (i + front.length) m).push
        (Mark.gaps front) := by
    apply Marking.past_after_gone
    intro j hj hlt
    rw [hlen] at hlt
    have hrest : (Edit.ofDiffs ds).inserted j = [] :=
      insertedAt_eq_nil fun d hd => Nat.lt_of_lt_of_le hlt (hds d hd)
    simp [hrest, hj, hlt]
  have hlater : Marking.past (Edit.ofDiffs (deletion i text :: ds)) (i + text.length) m =
      Marking.past (Edit.ofDiffs ds) (i + text.length) m := by
    apply Marking.past_congr
    intro j hj
    simp [Nat.not_lt.mpr hj]
  rw [hspan, hlen, hlater]

/-! ### Diffs past others -/

/-- Deleting runs is deleting their characters one by one. -/
theorem ofDiffs_runs {l : List (Nat × Char)} (hl : Linked others l) :
    Edit.ofDiffs ((runs others l).map (deletionOfRun others)) =
      Edit.ofDiffs (l.map (deletionOf others)) := by
  induction l with
  | nil => rfl
  | cons x l ih =>
    cases l with
    | nil => rfl
    | cons y l =>
      obtain ⟨hxy, hl⟩ := List.isChain_cons_cons.mp hl
      have hback := ofDiffs_congr_append [deletionOf others x] (ih hl)
      obtain ⟨text, more, hr⟩ := runs_cons others y l
      rw [hr] at hback
      rw [runs_cons_cons hr]
      split
      · exact hback
      · rename_i hc
        have hnext := hxy (Bool.not_eq_true _ ▸ hc)
        have hmerge : (deletionOf others x).isContinuedBy (deletionOfRun others (y.1, text)) := by
          simp [deletionOf, deletionOfRun, isContinuedBy, deletion, stop, length, hnext]
        exact (ofDiffs_append_congr (ofDiffs_merge hmerge) _).symm.trans hback

theorem ofDiffs_transformAll_insertion (i : Nat) (text : Text) (ds : List Diff)
    (othersFirst : Bool) (others : List Diff) :
    Edit.ofDiffs (transformAll (insertion i text :: ds) othersFirst others) =
      Edit.ofDiffs (insertion (mapIndex i others othersFirst) text ::
        transformAll ds othersFirst others) := by
  cases text with
  | nil => exact (ofDiffs_append_congr (ofDiffs_of_text_eq_nil rfl) _).symm
  | cons c text => rfl

theorem ofDiffs_transformAll_deletion (ho : Ordered others) (i : Nat) (text : Text)
    (ds : List Diff) (othersFirst : Bool) :
    Edit.ofDiffs (transformAll (deletion i text :: ds) othersFirst others) =
      Edit.ofDiffs ((survivors others i text).map (deletionOf others) ++
        transformAll ds othersFirst others) := by
  rw [transformAll_deletion]
  exact ofDiffs_append_congr (ofDiffs_runs (linked_survivors ho i text)) _

/-- Deleting the survivors one by one marks the document of the others as the deletion marks the
base. -/
theorem marking_survivors (ho : Ordered others) {m : Marking}
    (hes : ∀ e ∈ es, mapIndex (i + t.length) others false ≤ e.start)
    (h : (Edit.ofDiffs es).marking (mapIndex (i + t.length) others false) us =
      Marking.past (Edit.ofDiffs others) (i + t.length) m) :
    (Edit.ofDiffs ((survivors others i t).map (deletionOf others) ++ es)).marking
        (mapIndex i others false) ((Edit.ofDiffs others).stretch i t ++ us) =
      Marking.past (Edit.ofDiffs others) i (m.after (Mark.plain true t)) := by
  induction t generalizing i with
  | nil => exact h
  | cons c t ih =>
    have hi : i + (c :: t).length = i + 1 + t.length := by rw [List.length_cons]; omega
    rw [hi] at hes h
    have hrest := ih hes h
    have hlater : ∀ e ∈ (survivors others (i + 1) t).map (deletionOf others) ++ es,
        mapIndex (i + 1) others false ≤ e.start := by
      intro e he
      rcases List.mem_append.mp he with he | he
      · obtain ⟨⟨k, c⟩, hk, rfl⟩ := List.mem_map.mp he
        exact Nat.le_trans (mapIndex_le ho (i + 1)) (mapIndex_true_mono ho (mem_survivors hk).1)
      · exact Nat.le_trans (mapIndex_false_mono ho (Nat.le_add_right _ _)) (hes e he)
    have hplain : m.after (Mark.plain true (c :: t)) =
        (m.after (Mark.plain true t)).after [⟨[], c, true⟩] := rfl
    have hstart := mapIndex_true ho i
    rw [mapIndex_succ ho] at hlater hrest
    rw [Edit.stretch, survivors, hplain, Marking.past_cons, ← hrest, List.append_assoc]
    cases hd : isDeletedBy others i with
    | true =>
      have hd' : (Edit.ofDiffs others).deleted i = true := hd
      rw [hd', hstart] at hlater
      rw [hd', hstart]
      simp only [if_true, Marking.push_nil]
      exact marking_of_le_start _ _ hlater
    | false =>
      have hd' : (Edit.ofDiffs others).deleted i = false := hd
      rw [hd'] at hlater
      rw [hd']
      simp only [Bool.false_eq_true, if_false, List.map_cons, List.cons_append]
      have hdelete := marking_deletion [c] ((Edit.ofDiffs others).stretch (i + 1) t ++ us) hlater
      have hfirst : ∀ e ∈ deletionOf others (i, c) ::
            ((survivors others (i + 1) t).map (deletionOf others) ++ es),
          mapIndex i others false + ((Edit.ofDiffs others).inserted i).length ≤ e.start := by
        rw [← hstart]
        intro e he
        rcases List.mem_cons.mp he with rfl | he
        · exact Nat.le_refl _
        · exact Nat.le_of_succ_le (hlater e he)
      rw [marking_of_le_start _ _ hfirst, ← hstart]
      exact congrArg (Marking.after · _) hdelete

/-- From an index on, diffs past `others` mark the document of `others` as they mark the base. -/
def MarksPast (others : List Diff) (i : Nat) (cs : Text) (ds : List Diff) : Prop :=
  (Edit.ofDiffs (transformAll ds true others)).marking (mapIndex i others false)
      ((Edit.ofDiffs others).apply i cs) =
    Marking.past (Edit.ofDiffs others) i ((Edit.ofDiffs ds).marking i cs)

theorem MarksPast.done (others : List Diff) (i : Nat) : MarksPast others i [] [] := by
  have hplain := marking_of_le_start (i := mapIndex i others false)
    ((Edit.ofDiffs others).inserted i) [] (fun d (hd : d ∈ ([] : List Diff)) => nomatch hd)
  rw [List.append_nil] at hplain
  exact hplain

theorem MarksPast.keep (ho : Ordered others) (c : Char) (hds : ∀ d ∈ ds, i + 1 ≤ d.start)
    (h : MarksPast others (i + 1) cs ds) : MarksPast others i (c :: cs) ds := by
  have hbase : (Edit.ofDiffs ds).marking i (c :: cs) =
      ((Edit.ofDiffs ds).marking (i + 1) cs).after [⟨[], c, false⟩] :=
    marking_of_le_start [c] cs hds
  have hlater : ∀ e ∈ transformAll ds true others, mapIndex (i + 1) others false ≤ e.start :=
    fun e he => Nat.le_trans (mapIndex_le ho (i + 1)) (le_start_of_mem_transformAll ho hds he)
  rw [MarksPast] at h ⊢
  rw [hbase, Marking.past_cons, ← h, Edit.apply, ← List.append_assoc]
  rw [mapIndex_succ ho, mapIndex_true ho] at hlater ⊢
  cases hdel : (Edit.ofDiffs others).deleted i with
  | true =>
    rw [hdel] at hlater
    simp only [if_true, Marking.push_nil, List.append_nil]
    exact marking_of_le_start _ _ hlater
  | false =>
    have hlen : mapIndex i others false + ((Edit.ofDiffs others).inserted i).length + 1 =
        mapIndex i others false + ((Edit.ofDiffs others).inserted i ++ [c]).length := by
      rw [List.length_append, Nat.add_assoc]
      rfl
    rw [hdel] at hlater
    simp only [Bool.false_eq_true, if_false] at hlater ⊢
    rw [hlen] at hlater ⊢
    rw [marking_of_le_start _ _ hlater, Mark.plain_append, ← Marking.after_after]
    rfl

theorem MarksPast.insert (ho : Ordered others) (text : Text) (hds : ∀ d ∈ ds, i ≤ d.start)
    (h : MarksPast others i cs ds) : MarksPast others i cs (insertion i text :: ds) := by
  have hstart := mapIndex_true ho i
  have hlater : ∀ e ∈ transformAll ds true others,
      mapIndex i others false + ((Edit.ofDiffs others).inserted i).length ≤ e.start :=
    fun e he => hstart ▸ le_start_of_mem_transformAll ho hds he
  rw [MarksPast, Edit.apply_eq] at h ⊢
  rw [marking_of_le_start _ _ hlater, ← hstart] at h
  have hbehind := Marking.after_inj h
  have hfirst : ∀ e ∈ insertion (mapIndex i others true) text :: transformAll ds true others,
      mapIndex i others false + ((Edit.ofDiffs others).inserted i).length ≤ e.start := by
    rw [← hstart] at hlater ⊢
    exact List.forall_mem_cons.mpr ⟨Nat.le_refl _, hlater⟩
  rw [ofDiffs_transformAll_insertion, marking_of_le_start _ _ hfirst, ← hstart, marking_insertion,
    hbehind, marking_insertion, Marking.past, Marking.pastMarks_push]

theorem MarksPast.delete (ho : Ordered others) (text : Text)
    (hds : ∀ d ∈ ds, i + text.length ≤ d.start) (h : MarksPast others (i + text.length) cs ds) :
    MarksPast others i (text ++ cs) (deletion i text :: ds) := by
  have hlater : ∀ e ∈ transformAll ds true others, mapIndex (i + text.length) others false ≤ e.start :=
    fun e he => Nat.le_trans (mapIndex_le ho _) (le_start_of_mem_transformAll ho hds he)
  rw [MarksPast, ofDiffs_transformAll_deletion ho, Edit.apply_append, marking_deletion text cs hds]
  exact marking_survivors ho hlater h

/-- Diffs that fit a document mark the document of `others`, when they have gone past them, as they
mark their own, carried over. -/
theorem Rewrites.marking_transformAll (ho : Ordered others) (h : Rewrites i cs ds out) :
    MarksPast others i cs ds := by
  induction h with
  | done i => exact .done others i
  | keep c h ih => exact ih.keep ho c h.le_start
  | insert text h ih => exact ih.insert ho text h.le_start
  | delete text h ih => exact ih.delete ho text h.le_start

end Diff

end Coedit
