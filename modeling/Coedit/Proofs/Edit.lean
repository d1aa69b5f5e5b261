import Coedit.Diff.Transform
import Coedit.Proofs.Rewrites
import Mathlib.Tactic.SplitIfs

/-!
What diffs do to a document, index by index: the text that they put in front of a character, and
whether they take the character away. Diffs that fit a document do exactly this
(`Rewrites.eq_apply`), and `mapIndex` measures it (`mapIndex_add_length`). Where no character is
deleted twice, no more is counted as deleted than there is (`deletedBefore_le`). Simplifying leaves
the edit as it is (`ofDiffs_simplify`).
-/
namespace Coedit

namespace Diff

/-- The text that diffs put in front of the character at an index. -/
def insertedAt (index : Nat) : List Diff → Text
  | [] => []
  | d :: ds => (if d.isInsertion && d.start == index then d.text else []) ++ insertedAt index ds

end Diff

/-- An edit of a document: what is put in front of each index, and which characters go. -/
structure Edit where
  inserted : Nat → Text
  deleted : Nat → Bool

namespace Edit

def ofDiffs (ds : List Diff) : Edit := ⟨fun i => Diff.insertedAt i ds, Diff.isDeletedBy ds⟩

/-- Two edits of one document as one. Where both insert, `aFirst` says whose text goes first; a
character goes if either edit deletes it. -/
def merge (aFirst : Bool) (a b : Edit) : Edit :=
  ⟨fun i => if aFirst then a.inserted i ++ b.inserted i else b.inserted i ++ a.inserted i,
    fun i => a.deleted i || b.deleted i⟩

/-- The edit that inserts the same and deletes everything. -/
def clearing (e : Edit) : Edit := ⟨e.inserted, fun _ => true⟩

/-- What an edit makes of a document, or of the rest of one that begins at an index. -/
def apply (e : Edit) : Nat → Text → Text
  | i, [] => e.inserted i
  | i, c :: cs => e.inserted i ++ ((if e.deleted i then [] else [c]) ++ apply e (i + 1) cs)

/-- What an edit makes of a stretch of a document, without what it inserts behind the stretch. -/
def stretch (e : Edit) : Nat → Text → Text
  | _, [] => []
  | i, c :: cs => e.inserted i ++ ((if e.deleted i then [] else [c]) ++ stretch e (i + 1) cs)

/-- What an edit makes of the rest of a document, behind what it inserts in front of it. -/
def behind (e : Edit) (i : Nat) : Text → Text
  | [] => []
  | c :: cs => (if e.deleted i then [] else [c]) ++ e.apply (i + 1) cs

theorem ext_of {e e' : Edit} (hi : ∀ j, e.inserted j = e'.inserted j)
    (hd : ∀ j, e.deleted j = e'.deleted j) : e = e' := by
  cases e
  cases e'
  rw [mk.injEq]
  exact ⟨funext hi, funext hd⟩

theorem apply_eq (e : Edit) (i : Nat) (cs : Text) : e.apply i cs = e.inserted i ++ e.behind i cs := by
  cases cs with
  | nil => exact (List.append_nil _).symm
  | cons c cs => rfl

@[simp] theorem inserted_merge (aFirst : Bool) (a b : Edit) (i : Nat) :
    (a.merge aFirst b).inserted i =
      if aFirst then a.inserted i ++ b.inserted i else b.inserted i ++ a.inserted i := rfl

@[simp] theorem deleted_merge (aFirst : Bool) (a b : Edit) (i : Nat) :
    (a.merge aFirst b).deleted i = (a.deleted i || b.deleted i) := rfl

theorem merge_comm (aFirst : Bool) (a b : Edit) : a.merge aFirst b = b.merge (!aFirst) a := by
  cases aFirst <;> simp [merge, Bool.or_comm]

theorem stretch_clearing_cons (e : Edit) (i : Nat) (c : Char) (cs : Text) :
    e.clearing.stretch i (c :: cs) = e.inserted i ++ e.clearing.stretch (i + 1) cs := rfl

theorem apply_append (e : Edit) (i : Nat) (t cs : Text) :
    e.apply i (t ++ cs) = e.stretch i t ++ e.apply (i + t.length) cs := by
  induction t generalizing i with
  | nil => rfl
  | cons c t ih =>
    have hi : i + (c :: t).length = i + 1 + t.length := by rw [List.length_cons]; omega
    rw [List.cons_append, apply, ih, stretch, hi]
    simp only [List.append_assoc]

/-- Only what an edit does from an index on counts for the rest of a document. -/
theorem apply_congr {e e' : Edit} {i : Nat} (cs : Text)
    (h : ∀ j, i ≤ j → e.inserted j = e'.inserted j ∧ e.deleted j = e'.deleted j) :
    e.apply i cs = e'.apply i cs := by
  induction cs generalizing i with
  | nil => exact (h i (Nat.le_refl i)).1
  | cons c cs ih =>
    rw [apply, apply, (h i (Nat.le_refl i)).1, (h i (Nat.le_refl i)).2,
      ih fun j hj => h j (Nat.le_of_succ_le hj)]

theorem behind_congr {e e' : Edit} {i : Nat} (cs : Text) (hi : e.deleted i = e'.deleted i)
    (h : ∀ j, i + 1 ≤ j → e.inserted j = e'.inserted j ∧ e.deleted j = e'.deleted j) :
    e.behind i cs = e'.behind i cs := by
  cases cs with
  | nil => rfl
  | cons c cs => rw [behind, behind, hi, apply_congr cs h]

theorem stretch_congr {e e' : Edit} {i : Nat} (t : Text)
    (h : ∀ j, i ≤ j → j < i + t.length →
      e.inserted j = e'.inserted j ∧ e.deleted j = e'.deleted j) :
    e.stretch i t = e'.stretch i t := by
  induction t generalizing i with
  | nil => rfl
  | cons c t ih =>
    rw [List.length_cons] at h
    obtain ⟨hi, hd⟩ := h i (Nat.le_refl i) (by omega)
    rw [stretch, stretch, hi, hd, ih fun j hj hlt => h j (by omega) (by omega)]

/-- A stretch in which an edit inserts nothing and deletes everything leaves nothing. -/
theorem stretch_eq_nil {e : Edit} {i : Nat} (t : Text)
    (h : ∀ j, i ≤ j → j < i + t.length → e.inserted j = [] ∧ e.deleted j = true) :
    e.stretch i t = [] := by
  induction t generalizing i with
  | nil => rfl
  | cons c t ih =>
    rw [List.length_cons] at h
    obtain ⟨hi, hd⟩ := h i (Nat.le_refl i) (by omega)
    rw [stretch, hi, hd, ih fun j hj hlt => h j (by omega) (by omega)]
    rfl

end Edit

namespace Diff

variable {i j : Nat} {cs out : Text} {ds : List Diff}

theorem insertedAt_eq_nil (h : ∀ d ∈ ds, j < d.start) : insertedAt j ds = [] := by
  induction ds with
  | nil => rfl
  | cons d ds ih =>
    obtain ⟨hd, hds⟩ := List.forall_mem_cons.mp h
    have hne : (d.start == j) = false := beq_eq_false_iff_ne.mpr (Nat.ne_of_gt hd)
    simp [insertedAt, hne, ih hds]

theorem isDeletedBy_eq_false (h : ∀ d ∈ ds, j < d.start) : isDeletedBy ds j = false := by
  refine List.any_eq_false.mpr fun d hd => ?_
  have := h d hd
  simp; omega

@[simp] theorem ofDiffs_nil : Edit.ofDiffs [] = ⟨fun _ => [], fun _ => false⟩ := rfl

@[simp] theorem inserted_insertion (i j : Nat) (t : Text) (ds : List Diff) :
    (Edit.ofDiffs (insertion i t :: ds)).inserted j =
      (if i = j then t else []) ++ (Edit.ofDiffs ds).inserted j := by
  simp [Edit.ofDiffs, insertedAt, insertion, isInsertion]

@[simp] theorem deleted_insertion (i j : Nat) (t : Text) (ds : List Diff) :
    (Edit.ofDiffs (insertion i t :: ds)).deleted j = (Edit.ofDiffs ds).deleted j := rfl

@[simp] theorem inserted_deletion (i j : Nat) (t : Text) (ds : List Diff) :
    (Edit.ofDiffs (deletion i t :: ds)).inserted j = (Edit.ofDiffs ds).inserted j := by
  simp [Edit.ofDiffs, insertedAt, deletion, isInsertion]

@[simp] theorem deleted_deletion (i j : Nat) (t : Text) (ds : List Diff) :
    (Edit.ofDiffs (deletion i t :: ds)).deleted j =
      (decide (i ≤ j) && decide (j < i + t.length) || (Edit.ofDiffs ds).deleted j) := rfl

/-- Diffs that fit a document do to it what they do index by index. -/
theorem Rewrites.eq_apply (h : Rewrites i cs ds out) : out = (Edit.ofDiffs ds).apply i cs := by
  induction h with
  | done => rfl
  | @keep i cs out ds c h ih =>
    have hi : (Edit.ofDiffs ds).inserted i = [] := insertedAt_eq_nil h.le_start
    have hd : (Edit.ofDiffs ds).deleted i = false := isDeletedBy_eq_false h.le_start
    rw [Edit.apply, hi, hd, ← ih]
    rfl
  | @insert i cs out ds text h ih =>
    have hlater : ∀ j, i + 1 ≤ j →
        (Edit.ofDiffs (insertion i text :: ds)).inserted j = (Edit.ofDiffs ds).inserted j ∧
          (Edit.ofDiffs (insertion i text :: ds)).deleted j = (Edit.ofDiffs ds).deleted j := by
      intro j hj
      simp [Nat.ne_of_lt hj]
    have hbehind : (Edit.ofDiffs (insertion i text :: ds)).behind i cs =
        (Edit.ofDiffs ds).behind i cs := Edit.behind_congr cs rfl hlater
    rw [ih, Edit.apply_eq, Edit.apply_eq, hbehind, inserted_insertion, if_pos rfl,
      List.append_assoc]
  | @delete i cs out ds text h ih =>
    have hspan : ∀ j, i ≤ j → j < i + text.length →
        (Edit.ofDiffs (deletion i text :: ds)).inserted j = [] ∧
          (Edit.ofDiffs (deletion i text :: ds)).deleted j = true := by
      intro j hj hlt
      have hds : (Edit.ofDiffs ds).inserted j = [] :=
        insertedAt_eq_nil fun d hd => Nat.lt_of_lt_of_le hlt (h.le_start d hd)
      simp [hds, hj, hlt]
    have hlater : ∀ j, i + text.length ≤ j →
        (Edit.ofDiffs (deletion i text :: ds)).inserted j = (Edit.ofDiffs ds).inserted j ∧
          (Edit.ofDiffs (deletion i text :: ds)).deleted j = (Edit.ofDiffs ds).deleted j := by
      intro j hj
      simp [Nat.not_lt.mpr hj]
    rw [Edit.apply_append, Edit.stretch_eq_nil text hspan, Edit.apply_congr cs hlater, ← ih,
      List.nil_append]

/-- Diffs that fit a document fit another one of its length exactly if that holds the same
characters where they delete. -/
theorem Rewrites.fits_iff (h : Rewrites i cs ds out) {cs' : Text} (hlen : cs'.length = cs.length) :
    (∃ out', Rewrites i cs' ds out') ↔
      ∀ j, isDeletedBy ds (i + j) = true → cs'[j]? = cs[j]? := by
  induction h generalizing cs' with
  | done i =>
    obtain rfl := List.eq_nil_of_length_eq_zero hlen
    exact ⟨fun _ _ _ => rfl, fun _ => ⟨[], .done i⟩⟩
  | @keep i cs out ds c h ih =>
    obtain ⟨c', cs', rfl⟩ := List.exists_cons_of_length_eq_add_one hlen
    have hfirst : isDeletedBy ds i = false := isDeletedBy_eq_false h.le_start
    have hrest : (∃ out', Rewrites i (c' :: cs') ds out') ↔
        ∃ out', Rewrites (i + 1) cs' ds out' := by
      constructor
      · rintro ⟨whole, hwhole⟩
        have hkeep : Rewrites i ([c'] ++ cs') ds whole := hwhole
        obtain ⟨result, -, hlater⟩ := of_keepAll h.le_start hkeep
        exact ⟨result, hlater⟩
      · rintro ⟨result, hlater⟩
        exact ⟨_, .keep c' hlater⟩
    rw [hrest, ih (Nat.succ.inj hlen)]
    constructor
    · intro hsame j hj
      cases j with
      | zero => rw [Nat.add_zero, hfirst] at hj; cases hj
      | succ j =>
        rw [List.getElem?_cons_succ, List.getElem?_cons_succ]
        exact hsame j (by rwa [Nat.add_assoc, Nat.add_comm 1])
    · intro hsame j hj
      have hnext := hsame (j + 1) (by rwa [Nat.add_comm j, ← Nat.add_assoc])
      rwa [List.getElem?_cons_succ, List.getElem?_cons_succ] at hnext
  | @insert i cs out ds text h ih =>
    have hrest : (∃ out', Rewrites i cs' (insertion i text :: ds) out') ↔
        ∃ out', Rewrites i cs' ds out' := by
      constructor
      · rintro ⟨_, hwhole⟩
        obtain ⟨result, -, hlater⟩ := hwhole.of_insertion
        exact ⟨result, hlater⟩
      · rintro ⟨result, hlater⟩
        exact ⟨_, .insert text hlater⟩
    rw [hrest, ih hlen]
    rfl
  | @delete i cs out ds text h ih =>
    have hin {j : Nat} (hj : j < text.length) :
        isDeletedBy (deletion i text :: ds) (i + j) = true := by
      change (Edit.ofDiffs (deletion i text :: ds)).deleted (i + j) = true
      simp [hj]
    have hbehind (j : Nat) : isDeletedBy (deletion i text :: ds) (i + (text.length + j)) =
        isDeletedBy ds (i + text.length + j) := by
      have hout : ¬i + text.length + j < i + text.length := Nat.not_lt.mpr (Nat.le_add_right ..)
      change (Edit.ofDiffs (deletion i text :: ds)).deleted _ = _
      rw [← Nat.add_assoc, deleted_deletion, decide_eq_false hout, Bool.and_false, Bool.false_or]
      rfl
    have hback {rest : Text} (j : Nat) : (text ++ rest)[text.length + j]? = rest[j]? := by
      rw [List.getElem?_append_right (Nat.le_add_right ..), Nat.add_sub_cancel_left]
    constructor
    · rintro ⟨_, hwhole⟩ j hj
      obtain ⟨rest, rfl, hlater⟩ := hwhole.of_deletion
      rw [List.length_append, List.length_append] at hlen
      have hsame := (ih (Nat.add_left_cancel hlen)).mp ⟨_, hlater⟩
      rcases Nat.lt_or_ge j text.length with hlt | hge
      · rw [List.getElem?_append_left hlt, List.getElem?_append_left hlt]
      · obtain ⟨k, rfl⟩ := Nat.exists_eq_add_of_le hge
        rw [hback, hback]
        exact hsame k (hbehind k ▸ hj)
    · intro hsame
      have hfront : text <+: cs' := List.prefix_iff_getElem?.mpr fun j hj => by
        rw [hsame j (hin hj), List.getElem?_append_left hj, List.getElem?_eq_getElem hj]
      obtain ⟨rest, rfl⟩ := hfront
      rw [List.length_append, List.length_append] at hlen
      obtain ⟨result, hlater⟩ := (ih (Nat.add_left_cancel hlen)).mpr fun j hj => by
        have hnext := hsame (text.length + j) (hbehind j ▸ hj)
        rwa [hback, hback] at hnext
      exact ⟨_, .delete text hlater⟩

/-! ### Where an index goes -/

/-- Of two diffs in a list the later one begins behind the earlier one's span. -/
def Ordered (ds : List Diff) : Prop := ds.Pairwise fun d e => d.stop ≤ e.start

theorem Rewrites.ordered (h : Rewrites i cs ds out) : Ordered ds := by
  induction h with
  | done => exact .nil
  | keep _ _ ih => exact ih
  | insert _ h ih => exact List.pairwise_cons.mpr ⟨h.le_start, ih⟩
  | delete _ h ih => exact List.pairwise_cons.mpr ⟨h.le_start, ih⟩

theorem insertedBefore_zero (ds : List Diff) : insertedBefore 0 false ds = 0 := by
  induction ds with
  | nil => rfl
  | cons d ds ih => simp [insertedBefore, ih]

theorem insertedBefore_true (i : Nat) (ds : List Diff) :
    insertedBefore i true ds = insertedBefore i false ds + (insertedAt i ds).length := by
  induction ds with
  | nil => rfl
  | cons d ds ih =>
    simp only [insertedBefore, insertedAt, List.length_append, ih]
    cases d.isInsertion with
    | false => simp
    | true =>
      rcases Nat.lt_trichotomy d.start i with h | h | h
      · simp [h, Nat.ne_of_lt h, Nat.add_assoc]
      · simp [h, length]; omega
      · simp [Nat.ne_of_gt h, Nat.not_lt_of_gt h]

theorem insertedBefore_succ (i : Nat) (ds : List Diff) :
    insertedBefore (i + 1) false ds = insertedBefore i true ds := by
  induction ds with
  | nil => rfl
  | cons d ds ih =>
    have hiff : d.start < i + 1 ↔ d.start < i ∨ d.start = i := by omega
    simp [insertedBefore, ih, hiff]

theorem deletedBefore_zero (ds : List Diff) : deletedBefore 0 ds = 0 := by
  induction ds with
  | nil => rfl
  | cons d ds ih => simp [deletedBefore, ih]

/-- How much of a span lies before the next index. -/
theorem spanBefore_succ (start stop i : Nat) :
    (if start < i + 1 then min stop (i + 1) - start else 0) =
      (if start < i then min stop i - start else 0) +
        if start ≤ i ∧ i < stop then 1 else 0 := by
  split_ifs <;> omega

def deletes (index : Nat) (d : Diff) : Bool :=
  d.isDeletion && d.start ≤ index && index < d.stop

theorem isDeletedBy_eq_any (ds : List Diff) (i : Nat) : isDeletedBy ds i = ds.any (deletes i) := rfl

theorem deletedBefore_succ_eq_countP (ds : List Diff) (i : Nat) :
    deletedBefore (i + 1) ds = deletedBefore i ds + ds.countP (deletes i) := by
  induction ds with
  | nil => rfl
  | cons d ds ih =>
    rw [deletedBefore, deletedBefore, List.countP_cons, ih, deletes]
    cases d.isDeletion with
    | false => simp
    | true =>
      simp only [Bool.true_and, Bool.and_eq_true, decide_eq_true_eq]
      rw [spanBefore_succ]
      omega

/-- No two diffs delete the same character. -/
def Apart (ds : List Diff) : Prop :=
  ds.Pairwise fun d e => ∀ i, deletes i d = true → deletes i e = false

theorem Ordered.apart (h : Ordered ds) : Apart ds :=
  h.imp fun hle i hd => by
    simp only [deletes, Bool.and_eq_true, decide_eq_true_eq] at hd
    simp only [deletes, Bool.and_eq_false_iff, decide_eq_false_iff_not]
    omega

theorem Apart.countP_eq (h : Apart ds) (i : Nat) :
    ds.countP (deletes i) = if isDeletedBy ds i then 1 else 0 := by
  induction ds with
  | nil => rfl
  | cons d ds ih =>
    obtain ⟨hd, hds⟩ := List.pairwise_cons.mp h
    rw [isDeletedBy_eq_any, List.countP_cons, List.any_cons, ih hds, isDeletedBy_eq_any]
    by_cases hin : deletes i d = true
    · have hrest : ds.any (deletes i) = false :=
        List.any_eq_false.mpr fun e he => Bool.eq_false_iff.mp (hd e he i hin)
      simp [hin, hrest]
    · simp [hin]

theorem deletedBefore_succ (h : Apart ds) (i : Nat) :
    deletedBefore (i + 1) ds = deletedBefore i ds + if isDeletedBy ds i then 1 else 0 := by
  rw [deletedBefore_succ_eq_countP, h.countP_eq]

/-- Where no character is deleted twice, no more is deleted than there is. -/
theorem deletedBefore_le (h : Apart ds) (i : Nat) : deletedBefore i ds ≤ i := by
  induction i with
  | zero => exact Nat.le_of_eq (deletedBefore_zero ds)
  | succ i ih =>
    rw [deletedBefore_succ h]
    split <;> omega

theorem mapIndex_zero (ds : List Diff) : mapIndex 0 ds false = 0 := by
  simp [mapIndex, insertedBefore_zero, deletedBefore_zero]

/-- Behind the text that is inserted at an index. -/
theorem mapIndex_true (h : Ordered ds) (i : Nat) :
    mapIndex i ds true = mapIndex i ds false + ((Edit.ofDiffs ds).inserted i).length := by
  have hle := deletedBefore_le h.apart i
  simp only [mapIndex, insertedBefore_true, Edit.ofDiffs]
  omega

theorem mapIndex_succ (h : Ordered ds) (i : Nat) :
    mapIndex (i + 1) ds false =
      mapIndex i ds true + if (Edit.ofDiffs ds).deleted i then 0 else 1 := by
  have hle := deletedBefore_le h.apart i
  have hd : (Edit.ofDiffs ds).deleted i = isDeletedBy ds i := rfl
  rw [mapIndex, mapIndex, insertedBefore_succ, deletedBefore_succ h.apart, hd]
  split_ifs <;> omega

theorem mapIndex_add_length (h : Ordered ds) (i : Nat) (t : Text) :
    mapIndex (i + t.length) ds false =
      mapIndex i ds false + ((Edit.ofDiffs ds).stretch i t).length := by
  induction t generalizing i with
  | nil => rfl
  | cons c t ih =>
    have hi : i + (c :: t).length = i + 1 + t.length := by rw [List.length_cons]; omega
    rw [hi, ih, mapIndex_succ h, mapIndex_true h, Edit.stretch]
    split <;> simp <;> omega

/-! ### Diffs that do the same -/

section Same

variable {d next : Diff} {es : List Diff}

theorem inserted_append (ds es : List Diff) (j : Nat) :
    (Edit.ofDiffs (ds ++ es)).inserted j =
      (Edit.ofDiffs ds).inserted j ++ (Edit.ofDiffs es).inserted j := by
  induction ds with
  | nil => rfl
  | cons d ds ih =>
    simp only [Edit.ofDiffs] at ih ⊢
    rw [List.cons_append, insertedAt, insertedAt, ih, List.append_assoc]

theorem deleted_append (ds es : List Diff) (j : Nat) :
    (Edit.ofDiffs (ds ++ es)).deleted j =
      ((Edit.ofDiffs ds).deleted j || (Edit.ofDiffs es).deleted j) :=
  List.any_append

theorem ofDiffs_append_congr (h : Edit.ofDiffs ds = Edit.ofDiffs es) (back : List Diff) :
    Edit.ofDiffs (ds ++ back) = Edit.ofDiffs (es ++ back) := by
  apply Edit.ext_of
  · intro j
    rw [inserted_append, inserted_append, h]
  · intro j
    rw [deleted_append, deleted_append, h]

theorem ofDiffs_congr_append (front : List Diff) (h : Edit.ofDiffs ds = Edit.ofDiffs es) :
    Edit.ofDiffs (front ++ ds) = Edit.ofDiffs (front ++ es) := by
  apply Edit.ext_of
  · intro j
    rw [inserted_append, inserted_append, h]
  · intro j
    rw [deleted_append, deleted_append, h]

theorem ofDiffs_of_text_eq_nil (hd : d.text = []) : Edit.ofDiffs [d] = Edit.ofDiffs [] := by
  obtain ⟨kind, start, text⟩ := d
  subst hd
  apply Edit.ext_of
  · intro j
    simp [Edit.ofDiffs, insertedAt]
  · intro j
    cases kind with
    | insertion => rfl
    | deletion =>
      change (Edit.ofDiffs [deletion start []]).deleted j = _
      simp

/-- Two diffs that continue each other do together what their merge does. -/
theorem ofDiffs_merge (h : d.isContinuedBy next = true) :
    Edit.ofDiffs [d, next] = Edit.ofDiffs [d.merge next] := by
  obtain ⟨kind, start, text⟩ := d
  obtain ⟨kind', start', text'⟩ := next
  cases kind with
  | insertion =>
    cases kind' with
    | deletion => cases h
    | insertion =>
      obtain rfl : start = start' := by simpa [isContinuedBy] using h
      apply Edit.ext_of
      · intro j
        by_cases hj : start = j <;> simp [Edit.ofDiffs, insertedAt, merge, isInsertion, hj]
      · intro j
        rfl
  | deletion =>
    cases kind' with
    | insertion => cases h
    | deletion =>
      obtain rfl : start + text.length = start' := by
        simpa [isContinuedBy, stop, length] using h
      apply Edit.ext_of
      · intro j
        simp [Edit.ofDiffs, insertedAt, merge, isInsertion]
      · intro j
        change (Edit.ofDiffs [deletion start text, deletion (start + text.length) text']).deleted j =
          (Edit.ofDiffs [deletion start (text ++ text')]).deleted j
        rw [Bool.eq_iff_iff]
        simp
        omega

theorem ofDiffs_pushReversed (reversed : List Diff) (d : Diff) :
    Edit.ofDiffs (pushReversed reversed d).reverse = Edit.ofDiffs (reversed.reverse ++ [d]) := by
  unfold pushReversed
  split
  · rename_i hd
    have hnothing := ofDiffs_of_text_eq_nil (List.isEmpty_iff.mp hd)
    rw [ofDiffs_congr_append reversed.reverse hnothing, List.append_nil]
  · cases reversed with
    | nil => rfl
    | cons last before =>
      dsimp only
      split
      · rename_i hc
        have hmerge := ofDiffs_congr_append before.reverse (ofDiffs_merge hc)
        rw [List.reverse_cons, List.reverse_cons, List.append_assoc, ← hmerge]
        rfl
      · rw [List.reverse_cons]

/-- Simplifying diffs does not change what they do to an index. -/
theorem ofDiffs_simplify (ds : List Diff) : Edit.ofDiffs (simplify ds) = Edit.ofDiffs ds := by
  have aux : ∀ (ds reversed : List Diff), Edit.ofDiffs (ds.foldl pushReversed reversed).reverse =
      Edit.ofDiffs (reversed.reverse ++ ds) := by
    intro ds
    induction ds with
    | nil =>
      intro reversed
      rw [List.append_nil]
      rfl
    | cons d ds ih =>
      intro reversed
      rw [List.foldl_cons, ih, ofDiffs_append_congr (ofDiffs_pushReversed reversed d) ds,
        List.append_assoc]
      rfl
  exact aux ds []

end Same

end Diff

end Coedit
