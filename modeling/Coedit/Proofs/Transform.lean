import Coedit.Proofs.Edit
import Coedit.Proofs.Simplify
import Coedit.Patch.Transform
import Mathlib.Data.List.Chain

/-!
Transformed diffs do on the document of the others what was meant on the common base: together
with the others they make the merge of the two edits (`Rewrites.transformAll`).
-/
namespace Coedit.Diff

variable {i j : Nat} {t cs us out : Text} {ds rest others : List Diff}

/-! ### The parts of a deletion -/

theorem insertedAt_eq_nil_of_not_cut {low high m : Nat} (hc : isCutBy others low high = false)
    (hlow : low < m) (hhigh : m ≤ high) : insertedAt m others = [] := by
  induction others with
  | nil => rfl
  | cons o others ih =>
    obtain ⟨ho, hothers⟩ := Bool.or_eq_false_iff.mp hc
    rw [insertedAt, ih hothers, List.append_nil]
    split
    · rename_i hat
      obtain ⟨hi, hs⟩ := Bool.and_eq_true_iff.mp hat
      obtain rfl := beq_iff_eq.mp hs
      simpa [hi, hlow, hhigh, isEmpty] using ho
    · rfl

/-- Two characters that stand side by side once the others are applied. -/
theorem mapIndex_next (ho : Ordered others) {n : Nat} (hi : isDeletedBy others i = false)
    (hd : ∀ m, i < m → m < i + 1 + n → isDeletedBy others m = true)
    (hc : ∀ m, i < m → m ≤ i + 1 + n → insertedAt m others = []) :
    mapIndex (i + 1 + n) others true = mapIndex i others true + 1 := by
  induction n with
  | zero =>
    have hins : (Edit.ofDiffs others).inserted (i + 1) = [] := hc (i + 1) (by omega) (by omega)
    have hdel : (Edit.ofDiffs others).deleted i = false := hi
    rw [Nat.add_zero, mapIndex_true ho, mapIndex_succ ho, hins, hdel]
    rfl
  | succ n ih =>
    have hins : (Edit.ofDiffs others).inserted (i + 1 + n + 1) = [] :=
      hc (i + 1 + n + 1) (by omega) (by omega)
    have hdel : (Edit.ofDiffs others).deleted (i + 1 + n) = true :=
      hd (i + 1 + n) (by omega) (by omega)
    rw [← Nat.add_assoc, mapIndex_true ho, mapIndex_succ ho, hins, hdel,
      ih (fun m hm hlt => hd m hm (by omega)) fun m hm hle => hc m hm (by omega)]
    rfl

theorem mem_survivors {k : Nat} {c : Char} (h : (k, c) ∈ survivors others i t) :
    i ≤ k ∧ c ∈ t := by
  induction t generalizing i with
  | nil => cases h
  | cons x t ih =>
    simp only [survivors] at h
    split at h
    · obtain ⟨hk, hc⟩ := ih h
      exact ⟨by omega, List.mem_cons_of_mem x hc⟩
    · rcases List.mem_cons.mp h with he | h
      · obtain ⟨rfl, rfl⟩ := Prod.mk.inj he
        exact ⟨Nat.le_refl _, List.mem_cons_self⟩
      · obtain ⟨hk, hc⟩ := ih h
        exact ⟨by omega, List.mem_cons_of_mem x hc⟩

/-- Up to the first survivor everything is deleted. -/
theorem survivors_head {k : Nat} {c : Char} {more : List (Nat × Char)}
    (h : survivors others i t = (k, c) :: more) :
    i ≤ k ∧ ∀ m, i ≤ m → m < k → isDeletedBy others m = true := by
  induction t generalizing i with
  | nil => cases h
  | cons x t ih =>
    simp only [survivors] at h
    split at h
    · rename_i hi
      obtain ⟨hk, hd⟩ := ih h
      refine ⟨by omega, fun m hm hlt => ?_⟩
      rcases Nat.eq_or_lt_of_le hm with rfl | hm
      · exact hi
      · exact hd m hm hlt
    · obtain ⟨rfl, rfl⟩ := Prod.mk.inj (List.cons.inj h).1
      exact ⟨Nat.le_refl _, fun m hm hlt => absurd hm (Nat.not_le.mpr hlt)⟩

/-- The deletion of a single character that the others leave. -/
def deletionOf (others : List Diff) (survivor : Nat × Char) : Diff :=
  deletion (mapIndex survivor.1 others true) [survivor.2]

/-- Deleting the survivors one by one, on the document of the others. -/
theorem Rewrites.survivors (ho : Ordered others)
    (h : Rewrites (mapIndex (i + t.length) others false) us rest out) :
    Rewrites (mapIndex i others false) ((Edit.ofDiffs others).stretch i t ++ us)
      ((survivors others i t).map (deletionOf others) ++ rest)
      ((Edit.ofDiffs others).clearing.stretch i t ++ out) := by
  induction t generalizing i with
  | nil => exact h
  | cons c t ih =>
    have hi : i + (c :: t).length = i + 1 + t.length := by rw [List.length_cons]; omega
    have hrest := ih (hi ▸ h)
    rw [mapIndex_succ ho] at hrest
    rw [Edit.stretch, Edit.stretch_clearing_cons]
    simp only [List.append_assoc]
    refine keepAll _ ?_
    rw [← mapIndex_true ho]
    cases hd : isDeletedBy others i with
    | true =>
      have hd' : (Edit.ofDiffs others).deleted i = true := hd
      rw [hd'] at hrest ⊢
      rwa [Diff.survivors, if_pos hd]
    | false =>
      have hd' : (Edit.ofDiffs others).deleted i = false := hd
      rw [hd'] at hrest ⊢
      rw [Diff.survivors, hd]
      exact delete [c] hrest

/-- Each survivor stands right behind the one before it, unless the others insert in between. -/
def Linked (others : List Diff) (l : List (Nat × Char)) : Prop :=
  l.IsChain fun x y => isCutBy others x.1 y.1 = false →
    mapIndex x.1 others true + 1 = mapIndex y.1 others true

theorem linked_survivors (ho : Ordered others) (i : Nat) (t : Text) :
    Linked others (survivors others i t) := by
  induction t generalizing i with
  | nil => exact List.isChain_nil
  | cons c t ih =>
    rw [survivors]
    split
    · exact ih (i + 1)
    · rename_i hi
      rw [Bool.not_eq_true] at hi
      have hrest := ih (i + 1)
      cases hs : survivors others (i + 1) t with
      | nil => exact List.isChain_singleton _
      | cons next more =>
        obtain ⟨k, c'⟩ := next
        rw [hs] at hrest
        refine List.isChain_cons_cons.mpr ⟨fun hc => ?_, hrest⟩
        obtain ⟨hk, hd⟩ := survivors_head hs
        obtain ⟨n, rfl⟩ := Nat.exists_eq_add_of_le hk
        exact (mapIndex_next ho hi (fun m hm hlt => hd m hm hlt)
          fun m hm hle => insertedAt_eq_nil_of_not_cut hc hm hle).symm

theorem runs_cons_cons {x y : Nat × Char} {l : List (Nat × Char)} {run : Nat × Text}
    {more : List (Nat × Text)} (hr : runs others (y :: l) = run :: more) :
    runs others (x :: y :: l) =
      if isCutBy others x.1 y.1 then (x.1, [x.2]) :: run :: more
      else (x.1, x.2 :: run.2) :: more := by
  conv => lhs; unfold runs
  rw [hr]

theorem runs_cons (others : List Diff) (x : Nat × Char) (l : List (Nat × Char)) :
    ∃ text more, runs others (x :: l) = (x.1, text) :: more := by
  induction l generalizing x with
  | nil => exact ⟨_, _, rfl⟩
  | cons y l ih =>
    obtain ⟨text, more, hr⟩ := ih y
    rw [runs_cons_cons hr]
    split <;> exact ⟨_, _, rfl⟩

/-- The deletion of a run of characters that the others leave. -/
def deletionOfRun (others : List Diff) (run : Nat × Text) : Diff :=
  deletion (mapIndex run.1 others true) run.2

/-- Deleting runs does what deleting their characters one by one does. -/
theorem Rewrites.runs {l : List (Nat × Char)} (hl : Linked others l)
    (h : Rewrites j us (l.map (deletionOf others) ++ rest) out) :
    Rewrites j us ((runs others l).map (deletionOfRun others) ++ rest) out := by
  induction l generalizing j us out with
  | nil => exact h
  | cons x l ih =>
    cases l with
    | nil => exact h
    | cons y l =>
      obtain ⟨hxy, hl⟩ := List.isChain_cons_cons.mp hl
      have hback := h.exchange [deletionOf others x] (ih hl)
      obtain ⟨text, more, hr⟩ := runs_cons others y l
      rw [hr] at hback
      rw [runs_cons_cons hr]
      split
      · exact hback
      · rename_i hc
        have hnext := hxy (Bool.not_eq_true _ ▸ hc)
        exact hback.merge (by simp [deletionOf, deletionOfRun, isContinuedBy, deletion, stop, length, hnext])

/-! ### Transformed diffs -/

theorem mapIndex_true_mono (ho : Ordered others) (h : i ≤ j) :
    mapIndex i others true ≤ mapIndex j others true := by
  obtain ⟨n, rfl⟩ := Nat.exists_eq_add_of_le h
  induction n with
  | zero => exact Nat.le_refl _
  | succ n ih =>
    have hstep := mapIndex_succ ho (i + n)
    have htrue := mapIndex_true ho (i + n + 1)
    have hle := ih (Nat.le_add_right i n)
    rw [← Nat.add_assoc]
    omega

theorem mapIndex_le (ho : Ordered others) (i : Nat) :
    mapIndex i others false ≤ mapIndex i others true := by
  rw [mapIndex_true ho]
  exact Nat.le_add_right _ _

theorem mapIndex_false_mono (ho : Ordered others) (h : i ≤ j) :
    mapIndex i others false ≤ mapIndex j others false := by
  obtain ⟨n, rfl⟩ := Nat.exists_eq_add_of_le h
  induction n with
  | zero => exact Nat.le_refl _
  | succ n ih =>
    have hstep := mapIndex_succ ho (i + n)
    have hle := mapIndex_le ho (i + n)
    have hn := ih (Nat.le_add_right i n)
    rw [← Nat.add_assoc]
    omega

theorem mem_runs {l : List (Nat × Char)} {start : Nat} {text : Text}
    (h : (start, text) ∈ runs others l) :
    (∃ c, (start, c) ∈ l) ∧ text ≠ [] ∧ ∀ c ∈ text, ∃ k, (k, c) ∈ l := by
  induction l generalizing start text with
  | nil => cases h
  | cons x l ih =>
    have hx : ∀ c ∈ [x.2], ∃ k, (k, c) ∈ x :: l := by
      intro c hc
      obtain rfl := List.mem_singleton.mp hc
      exact ⟨x.1, List.mem_cons_self⟩
    have hhead : (∃ c, (x.1, c) ∈ x :: l) ∧ [x.2] ≠ [] ∧ ∀ c ∈ [x.2], ∃ k, (k, c) ∈ x :: l :=
      ⟨⟨x.2, List.mem_cons_self⟩, List.cons_ne_nil _ _, hx⟩
    have hl : ∀ {start text}, (start, text) ∈ runs others l →
        (∃ c, (start, c) ∈ x :: l) ∧ text ≠ [] ∧ ∀ c ∈ text, ∃ k, (k, c) ∈ x :: l := by
      intro start text h
      obtain ⟨⟨c, hc⟩, hne, htext⟩ := ih h
      refine ⟨⟨c, List.mem_cons_of_mem x hc⟩, hne, fun c hc => ?_⟩
      obtain ⟨k, hk⟩ := htext c hc
      exact ⟨k, List.mem_cons_of_mem x hk⟩
    cases l with
    | nil =>
      obtain ⟨rfl, rfl⟩ := Prod.mk.inj (List.mem_singleton.mp h)
      exact hhead
    | cons y l =>
      obtain ⟨next, more, hr⟩ := runs_cons others y l
      rw [runs_cons_cons hr] at h
      rw [hr] at hl
      split at h
      · rcases List.mem_cons.mp h with he | h
        · obtain ⟨rfl, rfl⟩ := Prod.mk.inj he
          exact hhead
        · exact hl h
      · rcases List.mem_cons.mp h with he | h
        · obtain ⟨rfl, rfl⟩ := Prod.mk.inj he
          refine ⟨hhead.1, List.cons_ne_nil _ _, fun c hc => ?_⟩
          rcases List.mem_cons.mp hc with rfl | hc
          · exact ⟨x.1, List.mem_cons_self⟩
          · exact (hl List.mem_cons_self).2.2 c hc
        · exact hl (List.mem_cons_of_mem _ h)

/-- Where a transformed diff can begin, and what its text is made of. -/
theorem mem_transformAll {othersFirst : Bool} {e : Diff}
    (h : e ∈ transformAll ds othersFirst others) :
    ∃ d ∈ ds, (∀ c ∈ e.text, c ∈ d.text) ∧ e.text ≠ [] ∧
      ∃ k tiesFirst, d.start ≤ k ∧ (othersFirst = true → tiesFirst = true) ∧
        e.start = mapIndex k others tiesFirst := by
  obtain ⟨d, hd, h⟩ := List.mem_flatMap.mp h
  refine ⟨d, hd, ?_⟩
  unfold transform at h
  split at h
  · cases h
  rename_i hne
  split at h
  · obtain rfl := List.mem_singleton.mp h
    exact ⟨fun c hc => hc, fun he => hne (List.isEmpty_iff.mpr he), d.start, othersFirst,
      Nat.le_refl _, id, rfl⟩
  · obtain ⟨⟨start, text⟩, hrun, rfl⟩ := List.mem_map.mp h
    obtain ⟨⟨c, hc⟩, htext, hchars⟩ := mem_runs hrun
    refine ⟨fun c hc => ?_, htext, start, true, (mem_survivors hc).1, fun _ => rfl, rfl⟩
    obtain ⟨k, hk⟩ := hchars c hc
    exact (mem_survivors hk).2

theorem le_start_of_mem_transformAll (ho : Ordered others) (hds : ∀ d ∈ ds, i ≤ d.start)
    {e : Diff} (he : e ∈ transformAll ds true others) : mapIndex i others true ≤ e.start := by
  obtain ⟨d, hd, -, -, k, tiesFirst, hk, hties, hs⟩ := mem_transformAll he
  rw [hs, hties rfl]
  exact mapIndex_true_mono ho (Nat.le_trans (hds d hd) hk)

theorem transformAll_deletion (i : Nat) (text : Text) (ds : List Diff) (othersFirst : Bool)
    (others : List Diff) :
    transformAll (deletion i text :: ds) othersFirst others =
      (runs others (survivors others i text)).map (deletionOfRun others) ++
        transformAll ds othersFirst others := by
  cases text <;> rfl

theorem Rewrites.transformAll_insertion {text : Text} {othersFirst : Bool}
    (h : Rewrites j us (insertion (mapIndex i others othersFirst) text ::
      transformAll ds othersFirst others) out) :
    Rewrites j us (transformAll (insertion i text :: ds) othersFirst others) out := by
  cases text with
  | nil => exact h.drop_empty rfl
  | cons c text => exact h

/-- From an index on, diffs past `others` make of the document of `others` the merge of both
edits. -/
def MeetsPast (others : List Diff) (othersFirst : Bool) (i : Nat) (cs : Text) (ds : List Diff) :
    Prop :=
  Rewrites (mapIndex i others false) ((Edit.ofDiffs others).apply i cs)
    (transformAll ds othersFirst others)
    (((Edit.ofDiffs ds).merge (!othersFirst) (Edit.ofDiffs others)).apply i cs)

theorem MeetsPast.done (othersFirst : Bool) (i : Nat) : MeetsPast others othersFirst i [] [] := by
  have hm : ((Edit.ofDiffs []).merge (!othersFirst) (Edit.ofDiffs others)).apply i [] =
      (Edit.ofDiffs others).apply i [] := by
    cases othersFirst <;> simp [Edit.apply]
  rw [MeetsPast, hm]
  exact .nothing _ _

theorem MeetsPast.keep (ho : Ordered others) {othersFirst : Bool} (c : Char)
    (hds : ∀ d ∈ ds, i + 1 ≤ d.start) (h : MeetsPast others othersFirst (i + 1) cs ds) :
    MeetsPast others othersFirst i (c :: cs) ds := by
  have hi : (Edit.ofDiffs ds).inserted i = [] := insertedAt_eq_nil hds
  have hd : (Edit.ofDiffs ds).deleted i = false := isDeletedBy_eq_false hds
  have hm : ((Edit.ofDiffs ds).merge (!othersFirst) (Edit.ofDiffs others)).inserted i =
      (Edit.ofDiffs others).inserted i := by
    cases othersFirst <;> simp [hi]
  rw [MeetsPast, Edit.apply, Edit.apply, hm, Edit.deleted_merge, hd, Bool.false_or]
  refine .keepAll _ (.keepAll _ ?_)
  rw [← mapIndex_true ho]
  rw [MeetsPast, mapIndex_succ ho] at h
  cases hdel : (Edit.ofDiffs others).deleted i <;> simpa [hdel] using h

theorem MeetsPast.insert (ho : Ordered others) {othersFirst : Bool} (text : Text)
    (hds : ∀ d ∈ ds, i ≤ d.start) (h : MeetsPast others othersFirst i cs ds) :
    MeetsPast others othersFirst i cs (insertion i text :: ds) := by
  refine Rewrites.transformAll_insertion ?_
  have hbehind : ((Edit.ofDiffs (insertion i text :: ds)).merge (!othersFirst)
        (Edit.ofDiffs others)).behind i cs =
      ((Edit.ofDiffs ds).merge (!othersFirst) (Edit.ofDiffs others)).behind i cs :=
    Edit.behind_congr cs rfl fun j hj => by simp [Nat.ne_of_lt hj]
  rw [Edit.apply_eq (Edit.merge _ (Edit.ofDiffs (insertion i text :: ds)) _), hbehind]
  rw [MeetsPast] at h
  cases othersFirst with
  | false =>
    have hm := Rewrites.insert text h
    rw [Edit.apply_eq (Edit.merge _ _ _)] at hm
    simpa using hm
  | true =>
    -- what is still to come begins behind the text of the others, as does the insertion
    rw [Edit.apply_eq, Edit.apply_eq (Edit.merge _ _ _)] at h
    simp only [Bool.not_true, Edit.inserted_merge, Bool.false_eq_true, if_false,
      List.append_assoc] at h
    obtain ⟨result, hr, hrest⟩ := h.of_keepAll fun e he => by
      rw [← mapIndex_true ho]
      exact le_start_of_mem_transformAll ho hds he
    obtain rfl := List.append_cancel_left hr
    rw [← mapIndex_true ho] at hrest
    rw [Edit.apply_eq]
    simp only [Bool.not_true, Edit.inserted_merge, Bool.false_eq_true, if_false,
      inserted_insertion, if_true, List.append_assoc]
    refine .keepAll _ ?_
    rw [← mapIndex_true ho]
    exact .insert text hrest

theorem MeetsPast.delete (ho : Ordered others) {othersFirst : Bool} (text : Text)
    (hds : ∀ d ∈ ds, i + text.length ≤ d.start)
    (h : MeetsPast others othersFirst (i + text.length) cs ds) :
    MeetsPast others othersFirst i (text ++ cs) (deletion i text :: ds) := by
  have hspan : ((Edit.ofDiffs (deletion i text :: ds)).merge (!othersFirst)
        (Edit.ofDiffs others)).stretch i text =
      (Edit.ofDiffs others).clearing.stretch i text := by
    refine Edit.stretch_congr text fun j hj hlt => ?_
    have hi : (Edit.ofDiffs ds).inserted j = [] :=
      insertedAt_eq_nil fun d hd => Nat.lt_of_lt_of_le hlt (hds d hd)
    cases othersFirst <;> simp [hi, hj, hlt, Edit.clearing]
  have hlater : ((Edit.ofDiffs (deletion i text :: ds)).merge (!othersFirst)
        (Edit.ofDiffs others)).apply (i + text.length) cs =
      ((Edit.ofDiffs ds).merge (!othersFirst) (Edit.ofDiffs others)).apply (i + text.length) cs :=
    Edit.apply_congr cs fun j hj => by simp [Nat.not_lt.mpr hj]
  rw [MeetsPast, transformAll_deletion, Edit.apply_append, Edit.apply_append, hspan, hlater]
  exact (Rewrites.survivors ho h).runs (linked_survivors ho i text)

/-- Diffs that fit a document fit the document of `others` when they have gone past them, and meet
in the merge of both edits. -/
theorem Rewrites.transformAll (ho : Ordered others) (othersFirst : Bool)
    (h : Rewrites i cs ds out) : MeetsPast others othersFirst i cs ds := by
  induction h with
  | done i => exact .done othersFirst i
  | keep c h ih => exact ih.keep ho c h.le_start
  | insert text h ih => exact ih.insert ho text h.le_start
  | delete text h ih => exact ih.delete ho text h.le_start

end Coedit.Diff
