import Coedit.Proofs.Joining
import Coedit.Proofs.Transform

/-!
Transforming on machine numbers. A transform maps a few indices (`mapped`), and the map of one of them
gives a number exactly if no sum in it leaves the words and no more is counted as deleted in front of
the index than there is (`Mappable`). Where all of them do, transforming gives what it gives without
bounds (`transformAll?_eq_some_iff`). A patch can only become shorter on the way, and nothing of it is
moved further than the others insert.
-/
namespace Coedit

section Lists

variable {α β σ : Type} {l : List α} {l' : List β} {f : α → Option β} {g : α → β}

/-- Where each step gives what a function gives, if anything, a traversal does. -/
theorem mapM_eq_some_map_iff (hf : ∀ a b, f a = some b → b = g a) :
    l.mapM f = some l' ↔ (∀ a ∈ l, f a = some (g a)) ∧ l' = l.map g := by
  induction l generalizing l' with
  | nil => simp [eq_comm]
  | cons a l ih =>
    have ha : ∀ b, f a = some b ↔ f a = some (g a) ∧ b = g a := fun b =>
      ⟨fun h => ⟨hf a b h ▸ h, hf a b h⟩, fun ⟨h, hb⟩ => hb ▸ h⟩
    rw [List.mapM_cons, List.forall_mem_cons, List.map_cons, Option.bind_eq_bind,
      Option.bind_eq_some_iff]
    constructor
    · rintro ⟨b, hb, h⟩
      obtain ⟨more, hmore, he⟩ := Option.bind_eq_some_iff.mp h
      obtain ⟨hl, rfl⟩ := ih.mp hmore
      obtain ⟨hb, rfl⟩ := (ha b).mp hb
      exact ⟨⟨hb, hl⟩, (Option.some.inj he).symm⟩
    · rintro ⟨⟨hb, hl⟩, rfl⟩
      exact ⟨g a, hb, Option.bind_eq_some_iff.mpr ⟨_, ih.mpr ⟨hl, rfl⟩, rfl⟩⟩

theorem foldlM_eq_foldl_of_some {f : σ → α → Option σ} {g : σ → α → σ}
    (hf : ∀ s a s', f s a = some s' → s' = g s a) {s s' : σ} (h : l.foldlM f s = some s') :
    s' = l.foldl g s := by
  induction l generalizing s with
  | nil => exact (Option.some.inj h).symm
  | cons a l ih =>
    obtain ⟨next, hnext, h⟩ := Option.bind_eq_some_iff.mp h
    rw [List.foldl_cons, ← hf s a next hnext]
    exact ih h

end Lists

namespace Diff

variable {d e : Diff} {ds es others : List Diff} {i k n : Nat} {t text : Text}
  {tiesFirst othersFirst : Bool}

/-! ### The index map -/

/-- Before the index no more is deleted than there is and is inserted. -/
def Bounded (others : List Diff) (index : Nat) (tiesFirst : Bool) : Prop :=
  deletedBefore index others ≤ index + insertedBefore index tiesFirst others

instance : Decidable (Bounded others i tiesFirst) := inferInstanceAs (Decidable (_ ≤ _))

theorem Apart.bounded (h : Apart ds) (i : Nat) (tiesFirst : Bool) : Bounded ds i tiesFirst :=
  Nat.le_add_right_of_le (deletedBefore_le h i)

/-- The map of an index does not leave the words, and not the bound. -/
structure Mappable (others : List Diff) (index : Nat) (tiesFirst : Bool) : Prop where
  stops : ∀ o ∈ others, o.isDeletion = true → o.start < index → o.stop < Numeral.wordLimit
  deleted : deletedBefore index others < Numeral.wordLimit
  shifted : index + insertedBefore index tiesFirst others < Numeral.wordLimit
  bounded : Bounded others index tiesFirst

theorem spanBefore?_eq_some_iff :
    d.spanBefore? i = some n ↔
      (d.isDeletion = true → d.start < i → d.stop < Numeral.wordLimit) ∧
        n = if d.isDeletion && d.start < i then min d.stop i - d.start else 0 := by
  unfold spanBefore?
  split
  · rename_i hd
    obtain ⟨hdel, hlt⟩ : d.isDeletion = true ∧ d.start < i := by simpa using hd
    simp [hdel, hlt, stop?_eq_some_iff, and_assoc, @eq_comm _ n]
  · rename_i hd
    have hnot : ¬(d.isDeletion = true ∧ d.start < i) := by simpa using hd
    rw [Option.some.injEq, @eq_comm _ 0]
    exact (and_iff_right fun hdel hlt => absurd ⟨hdel, hlt⟩ hnot).symm

theorem deletedBefore?_eq_some_iff :
    deletedBefore? i ds = some n ↔
      (∀ o ∈ ds, o.isDeletion = true → o.start < i → o.stop < Numeral.wordLimit) ∧
        deletedBefore i ds < Numeral.wordLimit ∧ n = deletedBefore i ds := by
  induction ds generalizing n with
  | nil =>
    have hpos : 0 < Numeral.wordLimit := by decide
    simp [deletedBefore?, deletedBefore, hpos, @eq_comm _ n]
  | cons d ds ih =>
    simp only [deletedBefore?, deletedBefore, Option.bind_eq_bind, Option.bind_eq_some_iff,
      spanBefore?_eq_some_iff, ih, Checked.word_eq_some_iff, List.forall_mem_cons]
    constructor
    · rintro ⟨_, ⟨hd, rfl⟩, _, ⟨hds, -, rfl⟩, hlt, rfl⟩
      exact ⟨⟨hd, hds⟩, hlt, rfl⟩
    · rintro ⟨⟨hd, hds⟩, hlt, rfl⟩
      exact ⟨_, ⟨hd, rfl⟩, _, ⟨hds, by omega, rfl⟩, hlt, rfl⟩

theorem mapIndex?_eq_some_iff :
    mapIndex? i others tiesFirst = some n ↔
      Mappable others i tiesFirst ∧ n = mapIndex i others tiesFirst := by
  simp only [mapIndex?, Option.bind_eq_bind, Option.bind_eq_some_iff, Checked.word_eq_some_iff,
    Checked.difference_eq_some_iff, deletedBefore?_eq_some_iff]
  constructor
  · rintro ⟨_, ⟨-, rfl⟩, _, ⟨hstops, hdel, rfl⟩, _, ⟨hshift, rfl⟩, hle, rfl⟩
    exact ⟨⟨hstops, hdel, hshift, hle⟩, rfl⟩
  · rintro ⟨⟨hstops, hdel, hshift, hle⟩, rfl⟩
    exact ⟨_, ⟨by omega, rfl⟩, _, ⟨hstops, hdel, rfl⟩, _, ⟨hshift, rfl⟩, hle, rfl⟩

theorem insertedBefore_le (i : Nat) (tiesFirst : Bool) (ds : List Diff) :
    insertedBefore i tiesFirst ds ≤ insertedLength ds := by
  induction ds with
  | nil => exact Nat.le_refl 0
  | cons d ds ih =>
    rw [insertedBefore, insertedLength]
    refine Nat.add_le_add ?_ ih
    cases d.isInsertion with
    | false => exact Nat.le_refl 0
    | true => split <;> simp

theorem deletedBefore_le_deletedLength (i : Nat) (ds : List Diff) :
    deletedBefore i ds ≤ deletedLength ds := by
  induction ds with
  | nil => exact Nat.le_refl 0
  | cons d ds ih =>
    rw [deletedBefore, deletedLength]
    refine Nat.add_le_add ?_ ih
    obtain ⟨kind, start, text⟩ := d
    cases kind with
    | insertion => exact Nat.le_refl 0
    | deletion =>
      simp only [isDeletion, stop, length, beq_self_eq_true, Bool.true_and, if_true]
      split <;> omega

theorem mapIndex_le_add (i : Nat) (others : List Diff) (tiesFirst : Bool) :
    mapIndex i others tiesFirst ≤ i + insertedLength others := by
  have hle := insertedBefore_le i tiesFirst others
  rw [mapIndex]
  omega

/-! ### Transformed diffs -/

/-- The indices that a transform maps, each with what it says of ties. -/
def mapped (others : List Diff) (othersFirst : Bool) (d : Diff) : List (Nat × Bool) :=
  if d.isEmpty then []
  else
    match d.kind with
    | .insertion => [(d.start, othersFirst)]
    | .deletion => (runs others (survivors others d.start d.text)).map fun run => (run.1, true)

/-- What a transform makes starts where the index map puts these indices. -/
theorem start_transform (d : Diff) (othersFirst : Bool) (others : List Diff) :
    (d.transform othersFirst others).map Diff.start =
      (d.mapped others othersFirst).map fun call => mapIndex call.1 others call.2 := by
  unfold transform mapped
  split
  · rfl
  · obtain ⟨kind, start, text⟩ := d
    cases kind with
    | insertion => rfl
    | deletion =>
      rw [survivingDeletions, List.map_map, List.map_map]
      rfl

/-- A transform maps all its indices, and a deletion is first marked with the others' stops. -/
structure Transformable (others : List Diff) (othersFirst : Bool) (d : Diff) : Prop where
  stops : d.isEmpty = false → d.isDeletion = true → d.stop < Numeral.wordLimit ∧
    ∀ o ∈ others, o.isDeletion = true → o.stop < Numeral.wordLimit
  mapped : ∀ call ∈ d.mapped others othersFirst, Mappable others call.1 call.2

theorem mapM_stop?_eq_some_iff {stops : List Nat} :
    ds.mapM stop? = some stops ↔
      (∀ d ∈ ds, d.isDeletion = true → d.stop < Numeral.wordLimit) ∧ stops = ds.map stop := by
  rw [mapM_eq_some_map_iff fun _ _ h => (stop?_eq_some_iff.mp h).2]
  simp [stop?_eq_some_iff]

theorem survivingDeletions?_eq_some_iff :
    d.survivingDeletions? others = some es ↔
      (d.isDeletion = true → d.stop < Numeral.wordLimit) ∧
        (∀ o ∈ others, o.isDeletion = true → o.stop < Numeral.wordLimit) ∧
        (∀ run ∈ runs others (survivors others d.start d.text), Mappable others run.1 true) ∧
        es = d.survivingDeletions others := by
  have hrun : ∀ (run : Nat × Text) (e : Diff),
      (mapIndex? run.1 others true).map (deletion · run.2) = some e ↔
        Mappable others run.1 true ∧ e = deletionOfRun others run := by
    intro run e
    simp [mapIndex?_eq_some_iff, and_assoc, deletionOfRun, @eq_comm _ e]
  simp only [survivingDeletions?, Option.bind_eq_bind, Option.bind_eq_some_iff, stop?_eq_some_iff,
    mapM_stop?_eq_some_iff]
  rw [mapM_eq_some_map_iff (g := deletionOfRun others) fun run e h => ((hrun run e).mp h).2]
  simp only [hrun, and_true]
  constructor
  · rintro ⟨-, ⟨hd, -⟩, -, ⟨ho, -⟩, h⟩
    exact ⟨hd, ho, h⟩
  · rintro ⟨hd, ho, h⟩
    exact ⟨_, ⟨hd, rfl⟩, _, ⟨ho, rfl⟩, h⟩

theorem transform?_eq_some_iff :
    d.transform? othersFirst others = some es ↔
      Transformable others othersFirst d ∧ es = d.transform othersFirst others := by
  by_cases hempty : d.isEmpty = true
  · have hnone : d.mapped others othersFirst = [] := if_pos hempty
    rw [transform?, transform, if_pos hempty, if_pos hempty, Option.some.injEq, @eq_comm _ es]
    refine (and_iff_right ⟨fun h => ?_, ?_⟩).symm
    · rw [hempty] at h
      cases h
    · rw [hnone]
      exact List.forall_mem_nil _
  rw [transform?, transform, if_neg hempty, if_neg hempty]
  obtain ⟨kind, start, text⟩ := d
  cases kind with
  | insertion =>
    have hmapped : Diff.mapped others othersFirst ⟨.insertion, start, text⟩ =
        [(start, othersFirst)] := if_neg hempty
    simp only [Option.map_eq_some_iff, mapIndex?_eq_some_iff]
    constructor
    · rintro ⟨_, ⟨hmap, rfl⟩, rfl⟩
      exact ⟨⟨nofun, by simpa [hmapped] using hmap⟩, rfl⟩
    · rintro ⟨⟨-, hmap⟩, rfl⟩
      rw [hmapped, List.forall_mem_singleton] at hmap
      exact ⟨_, ⟨hmap, rfl⟩, rfl⟩
  | deletion =>
    have hmapped : Diff.mapped others othersFirst ⟨.deletion, start, text⟩ =
        (runs others (survivors others start text)).map fun run => (run.1, true) := if_neg hempty
    simp only [survivingDeletions?_eq_some_iff]
    constructor
    · rintro ⟨hd, ho, hruns, rfl⟩
      exact ⟨⟨fun _ hdel => ⟨hd hdel, ho⟩, hmapped ▸ List.forall_mem_map.mpr hruns⟩, rfl⟩
    · rintro ⟨⟨hstops, hruns⟩, rfl⟩
      rw [hmapped, List.forall_mem_map] at hruns
      obtain ⟨hd, ho⟩ := hstops (Bool.eq_false_iff.mpr hempty) rfl
      exact ⟨fun _ => hd, ho, hruns, rfl⟩

theorem transformAll?_eq_some_iff :
    transformAll? ds othersFirst others = some es ↔
      (∀ d ∈ ds, Transformable others othersFirst d) ∧ es = transformAll ds othersFirst others := by
  have hvalue (d : Diff) (es : List Diff) (h : d.transform? othersFirst others = some es) :
      es = d.transform othersFirst others := (transform?_eq_some_iff.mp h).2
  rw [transformAll?, Option.map_eq_some_iff, transformAll, List.flatMap_def]
  simp only [mapM_eq_some_map_iff hvalue, transform?_eq_some_iff, and_true]
  constructor
  · rintro ⟨_, ⟨h, rfl⟩, rfl⟩
    exact ⟨h, rfl⟩
  · rintro ⟨h, rfl⟩
    exact ⟨_, ⟨h, rfl⟩, rfl⟩

/-! ### How long the parts of a deletion are -/

theorem survivors_ordered (others : List Diff) (i : Nat) (t : Text) :
    (survivors others i t).Pairwise (fun x y => x.1 < y.1) ∧
      ∀ x ∈ survivors others i t, i ≤ x.1 ∧ x.1 < i + t.length := by
  induction t generalizing i with
  | nil => exact ⟨.nil, List.forall_mem_nil _⟩
  | cons c t ih =>
    obtain ⟨hpair, hin⟩ := ih (i + 1)
    have hlater : ∀ x ∈ survivors others (i + 1) t, i < x.1 ∧ x.1 < i + (c :: t).length := by
      intro x hx
      have := hin x hx
      rw [List.length_cons]
      omega
    rw [survivors]
    split
    · exact ⟨hpair, fun x hx => ⟨Nat.le_of_lt (hlater x hx).1, (hlater x hx).2⟩⟩
    · refine ⟨List.pairwise_cons.mpr ⟨fun x hx => (hlater x hx).1, hpair⟩,
        List.forall_mem_cons.mpr ⟨⟨Nat.le_refl i, ?_⟩, fun x hx => ?_⟩⟩
      · rw [List.length_cons]
        omega
      · exact ⟨Nat.le_of_lt (hlater x hx).1, (hlater x hx).2⟩

/-- No run goes further than the last of the characters it is made of. -/
theorem run_stop_le {l : List (Nat × Char)} {stop : Nat}
    (hpair : l.Pairwise fun x y => x.1 < y.1) (hstop : ∀ x ∈ l, x.1 < stop) :
    ∀ run ∈ runs others l, run.1 + run.2.length ≤ stop := by
  induction l with
  | nil => exact List.forall_mem_nil _
  | cons x l ih =>
    obtain ⟨hx, hl⟩ := List.forall_mem_cons.mp hstop
    cases l with
    | nil => exact List.forall_mem_singleton.mpr hx
    | cons y l =>
      obtain ⟨hxy, hpair⟩ := List.pairwise_cons.mp hpair
      obtain ⟨text, more, hruns⟩ := runs_cons others y l
      have ih := ih hpair hl
      rw [hruns] at ih
      obtain ⟨hfirst, hmore⟩ := List.forall_mem_cons.mp ih
      have hlt := hxy y List.mem_cons_self
      rw [runs_cons_cons hruns]
      split
      · exact List.forall_mem_cons.mpr ⟨hx, List.forall_mem_cons.mpr ⟨hfirst, hmore⟩⟩
      · refine List.forall_mem_cons.mpr ⟨?_, hmore⟩
        simp only [List.length_cons] at hfirst ⊢
        omega

theorem flatMap_runs (others : List Diff) (l : List (Nat × Char)) :
    (runs others l).flatMap Prod.snd = l.map Prod.snd := by
  induction l with
  | nil => rfl
  | cons x l ih =>
    cases l with
    | nil => rfl
    | cons y l =>
      obtain ⟨text, more, hruns⟩ := runs_cons others y l
      rw [hruns] at ih
      rw [runs_cons_cons hruns]
      split
      · exact congrArg (x.2 :: ·) ih
      · exact congrArg (x.2 :: ·) ih

theorem length_survivors_le (others : List Diff) (i : Nat) (t : Text) :
    (survivors others i t).length ≤ t.length := by
  induction t generalizing i with
  | nil => exact Nat.le_refl 0
  | cons c t ih =>
    have := ih (i + 1)
    rw [survivors]
    split <;> simp only [List.length_cons] <;> omega

/-- An index that is mapped lies in the diff, and no part reaches further than the diff does. -/
theorem mapped_le_stop {call : Nat × Bool} (h : call ∈ d.mapped others othersFirst) :
    call.1 ≤ d.stop := by
  unfold mapped at h
  split at h
  · cases h
  obtain ⟨kind, start, text⟩ := d
  cases kind with
  | insertion =>
    obtain rfl := List.mem_singleton.mp h
    exact Nat.le_refl start
  | deletion =>
    obtain ⟨run, hrun, rfl⟩ := List.mem_map.mp h
    obtain ⟨hpair, hin⟩ := survivors_ordered others start text
    exact Nat.le_of_add_right_le (run_stop_le hpair (fun x hx => (hin x hx).2) run hrun)

theorem stop_le_of_mem_transform (he : e ∈ d.transform othersFirst others) :
    e.stop ≤ d.stop + insertedLength others := by
  unfold transform at he
  split at he
  · cases he
  obtain ⟨kind, start, text⟩ := d
  cases kind with
  | insertion =>
    obtain rfl := List.mem_singleton.mp he
    exact mapIndex_le_add start others othersFirst
  | deletion =>
    obtain ⟨run, hrun, rfl⟩ := List.mem_map.mp he
    obtain ⟨hpair, hin⟩ := survivors_ordered others start text
    have hstop := run_stop_le hpair (fun x hx => (hin x hx).2) run hrun
    have hle := mapIndex_le_add run.1 others true
    rw [stop_deletion]
    show _ ≤ start + text.length + insertedLength others
    omega

/-- Past others that fit a document, an index in the document is mapped. -/
theorem Rewrites.mappable {out : Text} (h : Rewrites 0 t others out) (hi : i ≤ t.length)
    (hroom : t.length + insertedLength others < Numeral.wordLimit) (tiesFirst : Bool) :
    Mappable others i tiesFirst where
  stops o ho _ _ := by
    have hstop := h.stop_le ho
    omega
  deleted := by
    have hle := deletedBefore_le h.ordered.apart i
    omega
  shifted := by
    have hle := insertedBefore_le i tiesFirst others
    omega
  bounded := h.ordered.apart.bounded i tiesFirst

/-- Diffs that fit a document can be transformed past others that fit it. -/
theorem Rewrites.transformable {out out' : Text} (h : Rewrites 0 t ds out)
    (ho : Rewrites 0 t others out')
    (hroom : t.length + insertedLength others < Numeral.wordLimit) (othersFirst : Bool) :
    ∀ d ∈ ds, Transformable others othersFirst d := by
  intro d hd
  have hstop := h.stop_le hd
  refine ⟨fun _ _ => ⟨by omega, fun o ho' _ => ?_⟩, fun call hcall => ?_⟩
  · have := ho.stop_le ho'
    omega
  · have := mapped_le_stop hcall
    exact ho.mappable (by omega) hroom call.2

theorem insertedLength_append (ds es : List Diff) :
    insertedLength (ds ++ es) = insertedLength ds + insertedLength es := by
  induction ds with
  | nil => exact (Nat.zero_add _).symm
  | cons d ds ih => rw [List.cons_append, insertedLength, insertedLength, ih, Nat.add_assoc]

theorem deletedLength_append (ds es : List Diff) :
    deletedLength (ds ++ es) = deletedLength ds + deletedLength es := by
  induction ds with
  | nil => exact (Nat.zero_add _).symm
  | cons d ds ih => rw [List.cons_append, deletedLength, deletedLength, ih, Nat.add_assoc]

theorem lengths_deletions (f : Nat × Text → Nat) (runs : List (Nat × Text)) :
    insertedLength (runs.map fun run => deletion (f run) run.2) = 0 ∧
      deletedLength (runs.map fun run => deletion (f run) run.2) =
        (runs.flatMap Prod.snd).length := by
  induction runs with
  | nil => exact ⟨rfl, rfl⟩
  | cons run runs ih =>
    obtain ⟨hins, hdel⟩ := ih
    constructor
    · exact (Nat.zero_add _).trans hins
    · rw [List.map_cons, deletedLength, hdel, List.flatMap_cons, List.length_append]
      rfl

/-- An insertion is only moved, and a deletion loses what is already gone. -/
theorem lengths_transform (d : Diff) (othersFirst : Bool) (others : List Diff) :
    insertedLength (d.transform othersFirst others) = insertedLength [d] ∧
      deletedLength (d.transform othersFirst others) ≤ deletedLength [d] := by
  obtain ⟨kind, start, text⟩ := d
  by_cases hempty : text = []
  · subst hempty
    cases kind <;> exact ⟨rfl, Nat.le_refl 0⟩
  rw [transform, if_neg (not_isEmpty hempty)]
  cases kind with
  | insertion => exact ⟨rfl, Nat.le_refl 0⟩
  | deletion =>
    obtain ⟨hins, hdel⟩ := lengths_deletions (fun run => mapIndex run.1 others true)
      (runs others (survivors others start text))
    refine ⟨hins, Nat.le_trans (Nat.le_of_eq hdel) ?_⟩
    rw [flatMap_runs, List.length_map]
    exact length_survivors_le others start text

theorem lengths_transformAll (ds : List Diff) (othersFirst : Bool) (others : List Diff) :
    insertedLength (transformAll ds othersFirst others) = insertedLength ds ∧
      deletedLength (transformAll ds othersFirst others) ≤ deletedLength ds := by
  induction ds with
  | nil => exact ⟨rfl, Nat.le_refl 0⟩
  | cons d ds ih =>
    obtain ⟨hins, hdel⟩ := lengths_transform d othersFirst others
    rw [transformAll, List.flatMap_cons, insertedLength_append, deletedLength_append, hins]
    rw [insertedLength, deletedLength] at *
    exact ⟨congrArg _ ih.1, Nat.add_le_add hdel ih.2⟩

end Diff

namespace Patch

variable {p q r : Patch} {ps : List Patch} {othersFirst : Bool}

/-- What is transformed on machine numbers is what is transformed without bounds. -/
theorem eq_transform_of_transform? (h : p.transform? othersFirst ps = some r) :
    r = p.transform othersFirst ps := by
  cases ps with
  | nil => exact (Option.some.inj h).symm
  | cons first more =>
    obtain ⟨diffs, hdiffs, h⟩ := Option.bind_eq_some_iff.mp h
    obtain ⟨version, hversion, h⟩ := Option.bind_eq_some_iff.mp h
    have hfold := foldlM_eq_foldl_of_some
      (fun _ _ _ h => (Diff.transformAll?_eq_some_iff.mp h).2) hdiffs
    obtain ⟨-, hnext⟩ := Checked.successor_eq_some_iff.mp hversion
    obtain ⟨-, -, -, hr⟩ := forDocument?_eq_some_iff.mp h
    rw [hr, hfold, hnext]
    rfl

theorem transform?_singleton_eq_some_iff :
    p.transform? othersFirst [q] = some r ↔
      (∀ d ∈ p.diffs, Diff.Transformable q.diffs othersFirst d) ∧
        q.baseVersion < Numeral.greatestInt ∧
        Diff.Joinable (Diff.transformAll p.diffs othersFirst q.diffs) ∧
        q.docLength + Diff.insertedLength p.diffs < Numeral.wordLimit ∧
        Diff.deletedLength (Diff.transformAll p.diffs othersFirst q.diffs) < Numeral.wordLimit ∧
        r = p.transform othersFirst [q] := by
  have hins := (Diff.lengths_transformAll p.diffs othersFirst q.diffs).1
  simp only [transform?, List.foldlM_cons, List.foldlM_nil, bind_pure, Option.bind_eq_bind,
    Option.bind_eq_some_iff, Diff.transformAll?_eq_some_iff, newestVersion,
    List.foldl_nil, Checked.successor_eq_some_iff, forDocument?_eq_some_iff, List.getLast_singleton]
  constructor
  · rintro ⟨_, ⟨hall, rfl⟩, _, ⟨hversion, rfl⟩, hjoin, hlong, hdel, rfl⟩
    exact ⟨hall, hversion, hjoin, hins ▸ hlong, hdel, rfl⟩
  · rintro ⟨hall, hversion, hjoin, hlong, hdel, rfl⟩
    exact ⟨_, ⟨hall, rfl⟩, _, ⟨hversion, rfl⟩, hjoin, hins.symm ▸ hlong, hdel, rfl⟩

def mapped (p q : Patch) (othersFirst : Bool) : List (Nat × Bool) :=
  p.diffs.flatMap (Diff.mapped q.diffs othersFirst)

/-- No sum in a transform of `p` past `q` leaves its range. -/
structure SumsFit (p q : Patch) : Prop where
  stops : ∀ d ∈ p.diffs, d.stop + Diff.insertedLength q.diffs < Numeral.wordLimit
  otherStops : ∀ d ∈ q.diffs, d.stop < Numeral.wordLimit
  deleted : Diff.deletedLength p.diffs < Numeral.wordLimit
  otherDeleted : Diff.deletedLength q.diffs < Numeral.wordLimit
  docLength : q.docLength + Diff.insertedLength p.diffs < Numeral.wordLimit
  baseVersion : q.baseVersion < Numeral.greatestInt

/-- Where the sums fit, an index is mapped exactly within the bound. -/
theorem SumsFit.mappable_iff (h : SumsFit p q) {call : Nat × Bool}
    (hcall : call ∈ p.mapped q othersFirst) :
    Diff.Mappable q.diffs call.1 call.2 ↔ Diff.Bounded q.diffs call.1 call.2 := by
  obtain ⟨d, hd, hcall⟩ := List.mem_flatMap.mp hcall
  have hstop := h.stops d hd
  have hle := Diff.mapped_le_stop hcall
  have hins := Diff.insertedBefore_le call.1 call.2 q.diffs
  have hdel := Diff.deletedBefore_le_deletedLength call.1 q.diffs
  exact ⟨fun hmap => hmap.bounded, fun hbounded =>
    ⟨fun o ho _ _ => h.otherStops o ho, Nat.lt_of_le_of_lt hdel h.otherDeleted, by omega, hbounded⟩⟩

/-- Where the sums fit, only the index map can keep a patch from being transformed past another. -/
theorem SumsFit.transform?_eq_none_iff (h : SumsFit p q) :
    p.transform? othersFirst [q] = none ↔
      ∃ call ∈ p.mapped q othersFirst, ¬Diff.Bounded q.diffs call.1 call.2 := by
  rw [Option.eq_none_iff_forall_ne_some]
  constructor
  · intro hnone
    by_contra hall
    have hbounded : ∀ call ∈ p.mapped q othersFirst, Diff.Bounded q.diffs call.1 call.2 := by
      simpa using hall
    refine hnone _ (transform?_singleton_eq_some_iff.mpr
      ⟨fun d hd => ⟨fun _ _ => ⟨?_, fun o ho _ => h.otherStops o ho⟩, fun call hcall => ?_⟩,
        h.baseVersion, Diff.joinable_of_stops fun e he => ?_, h.docLength, ?_, rfl⟩)
    · have := h.stops d hd
      omega
    · have hmem : call ∈ p.mapped q othersFirst := List.mem_flatMap.mpr ⟨d, hd, hcall⟩
      exact (h.mappable_iff hmem).mpr (hbounded call hmem)
    · obtain ⟨d, hd, he⟩ := List.mem_flatMap.mp he
      exact Nat.lt_of_le_of_lt (Diff.stop_le_of_mem_transform he) (h.stops d hd)
    · exact Nat.lt_of_le_of_lt (Diff.lengths_transformAll p.diffs othersFirst q.diffs).2 h.deleted
  · rintro ⟨call, hcall, hnot⟩ r hr
    obtain ⟨d, hd, hmapped⟩ := List.mem_flatMap.mp hcall
    exact hnot ((transform?_singleton_eq_some_iff.mp hr).1 d hd |>.mapped call hmapped).bounded

end Patch

end Coedit
