import Coedit.Proofs.MachineTransform
import Coedit.Proofs.Wire

/-!
Whether the index map counts more deleted characters before an index than there can be. The diffs
need not be in order for it: where no two of them delete the same character it never does. In
general it does so at some index exactly if it does at the stop of one of the diffs, and for each
index there is a patch that makes a transform map it. Where no sum leaves its range, a transform fails
exactly if it maps such an index (`transform_bounded_iff`). Two deletions of one span are read without
complaint, and with them it does (`transform_below_zero`).
-/
namespace Coedit

namespace Diff

variable {d : Diff} {ds others : List Diff} {i : Nat} {tiesFirst : Bool}

/-- Exactly then the index map is what it counts. -/
theorem bounded_iff_mapIndex : Bounded ds i tiesFirst ↔
    (mapIndex i ds tiesFirst : Int) =
      i + insertedBefore i tiesFirst ds - deletedBefore i ds := by
  unfold Bounded mapIndex
  omega

theorem Bounded.of_false (h : Bounded ds i false) (tiesFirst : Bool) : Bounded ds i tiesFirst := by
  cases tiesFirst with
  | false => exact h
  | true =>
    have hmore := insertedBefore_true i ds
    unfold Bounded at h ⊢
    omega

/-- At the next index the deletions of one character more are counted, and what is put in front of
it. -/
theorem bounded_succ_iff : Bounded ds (i + 1) false ↔
    deletedBefore i ds + ds.countP (deletes i) ≤
      i + 1 + (insertedBefore i false ds + (insertedAt i ds).length) := by
  rw [Bounded, deletedBefore_succ_eq_countP, insertedBefore_succ, insertedBefore_true]

theorem exists_stop_eq_of_insertedAt (h : insertedAt i ds ≠ []) : ∃ d ∈ ds, d.stop = i := by
  induction ds with
  | nil => exact absurd rfl h
  | cons d ds ih =>
    by_cases hd : (d.isInsertion && d.start == i) = true
    · simp only [Bool.and_eq_true, beq_iff_eq] at hd
      refine ⟨d, List.mem_cons_self, ?_⟩
      obtain ⟨kind, start, text⟩ := d
      cases kind with
      | insertion => exact hd.2
      | deletion => cases hd.1
    · rw [insertedAt, if_neg hd] at h
      obtain ⟨e, he, hstop⟩ := ih h
      exact ⟨e, List.mem_cons_of_mem d he, hstop⟩

/-- In the span of a deletion the bound only gets worse until something is inserted. -/
theorem exists_stop_of_span (hd : d ∈ ds) (hdel : d.isDeletion = true) (hs : d.start ≤ i)
    (hi : i ≤ d.stop) (h : ¬Bounded ds i false) : ∃ e ∈ ds, ¬Bounded ds e.stop false := by
  induction hn : d.stop - i generalizing i with
  | zero =>
    obtain rfl : i = d.stop := by omega
    exact ⟨d, hd, h⟩
  | succ n ih =>
    by_cases hinsert : insertedAt i ds = []
    · refine ih (i := i + 1) (by omega) (by omega) ?_ (by omega)
      have hpos : 0 < ds.countP (deletes i) :=
        List.countP_pos_iff.mpr ⟨d, hd, by simp [deletes, hdel]; omega⟩
      rw [bounded_succ_iff, hinsert, List.length_nil]
      unfold Bounded at h
      omega
    · obtain ⟨e, he, rfl⟩ := exists_stop_eq_of_insertedAt hinsert
      exact ⟨e, he, h⟩

/-- Where the bound fails, it fails at the stop of a diff: of one in whose span the index lies, or
of one before it. -/
theorem exists_stop_of_not_bounded (h : ¬Bounded ds i false) :
    ∃ d ∈ ds, ¬Bounded ds d.stop false := by
  induction i with
  | zero => exact absurd (Nat.le_of_eq (deletedBefore_zero ds) |>.trans (Nat.zero_le _)) h
  | succ i ih =>
    by_cases hin : ∃ d ∈ ds, deletes i d = true
    · obtain ⟨d, hd, hspan⟩ := hin
      simp only [deletes, Bool.and_eq_true, decide_eq_true_eq] at hspan
      exact exists_stop_of_span hd hspan.1.1 (by omega) (by omega) h
    · have hnone : ds.countP (deletes i) = 0 :=
        List.countP_eq_zero.mpr fun d hd hdel => hin ⟨d, hd, hdel⟩
      refine ih fun hbounded => h ?_
      rw [bounded_succ_iff, hnone]
      unfold Bounded at hbounded
      omega

theorem bounded_of_stops (h : ∀ d ∈ ds, Bounded ds d.stop false) (i : Nat) (tiesFirst : Bool) :
    Bounded ds i tiesFirst := by
  by_cases hi : Bounded ds i false
  · exact hi.of_false tiesFirst
  · obtain ⟨d, hd, hstop⟩ := exists_stop_of_not_bounded hi
    exact absurd (h d hd) hstop

end Diff

namespace Patch

variable {b : Patch}

/-- A patch that can be read and makes a transform map an index. -/
theorem exists_parse_mapped {i : Nat} (hi : i < Numeral.wordLimit) (b : Patch)
    (othersFirst : Bool) :
    ∃ written a, Patch.parse? written = some (.ok a) ∧ (i, othersFirst) ∈ a.mapped b othersFirst := by
  have hone : 1 < Numeral.wordLimit := by decide
  have hsendable : Patch.Sendable ⟨0, [.insertion i ['x']], 0⟩ :=
    { simplified := ⟨by simp [Diff.insertion], .singleton _⟩
      diffs := by
        intro d hd
        obtain rfl := List.mem_singleton.mp hd
        exact ⟨by simp [Diff.insertion], hi, hone⟩
      baseVersion := rfl
      docLength := Nat.zero_lt_of_lt hone }
  exact ⟨_, _, parse?_render hsendable (.singleton _),
    by simp [mapped, Diff.mapped, Diff.isEmpty, Diff.insertion]⟩

/-- Past `b` no patch that can be read makes the index map count too much, exactly if the bound
holds at the stop of each diff of `b`; and so it is if `b` deletes no character twice. Of a patch
whose sums fit, nothing else can keep the transform from giving a result. -/
theorem transform_bounded_iff (hwords : ∀ d ∈ b.diffs, d.stop < Numeral.wordLimit) :
    ((∀ written a, Patch.parse? written = some (.ok a) → ∀ othersFirst,
        ∀ call ∈ a.mapped b othersFirst, Diff.Bounded b.diffs call.1 call.2) ↔
      ∀ d ∈ b.diffs, Diff.Bounded b.diffs d.stop false) ∧
    (Diff.Apart b.diffs → ∀ index tiesFirst, Diff.Bounded b.diffs index tiesFirst) ∧
    ∀ a othersFirst, SumsFit a b → (a.transform? othersFirst [b] = none ↔
      ∃ call ∈ a.mapped b othersFirst, ¬Diff.Bounded b.diffs call.1 call.2) := by
  refine ⟨⟨fun h d hd => ?_, fun h written a _ othersFirst call _ => ?_⟩, Diff.Apart.bounded,
    fun a othersFirst hfit => hfit.transform?_eq_none_iff⟩
  · obtain ⟨written, a, ha, hcall⟩ := exists_parse_mapped (hwords d hd) b false
    exact h written a ha false _ hcall
  · exact Diff.bounded_of_stops h call.1 call.2

/-- Two deletions out of order, and text that is put into what one of them deletes. -/
theorem transform_bounded_iff_unordered :
    let b : Patch := ⟨0, [.deletion 5 ['a', 'b'], .deletion 0 ['a', 'b'], .insertion 1 ['c']], 9⟩
    let a : Patch := ⟨3, [.deletion 0 ['a', 'b', 'c'], .insertion 7 ['d']], 10⟩
    Patch.parse? b.render = some (.ok b) ∧ ¬Diff.Ordered b.diffs ∧ SumsFit a b ∧
      (∀ written a, Patch.parse? written = some (.ok a) → ∀ othersFirst,
        ∀ call ∈ a.mapped b othersFirst, Diff.Bounded b.diffs call.1 call.2) ∧
      (∀ index tiesFirst, Diff.Bounded b.diffs index tiesFirst) ∧
      a.transform? true [b] ≠ none := by
  intro b a
  have hordered : ¬Diff.Ordered b.diffs := by simp [b, Diff.Ordered, Diff.stop, Diff.deletion]
  have hstops : ∀ d ∈ b.diffs, Diff.Bounded b.diffs d.stop false := by decide
  have hapart : Diff.Apart b.diffs := by
    simp [b, Diff.Apart, Diff.deletes, Diff.stop, Diff.length, Diff.deletion, Diff.insertion,
      Diff.isDeletion]
    omega
  have hfit : SumsFit a b := by constructor <;> decide
  obtain ⟨hread, hbounded, htransform⟩ := transform_bounded_iff (b := b) (by decide)
  refine ⟨by decide +kernel, hordered, hfit, hread.mpr hstops, hbounded hapart, ?_⟩
  rw [ne_eq, htransform a true hfit]
  rintro ⟨call, -, hcall⟩
  exact hcall (hbounded hapart call.1 call.2)

/-- The same deletion twice. All sums fit, but four characters are counted before an index with two
before it, and nothing comes of the transform. -/
theorem transform_below_zero :
    ∃ a b, Patch.parse? "v0:\n2:+1:x:\n3".toList = some (.ok a) ∧
      Patch.parse? "v0:\n0:-2:ab,\n0:-2:ab:\n0".toList = some (.ok b) ∧ SumsFit a b ∧
      (∃ call ∈ a.mapped b true, ¬Diff.Bounded b.diffs call.1 call.2) ∧
      a.transform? true [b] = none := by
  refine ⟨⟨0, [.insertion 2 ['x']], 3⟩,
    ⟨0, [.deletion 0 ['a', 'b'], .deletion 0 ['a', 'b']], 0⟩, by decide +kernel, by decide +kernel,
    by constructor <;> decide, ?_⟩
  decide +kernel

end Patch

end Coedit
