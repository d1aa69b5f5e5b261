import Coedit.Checked.Sequence
import Coedit.Proofs.ConsolidateApart
import Coedit.Proofs.Joining

/-!
Joining on machine numbers. What patches become is what they become without bounds, and they become
something exactly if besides each of them knows the length of its base
(`consolidate?_eq_some_ok_iff`): all other sums are positions in the first base or in a base after it.
-/
namespace Coedit

namespace Walk

variable {walk earlier later joined : Walk} {a b : Step} {i n : Nat} {ds : List Diff}
  {ps : List Patch}

/-! ### What a walk passes -/

theorem consumed_append (walk rest : Walk) : consumed (walk ++ rest) = consumed walk + consumed rest := by
  induction walk with
  | nil => exact (Nat.zero_add _).symm
  | cons a walk ih => rw [List.cons_append, consumed, consumed, ih, Nat.add_assoc]

theorem consumed_take_add_advance (hle : n ≤ a.length) (rest : Walk) :
    (a.take n).consumed + consumed (advance n a rest) = a.consumed + consumed rest := by
  unfold advance
  split
  · rename_i hlen
    rw [← hlen, take_length]
  · rw [consumed, ← Nat.add_assoc]
    congr 1
    cases a with
    | keep count => exact Nat.add_sub_cancel' hle
    | insert text => rfl
    | delete text =>
      simp only [Step.take, Step.drop, Step.consumed, Step.length, List.length_take,
        List.length_drop] at hle ⊢
      omega

theorem consumed_meet {met : Walk} (ha : ∀ text, a ≠ .delete text) (hb : ∀ text, b ≠ .insert text)
    (hlen : a.length = b.length) (h : meet a b = .ok met) : consumed met = a.consumed := by
  cases a with
  | delete text => exact absurd rfl (ha text)
  | keep count =>
    obtain rfl := Except.ok.inj h
    cases b with
    | insert text => exact absurd rfl (hb text)
    | keep _ | delete _ => exact hlen.symm
  | insert inserted =>
    cases b with
    | insert text => exact absurd rfl (hb text)
    | keep _ =>
      obtain rfl := Except.ok.inj h
      rfl
    | delete deleted =>
      rw [meet] at h
      split at h
      · obtain rfl := Except.ok.inj h
        rfl
      · cases h

/-- A composition passes what the earlier walk passes. -/
theorem consumed_compose (h : compose earlier later = .ok walk) :
    consumed walk = consumed earlier := by
  fun_induction Walk.compose earlier later generalizing walk with
  | case1 earlier text later ih =>
    obtain ⟨rest, hrest, rfl⟩ := map_eq_ok_iff.mp h
    exact (Nat.zero_add _).trans (ih hrest)
  | case2 text earlier later _ ih =>
    obtain ⟨rest, hrest, rfl⟩ := map_eq_ok_iff.mp h
    exact congrArg (text.length + ·) (ih hrest)
  | case3 =>
    obtain rfl := Except.ok.inj h
    rfl
  | case4 => cases h
  | case5 a earlier b later hb ha n met hmet =>
    rename_i ih
    obtain ⟨rest, hrest, rfl⟩ := map_eq_ok_iff.mp h
    have hle : n ≤ a.length := Nat.min_le_left ..
    have hlen : (a.take n).length = (b.take n).length := by
      rw [length_take_of_le hle, length_take_of_le (Nat.min_le_right ..)]
    obtain ⟨ha', hb'⟩ := take_kinds n ha hb
    rw [consumed_append, ih hrest, consumed_meet ha' hb' hlen hmet, consumed]
    exact consumed_take_add_advance hle earlier
  | case6 => cases h

theorem consumed_composeAll (h : walk.composeAll ps = .ok joined) :
    consumed joined = consumed walk := by
  induction ps generalizing walk with
  | nil =>
    obtain rfl := Except.ok.inj h
    rfl
  | cons p ps ih =>
    obtain ⟨next, both, -, hboth, hjoined⟩ := Patch.composeAll_cons_eq_ok_iff.mp h
    rw [ih hjoined, consumed_compose hboth]

/-! ### On machine numbers -/

theorem ofDiffsFrom_of_ofDiffsFrom? {read : Except SequenceError Walk}
    (h : ofDiffsFrom? n i ds = some read) : ofDiffsFrom n i ds = read := by
  induction ds generalizing i read with
  | nil =>
    rw [ofDiffsFrom?] at h
    rw [ofDiffsFrom]
    split at h <;> rename_i hlt
    · rw [if_pos hlt]
      exact Option.some.inj h
    · rw [if_neg hlt]
      exact Option.some.inj h
  | cons d ds ih =>
    rw [ofDiffsFrom?] at h
    rw [ofDiffsFrom]
    split at h <;> rename_i hlt
    · rw [if_pos hlt]
      exact Option.some.inj h
    · obtain ⟨stop, hstop, hmore⟩ := Option.bind_eq_some_iff.mp h
      obtain ⟨rest, hrest, hread⟩ := Option.bind_eq_some_iff.mp hmore
      obtain ⟨-, rfl⟩ := Diff.stop?_eq_some_iff.mp hstop
      rw [if_neg hlt, ih hrest]
      exact Option.some.inj hread

/-- Every stop of diffs that are read as a walk lies in the base. -/
theorem ofDiffsFrom?_eq_some_ok (hn : n < Numeral.wordLimit) (h : ofDiffsFrom n i ds = .ok walk) :
    ofDiffsFrom? n i ds = some (.ok walk) := by
  induction ds generalizing i walk with
  | nil =>
    rw [ofDiffsFrom] at h
    rw [ofDiffsFrom?]
    split at h <;> rename_i hlt
    · cases h
    · rw [if_neg hlt, h]
  | cons d ds ih =>
    rw [ofDiffsFrom] at h
    rw [ofDiffsFrom?]
    split at h <;> rename_i hlt
    · cases h
    · obtain ⟨rest, hrest, rfl⟩ := map_eq_ok_iff.mp h
      have hpassed := add_consumed_of_ofDiffsFrom hrest
      rw [if_neg hlt, Diff.stop?_of_lt (by omega), Option.bind_eq_bind, Option.bind_some, ih hrest]
      rfl

theorem compose_of_compose? {composed : Except SequenceError Walk}
    (h : compose? earlier later = some composed) : compose earlier later = composed := by
  unfold compose? at h
  split at h
  · rename_i hcompose
    obtain ⟨_, hearlier, hcounts⟩ := Option.bind_eq_some_iff.mp h
    obtain ⟨_, hlater, herror⟩ := Option.bind_eq_some_iff.mp hcounts
    obtain ⟨-, rfl⟩ := Checked.word_eq_some_iff.mp hearlier
    obtain ⟨-, rfl⟩ := Checked.word_eq_some_iff.mp hlater
    rw [hcompose, ← Option.some.inj herror]
  · exact Option.some.inj h

theorem compose?_eq_some_ok (h : compose earlier later = .ok walk) :
    compose? earlier later = some (.ok walk) := by
  rw [compose?, h]

/-- The stops of a walk's diffs are positions that it passes. -/
theorem stop_le_of_mem_diffsFrom {d : Diff} (hd : d ∈ walk.diffsFrom i) :
    d.stop ≤ i + walk.consumed := by
  induction walk generalizing i with
  | nil => cases hd
  | cons a walk ih =>
    rw [consumed, ← Nat.add_assoc]
    cases a with
    | keep count => exact ih hd
    | insert text =>
      rcases List.mem_cons.mp hd with rfl | hd
      · exact Nat.le_add_right ..
      · exact ih hd
    | delete text =>
      rcases List.mem_cons.mp hd with rfl | hd
      · exact Nat.le_add_right ..
      · exact ih hd

theorem diffs?_eq_some_iff :
    walk.diffs? = some ds ↔ walk.consumed < Numeral.wordLimit ∧ ds = walk.diffs := by
  simp [diffs?, Checked.word_eq_some_iff, and_assoc, @eq_comm _ ds]

end Walk

namespace Patch

variable {p q m : Patch} {ps : List Patch} {walk joined : Walk}

theorem ofPatch_of_ofPatch? {read : Except SequenceError Walk}
    (h : Walk.ofPatch? p = some read) : Walk.ofPatch p = read := by
  obtain ⟨_, hbase, h⟩ := Option.bind_eq_some_iff.mp h
  obtain ⟨-, -, rfl⟩ := baseLength?_eq_some_iff.mp hbase
  exact Walk.ofDiffsFrom_of_ofDiffsFrom? h

theorem ofPatch?_eq_some_ok_iff : Walk.ofPatch? p = some (.ok walk) ↔
    Walk.ofPatch p = .ok walk ∧ p.baseLength?.isSome := by
  constructor
  · intro h
    obtain ⟨_, hbase, -⟩ := Option.bind_eq_some_iff.mp h
    exact ⟨ofPatch_of_ofPatch? h, Option.isSome_of_eq_some hbase⟩
  · rintro ⟨hwalk, hbase⟩
    obtain ⟨n, hbase⟩ := Option.isSome_iff_exists.mp hbase
    obtain ⟨hlong, -, rfl⟩ := baseLength?_eq_some_iff.mp hbase
    rw [Walk.ofPatch?, hbase]
    refine Walk.ofDiffsFrom?_eq_some_ok ?_ hwalk
    rw [baseLength]
    omega

theorem composeAll_of_composeAll? {composed : Except SequenceError Walk}
    (h : walk.composeAll? ps = some composed) : walk.composeAll ps = composed := by
  induction ps generalizing walk with
  | nil => exact Option.some.inj h
  | cons p ps ih =>
    obtain ⟨next, hnext, h⟩ := Option.bind_eq_some_iff.mp h
    rw [Walk.composeAll, ofPatch_of_ofPatch? hnext]
    cases next with
    | error error => exact Option.some.inj h
    | ok next =>
      obtain ⟨both, hboth, h⟩ := Option.bind_eq_some_iff.mp h
      have hcompose := Walk.compose_of_compose? hboth
      show Walk.compose walk next >>= _ = _
      rw [hcompose]
      cases both with
      | error error => exact Option.some.inj h
      | ok both => exact ih h

theorem composeAll?_eq_some_ok_iff : walk.composeAll? ps = some (.ok joined) ↔
    walk.composeAll ps = .ok joined ∧ ∀ p ∈ ps, p.baseLength?.isSome := by
  induction ps generalizing walk with
  | nil => simp [Walk.composeAll?, Walk.composeAll]
  | cons p ps ih =>
    rw [composeAll_cons_eq_ok_iff, List.forall_mem_cons]
    constructor
    · intro h
      obtain ⟨next, hnext, h⟩ := Option.bind_eq_some_iff.mp h
      cases next with
      | error error => cases h
      | ok next =>
        obtain ⟨both, hboth, h⟩ := Option.bind_eq_some_iff.mp h
        cases both with
        | error error => cases h
        | ok both =>
          obtain ⟨hread, hbase⟩ := ofPatch?_eq_some_ok_iff.mp hnext
          obtain ⟨hjoined, hmore⟩ := ih.mp h
          exact ⟨⟨next, both, hread, Walk.compose_of_compose? hboth, hjoined⟩, hbase, hmore⟩
    · rintro ⟨⟨next, both, hread, hboth, hjoined⟩, hbase, hmore⟩
      rw [Walk.composeAll?, ofPatch?_eq_some_ok_iff.mpr ⟨hread, hbase⟩]
      simp only [Option.bind_eq_bind, Option.bind_some, Walk.compose?_eq_some_ok hboth]
      exact ih.mpr ⟨hjoined, hmore⟩

/-- What is joined on machine numbers is what is joined without bounds. -/
theorem consolidate_of_consolidate? {joined : Except SequenceError (Option Patch)}
    (h : consolidate? ps = some joined) : consolidate ps = joined := by
  rcases ps with _ | ⟨p, _ | ⟨q, ps⟩⟩
  · exact Option.some.inj h
  · exact Option.some.inj h
  · obtain ⟨first, hfirst, h⟩ := Option.bind_eq_some_iff.mp h
    rw [consolidate, ofPatch_of_ofPatch? hfirst]
    cases first with
    | error error => exact Option.some.inj h
    | ok first =>
      obtain ⟨composed, hcomposed, h⟩ := Option.bind_eq_some_iff.mp h
      show (Walk.composeAll first (q :: ps)).map _ = _
      rw [composeAll_of_composeAll? hcomposed]
      cases composed with
      | error error => exact Option.some.inj h
      | ok walk =>
        obtain ⟨diffs, hdiffs, h⟩ := Option.bind_eq_some_iff.mp h
        obtain ⟨m, hm, h⟩ := Option.bind_eq_some_iff.mp h
        obtain ⟨-, rfl⟩ := Walk.diffs?_eq_some_iff.mp hdiffs
        obtain ⟨-, rfl⟩ := ofDiffs?_eq_some_iff.mp hm
        exact Option.some.inj h

/-- Two patches and more are joined exactly if they are without bounds and each knows how long its
base is. -/
theorem consolidate?_eq_some_ok_iff : consolidate? (p :: q :: ps) = some (.ok (some m)) ↔
    consolidate (p :: q :: ps) = .ok (some m) ∧ ∀ r ∈ p :: q :: ps, r.baseLength?.isSome := by
  rw [List.forall_mem_cons]
  constructor
  · intro h
    refine ⟨consolidate_of_consolidate? h, ?_⟩
    obtain ⟨first, hfirst, h⟩ := Option.bind_eq_some_iff.mp h
    cases first with
    | error error => cases h
    | ok first =>
      obtain ⟨composed, hcomposed, h⟩ := Option.bind_eq_some_iff.mp h
      cases composed with
      | error error => cases h
      | ok walk =>
        exact ⟨(ofPatch?_eq_some_ok_iff.mp hfirst).2, (composeAll?_eq_some_ok_iff.mp hcomposed).2⟩
  · rintro ⟨h, hbase, hmore⟩
    obtain ⟨first, joined, hfirst, hjoined, rfl⟩ := consolidate_eq_ok_iff.mp h
    have hpassed : joined.consumed = p.baseLength :=
      (Walk.consumed_composeAll hjoined).trans (consumed_of_ofPatch hfirst)
    have hlt : joined.consumed < Numeral.wordLimit := by
      obtain ⟨n, hn⟩ := Option.isSome_iff_exists.mp hbase
      obtain ⟨hlong, -, -⟩ := baseLength?_eq_some_iff.mp hn
      rw [hpassed, baseLength]
      omega
    have hjoinable : Diff.Joinable joined.diffs := Diff.joinable_of_stops fun d hd => by
      have hstop := Walk.stop_le_of_mem_diffsFrom hd
      omega
    simp only [consolidate?, Option.bind_eq_bind, Option.bind_some,
      ofPatch?_eq_some_ok_iff.mpr ⟨hfirst, hbase⟩, composeAll?_eq_some_ok_iff.mpr ⟨hjoined, hmore⟩,
      Walk.diffs?_eq_some_iff.mpr ⟨hlt, rfl⟩, ofDiffs?_eq_some_iff.mpr ⟨hjoinable, rfl⟩]

end Patch

end Coedit
