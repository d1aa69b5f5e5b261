import Coedit.Checked.Patch
import Coedit.Proofs.Simplify

/-!
Simplifying on machine numbers. Whether a deletion goes on where the one before it leaves off is seen
at the stop of that one, which has to be a number of the machine (`Joinable`). Exactly then diffs can
be simplified, to what they are simplified to without bounds (`simplify?_eq_some_iff`), and a patch
made of them. Diffs that fit a document are joinable (`Rewrites.joinable`).
-/
namespace Coedit

namespace Diff

variable {d next : Diff} {ds es reversed : List Diff} {n : Nat}

theorem stop?_eq_some_iff :
    d.stop? = some n ↔ (d.isDeletion = true → d.stop < Numeral.wordLimit) ∧ n = d.stop := by
  obtain ⟨kind, start, text⟩ := d
  cases kind with
  | insertion => simp [stop?, stop, isDeletion, @eq_comm _ n]
  | deletion => simp [stop?, stop, isDeletion, Checked.word_eq_some_iff]

theorem stop?_of_lt (h : d.stop < Numeral.wordLimit) : d.stop? = some d.stop :=
  stop?_eq_some_iff.mpr ⟨fun _ => h, rfl⟩

/-- Whether the machine can see if `next` goes on where `d` leaves off. -/
def Comparable (d next : Diff) : Prop :=
  d.isDeletion = true → next.isDeletion = true → d.stop < Numeral.wordLimit

instance (d next : Diff) : Decidable (d.Comparable next) := inferInstanceAs (Decidable (_ → _))

theorem isContinuedBy?_eq_some_iff {continued : Bool} :
    d.isContinuedBy? next = some continued ↔
      d.Comparable next ∧ continued = d.isContinuedBy next := by
  obtain ⟨kind, start, text⟩ := d
  obtain ⟨kind', start', text'⟩ := next
  cases kind with
  | insertion =>
    cases kind' with
    | insertion => simp [isContinuedBy?, isContinuedBy, Comparable, isDeletion, @eq_comm _ continued]
    | deletion => simp [isContinuedBy?, isContinuedBy, Comparable, isDeletion]
  | deletion =>
    cases kind' with
    | insertion => simp [isContinuedBy?, isContinuedBy, Comparable, isDeletion]
    | deletion =>
      simp only [isContinuedBy?, isContinuedBy, Option.map_eq_some_iff, stop?_eq_some_iff]
      simp [Comparable, isDeletion, @eq_comm _ continued]

/-- A merged deletion stops where the later one of its parts does. -/
theorem comparable_merge_iff {last : Diff} (h : last.isContinuedBy d = true) (next : Diff) :
    (last.merge d).Comparable next ↔ d.Comparable next := by
  have hkind : last.kind = d.kind := kind_eq_of_isContinuedBy h
  obtain ⟨kind, start, text⟩ := last
  obtain ⟨kind', start', text'⟩ := d
  obtain rfl : kind = kind' := hkind
  cases kind with
  | insertion => simp [Comparable, merge, isDeletion]
  | deletion =>
    obtain rfl : start + text.length = start' := by
      simpa [isContinuedBy, stop, Diff.length] using h
    simp [Comparable, merge, isDeletion, stop, Diff.length, Nat.add_assoc]

/-- The stops that the machine computes to simplify are numbers of the machine: those of deletions
that come right before another deletion, where diffs without text are passed over. -/
def Joinable (ds : List Diff) : Prop := (ds.filter fun d => !d.isEmpty).IsChain Comparable

instance (ds : List Diff) : Decidable (Joinable ds) :=
  inferInstanceAs (Decidable (List.IsChain _ _))

theorem joinable_of_stops (h : ∀ d ∈ ds, d.stop < Numeral.wordLimit) : Joinable ds := by
  refine List.Pairwise.isChain (List.pairwise_of_forall_mem_list fun d hd next _ _ _ => ?_)
  exact h d (List.mem_of_mem_filter hd)

theorem pushReversed?_eq_some_iff (hd : d.text ≠ []) :
    pushReversed? reversed d = some es ↔
      (∀ last ∈ reversed.head?, last.Comparable d) ∧ es = pushReversed reversed d := by
  unfold pushReversed? pushReversed
  rw [if_neg (not_isEmpty hd), if_neg (not_isEmpty hd)]
  cases reversed with
  | nil => simp [eq_comm]
  | cons last before =>
    simp only [Option.map_eq_some_iff, isContinuedBy?_eq_some_iff, List.head?_cons,
      Option.mem_some_iff]
    constructor
    · rintro ⟨_, ⟨hc, rfl⟩, rfl⟩
      exact ⟨fun _ he => he ▸ hc, rfl⟩
    · rintro ⟨hc, rfl⟩
      exact ⟨_, ⟨hc last rfl, rfl⟩, rfl⟩

/-- What comes next is compared with the diff that came last, merged or not. -/
theorem pushReversed_eq_cons_comparable (hd : d.text ≠ []) (reversed : List Diff) :
    ∃ last before, pushReversed reversed d = last :: before ∧
      ∀ next, last.Comparable next ↔ d.Comparable next := by
  unfold pushReversed
  rw [if_neg (not_isEmpty hd)]
  cases reversed with
  | nil => exact ⟨d, [], rfl, fun _ => Iff.rfl⟩
  | cons last before =>
    dsimp only
    split
    · rename_i hc
      exact ⟨_, _, rfl, comparable_merge_iff hc⟩
    · exact ⟨_, _, rfl, fun _ => Iff.rfl⟩

theorem isChain_comparable_congr (h : ∀ e, d.Comparable e ↔ next.Comparable e) :
    (d :: ds).IsChain Comparable ↔ (next :: ds).IsChain Comparable := by
  simp only [List.isChain_cons, h]

theorem foldlM_pushReversed?_eq_some_iff :
    ds.foldlM pushReversed? reversed = some es ↔
      (reversed.head?.toList ++ ds.filter fun d => !d.isEmpty).IsChain Comparable ∧
        es = ds.foldl pushReversed reversed := by
  induction ds generalizing reversed with
  | nil => cases reversed <;> simp [eq_comm]
  | cons d ds ih =>
    rw [List.foldlM_cons, List.foldl_cons, Option.bind_eq_bind, Option.bind_eq_some_iff]
    by_cases hd : d.text = []
    · have hempty : d.isEmpty = true := List.isEmpty_iff.mpr hd
      have hpush : pushReversed? reversed d = some reversed := if_pos hempty
      simp [hpush, ih, hempty, pushReversed_of_empty hd]
    · obtain ⟨last, before, hcons, hlast⟩ := pushReversed_eq_cons_comparable hd reversed
      have hkept : (d :: ds).filter (fun d => !d.isEmpty) = d :: ds.filter fun d => !d.isEmpty :=
        List.filter_cons_of_pos (by simpa using not_isEmpty hd)
      have hafter : (last :: ds.filter fun d => !d.isEmpty).IsChain Comparable ↔
          (d :: ds.filter fun d => !d.isEmpty).IsChain Comparable := isChain_comparable_congr hlast
      simp only [pushReversed?_eq_some_iff hd, and_assoc, exists_eq_left, exists_and_left, ih, hkept]
      rw [hcons, List.head?_cons, Option.toList_some, List.singleton_append, hafter, ← and_assoc]
      refine and_congr_left fun _ => ?_
      cases reversed with
      | nil => simp
      | cons last before => simp [List.isChain_cons_cons]

theorem simplify?_eq_some_iff : simplify? ds = some es ↔ Joinable ds ∧ es = simplify ds := by
  unfold simplify? simplify Joinable
  simp [foldlM_pushReversed?_eq_some_iff, and_assoc, eq_comm]

theorem simplify?_eq_none_iff : simplify? ds = none ↔ ¬Joinable ds := by
  rw [Option.eq_none_iff_forall_ne_some]
  simp [simplify?_eq_some_iff]

theorem Rewrites.stop_le {i : Nat} {cs out : Text} (h : Rewrites i cs ds out) (hd : d ∈ ds) :
    d.stop ≤ i + cs.length := by
  obtain ⟨front, back, rfl, hstart, hfound⟩ := h.exists_at hd
  obtain ⟨kind, start, text⟩ := d
  obtain rfl : start = i + front.length := hstart
  rw [List.length_append]
  cases kind with
  | insertion => exact Nat.add_le_add_left (Nat.le_add_right ..) i
  | deletion =>
    have hlength := (hfound rfl).length_le
    simp only [stop, length] at hlength ⊢
    omega

theorem Rewrites.joinable {i : Nat} {cs out : Text} (h : Rewrites i cs ds out)
    (hlt : i + cs.length < Numeral.wordLimit) : Joinable ds :=
  joinable_of_stops fun _ hd => Nat.lt_of_le_of_lt (h.stop_le hd) hlt

end Diff

namespace Patch

variable {p : Patch} {ds : List Diff} {version : Int} {n m : Nat}

theorem ofDiffs?_eq_some_iff :
    ofDiffs? version ds n = some p ↔ Diff.Joinable ds ∧ p = ofDiffs version ds n := by
  simp [ofDiffs?, ofDiffs, Diff.simplify?_eq_some_iff, and_assoc, @eq_comm _ p]

theorem resultingLength?_eq_some_iff :
    resultingLength? n ds = some m ↔
      n + Diff.insertedLength ds < Numeral.wordLimit ∧
        Diff.deletedLength ds < Numeral.wordLimit ∧ m = resultingLength n ds := by
  simp only [resultingLength?, Option.bind_eq_bind, Option.bind_eq_some_iff,
    Checked.word_eq_some_iff, Option.some.injEq]
  constructor
  · rintro ⟨_, ⟨-, rfl⟩, _, ⟨hdel, rfl⟩, _, ⟨hlong, rfl⟩, rfl⟩
    exact ⟨hlong, hdel, rfl⟩
  · rintro ⟨hlong, hdel, rfl⟩
    exact ⟨_, ⟨by omega, rfl⟩, _, ⟨hdel, rfl⟩, _, ⟨hlong, rfl⟩, rfl⟩

theorem baseLength?_eq_some_iff :
    p.baseLength? = some n ↔
      p.docLength + Diff.deletedLength p.diffs < Numeral.wordLimit ∧
        Diff.insertedLength p.diffs < Numeral.wordLimit ∧ n = p.baseLength := by
  simp only [baseLength?, Option.bind_eq_bind, Option.bind_eq_some_iff,
    Checked.word_eq_some_iff, Option.some.injEq]
  constructor
  · rintro ⟨_, ⟨hins, rfl⟩, _, ⟨-, rfl⟩, _, ⟨hlong, rfl⟩, rfl⟩
    exact ⟨hlong, hins, rfl⟩
  · rintro ⟨hlong, hins, rfl⟩
    exact ⟨_, ⟨hins, rfl⟩, _, ⟨by omega, rfl⟩, _, ⟨hlong, rfl⟩, rfl⟩

theorem forDocument?_eq_some_iff :
    forDocument? version ds n = some p ↔
      Diff.Joinable ds ∧ n + Diff.insertedLength ds < Numeral.wordLimit ∧
        Diff.deletedLength ds < Numeral.wordLimit ∧ p = forDocument version ds n := by
  simp only [forDocument?, Option.bind_eq_bind, Option.bind_eq_some_iff,
    Diff.simplify?_eq_some_iff, resultingLength?_eq_some_iff, Option.some.injEq]
  constructor
  · rintro ⟨_, ⟨hjoin, rfl⟩, _, ⟨hlong, hdel, rfl⟩, rfl⟩
    rw [Diff.insertedLength_simplify] at hlong
    rw [Diff.deletedLength_simplify] at hdel
    exact ⟨hjoin, hlong, hdel, rfl⟩
  · rintro ⟨hjoin, hlong, hdel, rfl⟩
    rw [← Diff.insertedLength_simplify] at hlong
    rw [← Diff.deletedLength_simplify] at hdel
    exact ⟨_, ⟨hjoin, rfl⟩, _, ⟨hlong, hdel, rfl⟩, rfl⟩

end Patch

end Coedit
