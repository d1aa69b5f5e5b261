import Coedit.Proofs.Converge
import Coedit.Proofs.MachineTransform

/-!
A patch and patches that were made one after another, both concurrent, past each other: the single
patch goes past the whole sequence, and each patch of the sequence past what has become of the
single one by then. Both ways end in one text (`Sequential.meets_past`). On its way past the
sequence the patch is not simplified in between, which makes no difference because simplifying does
not change what diffs do at an index. On machine numbers there may be no version after one that is
gone past; where all characters have room nothing else is missing (`transform_sequence_converges`,
`transform_past_greatest_version`).
-/
namespace Coedit.Patch

variable {a b p : Patch} {bs ps : List Patch} {t u v w : Text}

/-- Patches made one after another, each past what a concurrent patch has become by then. -/
def eachPast (a : Patch) (othersFirst : Bool) (bs : List Patch) : List Patch :=
  bs.mapIdx fun i b => b.transform (!othersFirst) [a.transform othersFirst (bs.take i)]

theorem eachPast_concat (a b : Patch) (othersFirst : Bool) (bs : List Patch) :
    eachPast a othersFirst (bs ++ [b]) =
      eachPast a othersFirst bs ++ [b.transform (!othersFirst) [a.transform othersFirst bs]] := by
  unfold eachPast
  rw [List.mapIdx_concat, List.take_left]
  congr 1
  apply List.mapIdx_eq_mapIdx_iff.mpr
  intro i hi
  rw [List.take_append_of_le_length (Nat.le_of_lt hi)]

/-- What a patch does at an index past a sequence is what its diffs do there, which go past the
sequence as they are. -/
theorem ofDiffs_transform (a : Patch) (othersFirst : Bool) (bs : List Patch) :
    Edit.ofDiffs (a.transform othersFirst bs).diffs =
      Edit.ofDiffs
        (bs.foldl (fun diffs b => Diff.transformAll diffs othersFirst b.diffs) a.diffs) := by
  cases bs with
  | nil => rfl
  | cons p ps => exact Diff.ofDiffs_simplify _

/-- One patch more to go past: what comes of it is the merge with what came of the patches before. -/
theorem Sequential.transform_concat (ha : a.Leads t u) (h : Sequential t bs v) (hb : b.Leads v w)
    (hbs : Sequential t (bs ++ [b]) w) (othersFirst : Bool) :
    (a.transform othersFirst (bs ++ [b])).Leads w
      (merged (!othersFirst) (a.transform othersFirst bs) b v) := by
  obtain ⟨_, hr, -⟩ := h.transformAll ha.free othersFirst ha.returnFree ha.rewrites
  have hpast := hb.transformAll othersFirst hr
  obtain ⟨out, hl⟩ := hbs.transform ha othersFirst
  have hout : out = merged (!othersFirst) (a.transform othersFirst bs) b v := by
    rw [hl.rewrites.eq_apply, ofDiffs_transform, List.foldl_append, List.foldl_cons,
      List.foldl_nil, ← hpast.eq_apply, merged, ofDiffs_transform]
  exact hout ▸ hl

/-- Past each other a patch and a sequence end in one text. -/
theorem Sequential.meets_past (ha : a.Leads t u) (h : Sequential t bs v) (othersFirst : Bool) :
    ∃ w, (a.transform othersFirst bs).Leads v w ∧
      applyAll u (eachPast a othersFirst bs) = .ok w := by
  -- from the end: the last patch meets what has become of the single one past all before it
  induction bs using List.reverseRecOn generalizing v with
  | nil =>
    cases h
    exact ⟨u, ha, rfl⟩
  | append_singleton bs b ih =>
    obtain ⟨x, hbs, hlast⟩ := Sequential.of_append h
    obtain ⟨y, hy, heach⟩ := ih hbs
    obtain ⟨_, -, hb, hnil⟩ := hlast.of_cons hy.free
    cases hnil
    have hmeet := hb.transform hy (!othersFirst)
    rw [Bool.not_not, merged_comm] at hmeet
    refine ⟨_, hbs.transform_concat ha hb h othersFirst, ?_⟩
    rw [eachPast_concat, applyAll_append heach, applyAll_cons_of_apply hmeet.apply_eq]
    rfl

theorem newestVersion_cons (first next : Patch) (more : List Patch) :
    newestVersion first (next :: more) =
      newestVersion (if first.baseVersion ≤ next.baseVersion then next else first) more := by
  unfold newestVersion
  rw [List.foldl_cons]
  split
  · rename_i hle
    rw [Int.max_eq_right hle]
  · rename_i hlt
    rw [Int.max_eq_left (Int.le_of_not_le hlt)]

theorem exists_newest (first : Patch) (more : List Patch) :
    ∃ newest ∈ first :: more, (∀ b ∈ first :: more, b.baseVersion ≤ newest.baseVersion) ∧
      newestVersion first more = newest.baseVersion := by
  induction more generalizing first with
  | nil =>
    refine ⟨first, List.mem_cons_self, ?_, rfl⟩
    intro b hb
    exact Int.le_of_eq (congrArg baseVersion (List.mem_singleton.mp hb))
  | cons next more ih =>
    obtain ⟨newest, hmem, hle, heq⟩ :=
      ih (if first.baseVersion ≤ next.baseVersion then next else first)
    refine ⟨newest, ?_, ?_, (newestVersion_cons first next more).trans heq⟩
    · rcases List.mem_cons.mp hmem with rfl | hmem
      · split <;> simp
      · exact List.mem_cons_of_mem _ (List.mem_cons_of_mem _ hmem)
    · have hhead := hle _ List.mem_cons_self
      intro b hb
      rcases List.mem_cons.mp hb with rfl | hb
      · split at hhead <;> omega
      · rcases List.mem_cons.mp hb with rfl | hb
        · split at hhead <;> omega
        · exact hle b (List.mem_cons_of_mem _ hb)

/-! ### On machine numbers -/

/-- The characters of a text and those that patches insert, which are all at hand together. -/
def material (t : Text) : List Patch → Nat
  | [] => t.length
  | p :: ps => material t ps + Diff.insertedLength p.diffs

theorem material_cons (t : Text) (p : Patch) (ps : List Patch) :
    material t (p :: ps) = material t ps + Diff.insertedLength p.diffs := rfl

theorem material_append (t : Text) (ps qs : List Patch) :
    material t (ps ++ qs) + t.length = material t ps + material t qs := by
  induction ps with
  | nil => exact Nat.add_comm _ _
  | cons p ps ih =>
    rw [List.cons_append, material_cons, material_cons]
    omega

theorem le_material (t : Text) (ps : List Patch) : t.length ≤ material t ps := by
  induction ps with
  | nil => exact Nat.le_refl _
  | cons p ps ih => exact Nat.le_add_right_of_le ih

/-- Another text makes no other difference than by its length. -/
theorem material_add_length (t u : Text) (ps : List Patch) :
    material u ps + t.length = material t ps + u.length := by
  induction ps with
  | nil => exact Nat.add_comm _ _
  | cons p ps ih =>
    rw [material_cons, material_cons]
    omega

theorem Leads.length_le (h : p.Leads t u) : u.length ≤ t.length + Diff.insertedLength p.diffs := by
  have hl := h.rewrites.length_add_deletedLength
  omega

/-- What has been inserted is no longer to come. -/
theorem Leads.material_le (h : p.Leads t u) (ps : List Patch) :
    material u ps ≤ material t (p :: ps) := by
  have hl := h.length_le
  have hsame := material_add_length t u ps
  rw [material_cons]
  omega

theorem Sequential.length_le_material (ht : '\r' ∉ t) (h : Sequential t ps v) :
    v.length ≤ material t ps := by
  induction ps generalizing t with
  | nil =>
    cases h
    exact Nat.le_refl _
  | cons p ps ih =>
    obtain ⟨next, -, hp, hps⟩ := h.of_cons ht
    exact Nat.le_trans (ih hp.free_after hps) (hp.material_le ps)

theorem insertedLength_transform (a : Patch) (othersFirst : Bool) (bs : List Patch) :
    Diff.insertedLength (a.transform othersFirst bs).diffs = Diff.insertedLength a.diffs := by
  have hfold (ps : List Patch) (ds : List Diff) : Diff.insertedLength
      (ps.foldl (fun diffs b => Diff.transformAll diffs othersFirst b.diffs) ds) =
        Diff.insertedLength ds := by
    induction ps generalizing ds with
    | nil => rfl
    | cons p ps ih => exact (ih _).trans (Diff.lengths_transformAll ds othersFirst p.diffs).1
  cases bs with
  | nil => rfl
  | cons p ps => exact (Diff.insertedLength_simplify _).trans (hfold (p :: ps) a.diffs)

/-- Diffs can be transformed past patches one after another. -/
theorem Sequential.foldlM_transformAll? {ds : List Diff} (ht : '\r' ∉ t) (h : Sequential t ps v)
    (hroom : material t ps < Numeral.wordLimit) (othersFirst : Bool) (hr : Diff.Rewrites 0 t ds u) :
    ps.foldlM (fun diffs other => Diff.transformAll? diffs othersFirst other.diffs) ds =
      some (ps.foldl (fun diffs other => Diff.transformAll diffs othersFirst other.diffs) ds) := by
  induction ps generalizing t u ds with
  | nil => rfl
  | cons p ps ih =>
    obtain ⟨next, -, hp, hps⟩ := h.of_cons ht
    have hmore := hp.material_le ps
    have hhere : t.length + Diff.insertedLength p.diffs < Numeral.wordLimit := by
      have hlength := le_material t ps
      rw [material_cons] at hroom
      omega
    have hfirst : Diff.transformAll? ds othersFirst p.diffs =
        some (Diff.transformAll ds othersFirst p.diffs) :=
      Diff.transformAll?_eq_some_iff.mpr
        ⟨hr.transformable hp.rewrites hhere othersFirst, rfl⟩
    rw [List.foldlM_cons, hfirst]
    exact ih hp.free_after hps (by omega) (hp.transformAll othersFirst hr)

/-- Where there is room for all characters, only the next version can be missing. -/
theorem Sequential.transform?_eq (h : Sequential t (p :: ps) v) (ha : a.Leads t u)
    (hroom : material t (a :: p :: ps) < Numeral.wordLimit) (othersFirst : Bool) :
    a.transform? othersFirst (p :: ps) =
      (Checked.successor (newestVersion p ps)).map fun _ => a.transform othersFirst (p :: ps) := by
  obtain ⟨w, hw, -⟩ := h.transformAll ha.free othersFirst ha.returnFree ha.rewrites
  have hfold := h.foldlM_transformAll? ha.free (by rw [material_cons] at hroom; omega) othersFirst
    ha.rewrites
  have hinserted : Diff.insertedLength ((p :: ps).foldl
      (fun diffs other => Diff.transformAll diffs othersFirst other.diffs) a.diffs) =
        Diff.insertedLength a.diffs :=
    (Diff.insertedLength_simplify _).symm.trans (insertedLength_transform a othersFirst (p :: ps))
  have hlength : v.length + Diff.insertedLength a.diffs ≤ material t (a :: p :: ps) := by
    rw [material_cons]
    exact Nat.add_le_add_right (h.length_le_material ha.free) _
  have hdeleted := hw.length_add_deletedLength
  rw [transform?, hfold, Option.bind_eq_bind, Option.bind_some]
  cases hnext : Checked.successor (newestVersion p ps) with
  | none => rfl
  | some version =>
    obtain ⟨-, rfl⟩ := Checked.successor_eq_some_iff.mp hnext
    refine forDocument?_eq_some_iff.mpr ⟨hw.joinable (by omega), ?_, by omega, rfl⟩
    rw [h.docLength_getLast ha.free (List.cons_ne_nil p ps), hinserted]
    omega

theorem successor_newestVersion_eq_none_iff (p : Patch) (ps : List Patch) :
    Checked.successor (newestVersion p ps) = none ↔
      ∃ b ∈ p :: ps, Numeral.greatestInt ≤ b.baseVersion := by
  obtain ⟨newest, hmem, hle, heq⟩ := exists_newest p ps
  rw [Checked.successor_eq_none_iff, heq]
  exact ⟨fun h => ⟨newest, hmem, h⟩, fun ⟨b, hb, h⟩ => Int.le_trans h (hle b hb)⟩

theorem Sequential.transform?_eq_none_iff (h : Sequential t (p :: ps) v) (ha : a.Leads t u)
    (hroom : material t (a :: p :: ps) < Numeral.wordLimit) (othersFirst : Bool) :
    a.transform? othersFirst (p :: ps) = none ↔
      ∃ b ∈ p :: ps, Numeral.greatestInt ≤ b.baseVersion := by
  rw [h.transform?_eq ha hroom, Option.map_eq_none_iff, successor_newestVersion_eq_none_iff]

/-- Patches made one after another and behind those in `before`, each past what a concurrent patch
has become by then. -/
def eachPast? (a : Patch) (othersFirst : Bool) (before : List Patch) :
    List Patch → Checked (List Patch)
  | [] => some []
  | b :: bs => do
    let past ← a.transform? othersFirst before
    let here ← b.transform? (!othersFirst) [past]
    let more ← eachPast? a othersFirst (before ++ [b]) bs
    some (here :: more)

theorem eachPast_of_eachPast? {before cs : List Patch} {othersFirst : Bool}
    (h : eachPast? a othersFirst before bs = some cs) :
    eachPast a othersFirst (before ++ bs) = eachPast a othersFirst before ++ cs := by
  induction bs generalizing before cs with
  | nil =>
    obtain rfl := Option.some.inj h
    rw [List.append_nil, List.append_nil]
  | cons b bs ih =>
    obtain ⟨past, hpast, h⟩ := Option.bind_eq_some_iff.mp h
    obtain ⟨here, hhere, h⟩ := Option.bind_eq_some_iff.mp h
    obtain ⟨more, hmore, h⟩ := Option.bind_eq_some_iff.mp h
    obtain rfl := Option.some.inj h
    have hback := ih hmore
    rw [List.append_assoc, List.singleton_append] at hback
    rw [hback, eachPast_concat, ← eq_transform_of_transform? hpast,
      ← eq_transform_of_transform? hhere, List.append_assoc, List.singleton_append]

theorem baseVersion_transform_concat (a b : Patch) (othersFirst : Bool) (bs : List Patch)
    (hbs : (a.transform othersFirst bs).baseVersion < Numeral.greatestInt) :
    Numeral.greatestInt ≤ (a.transform othersFirst (bs ++ [b])).baseVersion ↔
      Numeral.greatestInt ≤ b.baseVersion + 1 := by
  cases bs with
  | nil => exact Iff.rfl
  | cons p ps =>
    have hnewest : newestVersion p (ps ++ [b]) = max (newestVersion p ps) b.baseVersion := by
      simp [newestVersion]
    have hsingle : (a.transform othersFirst (p :: ps)).baseVersion = newestVersion p ps + 1 := rfl
    have hboth : (a.transform othersFirst (p :: ps ++ [b])).baseVersion =
        newestVersion p (ps ++ [b]) + 1 := rfl
    rw [hboth, hnewest]
    omega

/-- The same for two concurrent patches. -/
theorem Leads.transform?_eq_none_iff (ha : a.Leads t u) (hb : b.Leads t v)
    (hroom : t.length + Diff.insertedLength a.diffs + Diff.insertedLength b.diffs <
      Numeral.wordLimit) (othersFirst : Bool) :
    a.transform? othersFirst [b] = none ↔ Numeral.greatestInt ≤ b.baseVersion := by
  have hmeet := hb.transformAll othersFirst ha.rewrites
  have hlength := hb.length_le
  have hdeleted := hmeet.length_add_deletedLength
  have hinserted := (Diff.lengths_transformAll a.diffs othersFirst b.diffs).1
  rw [Option.eq_none_iff_forall_ne_some]
  constructor
  · intro hnone
    by_contra hlt
    refine hnone _ (transform?_singleton_eq_some_iff.mpr
      ⟨ha.rewrites.transformable hb.rewrites (by omega) othersFirst, Int.not_le.mp hlt,
        hmeet.joinable (by omega), ?_, by omega, rfl⟩)
    rw [hb.docLength]
    omega
  · intro hle c hc
    exact absurd (transform?_singleton_eq_some_iff.mp hc).2.1 (Int.not_lt.mpr hle)

/-- A patch of the sequence past what has become of the single one. -/
theorem Sequential.pastOne?_eq_none_iff {before : List Patch} (h : Sequential t before v)
    (ha : a.Leads t u) (hb : b.Leads v w)
    (hroom : material t (a :: (before ++ [b])) < Numeral.wordLimit) (othersFirst : Bool) :
    (a.transform? othersFirst before >>= fun past => b.transform? (!othersFirst) [past]) = none ↔
      Numeral.greatestInt ≤ (a.transform othersFirst before).baseVersion := by
  obtain ⟨x, hpast⟩ := h.transform ha othersFirst
  have hlength := h.length_le_material ha.free
  have hwhole : material t (a :: (before ++ [b])) = material t before +
      Diff.insertedLength b.diffs + Diff.insertedLength a.diffs := by
    have happend : material t (before ++ [b]) + t.length =
        material t before + (t.length + Diff.insertedLength b.diffs) := material_append t before [b]
    rw [material_cons]
    omega
  have hlast : b.transform? (!othersFirst) [a.transform othersFirst before] = none ↔
      Numeral.greatestInt ≤ (a.transform othersFirst before).baseVersion := by
    refine hb.transform?_eq_none_iff hpast ?_ (!othersFirst)
    rw [insertedLength_transform]
    omega
  cases before with
  | nil => exact hlast
  | cons p ps =>
    have heq := h.transform?_eq ha (by rw [material_cons]; omega) othersFirst
    cases hnext : Checked.successor (newestVersion p ps) with
    | some version =>
      rw [heq, hnext]
      exact hlast
    | none =>
      have hversion : (a.transform othersFirst (p :: ps)).baseVersion = newestVersion p ps + 1 := rfl
      rw [Checked.successor_eq_none_iff] at hnext
      rw [heq, Checked.successor_eq_none_iff.mpr hnext, hversion]
      exact iff_of_true rfl (by omega)

/-- Each of the patches behind `before` has its turn, unless a version is missing: that of what has
become of the single one by then. -/
theorem Sequential.eachPast?_eq_none_iff {before : List Patch} (h : Sequential t before v)
    (ha : a.Leads t u) (hbs : Sequential v bs w)
    (hroom : material t (a :: (before ++ bs)) < Numeral.wordLimit) (othersFirst : Bool) :
    eachPast? a othersFirst before bs = none ↔
      bs ≠ [] ∧ (Numeral.greatestInt ≤ (a.transform othersFirst before).baseVersion ∨
        ∃ b ∈ bs.dropLast, Numeral.greatestInt ≤ b.baseVersion + 1) := by
  induction bs generalizing before v with
  | nil => simp [eachPast?]
  | cons b bs ih =>
    obtain ⟨next, hm, hb, hmore⟩ := hbs.of_cons (h.free_after ha.free)
    have hbefore : Sequential t (before ++ [b]) next := h.append (.singleton hm hb)
    have hfirst : material t (a :: (before ++ [b])) < Numeral.wordLimit := by
      have hwhole := material_append t (before ++ [b]) bs
      have hlength := le_material t bs
      rw [List.append_assoc, List.singleton_append] at hwhole
      rw [material_cons] at hroom ⊢
      omega
    have hhere := h.pastOne?_eq_none_iff ha hb hfirst othersFirst
    have hrest := ih hbefore hmore (by rwa [List.append_assoc])
    have hstep : eachPast? a othersFirst before (b :: bs) =
        ((a.transform? othersFirst before >>= fun past => b.transform? (!othersFirst) [past]) >>=
          fun here => eachPast? a othersFirst (before ++ [b]) bs >>= fun more =>
            some (here :: more)) := (bind_assoc ..).symm
    rw [hstep]
    by_cases hover : Numeral.greatestInt ≤ (a.transform othersFirst before).baseVersion
    · rw [hhere.mpr hover]
      exact iff_of_true rfl ⟨List.cons_ne_nil b bs, .inl hover⟩
    · obtain ⟨here, hsome⟩ := Option.ne_none_iff_exists'.mp fun hnone => hover (hhere.mp hnone)
      rw [baseVersion_transform_concat a b othersFirst before (Int.not_le.mp hover)] at hrest
      rw [hsome, Option.bind_eq_bind, Option.bind_some, Option.bind_eq_bind,
        Option.bind_eq_none_iff]
      simp only [reduceCtorEq, imp_false, ← Option.eq_none_iff_forall_ne_some, hrest, hover, false_or]
      cases bs with
      | nil => simp
      | cons next bs => simp

/-- A patch past patches made one after another, and those one by one past it, make one text. The
patch is then based on the version after the newest of them. If there is room for all characters, both
ways can be gone on machine numbers exactly where each patch has a version after those that it goes
past. -/
theorem transform_sequence_converges (othersFirst : Bool) (ht : '\r' ∉ t)
    (ha : a.MadeFor t.length) (hfree : a.ReturnFree) (hau : a.apply t = .ok u)
    (hbs : Sequential t (p :: ps) v) :
    (∃ w,
      (∀ c, a.transform? othersFirst (p :: ps) = some c →
        applyAll t (p :: ps ++ [c]) = .ok w ∧ c.docLength = w.length ∧
          ∃ newest ∈ p :: ps, (∀ b ∈ p :: ps, b.baseVersion ≤ newest.baseVersion) ∧
            c.baseVersion = newest.baseVersion + 1) ∧
      ∀ cs, eachPast? a othersFirst [] (p :: ps) = some cs → applyAll t (a :: cs) = .ok w) ∧
    (material t (a :: p :: ps) < Numeral.wordLimit →
      (a.transform? othersFirst (p :: ps) = none ↔
        ∃ b ∈ p :: ps, Numeral.greatestInt ≤ b.baseVersion) ∧
      (eachPast? a othersFirst [] (p :: ps) = none ↔ Numeral.greatestInt ≤ a.baseVersion ∨
        ∃ b ∈ (p :: ps).dropLast, Numeral.greatestInt ≤ b.baseVersion + 1)) := by
  have hl : a.Leads t u := .of_madeFor ht ha hfree hau
  obtain ⟨w, hpast, heach⟩ := hbs.meets_past hl othersFirst
  obtain ⟨newest, hmem, hle, heq⟩ := exists_newest p ps
  refine ⟨⟨w, fun c hc => ?_, fun cs hcs => ?_⟩, fun hroom =>
    ⟨hbs.transform?_eq_none_iff hl hroom othersFirst, ?_⟩⟩
  · obtain rfl := eq_transform_of_transform? hc
    refine ⟨?_, hpast.docLength, newest, hmem, hle, heq ▸ rfl⟩
    rw [applyAll_append hbs.applyAll_eq, applyAll_cons_of_apply hpast.apply_eq]
    rfl
  · have hsame : eachPast a othersFirst (p :: ps) = cs := eachPast_of_eachPast? hcs
    rw [applyAll_cons_of_apply hau, ← hsame, heach]
  · rw [Sequential.eachPast?_eq_none_iff (.nil t) hl hbs hroom othersFirst]
    exact and_iff_right (List.cons_ne_nil p ps)

/-- The first of two patches takes away what parts two insertions, so that they meet at one index
when the second one ties with both. -/
theorem transform_sequence_converges_tied :
    let t : Text := ['x', 'y']
    let a : Patch := .forDocument 3 [.insertion 0 ['A'], .insertion 1 ['B']] 2
    let p : Patch := .forDocument 5 [.deletion 0 ['x']] 2
    let q : Patch := .forDocument 4 [.insertion 0 ['C']] 1
    ∃ c cs w, a.transform? true [p, q] = some c ∧ eachPast? a true [] [p, q] = some cs ∧
      applyAll t [p, q, c] = .ok w ∧ applyAll t (a :: cs) = .ok w ∧ c.docLength = w.length ∧
      c.baseVersion = 6 := by
  intro t a p q
  have hseq : Sequential t [p, q] ['C', 'y'] :=
    .cons ⟨5, _, rfl⟩ (by decide) rfl (.cons ⟨4, _, rfl⟩ (by decide) rfl (.nil ['C', 'y']))
  obtain ⟨⟨w, hpast, heach⟩, hroom⟩ := transform_sequence_converges (a := a)
    (u := ['A', 'x', 'B', 'y']) true (by decide) ⟨3, _, rfl⟩ (by decide) rfl hseq
  obtain ⟨hone, hall⟩ := hroom (by decide)
  obtain ⟨c, hc⟩ := Option.ne_none_iff_exists'.mp fun hnone => absurd (hone.mp hnone) (by decide)
  obtain ⟨cs, hcs⟩ := Option.ne_none_iff_exists'.mp fun hnone => absurd (hall.mp hnone) (by decide)
  obtain ⟨hmeet, hlength, -⟩ := hpast c hc
  exact ⟨c, cs, w, hc, hcs, hmeet, heach cs hcs, hlength,
    (eq_transform_of_transform? hc).symm ▸ rfl⟩

/-- A patch of the greatest version has none after it: what goes past it gives nothing, though both
patches can be read and fit one text. -/
theorem transform_past_greatest_version :
    let t : Text := ['x', 'y']
    ∃ a b, parse? "v0:\n0:+1:A:\n3".toList = some (.ok a) ∧
      parse? "v9223372036854775807:\n1:+1:B:\n3".toList = some (.ok b) ∧
      a.MadeFor t.length ∧ a.ReturnFree ∧ a.apply t = .ok ['A', 'x', 'y'] ∧
      Sequential t [b] ['x', 'B', 'y'] ∧ a.transform? true [b] = none := by
  refine ⟨.forDocument 0 [.insertion 0 ['A']] 2, .forDocument Numeral.greatestInt
    [.insertion 1 ['B']] 2, by decide +kernel, by decide +kernel, ⟨0, _, rfl⟩, by decide, rfl,
    .cons ⟨_, _, rfl⟩ (by decide) rfl (.nil _), by decide +kernel⟩

end Coedit.Patch
