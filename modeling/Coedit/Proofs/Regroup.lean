import Coedit.Proofs.MachineSequence
import Coedit.Proofs.Strokes

/-!
It does not matter how patches are grouped before they are joined. What a patch says is the strokes
of its walk; a consolidation has the strokes of its patches fused (`strokes_of_consolidate`), and it
is determined by them (`toOption_consolidate`), so that two consolidations join to what all the
patches join to, or neither do (`toOption_consolidate_append`). On machine numbers both consolidations
must know how long their bases are, which need not be so though all the patches do
(`consolidate_regroup`, `consolidate_regroup_too_long`).
-/
namespace Coedit

/-- The diffs of strokes from `position` on, a character each. -/
def Stroke.diffsFrom (position : Nat) : List Stroke → List Diff
  | [] => []
  | .keep :: strokes => diffsFrom (position + 1) strokes
  | .insert c :: strokes => .insertion position [c] :: diffsFrom position strokes
  | .delete c :: strokes => .deletion position [c] :: diffsFrom (position + 1) strokes

def Stroke.made : List Stroke → Nat
  | [] => 0
  | .delete _ :: strokes => made strokes
  | _ :: strokes => made strokes + 1

namespace Stroke

variable {a b s : List Stroke}

theorem made_append (a b : List Stroke) : made (a ++ b) = made a + made b := by
  induction a with
  | nil => exact (Nat.zero_add _).symm
  | cons step a ih => cases step <;> simp only [List.cons_append, made, ih] <;> omega

theorem made_fuse (h : fuse a b = some s) : made s = made b := by
  fun_induction fuse a b generalizing s with
  | case1 earlier c later ih =>
    obtain ⟨rest, hrest, rfl⟩ := Option.map_eq_some_iff.mp h
    exact congrArg (· + 1) (ih hrest)
  | case2 c earlier later _ ih =>
    obtain ⟨rest, hrest, rfl⟩ := Option.map_eq_some_iff.mp h
    rw [made, ih hrest]
  | case3 =>
    obtain rfl := Option.some.inj h
    rfl
  | case4 earlier step later hstep ih =>
    obtain ⟨rest, hrest, rfl⟩ := Option.map_eq_some_iff.mp h
    cases step <;> simp only [made, ih hrest]
  | case5 c earlier later ih =>
    obtain ⟨rest, hrest, rfl⟩ := Option.map_eq_some_iff.mp h
    exact congrArg (· + 1) (ih hrest)
  | case6 earlier d later ih => exact ih h
  | case7 => cases h
  | case8 => cases h

variable {r : List Diff} {i n : Nat}

theorem diffsFrom_keeps (s : List Stroke) (i n : Nat) :
    diffsFrom i (List.replicate n keep ++ s) = diffsFrom (i + n) s := by
  induction n generalizing i with
  | zero => rfl
  | succ n ih => rw [List.replicate_succ, List.cons_append, diffsFrom, ih, Nat.add_right_comm]; rfl

theorem foldl_inserts (s : List Stroke) (i : Nat) (text : Text) (r : List Diff) :
    (diffsFrom i (text.map insert ++ s)).foldl Diff.pushReversed r =
      (diffsFrom i s).foldl Diff.pushReversed (Diff.pushReversed r (.insertion i text)) := by
  induction text generalizing r with
  | nil => rfl
  | cons x text ih =>
    have hcontinued : (Diff.insertion i [x]).isContinuedBy (.insertion i text) = true :=
      beq_self_eq_true i
    have hmerge := Diff.pushReversed_merge (List.cons_ne_nil x []) hcontinued r
    rw [List.map_cons, List.cons_append, diffsFrom, List.foldl_cons, ih, ← hmerge]
    rfl

theorem foldl_deletes (s : List Stroke) (i : Nat) (text : Text) (r : List Diff) :
    (diffsFrom i (text.map delete ++ s)).foldl Diff.pushReversed r =
      (diffsFrom (i + text.length) s).foldl Diff.pushReversed
        (Diff.pushReversed r (.deletion i text)) := by
  induction text generalizing r i with
  | nil => rfl
  | cons x text ih =>
    have hcontinued : (Diff.deletion i [x]).isContinuedBy (.deletion (i + 1) text) = true :=
      beq_self_eq_true (i + 1)
    have hmerge := Diff.pushReversed_merge (List.cons_ne_nil x []) hcontinued r
    rw [List.map_cons, List.cons_append, diffsFrom, List.foldl_cons, ih, ← hmerge,
      List.length_cons, Nat.add_comm text.length, Nat.add_assoc]
    rfl

end Stroke

namespace Walk

open Stroke

variable {walk joined : Walk} {i j n count : Nat} {d next : Diff} {ds : List Diff}

/-- The diffs of a walk are taken in as those of its strokes are. -/
theorem foldl_diffsFrom (walk : Walk) (i : Nat) (r : List Diff) :
    (walk.diffsFrom i).foldl Diff.pushReversed r =
      (Stroke.diffsFrom i walk.strokes).foldl Diff.pushReversed r := by
  induction walk generalizing i r with
  | nil => rfl
  | cons a walk ih =>
    rw [strokes_cons]
    cases a with
    | keep count => rw [Step.strokes, diffsFrom_keeps, ← ih]; rfl
    | insert text => rw [Step.strokes, foldl_inserts, ← ih]; rfl
    | delete text => rw [Step.strokes, foldl_deletes, ← ih]; rfl

/-- Walks of the same strokes have the same diffs, simplified. -/
theorem simplify_diffs (walk : Walk) :
    Diff.simplify walk.diffs = Diff.simplify (Stroke.diffsFrom 0 walk.strokes) :=
  congrArg List.reverse (foldl_diffsFrom walk 0 [])

theorem made_strokes (walk : Walk) : made walk.strokes = walk.produced := by
  have hkeeps (n : Nat) : made (List.replicate n .keep) = n := by
    induction n with
    | zero => rfl
    | succ n ih => exact congrArg (· + 1) ih
  have hinserts (text : Text) : made (text.map .insert) = text.length := by
    induction text with
    | nil => rfl
    | cons x text ih => exact congrArg (· + 1) ih
  have hdeletes (text : Text) : made (text.map .delete) = 0 := by
    induction text with
    | nil => rfl
    | cons x text ih => exact ih
  induction walk with
  | nil => rfl
  | cons a walk ih =>
    rw [strokes_cons, made_append, ih, produced]
    cases a with
    | keep count => rw [Step.strokes, hkeeps]; rfl
    | insert text => rw [Step.strokes, hinserts]; rfl
    | delete text => rw [Step.strokes, hdeletes]; rfl

/-- What a walk passes and inserts is what it makes and deletes. -/
theorem consumed_add_insertedLength (walk : Walk) (i : Nat) :
    walk.consumed + Diff.insertedLength (walk.diffsFrom i) =
      walk.produced + Diff.deletedLength (walk.diffsFrom i) := by
  induction walk generalizing i with
  | nil => rfl
  | cons a walk ih =>
    cases a with
    | keep count =>
      have hrest := ih (i + count)
      simp only [consumed, produced, diffsFrom, Step.consumed, Step.produced, Step.length]
      omega
    | insert text =>
      have hrest := ih i
      simp [consumed, produced, diffsFrom, Step.consumed, Step.produced, Step.length,
        Diff.insertedLength, Diff.deletedLength, Diff.insertion, Diff.isInsertion, Diff.isDeletion,
        Diff.length]
      omega
    | delete text =>
      have hrest := ih (i + text.length)
      simp [consumed, produced, diffsFrom, Step.consumed, Step.produced, Step.length,
        Diff.insertedLength, Diff.deletedLength, Diff.deletion, Diff.isInsertion, Diff.isDeletion,
        Diff.length]
      omega

/-! ### Reading diffs -/

/-- The strokes that diffs are read as, from `i` on. -/
def read (n i : Nat) (ds : List Diff) : Option (List Stroke) :=
  (ofDiffsFrom n i ds).toOption.map strokes

theorem strokes_keepThen (count : Nat) (walk : Walk) :
    strokes (keepThen count walk) = List.replicate count .keep ++ walk.strokes := by
  unfold keepThen
  split
  · rename_i hcount
    rw [hcount]
    rfl
  · rfl

theorem read_nil (hle : i ≤ n) : read n i [] = some (List.replicate (n - i) .keep) := by
  rw [read, ofDiffsFrom, if_neg (Nat.not_lt.mpr hle)]
  exact congrArg some ((strokes_keepThen _ []).trans (List.append_nil _))

theorem read_cons (n i : Nat) (d : Diff) (ds : List Diff) :
    read n i (d :: ds) = if d.start < i then none else
      (read n d.stop ds).map fun s =>
        List.replicate (d.start - i) .keep ++ ((stepOf d).strokes ++ s) := by
  rw [read, ofDiffsFrom]
  split
  · rfl
  · rw [toOption_map, read, Option.map_map, Option.map_map]
    exact congrArg (Option.map · _) (funext fun walk => strokes_keepThen _ _)

theorem read_merge (hc : d.isContinuedBy next = true) (n i : Nat) (ds : List Diff) :
    read n i (d.merge next :: ds) = read n i (d :: next :: ds) := by
  obtain ⟨kind, start, text⟩ := d
  obtain ⟨kind', start', text'⟩ := next
  cases kind with
  | insertion =>
    cases kind' with
    | insertion =>
      obtain rfl : start = start' := by simpa [Diff.isContinuedBy] using hc
      simp [read_cons, Diff.merge, Diff.stop, stepOf, Step.strokes, Function.comp_def]
    | deletion => cases hc
  | deletion =>
    cases kind' with
    | insertion => cases hc
    | deletion =>
      obtain rfl : start + text.length = start' := by
        simpa [Diff.isContinuedBy, Diff.stop, Diff.length] using hc
      simp [read_cons, Diff.merge, Diff.stop, Diff.length, stepOf, Step.strokes, Function.comp_def,
        Nat.add_assoc]

theorem read_simplify (hds : ∀ d ∈ ds, d.text ≠ []) (n i : Nat) :
    read n i (Diff.simplify ds) = read n i ds := by
  refine congrFun (Diff.apply_simplify (f := fun ds i => read n i ds) ?_ ?_
    fun d hd hnil => absurd hnil (hds d hd)) i
  · intro d ds ds' h
    funext i
    rw [read_cons, read_cons, congrFun h d.stop]
  · intro d next ds hc
    funext i
    exact read_merge hc n i ds

theorem read_diffsFrom (walk : Walk) (hle : i ≤ j) :
    read (j + walk.consumed) i (walk.diffsFrom j) =
      some (List.replicate (j - i) .keep ++ walk.strokes) := by
  induction walk generalizing i j with
  | nil => exact (read_nil hle).trans (congrArg some (List.append_nil _).symm)
  | cons a walk ih =>
    rw [strokes_cons, consumed, ← Nat.add_assoc]
    cases a with
    | keep count =>
      rw [Step.strokes, ← List.append_assoc, List.replicate_append_replicate,
        ← Nat.sub_add_comm hle]
      exact ih (Nat.le_add_right_of_le hle)
    | insert text =>
      have hrest := ih (Nat.le_refl j)
      rw [Nat.sub_self] at hrest
      rw [diffsFrom, read_cons, Diff.stop_insertion, Step.consumed, Nat.add_zero, hrest]
      exact if_neg (Nat.not_lt.mpr hle)
    | delete text =>
      have hrest := ih (Nat.le_refl (j + text.length))
      rw [Nat.sub_self] at hrest
      rw [diffsFrom, read_cons, Diff.stop_deletion]
      exact (if_neg (Nat.not_lt.mpr hle)).trans (congrArg _ hrest)

theorem Busy.text_ne_nil (h : walk.Busy) (i : Nat) : ∀ d ∈ walk.diffsFrom i, d.text ≠ [] := by
  induction walk generalizing i with
  | nil => exact List.forall_mem_nil _
  | cons a walk ih =>
    obtain ⟨ha, hmore⟩ := List.forall_mem_cons.mp h
    cases a with
    | keep count => exact ih hmore _
    | insert text =>
      exact List.forall_mem_cons.mpr ⟨List.length_pos_iff.mp ha, ih hmore i⟩
    | delete text =>
      exact List.forall_mem_cons.mpr ⟨List.length_pos_iff.mp ha, ih hmore _⟩

end Walk

namespace Patch

open Stroke

variable {p m x y : Patch} {ps xs ys : List Patch} {walk joined : Walk} {a s : List Stroke}

/-- The strokes of a patch, if its diffs are in order. -/
def strokes (p : Patch) : Option (List Stroke) := (Walk.ofPatch p).toOption.map Walk.strokes

/-- Strokes and those of patches after them, fused from the first to the last. -/
def fuseAll (first : List Stroke) : List Patch → Option (List Stroke)
  | [] => some first
  | p :: ps => p.strokes.bind fun s => (fuse first s).bind (fuseAll · ps)

theorem fuseAll_append (first : List Stroke) (ps qs : List Patch) :
    fuseAll first (ps ++ qs) = (fuseAll first ps).bind (fuseAll · qs) := by
  induction ps generalizing first with
  | nil => rfl
  | cons p ps ih =>
    simp only [List.cons_append, fuseAll, ih, Option.bind_assoc]

/-- What comes before may be fused first or last. -/
theorem fuse_fuseAll (a b : List Stroke) (ps : List Patch) :
    (fuse a b).bind (fuseAll · ps) = (fuseAll b ps).bind (fuse a) := by
  induction ps generalizing b with
  | nil => simp [fuseAll]
  | cons p ps ih =>
    cases hp : p.strokes with
    | none => simp [fuseAll, hp]
    | some s =>
      calc (fuse a b).bind (fuseAll · (p :: ps))
          = ((fuse a b).bind (fuse · s)).bind (fuseAll · ps) := by
            simp [fuseAll, hp, Option.bind_assoc]
        _ = ((fuse b s).bind (fuse a)).bind (fuseAll · ps) := by rw [fuse_assoc a b s]
        _ = (fuse b s).bind fun t => (fuseAll t ps).bind (fuse a) := by
            simp only [Option.bind_assoc, ih]
        _ = (fuseAll b (p :: ps)).bind (fuse a) := by simp [fuseAll, hp, Option.bind_assoc]

/-- Every diff of the patch has text, as it is however a patch comes about. -/
def Texted (p : Patch) : Prop := ∀ d ∈ p.diffs, d.text ≠ []

theorem Texted.busy (hp : p.Texted) (h : Walk.ofPatch p = .ok walk) : walk.Busy := by
  refine Walk.forall_mem_ofDiffsFrom (fun _ hcount => hcount) (fun d hd => ?_) h
  rw [Walk.length_stepOf]
  exact List.length_pos_iff.mpr (hp d hd)

theorem busy_composeAll (hw : walk.Busy) (hps : ∀ r ∈ ps, r.Texted)
    (h : walk.composeAll ps = .ok joined) : joined.Busy := by
  induction ps generalizing walk with
  | nil =>
    obtain rfl := Except.ok.inj h
    exact hw
  | cons p ps ih =>
    obtain ⟨next, both, hnext, hboth, hjoined⟩ := composeAll_cons_eq_ok_iff.mp h
    obtain ⟨hp, hps⟩ := List.forall_mem_cons.mp hps
    exact ih (Walk.hereditary_busy.compose hw (hp.busy hnext) hboth) hps hjoined

/-- The composition of a walk and of patches is the strokes fused. -/
theorem strokes_composeAll (hw : walk.Busy) (hps : ∀ r ∈ ps, r.Texted) :
    (walk.composeAll ps).toOption.map Walk.strokes = fuseAll walk.strokes ps := by
  induction ps generalizing walk with
  | nil => rfl
  | cons p ps ih =>
    obtain ⟨hp, hps⟩ := List.forall_mem_cons.mp hps
    rw [Walk.composeAll, fuseAll, strokes, toOption_bind, Option.map_bind, Option.bind_map]
    refine Option.bind_congr fun next hnext => ?_
    have hbusy := hp.busy (toOption_eq_some_iff.mp hnext)
    simp only [Function.comp_apply]
    rw [← Walk.strokes_compose hw hbusy, toOption_bind, Option.map_bind, Option.bind_map]
    refine Option.bind_congr fun both hboth => ?_
    exact ih (Walk.hereditary_busy.compose hw hbusy (toOption_eq_some_iff.mp hboth)) hps

/-- What patches become when they are joined is determined by their strokes. -/
theorem toOption_consolidate (hp : p.Texted) (hps : ∀ r ∈ ps, r.Texted) (hne : ps ≠ []) :
    (consolidate (p :: ps)).toOption = (p.strokes.bind (fuseAll · ps)).map fun s =>
      some (ofDiffs p.baseVersion (Stroke.diffsFrom 0 s) (ps.getLast hne).docLength) := by
  cases ps with
  | nil => exact absurd rfl hne
  | cons q ps =>
    rw [consolidate, toOption_bind, strokes, Option.bind_map, Option.map_bind]
    refine Option.bind_congr fun first hfirst => ?_
    have hbusy := hp.busy (toOption_eq_some_iff.mp hfirst)
    simp only [Function.comp_apply]
    rw [← strokes_composeAll hbusy hps, toOption_map, Option.map_map]
    refine congrArg (Option.map · _) (funext fun joined => ?_)
    exact congrArg (fun diffs => some (Patch.mk p.baseVersion diffs _)) (Walk.simplify_diffs joined)

/-- A patch with text in every diff, which inserts no more than it leaves and deletes. -/
structure Sized (p : Patch) : Prop where
  texted : p.Texted
  inserted_le : Diff.insertedLength p.diffs ≤ p.docLength + Diff.deletedLength p.diffs

instance (p : Patch) : Decidable p.Sized :=
  decidable_of_iff ((∀ d ∈ p.diffs, d.text ≠ []) ∧
      Diff.insertedLength p.diffs ≤ p.docLength + Diff.deletedLength p.diffs)
    ⟨fun h => ⟨h.1, h.2⟩, fun h => ⟨h.texted, h.inserted_le⟩⟩

/-- A patch that is made for a document is such a patch. -/
theorem sized_forDocument (version : Int) (diffs : List Diff) (baseLength : Nat) :
    (forDocument version diffs baseLength).Sized where
  texted _ hd := Diff.text_ne_nil_of_mem_simplify hd
  inserted_le := by
    simp only [forDocument, resultingLength]
    omega

/-- Such a patch makes the length that it states. -/
theorem Sized.produced_eq (hp : p.Sized) (h : Walk.ofPatch p = .ok walk) :
    walk.produced = p.docLength := by
  have hconsumed := consumed_of_ofPatch h
  have hlen := walk.consumed_add_insertedLength 0
  rw [Walk.diffsFrom_of_ofDiffsFrom h, hconsumed, baseLength] at hlen
  have hle := hp.inserted_le
  omega

/-- What strokes and patches after them make is as long as the last patch states. -/
theorem made_fuseAll (hps : ∀ r ∈ ps, r.Sized) (hne : ps ≠ []) (h : fuseAll a ps = some s) :
    made s = (ps.getLast hne).docLength := by
  induction ps generalizing a with
  | nil => exact absurd rfl hne
  | cons p ps ih =>
    obtain ⟨hp, hps⟩ := List.forall_mem_cons.mp hps
    obtain ⟨b, hb, h⟩ := Option.bind_eq_some_iff.mp h
    obtain ⟨c, hc, h⟩ := Option.bind_eq_some_iff.mp h
    cases ps with
    | nil =>
      obtain rfl := Option.some.inj h
      obtain ⟨walk, hwalk, rfl⟩ := Option.map_eq_some_iff.mp hb
      rw [made_fuse hc, Walk.made_strokes, hp.produced_eq (toOption_eq_some_iff.mp hwalk)]
      rfl
    | cons q ps => exact ih hps (List.cons_ne_nil q ps) h

/-- The diffs of a walk, with the length that it makes, are read as the walk. -/
theorem strokes_ofDiffs (hw : walk.Busy) (version : Int) :
    (ofDiffs version walk.diffs walk.produced).strokes = some walk.strokes := by
  have hlen := walk.consumed_add_insertedLength 0
  have hbase : (ofDiffs version walk.diffs walk.produced).baseLength = 0 + walk.consumed := by
    simp only [baseLength, ofDiffs, Diff.insertedLength_simplify, Diff.deletedLength_simplify,
      Walk.diffs]
    omega
  have hread := Walk.read_simplify (hw.text_ne_nil 0) (0 + walk.consumed) 0
  rw [Walk.read_diffsFrom walk (Nat.le_refl 0), ← hbase] at hread
  exact hread

/-- A consolidation is read as what its patches are, fused. -/
theorem strokes_of_consolidate (hps : ∀ r ∈ p :: ps, r.Sized)
    (h : consolidate (p :: ps) = .ok (some m)) : m.strokes = p.strokes.bind (fuseAll · ps) := by
  cases ps with
  | nil =>
    cases h
    simp [fuseAll]
  | cons q ps =>
    obtain ⟨hp, hrest⟩ := List.forall_mem_cons.mp hps
    have htexts : ∀ r ∈ q :: ps, r.Texted := fun r hr => (hrest r hr).texted
    obtain ⟨first, joined, hfirst, hjoined, rfl⟩ := consolidate_eq_ok_iff.mp h
    have hbusy := hp.texted.busy hfirst
    have hfuse := strokes_composeAll hbusy htexts
    rw [hjoined] at hfuse
    have hmade := made_fuseAll hrest (List.cons_ne_nil q ps) hfuse.symm
    rw [← hmade, Walk.made_strokes, strokes_ofDiffs (busy_composeAll hbusy htexts hjoined), strokes,
      hfirst]
    exact hfuse

theorem texted_of_consolidate (hps : ∀ r ∈ ps, r.Texted) (h : consolidate ps = .ok (some m)) :
    m.Texted := by
  rcases ps with _ | ⟨p, _ | ⟨q, ps⟩⟩
  · cases h
  · cases h
    exact hps m List.mem_cons_self
  · obtain ⟨_, joined, -, -, rfl⟩ := consolidate_eq_ok_iff.mp h
    exact fun _ hd => Diff.text_ne_nil_of_mem_simplify hd

/-- A consolidation is fused to what comes before as its patches are. -/
theorem fuseAll_of_consolidate (hps : ∀ r ∈ p :: ps, r.Sized)
    (h : consolidate (p :: ps) = .ok (some m)) (a : List Stroke) :
    fuseAll a [m] = fuseAll a (p :: ps) :=
  calc fuseAll a [m]
      = (p.strokes.bind (fuseAll · ps)).bind (fuse a) := by
        simp [fuseAll, strokes_of_consolidate hps h]
    _ = p.strokes.bind fun s => (fuse a s).bind (fuseAll · ps) := by
        simp only [fuse_fuseAll, Option.bind_assoc]

theorem baseVersion_of_consolidate (h : consolidate (p :: ps) = .ok (some m)) :
    m.baseVersion = p.baseVersion := by
  cases ps with
  | nil =>
    cases h
    rfl
  | cons q ps =>
    obtain ⟨_, _, -, -, rfl⟩ := consolidate_eq_ok_iff.mp h
    rfl

theorem docLength_of_consolidate (h : consolidate (p :: ps) = .ok (some m)) :
    m.docLength = ((p :: ps).getLast (List.cons_ne_nil p ps)).docLength := by
  cases ps with
  | nil =>
    cases h
    rfl
  | cons q ps =>
    obtain ⟨_, _, -, -, rfl⟩ := consolidate_eq_ok_iff.mp h
    rfl

/-- What patches before and patches behind join to is joined to what they all are joined to. -/
theorem toOption_consolidate_append (hxs : ∀ r ∈ xs, r.Sized) (hys : ∀ r ∈ ys, r.Sized)
    (hx : consolidate xs = .ok (some x)) (hy : consolidate ys = .ok (some y)) :
    (consolidate (xs ++ ys)).toOption = (consolidate [x, y]).toOption := by
  cases xs with
  | nil => cases hx
  | cons p ps =>
  cases ys with
  | nil => cases hy
  | cons q qs =>
  have htexts : ∀ r ∈ p :: ps, r.Texted := fun r hr => (hxs r hr).texted
  have htexts' : ∀ r ∈ q :: qs, r.Texted := fun r hr => (hys r hr).texted
  have htextsy : ∀ r ∈ [y], r.Texted := by
    simpa using texted_of_consolidate htexts' hy
  have hfuse : p.strokes.bind (fuseAll · (ps ++ q :: qs)) = x.strokes.bind (fuseAll · [y]) := by
    simp only [fuseAll_append, fuseAll_of_consolidate hys hy, strokes_of_consolidate hxs hx,
      Option.bind_assoc]
  rw [List.cons_append,
    toOption_consolidate (htexts p List.mem_cons_self)
      (List.forall_mem_append.mpr ⟨(List.forall_mem_cons.mp htexts).2, htexts'⟩)
      (List.append_ne_nil_of_right_ne_nil ps (List.cons_ne_nil q qs)),
    toOption_consolidate (texted_of_consolidate htexts hx) htextsy (List.cons_ne_nil y []),
    hfuse, baseVersion_of_consolidate hx, List.getLast_singleton, docLength_of_consolidate hy,
    List.getLast_append_of_ne_nil]

/-- Of patches that were joined each knows how long its base is, unless there is only one. -/
theorem isSome_baseLength?_of_consolidate? (hx : consolidate? xs = some (.ok (some x)))
    (hbase : x.baseLength?.isSome) : ∀ r ∈ xs, r.baseLength?.isSome := by
  rcases xs with _ | ⟨p, _ | ⟨q, ps⟩⟩
  · exact List.forall_mem_nil _
  · cases hx
    exact List.forall_mem_singleton.mpr hbase
  · exact (consolidate?_eq_some_ok_iff.mp hx).2

/-- It does not matter how patches are grouped: what the patches before and the patches behind join
to is joined to what all the patches are joined to, if both know how long their bases are, and
otherwise to nothing. -/
theorem consolidate_regroup (hxs : ∀ r ∈ xs, r.Sized) (hys : ∀ r ∈ ys, r.Sized)
    (hx : consolidate? xs = some (.ok (some x))) (hy : consolidate? ys = some (.ok (some y))) :
    consolidate? [x, y] = some (.ok (some m)) ↔
      consolidate? (xs ++ ys) = some (.ok (some m)) ∧
        x.baseLength?.isSome ∧ y.baseLength?.isSome := by
  have happend := toOption_consolidate_append hxs hys (consolidate_of_consolidate? hx)
    (consolidate_of_consolidate? hy)
  have hboth : consolidate [x, y] = .ok (some m) ↔ consolidate (xs ++ ys) = .ok (some m) := by
    rw [← toOption_eq_some_iff, ← happend, toOption_eq_some_iff]
  obtain ⟨p, q, ps, hlist⟩ : ∃ p q ps, xs ++ ys = p :: q :: ps := by
    rcases xs with _ | ⟨p, _ | ⟨p', ps⟩⟩
    · cases hx
    · rcases ys with _ | ⟨q, qs⟩
      · cases hy
      · exact ⟨p, q, qs, rfl⟩
    · exact ⟨p, p', ps ++ ys, rfl⟩
  rw [hlist] at hboth
  rw [consolidate?_eq_some_ok_iff, hboth, hlist, consolidate?_eq_some_ok_iff, ← hlist,
    List.forall_mem_append, List.forall_mem_cons, List.forall_mem_singleton]
  constructor
  · rintro ⟨hm, hbasex, hbasey⟩
    exact ⟨⟨hm, isSome_baseLength?_of_consolidate? hx hbasex,
      isSome_baseLength?_of_consolidate? hy hbasey⟩, hbasex, hbasey⟩
  · rintro ⟨⟨hm, -⟩, hbasex, hbasey⟩
    exact ⟨hm, hbasex, hbasey⟩

/-- A part of what the first patch puts in is taken back by the second, and the rest by the last. -/
theorem consolidate_regroup_taken_back :
    let xs : List Patch := [⟨0, [.insertion 1 ['a', 'b']], 4⟩,
      ⟨1, [.deletion 0 ['x', 'a'], .insertion 4 ['z']], 3⟩]
    let ys : List Patch := [⟨2, [.insertion 0 ['c']], 4⟩, ⟨3, [.deletion 1 ['b', 'y']], 2⟩]
    let x : Patch := ⟨0, [.deletion 0 ['x'], .insertion 1 ['b'], .insertion 2 ['z']], 3⟩
    let y : Patch := ⟨2, [.insertion 0 ['c'], .deletion 0 ['b', 'y']], 2⟩
    let m : Patch := ⟨0, [.insertion 0 ['c'], .deletion 0 ['x', 'y'], .insertion 2 ['z']], 2⟩
    consolidate? xs = some (.ok (some x)) ∧ consolidate? ys = some (.ok (some y)) ∧
      consolidate? (xs ++ ys) = some (.ok (some m)) ∧
      consolidate? [x, y] = some (.ok (some m)) := by
  intro xs ys x y m
  have hx : consolidate? xs = some (.ok (some x)) := by decide +kernel
  have hy : consolidate? ys = some (.ok (some y)) := by decide +kernel
  have hm : consolidate? (xs ++ ys) = some (.ok (some m)) := by decide +kernel
  exact ⟨hx, hy, hm, (consolidate_regroup (by decide) (by decide) hx hy).mpr
    ⟨hm, by decide +kernel, by decide +kernel⟩⟩

/-- A document of as many characters as a word can count. What is inserted and what is deleted fit it
one after another, and all three patches are joined; but the first two join to a patch that deletes
and is stated to leave that many, and of a base so long nothing is known. -/
theorem consolidate_regroup_too_long :
    let xs : List Patch := [⟨0, [.deletion 0 ['a']], 18446744073709551614⟩,
      ⟨1, [.insertion 0 ['b']], 18446744073709551615⟩]
    let ys : List Patch := [⟨2, [.deletion 0 ['b']], 18446744073709551614⟩]
    ∃ x y m, (∀ r ∈ xs ++ ys, r.Sized) ∧ consolidate? xs = some (.ok (some x)) ∧
      consolidate? ys = some (.ok (some y)) ∧ consolidate? (xs ++ ys) = some (.ok (some m)) ∧
      consolidate? [x, y] = none := by
  refine ⟨⟨0, [.insertion 0 ['b'], .deletion 0 ['a']], 18446744073709551615⟩,
    ⟨2, [.deletion 0 ['b']], 18446744073709551614⟩,
    ⟨0, [.deletion 0 ['a']], 18446744073709551614⟩, by decide, by decide +kernel, by decide +kernel,
    by decide +kernel, by decide +kernel⟩

end Patch

end Coedit
