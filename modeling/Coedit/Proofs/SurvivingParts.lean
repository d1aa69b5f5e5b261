import Coedit.Proofs.Origins

/-!
What is left of a deletion once others are applied. Its survivors are the characters of its span that
the trace of the others still has (`filter_traced`), each of them where `mapIndex` puts it
(`getElem?_trace`). Survivors between which nothing is put in stand side by side, and make one part
(`exists_groups`); so a part deletes what stands at its place, and nothing that the others put in
(`surviving_parts`).
-/
namespace Coedit

namespace Diff

variable {t out : Text} {i k start stop : Nat} {c : Char} {ds others : List Diff}

def survivorTraced (survivor : Nat × Char) : Traced := ⟨.kept survivor.1, survivor.2⟩

theorem of_mem_survivors (h : (k, c) ∈ survivors others i t) :
    ∃ n, k = i + n ∧ t[n]? = some c ∧ isDeletedBy others k = false := by
  induction t generalizing i with
  | nil => cases h
  | cons x t ih =>
    have hlater : (k, c) ∈ survivors others (i + 1) t →
        ∃ n, k = i + n ∧ (x :: t)[n]? = some c ∧ isDeletedBy others k = false := by
      intro h
      obtain ⟨n, hk, hn, hdel⟩ := ih h
      exact ⟨n + 1, by omega, hn, hdel⟩
    simp only [survivors] at h
    split at h
    · exact hlater h
    · rename_i hdel
      rcases List.mem_cons.mp h with he | h
      · obtain ⟨rfl, rfl⟩ := Prod.mk.inj he
        exact ⟨0, rfl, rfl, Bool.not_eq_true _ ▸ hdel⟩
      · exact hlater h

theorem isKeptIn_of_mem_survivors (h : (k, c) ∈ survivors others i t) :
    (Origin.kept k).isKeptIn i (i + t.length) = true := by
  obtain ⟨n, rfl, hn, -⟩ := of_mem_survivors h
  have hlt := (List.getElem?_eq_some_iff.mp hn).1
  simp only [Origin.isKeptIn, Bool.and_eq_true, decide_eq_true_eq]
  omega

/-- Of a stretch the survivors are what is left of the document before. -/
theorem filter_traced (hstart : start ≤ i) (hstop : i + t.length ≤ stop) :
    ((Edit.ofDiffs others).traced i t).filter (fun x => x.origin.isKeptIn start stop) =
      (survivors others i t).map survivorTraced := by
  induction t generalizing i with
  | nil => rfl
  | cons c t ih =>
    rw [List.length_cons] at hstop
    have hgap : (Traced.inserted i ((Edit.ofDiffs others).inserted i)).filter
        (fun x => x.origin.isKeptIn start stop) = [] := by
      refine List.filter_eq_nil_iff.mpr fun x hx => ?_
      rw [Traced.origin_of_mem_inserted hx]
      exact Bool.false_ne_true
    have hi : (Origin.kept i).isKeptIn start stop = true := by
      simp only [Origin.isKeptIn, Bool.and_eq_true, decide_eq_true_eq]
      omega
    have hdel : (Edit.ofDiffs others).deleted i = isDeletedBy others i := rfl
    rw [Edit.traced, List.filter_append, List.filter_append, hgap, ih (by omega) (by omega), hdel,
      survivors]
    cases isDeletedBy others i with
    | true => rfl
    | false => simp [hi, survivorTraced]

/-- What stays of a document is found at its index's image. -/
theorem getElem?_trace (h : Rewrites 0 t ds out) (hk : t[k]? = some c)
    (hdel : isDeletedBy ds k = false) :
    (trace t 0 ds)[mapIndex k ds true]? = some ⟨.kept k, c⟩ := by
  obtain ⟨hlt, hc⟩ := List.getElem?_eq_some_iff.mp hk
  obtain ⟨hcut, himage⟩ := trace_eq_cut h (Nat.le_of_lt hlt)
  have hkept : (Edit.ofDiffs ds).deleted k = false := hdel
  rw [hcut, List.drop_eq_getElem_cons hlt, hc, Edit.trace_cons, hkept, mapIndex_true h.ordered,
    ← himage, List.getElem?_append_right (Nat.le_add_right ..), Nat.add_sub_cancel_left,
    List.getElem?_append_right (Nat.le_of_eq (Traced.length_inserted ..)), Traced.length_inserted,
    Nat.sub_self]
  rfl

/-! ### Runs of survivors -/

/-- Characters that stand side by side once the others are applied. -/
def SideBySide (others : List Diff) (l : List (Nat × Char)) : Prop :=
  l.IsChain fun x y => mapIndex x.1 others true + 1 = mapIndex y.1 others true

def runOf (group : (Nat × Char) × List (Nat × Char)) : Nat × Text :=
  (group.1.1, group.1.2 :: group.2.map Prod.snd)

/-- Runs are made of groups of characters that stand side by side, and no character is lost. -/
theorem exists_groups {l : List (Nat × Char)} (hl : Linked others l) :
    ∃ groups : List ((Nat × Char) × List (Nat × Char)),
      groups.flatMap (fun g => g.1 :: g.2) = l ∧ runs others l = groups.map runOf ∧
        ∀ g ∈ groups, SideBySide others (g.1 :: g.2) := by
  induction l with
  | nil => exact ⟨[], rfl, rfl, nofun⟩
  | cons x l ih =>
    cases l with
    | nil =>
      refine ⟨[(x, [])], rfl, rfl, fun g hg => ?_⟩
      obtain rfl := List.mem_singleton.mp hg
      exact List.isChain_singleton _
    | cons y l =>
      obtain ⟨hxy, hl⟩ := List.isChain_cons_cons.mp hl
      obtain ⟨groups, hjoin, hruns, hside⟩ := ih hl
      cases groups with
      | nil => cases hjoin
      | cons g groups =>
        obtain ⟨first, more⟩ := g
        obtain ⟨rfl, hmore⟩ := List.cons.inj hjoin
        rw [runs_cons_cons hruns]
        split
        · refine ⟨(x, []) :: (first, more) :: groups, ?_, rfl, ?_⟩
          · exact congrArg (x :: ·) hjoin
          · exact List.forall_mem_cons.mpr ⟨List.isChain_singleton _, hside⟩
        · rename_i hcut
          obtain ⟨hfirst, hlater⟩ := List.forall_mem_cons.mp hside
          refine ⟨(x, first :: more) :: groups, ?_, rfl, ?_⟩
          · exact congrArg (x :: ·) hjoin
          · refine List.forall_mem_cons.mpr ⟨?_, hlater⟩
            exact List.isChain_cons_cons.mpr ⟨hxy (Bool.not_eq_true _ ▸ hcut), hfirst⟩

/-- Characters that stand side by side are found one after another. -/
theorem SideBySide.prefix_drop {x : Nat × Char} {l : List (Nat × Char)} {written : List Traced}
    (hside : SideBySide others (x :: l))
    (hat : ∀ y ∈ x :: l, written[mapIndex y.1 others true]? = some (survivorTraced y)) :
    (x :: l).map survivorTraced <+: written.drop (mapIndex x.1 others true) := by
  induction l generalizing x with
  | nil =>
    obtain ⟨hlt, hx⟩ := List.getElem?_eq_some_iff.mp (hat x List.mem_cons_self)
    rw [List.drop_eq_getElem_cons hlt, hx]
    exact List.prefix_append [survivorTraced x] _
  | cons y l ih =>
    obtain ⟨hxy, hside⟩ := List.isChain_cons_cons.mp hside
    obtain ⟨hx, hl⟩ := List.forall_mem_cons.mp hat
    obtain ⟨hlt, hx⟩ := List.getElem?_eq_some_iff.mp hx
    rw [List.drop_eq_getElem_cons hlt, hx, hxy, List.map_cons]
    exact (List.prefix_cons_inj _).mpr (ih hside hl)

/-! ### The parts of a deletion -/

variable {d part : Diff} {text : Text}

theorem stop_of_isDeletion (hd : d.isDeletion = true) : d.stop = d.start + d.text.length := by
  obtain ⟨kind, start, text⟩ := d
  obtain rfl : kind = .deletion := beq_iff_eq.mp hd
  rfl

/-- The parts of a deletion are the groups of its survivors that stand side by side. -/
theorem exists_parts (ho : Ordered others) (d : Diff) :
    ∃ groups : List ((Nat × Char) × List (Nat × Char)),
      groups.flatMap (fun g => g.1 :: g.2) = survivors others d.start d.text ∧
        d.survivingDeletions others = groups.map (fun g => deletionOfRun others (runOf g)) ∧
          ∀ g ∈ groups, SideBySide others (g.1 :: g.2) := by
  obtain ⟨groups, hjoin, hruns, hside⟩ := exists_groups (linked_survivors ho d.start d.text)
  refine ⟨groups, hjoin, ?_, hside⟩
  rw [survivingDeletions, hruns, List.map_map]
  rfl

/-- A text that is found in a document is a stretch of it, unless it is empty. -/
theorem eq_append_of_found (hfound : t.slice start (start + text.length) = text)
    (hne : text ≠ []) :
    ∃ front back, t = front ++ (text ++ back) ∧ front.length = start := by
  have hstart : start ≤ t.length := by
    rw [← Nat.not_lt]
    intro hlt
    apply hne
    rw [← hfound, Text.slice]
    exact List.drop_eq_nil_of_le (by rw [List.length_take]; omega)
  obtain ⟨-, hdrop⟩ := Text.drop_eq_append_of_slice hstart hfound
  have hsplit := (List.take_append_drop start t).symm
  rw [hdrop] at hsplit
  exact ⟨_, _, hsplit, List.length_take_of_le hstart⟩

/-- Of a text in the document the survivors are what the trace still has of its span. -/
theorem filter_trace (h : Rewrites 0 t ds out)
    (hfound : t.slice start (start + text.length) = text) :
    (trace t 0 ds).filter (fun x => x.origin.isKeptIn start (start + text.length)) =
      (survivors ds start text).map survivorTraced := by
  by_cases hne : text = []
  · subst hne
    refine List.filter_eq_nil_iff.mpr fun x _ => ?_
    obtain ⟨origin, char⟩ := x
    cases origin with
    | kept i =>
      simp only [Origin.isKeptIn, List.length_nil, Bool.and_eq_true, decide_eq_true_eq]
      omega
    | inserted i => exact Bool.false_ne_true
  obtain ⟨front, back, rfl, rfl⟩ := eq_append_of_found hfound hne
  have hfront : ((Edit.ofDiffs ds).traced 0 front).filter
      (fun x => x.origin.isKeptIn front.length (front.length + text.length)) = [] := by
    refine List.filter_eq_nil_iff.mpr fun x hx hin => ?_
    have hlt := (Edit.index_of_mem_traced hx).2
    exact absurd (Origin.bounds_of_isKeptIn hin).1 (by omega)
  have hback : ((Edit.ofDiffs ds).trace (front.length + text.length) back).filter
      (fun x => x.origin.isKeptIn front.length (front.length + text.length)) = [] := by
    refine List.filter_eq_nil_iff.mpr fun x hx hin => ?_
    have hle := Edit.le_index_of_mem_trace hx
    exact absurd (Origin.bounds_of_isKeptIn hin).2 (by omega)
  rw [h.trace_eq List.drop_zero, Edit.trace_append, Nat.zero_add, Edit.trace_append,
    List.filter_append, List.filter_append, hfront, hback,
    filter_traced (Nat.le_refl _) (Nat.le_refl _), List.nil_append, List.append_nil]

/-- Each survivor of a text in the document is found where the index map puts it. -/
theorem getElem?_trace_of_mem_survivors (h : Rewrites 0 t ds out)
    (hfound : t.slice start (start + text.length) = text) {survivor : Nat × Char}
    (hs : survivor ∈ survivors ds start text) :
    (trace t 0 ds)[mapIndex survivor.1 ds true]? = some (survivorTraced survivor) := by
  obtain ⟨k, c⟩ := survivor
  obtain ⟨n, rfl, hn, hdel⟩ := of_mem_survivors hs
  have hlt : n < text.length := (List.getElem?_eq_some_iff.mp hn).1
  refine getElem?_trace h ?_ hdel
  rw [← hn, ← congrArg (·[n]?) hfound]
  simp only [Text.slice]
  rw [List.getElem?_drop, List.getElem?_take_of_lt (by omega)]

/-- The parts of a deletion, one after another, fit what the others make of the document. -/
theorem ordered_survivingDeletions (h : Rewrites 0 t ds out)
    (hfound : t.slice d.start (d.start + d.text.length) = d.text) :
    Ordered (d.survivingDeletions ds) := by
  obtain ⟨kind, start, text⟩ := d
  by_cases hne : text = []
  · subst hne
    exact List.Pairwise.nil
  obtain ⟨front, back, rfl, rfl⟩ := eq_append_of_found hfound hne
  have hdeletes : Rewrites 0 (front ++ (text ++ back)) [deletion front.length text] (front ++ back) := by
    refine .keepAll front ?_
    rw [Nat.zero_add]
    exact .delete text (.nothing _ back)
  have hpast := hdeletes.transformAll h.ordered true
  have hparts := Rewrites.ordered hpast
  rwa [transformAll_deletion, transformAll, List.flatMap_nil, List.append_nil] at hparts

/-- What is written where a part stands is the group that it was made of. -/
theorem trace_part {group : (Nat × Char) × List (Nat × Char)}
    (h : Rewrites 0 t ds out) (hfound : t.slice start (start + text.length) = text)
    (hgroup : ∀ y ∈ group.1 :: group.2, y ∈ survivors ds start text)
    (hside : SideBySide ds (group.1 :: group.2))
    (hpart : part = deletionOfRun ds (runOf group)) :
    ((trace t 0 ds).take part.stop).drop part.start =
      (group.1 :: group.2).map survivorTraced := by
  have hplaced := hside.prefix_drop fun y hy =>
    getElem?_trace_of_mem_survivors h hfound (hgroup y hy)
  have hstart : part.start = mapIndex group.1.1 ds true := by rw [hpart]; rfl
  have hstop : part.stop - part.start = ((group.1 :: group.2).map survivorTraced).length := by
    rw [hpart, deletionOfRun, stop_deletion]
    simp [runOf, deletion]
  rw [List.drop_take, hstop, hstart]
  exact (List.prefix_iff_eq_take.mp hplaced).symm

end Diff

namespace Patch

variable {b : Patch} {d : Diff} {t v : Text}

/-- The parts of a deletion are, in the document that a patch makes, what the patch leaves of the
deletion's span: they stand one behind the other, and each deletes what stands at its place and
nothing that the patch put in. -/
theorem surviving_parts (ht : '\r' ∉ t) (h : b.apply t = .ok v) (hd : d.isDeletion = true)
    (hfound : t.slice d.start d.stop = d.text) :
    (Diff.trace t 0 b.diffs).map Traced.char = v ∧
    (d.survivingDeletions b.diffs).flatMap Diff.text =
      ((Diff.trace t 0 b.diffs).filter fun x => x.origin.isKeptIn d.start d.stop).map
        Traced.char ∧
    Diff.Ordered (d.survivingDeletions b.diffs) ∧
    ∀ part ∈ d.survivingDeletions b.diffs,
      part.isDeletion = true ∧ part.text ≠ [] ∧ v.slice part.start part.stop = part.text ∧
        ∀ x ∈ ((Diff.trace t 0 b.diffs).take part.stop).drop part.start,
          x.origin.isKeptIn d.start d.stop = true := by
  have hr := (apply_eq_ok_iff ht).mp h
  have hwritten := Diff.char_trace ((Diff.applyAll_eq_ok_iff ht).mpr hr)
  rw [Diff.stop_of_isDeletion hd] at hfound ⊢
  obtain ⟨groups, hjoin, hparts, hside⟩ := Diff.exists_parts hr.ordered d
  have hgroup : ∀ g ∈ groups, ∀ y ∈ g.1 :: g.2, y ∈ Diff.survivors b.diffs d.start d.text := by
    intro g hg y hy
    rw [← hjoin]
    exact List.mem_flatMap.mpr ⟨g, hg, hy⟩
  refine ⟨hwritten, ?_, Diff.ordered_survivingDeletions hr hfound, ?_⟩
  · rw [Diff.filter_trace hr hfound, ← hjoin, hparts]
    simp [List.flatMap_map, List.map_flatMap, Diff.survivorTraced, Diff.deletionOfRun, Diff.runOf,
      Diff.deletion, Function.comp_def]
  · intro part hpart
    rw [hparts] at hpart
    obtain ⟨g, hg, rfl⟩ := List.mem_map.mp hpart
    have hplace := Diff.trace_part hr hfound (hgroup g hg) (hside g hg) rfl
    refine ⟨rfl, List.cons_ne_nil _ _, ?_, ?_⟩
    · rw [Text.slice, ← hwritten, ← List.map_take, ← List.map_drop, hplace]
      simp [Diff.survivorTraced, Diff.deletionOfRun, Diff.runOf, Diff.deletion]
    · rw [hplace]
      intro x hx
      obtain ⟨⟨k, c⟩, hy, rfl⟩ := List.mem_map.mp hx
      exact Diff.isKeptIn_of_mem_survivors (hgroup g hg _ hy)

/-- Text that is put in between two deletions cuts the span in the middle of what they delete. -/
theorem surviving_parts_cut_where_deleted :
    let t : Text := ['a', 'b', 'c', 'd', 'e', 'f', 'g']
    let v : Text := ['a', 'b', 'X', 'e', 'f', 'g']
    let b : Patch := ⟨0, [.deletion 2 ['c'], .insertion 3 ['X'], .deletion 3 ['d']], 6⟩
    let d : Diff := .deletion 1 ['b', 'c', 'd', 'e', 'f']
    let part : Diff := .deletion 3 ['e', 'f']
    '\r' ∉ t ∧ b.apply t = .ok v ∧ d.isDeletion = true ∧ t.slice d.start d.stop = d.text ∧
      d.survivingDeletions b.diffs = [.deletion 1 ['b'], part] ∧
      (d.survivingDeletions b.diffs).flatMap Diff.text =
        ((Diff.trace t 0 b.diffs).filter fun x => x.origin.isKeptIn d.start d.stop).map
          Traced.char ∧
      Diff.Ordered (d.survivingDeletions b.diffs) ∧ v.slice part.start part.stop = part.text ∧
      ∀ x ∈ ((Diff.trace t 0 b.diffs).take part.stop).drop part.start,
        x.origin.isKeptIn d.start d.stop = true := by
  intro t v b d part
  have ht : '\r' ∉ t := by decide
  have happly : b.apply t = .ok v := rfl
  have hfound : t.slice d.start d.stop = d.text := rfl
  have hparts : d.survivingDeletions b.diffs = [.deletion 1 ['b'], part] := by decide
  obtain ⟨-, htexts, hordered, hall⟩ := surviving_parts ht happly rfl hfound
  have hpart : part ∈ d.survivingDeletions b.diffs := by
    rw [hparts]
    exact List.mem_cons_of_mem _ List.mem_cons_self
  obtain ⟨-, -, htext, hkept⟩ := hall part hpart
  exact ⟨ht, happly, rfl, hfound, hparts, htexts, hordered, htext, hkept⟩

end Patch

end Coedit
