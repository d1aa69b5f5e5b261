import Coedit.Proofs.Converge
import Coedit.Proofs.IndexBounds

/-!
Where the characters of a changed document come from. `Diff.trace` walks a document as `applyFrom`
does and writes each character with its origin (`char_trace`): an index of the document before, or the
index that it was put in front of. Cut at an index of the document before, the trace has in front what
comes from before the index, and it is cut there at the index's image (`trace_eq_cut`); so `mapIndex`
counts origins (`gap_image`).
-/
namespace Coedit

/-- Where a character of a changed document comes from. -/
inductive Origin where
  /-- The document before has it at an index. -/
  | kept (index : Nat)
  /-- It is put in front of an index of the document before. -/
  | inserted (index : Nat)
  deriving DecidableEq, Repr

namespace Origin

/-- The index of the document before that an origin tells of. -/
def index : Origin → Nat
  | kept i => i
  | inserted i => i

/-- Whether a character stands before an index of the document before, or is put in there. -/
def isBefore (i : Nat) (o : Origin) : Bool := o.index < i

/-- Whether the document before has a character in a span. -/
def isKeptIn (start stop : Nat) : Origin → Bool
  | kept i => start ≤ i && i < stop
  | inserted _ => false

theorem bounds_of_isKeptIn {start stop : Nat} {o : Origin} (h : o.isKeptIn start stop = true) :
    start ≤ o.index ∧ o.index < stop := by
  cases o with
  | kept i => simpa [isKeptIn, index] using h
  | inserted i => cases h

end Origin

/-- A character of a changed document and where it comes from. A session whose events are traced in
ledgers is a `Session.Traced`. -/
structure Traced where
  origin : Origin
  char : Char
  deriving DecidableEq, Repr

namespace Traced

/-- The characters of a document from an index on, as they stay. -/
def kept : Nat → Text → List Traced
  | _, [] => []
  | i, c :: cs => ⟨.kept i, c⟩ :: kept (i + 1) cs

/-- The characters of a text that is put in front of an index. -/
def inserted (i : Nat) (text : Text) : List Traced := text.map fun c => ⟨.inserted i, c⟩

variable {x : Traced} {i : Nat} {text : Text}

@[simp] theorem inserted_nil (i : Nat) : inserted i [] = [] := rfl

@[simp] theorem length_inserted (i : Nat) (text : Text) : (inserted i text).length = text.length :=
  List.length_map _

@[simp] theorem map_char_kept (i : Nat) (text : Text) : (kept i text).map char = text := by
  induction text generalizing i with
  | nil => rfl
  | cons c cs ih => rw [kept, List.map_cons, ih]

@[simp] theorem map_char_inserted (i : Nat) (text : Text) : (inserted i text).map char = text := by
  rw [inserted, List.map_map]
  exact List.map_id text

theorem inserted_append (i : Nat) (s t : Text) :
    inserted i (s ++ t) = inserted i s ++ inserted i t :=
  List.map_append

theorem origin_of_mem_inserted (h : x ∈ inserted i text) : x.origin = .inserted i := by
  obtain ⟨c, -, rfl⟩ := List.mem_map.mp h
  rfl

end Traced

namespace Diff

/-- What `applyFrom` writes where diffs fit, each character with its origin. -/
def trace (content : Text) (cursor : Nat) : List Diff → List Traced
  | [] => Traced.kept cursor (content.drop cursor)
  | d :: ds =>
    Traced.kept cursor (content.slice cursor d.start) ++
      match d.kind with
      | .insertion => Traced.inserted d.start d.text ++ trace content d.start ds
      | .deletion => trace content (d.start + d.length) ds

variable {content cs out t : Text} {cursor i j k : Nat} {c : Char} {ds : List Diff}

theorem char_trace (h : applyFrom content cursor ds = .ok out) :
    (trace content cursor ds).map Traced.char = out := by
  induction ds generalizing cursor out with
  | nil =>
    obtain rfl := Except.ok.inj h
    exact Traced.map_char_kept cursor _
  | cons d ds ih =>
    obtain ⟨kind, start, text⟩ := d
    simp only [applyFrom] at h
    split at h
    · cases h
    split at h
    · cases h
    cases kind with
    | insertion =>
      dsimp only at h
      split at h
      · cases h
      obtain ⟨rest, hrest, rfl⟩ := map_eq_ok_iff.mp h
      simp only [trace, List.map_append, Traced.map_char_kept, Traced.map_char_inserted, ih hrest,
        List.append_assoc]
    | deletion =>
      dsimp only at h
      split at h
      · cases h
      obtain ⟨rest, hrest, rfl⟩ := map_eq_ok_iff.mp h
      simp only [trace, List.map_append, Traced.map_char_kept, ih hrest]

end Diff

namespace Edit

variable {e e' : Edit} {x : Traced} {i : Nat} {cs : Text}

/-- What an edit makes of a stretch of a document, without what it inserts behind the stretch, each
character with its origin. -/
def traced (e : Edit) : Nat → Text → List Traced
  | _, [] => []
  | i, c :: cs =>
    Traced.inserted i (e.inserted i) ++
      ((if e.deleted i then [] else [⟨.kept i, c⟩]) ++ traced e (i + 1) cs)

/-- What an edit makes of the rest of a document, each character with its origin. -/
def trace (e : Edit) (i : Nat) (cs : Text) : List Traced :=
  e.traced i cs ++ Traced.inserted (i + cs.length) (e.inserted (i + cs.length))

theorem trace_cons (e : Edit) (i : Nat) (c : Char) (cs : Text) :
    e.trace i (c :: cs) = Traced.inserted i (e.inserted i) ++
      ((if e.deleted i then [] else [⟨.kept i, c⟩]) ++ e.trace (i + 1) cs) := by
  have hi : i + (c :: cs).length = i + 1 + cs.length := by rw [List.length_cons]; omega
  rw [trace, traced, hi, trace]
  simp only [List.append_assoc]

theorem trace_append (e : Edit) (i : Nat) (s cs : Text) :
    e.trace i (s ++ cs) = e.traced i s ++ e.trace (i + s.length) cs := by
  induction s generalizing i with
  | nil => rfl
  | cons c s ih =>
    have hi : i + (c :: s).length = i + 1 + s.length := by rw [List.length_cons]; omega
    rw [List.cons_append, trace_cons, ih, traced, hi]
    simp only [List.append_assoc]

/-- Only what an edit does from an index on counts for the rest of a document. -/
theorem trace_congr (cs : Text)
    (h : ∀ j, i ≤ j → e.inserted j = e'.inserted j ∧ e.deleted j = e'.deleted j) :
    e.trace i cs = e'.trace i cs := by
  induction cs generalizing i with
  | nil =>
    have hins : e.inserted (i + 0) = e'.inserted (i + 0) := (h i (Nat.le_refl i)).1
    rw [trace, trace, List.length_nil, hins]
    rfl
  | cons c cs ih =>
    obtain ⟨hins, hdel⟩ := h i (Nat.le_refl i)
    rw [trace_cons, trace_cons, hins, hdel, ih fun j hj => h j (Nat.le_of_succ_le hj)]

/-- A stretch in which an edit inserts nothing and deletes everything leaves nothing. -/
theorem traced_eq_nil (t : Text)
    (h : ∀ j, i ≤ j → j < i + t.length → e.inserted j = [] ∧ e.deleted j = true) :
    e.traced i t = [] := by
  induction t generalizing i with
  | nil => rfl
  | cons c t ih =>
    rw [List.length_cons] at h
    obtain ⟨hins, hdel⟩ := h i (Nat.le_refl i) (by omega)
    rw [traced, hins, hdel, ih fun j hj hlt => h j (by omega) (by omega)]
    rfl

theorem map_char_traced (e : Edit) (i : Nat) (t : Text) :
    (e.traced i t).map Traced.char = e.stretch i t := by
  induction t generalizing i with
  | nil => rfl
  | cons c t ih =>
    rw [traced, stretch, List.map_append, List.map_append, ih, Traced.map_char_inserted]
    cases e.deleted i <;> rfl

theorem index_of_mem_traced (h : x ∈ e.traced i cs) :
    i ≤ x.origin.index ∧ x.origin.index < i + cs.length := by
  induction cs generalizing i with
  | nil => cases h
  | cons c cs ih =>
    rw [List.length_cons]
    rcases List.mem_append.mp h with h | h
    · rw [Traced.origin_of_mem_inserted h, Origin.index]
      omega
    rcases List.mem_append.mp h with h | h
    · split at h
      · cases h
      · obtain rfl := List.mem_singleton.mp h
        rw [Origin.index]
        omega
    · have := ih h
      omega

theorem le_index_of_mem_trace (h : x ∈ e.trace i cs) : i ≤ x.origin.index := by
  rcases List.mem_append.mp h with h | h
  · exact (index_of_mem_traced h).1
  · rw [Traced.origin_of_mem_inserted h, Origin.index]
    exact Nat.le_add_right ..

end Edit

namespace Diff

variable {content cs out t : Text} {i j k : Nat} {c : Char} {ds : List Diff} {tiesFirst : Bool}

/-- A character before the first diff is written as it stands. -/
theorem trace_keep (hc : content.drop i = c :: cs) (hds : ∀ d ∈ ds, i + 1 ≤ d.start) :
    trace content i ds = ⟨.kept i, c⟩ :: trace content (i + 1) ds := by
  have hnext : content.drop (i + 1) = cs := by
    rw [← List.drop_drop, hc]
    rfl
  cases ds with
  | nil => rw [trace, trace, hc, hnext, Traced.kept]
  | cons d ds =>
    have hd := hds d List.mem_cons_self
    have hslice : content.slice i d.start = c :: content.slice (i + 1) d.start := by
      obtain ⟨n, hn⟩ := Nat.exists_eq_add_of_le hd
      rw [Text.slice, Text.slice, List.drop_take, List.drop_take, hc, hnext, hn]
      have hlong : i + 1 + n - i = n + 1 := by omega
      have hshort : i + 1 + n - (i + 1) = n := by omega
      rw [hlong, hshort, List.take_succ_cons]
    rw [trace, trace, hslice, Traced.kept, List.cons_append]

/-- Diffs that fit a document put and leave each character where their edit does. -/
theorem Rewrites.trace_eq (h : Rewrites i cs ds out) (hc : content.drop i = cs) :
    Diff.trace content i ds = (Edit.ofDiffs ds).trace i cs := by
  induction h with
  | done i => rw [Diff.trace, hc]; rfl
  | @keep i cs out ds c h ih =>
    have hins : (Edit.ofDiffs ds).inserted i = [] := insertedAt_eq_nil h.le_start
    have hdel : (Edit.ofDiffs ds).deleted i = false := isDeletedBy_eq_false h.le_start
    have hnext : content.drop (i + 1) = cs := by
      rw [← List.drop_drop, hc]
      rfl
    rw [trace_keep hc h.le_start, ih hnext, Edit.trace_cons, hins, hdel]
    rfl
  | @insert i cs out ds text h ih =>
    have hhere : content.slice i i = [] := by simp [Text.slice]
    have hedit : (Edit.ofDiffs (insertion i text :: ds)).trace i cs =
        Traced.inserted i text ++ (Edit.ofDiffs ds).trace i cs := by
      cases cs with
      | nil =>
        simp only [Edit.trace, Edit.traced, List.length_nil, Nat.add_zero, List.nil_append,
          inserted_insertion, if_true, Traced.inserted_append]
      | cons c cs =>
        have hlater : (Edit.ofDiffs (insertion i text :: ds)).trace (i + 1) cs =
            (Edit.ofDiffs ds).trace (i + 1) cs :=
          Edit.trace_congr cs fun j hj => by simp [Nat.ne_of_lt hj]
        rw [Edit.trace_cons, Edit.trace_cons, hlater, inserted_insertion, if_pos rfl,
          Traced.inserted_append, List.append_assoc]
        rfl
    rw [hedit, ← ih hc, Diff.trace]
    simp only [insertion, hhere, Traced.kept, List.nil_append]
  | @delete i cs out ds text h ih =>
    have hhere : content.slice i i = [] := by simp [Text.slice]
    have hnext : content.drop (i + text.length) = cs := by
      rw [← List.drop_drop, hc, List.drop_left]
    have hspan : (Edit.ofDiffs (deletion i text :: ds)).traced i text = [] := by
      refine Edit.traced_eq_nil text fun j hj hlt => ?_
      have hds : (Edit.ofDiffs ds).inserted j = [] :=
        insertedAt_eq_nil fun d hd => Nat.lt_of_lt_of_le hlt (h.le_start d hd)
      simp [hds, hj, hlt]
    have hlater : (Edit.ofDiffs (deletion i text :: ds)).trace (i + text.length) cs =
        (Edit.ofDiffs ds).trace (i + text.length) cs :=
      Edit.trace_congr cs fun j hj => by simp [Nat.not_lt.mpr hj]
    rw [Edit.trace_append, hspan, hlater, ← ih hnext, Diff.trace]
    simp only [deletion, hhere, Traced.kept, List.nil_append, length]

/-- Cut at an index of the document before, the trace of what diffs make of it is cut at the index's
image. -/
theorem trace_eq_cut (h : Rewrites 0 t ds out) (hi : i ≤ t.length) :
    trace t 0 ds =
        (Edit.ofDiffs ds).traced 0 (t.take i) ++ (Edit.ofDiffs ds).trace i (t.drop i) ∧
      ((Edit.ofDiffs ds).traced 0 (t.take i)).length = mapIndex i ds false := by
  have hlen : (t.take i).length = i := List.length_take_of_le hi
  have hcut := (Edit.ofDiffs ds).trace_append 0 (t.take i) (t.drop i)
  have himage := mapIndex_add_length h.ordered 0 (t.take i)
  rw [List.take_append_drop, Nat.zero_add, hlen] at hcut
  rw [Nat.zero_add, hlen, mapIndex_zero, Nat.zero_add, ← Edit.map_char_traced,
    List.length_map] at himage
  exact ⟨(h.trace_eq List.drop_zero).trans hcut, himage.symm⟩

/-- The characters from before an index, and those that are put in there, are as many as the index's
image tells. -/
theorem countP_isBefore_trace (h : Rewrites 0 t ds out) (hi : i ≤ t.length) :
    (trace t 0 ds).countP (fun x => x.origin.isBefore i) = mapIndex i ds false := by
  obtain ⟨hcut, himage⟩ := trace_eq_cut h hi
  have hfront : ((Edit.ofDiffs ds).traced 0 (t.take i)).countP (fun x => x.origin.isBefore i) =
      ((Edit.ofDiffs ds).traced 0 (t.take i)).length := by
    refine List.countP_eq_length.mpr fun x hx => ?_
    have hlt := (Edit.index_of_mem_traced hx).2
    rw [Nat.zero_add, List.length_take_of_le hi] at hlt
    exact decide_eq_true hlt
  have hback : ((Edit.ofDiffs ds).trace i (t.drop i)).countP (fun x => x.origin.isBefore i) = 0 := by
    refine List.countP_eq_zero.mpr fun x hx => ?_
    simpa [Origin.isBefore] using Edit.le_index_of_mem_trace hx
  rw [hcut, List.countP_append, hfront, hback, himage, Nat.add_zero]

/-- The end of a document goes to the end of what diffs make of it. -/
theorem mapIndex_length (h : Rewrites 0 t ds out) : mapIndex t.length ds true = out.length := by
  have himage := mapIndex_add_length h.ordered 0 t
  rw [Nat.zero_add, mapIndex_zero, Nat.zero_add] at himage
  have hwhole := (Edit.ofDiffs ds).apply_append 0 t []
  rw [List.append_nil, Nat.zero_add, Edit.apply] at hwhole
  rw [mapIndex_true h.ordered, himage, h.eq_apply, hwhole, List.length_append]

theorem mapIndex_le_length (h : Rewrites 0 t ds out) (hi : i ≤ t.length) (tiesFirst : Bool) :
    mapIndex i ds tiesFirst ≤ out.length := by
  have hlast := mapIndex_true_mono h.ordered hi
  rw [mapIndex_length h] at hlast
  cases tiesFirst with
  | false => exact Nat.le_trans (mapIndex_le h.ordered i) hlast
  | true => exact hlast

theorem mapIndex_true_le_false (h : Ordered ds) (hij : i < j) :
    mapIndex i ds true ≤ mapIndex j ds false := by
  have hstep := mapIndex_succ h i
  have hlater := mapIndex_false_mono h hij
  rw [Nat.succ_eq_add_one, hstep] at hlater
  exact Nat.le_of_add_right_le hlater

end Diff

namespace Patch

variable {b : Patch} {t v : Text}

/-- An index of a document goes where the characters end, in what a patch makes of the document, that
come from before the index; with ties first, where the text ends that the patch puts in front of it. -/
theorem gap_image (ht : '\r' ∉ t) (h : b.apply t = .ok v) :
    (Diff.trace t 0 b.diffs).map Traced.char = v ∧
    ∀ i ≤ t.length,
      Diff.mapIndex i b.diffs false =
        (Diff.trace t 0 b.diffs).countP (fun x => x.origin.isBefore i) ∧
      Diff.mapIndex i b.diffs true =
        (Diff.trace t 0 b.diffs).countP (fun x => x.origin.isBefore i) +
          (Diff.insertedAt i b.diffs).length ∧
      (∀ tiesFirst, Diff.Bounded b.diffs i tiesFirst ∧
        Diff.mapIndex i b.diffs tiesFirst ≤ v.length) ∧
      ∀ j, i < j → j ≤ t.length →
        Diff.mapIndex i b.diffs true ≤ Diff.mapIndex j b.diffs false := by
  have hr := (apply_eq_ok_iff ht).mp h
  have happly : Diff.applyFrom t 0 b.diffs = .ok v := (Diff.applyAll_eq_ok_iff ht).mpr hr
  refine ⟨Diff.char_trace happly, fun i hi => ⟨(Diff.countP_isBefore_trace hr hi).symm, ?_,
    fun tiesFirst => ⟨hr.ordered.apart.bounded i tiesFirst, Diff.mapIndex_le_length hr hi tiesFirst⟩,
    fun j hij _ => Diff.mapIndex_true_le_false hr.ordered hij⟩⟩
  rw [Diff.countP_isBefore_trace hr hi]
  exact Diff.mapIndex_true hr.ordered i

/-- An index inside deleted text, with text put in at both ends of what is deleted. -/
theorem gap_image_inside_deletion :
    let t : Text := ['a', 'b', 'c', 'd']
    let b : Patch := ⟨0, [.insertion 1 ['X'], .deletion 1 ['b', 'c'], .insertion 3 ['Y']], 4⟩
    let written := Diff.trace t 0 b.diffs
    '\r' ∉ t ∧ b.apply t = .ok ['a', 'X', 'Y', 'd'] ∧
      written = [⟨.kept 0, 'a'⟩, ⟨.inserted 1, 'X'⟩, ⟨.inserted 3, 'Y'⟩, ⟨.kept 3, 'd'⟩] ∧
      Diff.mapIndex 2 b.diffs false = written.countP (fun x => x.origin.isBefore 2) ∧
      Diff.mapIndex 2 b.diffs true =
        written.countP (fun x => x.origin.isBefore 2) + (Diff.insertedAt 2 b.diffs).length ∧
      Diff.mapIndex 2 b.diffs true ≤ Diff.mapIndex 3 b.diffs false := by
  intro t b written
  have ht : '\r' ∉ t := by decide
  have happly : b.apply t = .ok ['a', 'X', 'Y', 'd'] := rfl
  obtain ⟨himage, htied, -, hlater⟩ := (gap_image ht happly).2 2 (by decide)
  exact ⟨ht, happly, rfl, himage, htied, hlater 3 (by decide) (by decide)⟩

end Patch

end Coedit
