import Coedit.Proofs.LineEndings

/-!
Patches on a document where some breaks carry a carriage return and some stand alone. An index of
the view with breaks alone is taken behind one more character for every break before it, as if all
of them were pairs. Where all of them are, the patch does to the view what it was made to do; behind
a lone break it does the same further to the right, and nothing notices unless the place lies inside
a pair or past the end (`mixed_agrees_iff`).
-/
namespace Coedit

namespace Text

variable {t u content : Text}

theorem toLf_append (h : ¬(t.getLast? = some '\r' ∧ u.head? = some '\n')) :
    (t ++ u).toLf = t.toLf ++ u.toLf := by
  induction t with
  | nil => rfl
  | cons c cs ih =>
    cases cs with
    | nil =>
      have hc : ¬(c = '\r' ∧ u.head? = some '\n') := by simpa using h
      simp [toLf, hc]
    | cons x xs =>
      have hcs : toLf (x :: xs ++ u) = toLf (x :: xs) ++ u.toLf := ih (by simpa using h)
      have hhead : (x :: xs ++ u).head? = (x :: xs).head? := rfl
      rw [List.cons_append, toLf, hcs, hhead, toLf.eq_2 c]
      split <;> rfl

theorem splitsPair_append_iff :
    (t ++ u).splitsPair t.length = true ↔ t.getLast? = some '\r' ∧ u.head? = some '\n' := by
  rcases List.eq_nil_or_concat t with rfl | ⟨t, c, rfl⟩
  · simp [splitsPair]
  · have hnext : (t ++ c :: u)[t.length + 1]? = u.head? := by
      rw [List.getElem?_append_right (Nat.le_succ _), List.head?_eq_getElem?]
      simp
    simp [splitsPair, hnext]

/-- Every carriage return of a text stands before a break. -/
def Whole (t : Text) : Prop := '\r' ∉ t.toLf

instance (t : Text) : Decidable t.Whole := inferInstanceAs (Decidable ('\r' ∉ t.toLf))

theorem whole_toCrlf (h : '\r' ∉ t) : t.toCrlf.Whole := by rwa [Whole, toLf_toCrlf]

theorem Whole.getLast?_ne (h : t.Whole) : t.getLast? ≠ some '\r' := by
  intro hlast
  obtain ⟨front, rfl⟩ := List.getLast?_eq_some_iff.mp hlast
  refine h ?_
  rw [toLf_append (by simp)]
  simp [toLf]

theorem Whole.toLf_append (h : t.Whole) (u : Text) : (t ++ u).toLf = t.toLf ++ u.toLf :=
  Text.toLf_append fun hsplit => h.getLast?_ne hsplit.1

theorem Whole.append (h : t.Whole) (hu : u.Whole) : (t ++ u).Whole := by
  rw [Whole, h.toLf_append, List.mem_append, not_or]
  exact ⟨h, hu⟩

/-- A cut that splits no pair leaves no carriage return without its break. -/
theorem Whole.of_append (h : (t ++ u).Whole) (hsplit : (t ++ u).splitsPair t.length = false) :
    t.Whole ∧ u.Whole := by
  have hcut : ¬(t.getLast? = some '\r' ∧ u.head? = some '\n') := by
    rw [← splitsPair_append_iff, hsplit]
    exact Bool.false_ne_true
  rw [Whole, Text.toLf_append hcut, List.mem_append, not_or] at h
  exact h

/-- Making pairs of all breaks only adds carriage returns. -/
theorem Whole.sublist_toCrlf (h : t.Whole) : t.Sublist t.toLf.toCrlf := by
  induction t with
  | nil => exact .slnil
  | cons c cs ih =>
    rw [Whole, toLf] at h
    rw [toLf]
    split at h
    · -- the carriage return is the one that its break gets back
      rename_i hpair
      rw [if_pos hpair]
      obtain ⟨rfl, hhead⟩ := hpair
      obtain ⟨rest, rfl⟩ := List.head?_eq_some_iff.mp hhead
      have hrest := ih h
      rw [toLf, if_neg (by simp), toCrlf_cons, if_pos rfl, List.cons_append] at hrest ⊢
      rcases List.cons_sublist_cons'.mp hrest with hrest | ⟨hc, -⟩
      · exact hrest.cons_cons _
      · cases hc
    · rename_i hpair
      rw [if_neg hpair, toCrlf_cons]
      rw [List.mem_cons, not_or] at h
      have hrest := ih h.2
      split
      · rename_i hc
        exact hc ▸ (hrest.cons_cons _).cons _
      · exact hrest.cons_cons _

/-- What stands before an index of the view with breaks alone, written with pairs alone. Its length
is the index that the index is taken to. -/
def frontAsPairs (content : Text) (index : Nat) : Text := toCrlf (content.toLf.take index)

/-- Before an index of the view with breaks alone all breaks of the document are pairs. -/
def PairsUpTo (content : Text) (index : Nat) : Prop := content.frontAsPairs index <+: content

/-- The index that an index of the view with breaks alone is taken to lies past the end or inside a
pair. -/
def Refuses (content : Text) (index : Nat) : Prop :=
  content.length < (content.frontAsPairs index).length ∨
    content.splitsPair (content.frontAsPairs index).length = true

instance (content : Text) (index : Nat) : Decidable (content.PairsUpTo index) :=
  inferInstanceAs (Decidable (content.frontAsPairs index <+: content))

instance (content : Text) (index : Nat) : Decidable (content.Refuses index) :=
  inferInstanceAs (Decidable (_ ∨ _))

/-- A document that is cut where an index is taken to, and splits no pair there, is cut in the view
behind the index, unless all breaks before it are pairs. -/
theorem Whole.lt_length_toLf {front back : Text} {i : Nat} (hfront : front.Whole)
    (hi : i ≤ (front ++ back).toLf.length)
    (hlen : ((front ++ back).frontAsPairs i).length = front.length)
    (hnot : ¬(front ++ back).PairsUpTo i) : i < front.toLf.length := by
  rw [PairsUpTo] at hnot
  rw [frontAsPairs] at hlen hnot
  rw [hfront.toLf_append] at hi hlen hnot
  have hle := hfront.sublist_toCrlf.length_le
  rcases Nat.lt_trichotomy i front.toLf.length with hlt | heq | hgt
  · exact hlt
  · rw [heq, List.take_left] at hlen hnot
    refine absurd ?_ hnot
    rw [← hfront.sublist_toCrlf.eq_of_length hlen.symm]
    exact List.prefix_append ..
  · -- the place would lie behind all that the front becomes with pairs
    rw [List.take_append, List.take_of_length_le (Nat.le_of_lt hgt), toCrlf_append,
      List.length_append, length_toCrlf (List.take ..), List.length_take] at hlen
    rw [List.length_append] at hi
    omega

end Text

namespace Diff

variable {d : Diff} {ds : List Diff} {t u content out : Text}

/-- The text of a diff on a document with pairs. -/
structure PairedText (text : Text) : Prop where
  ne_nil : text ≠ []
  head?_ne : text.head? ≠ some '\n'
  whole : text.Whole

theorem pairedText_toCrlf (hne : t ≠ []) (h : '\r' ∉ t) : PairedText t.toCrlf :=
  ⟨Text.toCrlf_ne_nil hne, Text.head?_toCrlf_ne t, Text.whole_toCrlf h⟩

theorem PairedText.append (ht : PairedText t) (hu : PairedText u) : PairedText (t ++ u) where
  ne_nil := List.append_ne_nil_of_left_ne_nil ht.ne_nil u
  head?_ne := by rw [List.head?_append_of_ne_nil _ ht.ne_nil]; exact ht.head?_ne
  whole := ht.whole.append hu.whole

theorem toLf_eq (hs : d.start = t.length) (u : Text) :
    d.toLf (t ++ u) = ⟨d.kind, t.toLf.length, d.text.toLf⟩ := by
  have hlen := Text.length_toLf_add_pairCount t
  rw [toLf, Text.pairsBefore, hs, List.take_left, ← hlen, Nat.add_sub_cancel]

/-- Diffs that split no pair do to the view with breaks alone what they do to the document. -/
theorem Rewrites.toLf (ht : t.Whole) (hu : u.Whole)
    (hsplits : ∀ d ∈ ds, (t ++ u).splitsPair d.start = false) (htexts : ∀ d ∈ ds, d.text.Whole)
    (h : Rewrites t.length u ds out) :
    Rewrites t.toLf.length u.toLf (ds.map (Diff.toLf (t ++ u))) out.toLf := by
  induction ds generalizing t u out with
  | nil => exact h.eq_of_nil ▸ .nothing _ _
  | cons d ds ih =>
    obtain ⟨hd, hds⟩ := List.forall_mem_cons.mp htexts
    obtain ⟨hcut, hsplit⟩ := List.forall_mem_cons.mp hsplits
    obtain ⟨kept, rest, after, rfl, rfl, hs, hd'⟩ := h.reach
    rw [← List.length_append] at hs
    simp only [← List.append_assoc] at hcut hsplit ⊢
    rw [hs] at hcut
    have hall : (t ++ kept ++ rest).Whole := by
      rw [List.append_assoc]
      exact ht.append hu
    obtain ⟨hfront, hrest⟩ := hall.of_append hcut
    have hkept : kept.Whole := by
      rw [Text.Whole, ht.toLf_append, List.mem_append, not_or] at hfront
      exact hfront.2
    rw [hkept.toLf_append, hkept.toLf_append, List.map_cons, toLf_eq hs]
    refine keepAll kept.toLf ?_
    rw [← List.length_append, ← ht.toLf_append]
    obtain ⟨kind, start, text⟩ := d
    obtain rfl : start = (t ++ kept).length := hs
    cases kind with
    | insertion =>
      obtain ⟨result, rfl, hmore⟩ := hd'.of_insertion
      rw [Text.Whole.toLf_append hd]
      exact insert text.toLf (ih hfront hrest hsplit hds hmore)
    | deletion =>
      obtain ⟨rest, rfl, hmore⟩ := hd'.of_deletion
      rw [Text.Whole, Text.Whole.toLf_append hd, List.mem_append, not_or] at hrest
      rw [Text.Whole.toLf_append hd]
      refine delete text.toLf ?_
      rw [← List.length_append, ← hfront.toLf_append]
      rw [← List.length_append] at hmore
      simp only [← List.append_assoc] at hsplit ⊢
      exact ih (hfront.append hd) hrest.2 hsplit hds hmore

/-- Accepted diffs split no pair: an insertion is refused there, and a deletion finds its text. -/
theorem splitsPair_start_of_applyAll (hds : ∀ d ∈ ds, PairedText d.text)
    (h : applyAll content ds = .ok out) (hd : d ∈ ds) : content.splitsPair d.start = false := by
  obtain ⟨hinsertion, hrewrites⟩ := (applyFrom_eq_ok_iff_rewrites (Nat.zero_le _)).mp h
  cases hkind : d.kind with
  | insertion => exact hinsertion d hd (by rw [isInsertion, hkind]; rfl)
  | deletion =>
    obtain ⟨front, back, hcontent, hs, htext⟩ := hrewrites.exists_at hd
    obtain ⟨rest, rfl⟩ := htext (by rw [isDeletion, hkind]; rfl)
    obtain rfl : content = front ++ (d.text ++ rest) := hcontent
    rw [hs, Nat.zero_add, Bool.eq_false_iff, Ne, Text.splitsPair_append_iff,
      List.head?_append_of_ne_nil _ (hds d hd).ne_nil]
    exact fun hsplit => (hds d hd).head?_ne hsplit.2

/-- What accepted diffs do to the view with breaks alone. -/
theorem rewrites_toLf_of_applyAll (hc : content.Whole) (hds : ∀ d ∈ ds, PairedText d.text)
    (h : applyAll content ds = .ok out) :
    Rewrites 0 content.toLf (ds.map (Diff.toLf content)) out.toLf := by
  have hrewrites := ((applyFrom_eq_ok_iff_rewrites (Nat.zero_le _)).mp h).2
  exact Rewrites.toLf (t := []) (by decide) hc
    (fun d hd => splitsPair_start_of_applyAll hds h hd) (fun d hd => (hds d hd).whole) hrewrites

theorem applyAll_insertion {i : Nat} (hi : i ≤ content.length)
    (hsplit : content.splitsPair i = false) (text : Text) :
    applyAll content [insertion i text] = .ok (content.take i ++ (text ++ content.drop i)) := by
  refine (applyFrom_eq_ok_iff_rewrites (Nat.zero_le _)).mpr
    ⟨by simpa [insertion] using fun _ => hsplit, ?_⟩
  have hinsert := Rewrites.insert text (Rewrites.nothing i (content.drop i))
  rw [List.drop_zero]
  nth_rewrite 1 [← List.take_append_drop i content]
  refine Rewrites.keepAll _ ?_
  rwa [List.length_take_of_le hi, Nat.zero_add]

theorem start_toCrlf (hstart : d.start ≤ content.toLf.length) :
    (d.toCrlf content.toLf).start = (content.frontAsPairs d.start).length := by
  rw [Text.frontAsPairs, Text.length_toCrlf, List.length_take_of_le hstart]
  rfl

/-- A diff behind pairs alone comes back to where it was made. -/
theorem toLf_toCrlf_of_pairsUpTo (hstart : d.start ≤ content.toLf.length)
    (hpairs : content.PairsUpTo d.start) :
    (d.toCrlf content.toLf).toLf content = d := by
  obtain ⟨back, hback⟩ := hpairs
  have htaken := toLf_eq (start_toCrlf hstart) back
  rw [hback, Text.frontAsPairs, Text.toLf_toCrlf, List.length_take_of_le hstart] at htaken
  rw [htaken]
  simp [toCrlf, Text.toLf_toCrlf]

end Diff

namespace Patch

variable {p : Patch} {content u v : Text}

theorem pairedText_of_mem_toCrlf (hp : p.ReturnFree) (t : Text) :
    ∀ d ∈ (p.toCrlf t).diffs, Diff.PairedText d.text := by
  refine Diff.forall_mem_simplify (P := fun d => Diff.PairedText d.text)
    (fun d next _ hd hnext => hd.append hnext) fun e he hne => ?_
  obtain ⟨d, hd, rfl⟩ := List.mem_map.mp he
  have htext : d.text ≠ [] := fun hnil => hne (by simp [Diff.toCrlf, hnil])
  exact Diff.pairedText_toCrlf htext (hp d hd)

theorem apply_of_hasCrlf (hcrlf : content.hasCrlf = true) :
    p.apply content = Diff.applyAll content (p.toCrlf content.toLf).diffs := by
  rw [apply, onDocument, if_pos hcrlf]

/-- What an accepted patch does to the view with breaks alone: each diff lands where the character
that it was taken to lies in the view. -/
theorem apply_toLf (hcrlf : content.hasCrlf = true) (hc : content.Whole) (hp : p.ReturnFree)
    (h : p.apply content = .ok u) :
    ((p.toCrlf content.toLf).toLf content).apply content.toLf = .ok u.toLf := by
  rw [apply_of_hasCrlf hcrlf] at h
  have hview := Diff.rewrites_toLf_of_applyAll hc (pairedText_of_mem_toCrlf hp _) h
  exact (apply_eq_ok_iff hc).mpr hview.simplify

section Simplified

variable (hcrlf : content.hasCrlf = true) (hp : p.ReturnFree) (hs : Diff.Simplified p.diffs)

include hp hs in
theorem pairedText_of_mem_map (t : Text) :
    ∀ d ∈ p.diffs.map (Diff.toCrlf t), Diff.PairedText d.text := by
  intro e he
  obtain ⟨d, hd, rfl⟩ := List.mem_map.mp he
  exact Diff.pairedText_toCrlf (hs.text_ne_nil d hd) (hp d hd)

include hcrlf hp hs in
theorem applyAll_map_toCrlf_iff :
    Diff.applyAll content (p.diffs.map (Diff.toCrlf content.toLf)) = .ok u ↔
      p.apply content = .ok u := by
  rw [apply_of_hasCrlf hcrlf]
  exact (Diff.applyAll_simplify_iff fun e he => (pairedText_of_mem_map hp hs _ e he).ne_nil).symm

include hcrlf hp hs in
/-- Behind pairs alone a patch does to the document what it does to the view. -/
theorem apply_toLf_of_pairsUpTo (hc : content.Whole)
    (hstart : ∀ d ∈ p.diffs, d.start ≤ content.toLf.length)
    (hpairs : ∀ d ∈ p.diffs, content.PairsUpTo d.start) (h : p.apply content = .ok u) :
    p.apply content.toLf = .ok u.toLf := by
  have hview := Diff.rewrites_toLf_of_applyAll hc (pairedText_of_mem_map hp hs _)
    ((applyAll_map_toCrlf_iff hcrlf hp hs).mpr h)
  have hback : ∀ d ∈ p.diffs, (Diff.toLf content ∘ Diff.toCrlf content.toLf) d = id d :=
    fun d hd => Diff.toLf_toCrlf_of_pairsUpTo (hstart d hd) (hpairs d hd)
  rw [List.map_map, List.map_congr_left hback, List.map_id] at hview
  exact (apply_eq_ok_iff hc).mpr hview

include hcrlf hp hs in
/-- No diff of an accepted patch is taken to a place that is refused. -/
theorem not_refuses_of_apply (hstart : ∀ d ∈ p.diffs, d.start ≤ content.toLf.length)
    (h : p.apply content = .ok u) : ∀ d ∈ p.diffs, ¬content.Refuses d.start := by
  intro d hd
  have hmem : d.toCrlf content.toLf ∈ p.diffs.map (Diff.toCrlf content.toLf) :=
    List.mem_map_of_mem hd
  have happly := (applyAll_map_toCrlf_iff hcrlf hp hs).mpr h
  have hsplit := Diff.splitsPair_start_of_applyAll (pairedText_of_mem_map hp hs _) happly hmem
  obtain ⟨front, back, hcontent, hfront, -⟩ :=
    ((Diff.applyFrom_eq_ok_iff_rewrites (Nat.zero_le _)).mp happly).2.exists_at hmem
  rw [Diff.start_toCrlf (hstart d hd)] at hsplit hfront
  rintro (hlong | hinside)
  · have hlen := congrArg List.length hcontent
    rw [List.drop_zero, List.length_append] at hlen
    omega
  · rw [hsplit] at hinside
    cases hinside

end Simplified

theorem start_le_of_apply (hc : '\r' ∉ content) (h : p.apply content = .ok u) :
    ∀ d ∈ p.diffs, d.start ≤ content.length := by
  intro d hd
  obtain ⟨front, back, rfl, hs, -⟩ := ((apply_eq_ok_iff hc).mp h).exists_at hd
  rw [hs, List.length_append]
  omega

/-- A patch for breaks alone, as patches are built and read, that fits a document and its view. -/
structure FitsBoth (content : Text) (p : Patch) (u v : Text) : Prop where
  returnFree : p.ReturnFree
  simplified : Diff.Simplified p.diffs
  document : p.apply content = .ok u
  view : p.apply content.toLf = .ok v

theorem FitsBoth.toLf_eq (h : FitsBoth content p u v) (hcrlf : content.hasCrlf = true)
    (hc : content.Whole) (hpairs : ∀ d ∈ p.diffs, content.PairsUpTo d.start) : u.toLf = v := by
  have hview := apply_toLf_of_pairsUpTo hcrlf h.returnFree h.simplified hc
    (start_le_of_apply hc h.view) hpairs h.document
  exact Except.ok.inj (hview.symm.trans h.view)

/-- A character inserted behind a lone break, where nothing refuses it, is seen further to the right
than it was meant to be. -/
theorem exists_fitsBoth_ne {i : Nat} (hcrlf : content.hasCrlf = true) (hc : content.Whole)
    (hi : i ≤ content.toLf.length) (hpairs : ¬content.PairsUpTo i) (hrefuses : ¬content.Refuses i) :
    ∃ p u v, FitsBoth content p u v ∧ u.toLf ≠ v := by
  -- another character than the one that stands there shows the difference
  obtain ⟨x, hbreak, hreturn, hother⟩ :
      ∃ x, x ≠ '\n' ∧ x ≠ '\r' ∧ content.toLf[i]? ≠ some x := by
    by_cases hx : content.toLf[i]? = some 'x'
    · exact ⟨'y', by decide, by decide, by rw [hx]; decide⟩
    · exact ⟨'x', by decide, by decide, hx⟩
  rw [Text.Refuses, not_or, Nat.not_lt, Bool.not_eq_true] at hrefuses
  obtain ⟨front, back, rfl, hfront⟩ :
      ∃ front back, content = front ++ back ∧ (content.frontAsPairs i).length = front.length :=
    ⟨_, _, (List.take_append_drop _ content).symm, (List.length_take_of_le hrefuses.1).symm⟩
  have hsplit := hrefuses.2
  rw [hfront] at hsplit
  obtain ⟨hfrontWhole, hback⟩ := hc.of_append hsplit
  have hbehind := hfrontWhole.lt_length_toLf hi hfront hpairs
  let p : Patch := ⟨0, [.insertion i [x]], (front ++ back).toLf.length + 1⟩
  have hp : p.ReturnFree := by simp [p, ReturnFree, Diff.insertion, Ne.symm hreturn]
  have hs : Diff.Simplified p.diffs := ⟨by simp [p, Diff.insertion], .singleton _⟩
  have hdocument : p.apply (front ++ back) = .ok (front ++ ([x] ++ back)) := by
    have htaken : p.diffs.map (Diff.toCrlf (front ++ back).toLf) =
        [.insertion front.length [x]] := by
      have hstart := Diff.start_toCrlf (d := .insertion i [x]) hi
      rw [Diff.insertion] at hstart
      simp only [p, List.map_cons, List.map_nil, Diff.insertion, ← hfront, ← hstart]
      simp [Diff.toCrlf, Text.toCrlf, hbreak]
    have hinsert := Diff.applyAll_insertion (by simp) hsplit [x]
    rwa [List.take_left, List.drop_left, ← htaken, applyAll_map_toCrlf_iff hcrlf hp hs] at hinsert
  have hview : p.apply (front ++ back).toLf =
      .ok ((front ++ back).toLf.take i ++ ([x] ++ (front ++ back).toLf.drop i)) := by
    have hpairless := Text.hasCrlf_eq_false hc
    rw [apply, onDocument_of_hasCrlf_eq_false hpairless]
    exact Diff.applyAll_insertion hi (Text.splitsPair_eq_false hpairless i) [x]
  refine ⟨p, _, _, ⟨hp, hs, hdocument, hview⟩, fun he => hother ?_⟩
  have hfound : (front ++ back).toLf[i]? = front.toLf[i]? := by
    rw [hfrontWhole.toLf_append, List.getElem?_append_left hbehind]
  have hmeant : ((front ++ back).toLf.take i ++ ([x] ++ (front ++ back).toLf.drop i))[i]? =
      some x := by
    rw [List.getElem?_append_right (List.length_take_le ..), List.length_take_of_le hi,
      Nat.sub_self]
    rfl
  rw [hfound, ← hmeant, ← he, hfrontWhole.toLf_append, List.getElem?_append_left hbehind]

/-- On a document with pairs, and without a carriage return that has no break, an accepted patch
does to the view with breaks alone what it does where its diffs land. That is what it was made to do
if all breaks before its diffs are pairs. Every patch is safe so exactly if every index behind a lone
break is taken to a place that is refused. -/
theorem mixed_agrees_iff (hcrlf : content.hasCrlf = true) (hc : content.Whole) :
    (∀ (p : Patch) u, p.ReturnFree → p.apply content = .ok u →
      ((p.toCrlf content.toLf).toLf content).apply content.toLf = .ok u.toLf) ∧
    (∀ p u v, FitsBoth content p u v → (∀ d ∈ p.diffs, content.PairsUpTo d.start) → u.toLf = v) ∧
    ((∀ p u v, FitsBoth content p u v → u.toLf = v) ↔
      ∀ i ≤ content.toLf.length, content.PairsUpTo i ∨ content.Refuses i) := by
  refine ⟨fun p u hp hu => apply_toLf hcrlf hc hp hu,
    fun p u v h hpairs => h.toLf_eq hcrlf hc hpairs, fun hall i hi => ?_, fun hall p u v h => ?_⟩
  · by_contra hnot
    rw [not_or] at hnot
    obtain ⟨p, u, v, h, hne⟩ := exists_fitsBoth_ne hcrlf hc hi hnot.1 hnot.2
    exact hne (hall p u v h)
  · have hstart := start_le_of_apply hc h.view
    refine h.toLf_eq hcrlf hc fun d hd => (hall d.start (hstart d hd)).resolve_right ?_
    exact not_refuses_of_apply hcrlf h.returnFree h.simplified hstart h.document d hd

/-- A document that begins with a lone break and is safe all the same: whatever would land behind
that break is refused. -/
theorem mixed_agrees_iff_leading_break :
    let content : Text := ['\n', '\r', '\n']
    content.hasCrlf = true ∧ content.Whole ∧ ¬content.PairsUpTo 1 ∧
      (∀ p u v, FitsBoth content p u v → u.toLf = v) ∧
      FitsBoth content ⟨0, [.insertion 0 ['x']], 3⟩ ['x', '\n', '\r', '\n'] ['x', '\n', '\n'] := by
  intro content
  have hcrlf : content.hasCrlf = true := rfl
  have h := mixed_agrees_iff hcrlf (by decide)
  exact ⟨hcrlf, by decide, by decide, h.2.2.mpr (by decide), by decide, by decide, rfl, rfl⟩

/-- Behind a lone break an insertion lands one character too far to the right, and nothing refuses
it. -/
theorem mixed_disagrees :
    let content : Text := ['a', '\n', 'b', '\r', '\n', 'c']
    let p : Patch := ⟨0, [.insertion 2 ['X']], 6⟩
    let u : Text := ['a', '\n', 'b', 'X', '\r', '\n', 'c']
    let v : Text := ['a', '\n', 'X', 'b', '\n', 'c']
    content.hasCrlf = true ∧ content.pairCount < content.breakCount ∧ FitsBoth content p u v ∧
      u.toLf ≠ v := by
  intro content p u v
  exact ⟨rfl, by decide, ⟨by decide, by decide, rfl, rfl⟩, by decide⟩

end Patch

end Coedit
