import Coedit.Proofs.LineEndings

/-!
Diffs and patches that are taken to a document with pairs and back are what they were
(`endings_reversible`). The breaks before an index are the pairs before the index that it moves to
(`pairsBefore_toCrlf`), inside the document and past its end, so that no two indices move to one.
A patch is simplified anew on either way; that joins no diffs which stood apart, as long as the end of
a deletion moves with the text that it finds (`isContinuedBy_toCrlf`).
-/
namespace Coedit

namespace Text

variable {i j k : Nat}

theorem slice_append_slice (t : Text) (hij : i ≤ j) (hjk : j ≤ k) :
    t.slice i j ++ t.slice j k = t.slice i k := by
  have hdrop := drop_eq_slice_append (t.take k) hij
  rw [slice, List.take_take, Nat.min_eq_left hjk] at hdrop
  exact hdrop.symm

theorem breaksBefore_add_breakCount_slice (t : Text) (hij : i ≤ j) :
    t.breaksBefore i + (t.slice i j).breakCount = t.breaksBefore j := by
  have hslice : t.take i ++ t.slice i j = t.take j := slice_append_slice t (Nat.zero_le i) hij
  simp only [breaksBefore, breakCount, ← hslice, List.count_append]

theorem take_toCrlf (t : Text) (i : Nat) :
    t.toCrlf.take (i + t.breaksBefore i) = toCrlf (t.take i) := by
  rcases Nat.le_total i t.length with hle | hle
  · have hlen : (toCrlf (t.take i)).length = i + t.breaksBefore i := by
      rw [length_toCrlf, List.length_take_of_le hle]
      rfl
    have hsplit := toCrlf_append (t.take i) (t.drop i)
    rw [List.take_append_drop] at hsplit
    rw [hsplit, ← hlen, List.take_left]
  · rw [List.take_of_length_le hle, breaksBefore_of_length_le hle]
    refine List.take_of_length_le ?_
    rw [length_toCrlf]
    exact Nat.add_le_add_right hle _

theorem pairCount_toCrlf (t : Text) : t.toCrlf.pairCount = t.breakCount := by
  have hlen := length_toLf_add_pairCount t.toCrlf
  rw [toLf_toCrlf, length_toCrlf] at hlen
  exact Nat.add_left_cancel hlen

/-- The breaks before an index are the pairs before the index that it moves to. -/
theorem pairsBefore_toCrlf (t : Text) (i : Nat) :
    t.toCrlf.pairsBefore (i + t.breaksBefore i) = t.breaksBefore i := by
  rw [pairsBefore, take_toCrlf, pairCount_toCrlf]
  rfl

theorem add_breaksBefore_inj (t : Text) : i + t.breaksBefore i = j + t.breaksBefore j ↔ i = j := by
  refine ⟨fun h => ?_, fun h => h ▸ rfl⟩
  have hbreaks := pairsBefore_toCrlf t i
  rw [h, pairsBefore_toCrlf] at hbreaks
  omega

end Text

namespace Diff

variable {t : Text} {d next : Diff} {ds : List Diff}

/-- A deletion carries the text that stands where it deletes. -/
def FindsText (t : Text) (d : Diff) : Prop := d.isDeletion = true → t.slice d.start d.stop = d.text

instance (t : Text) (d : Diff) : Decidable (d.FindsText t) :=
  inferInstanceAs (Decidable (d.isDeletion = true → t.slice d.start d.stop = d.text))

theorem FindsText.merge (hc : d.isContinuedBy next = true) (hd : d.FindsText t)
    (hn : next.FindsText t) : (d.merge next).FindsText t := by
  intro hdeletion
  obtain ⟨kind, start, text⟩ := d
  obtain ⟨kind', start', text'⟩ := next
  cases kind with
  | insertion => cases hdeletion
  | deletion =>
    cases kind' with
    | insertion => cases hc
    | deletion =>
      obtain rfl : start + text.length = start' := by
        simpa [isContinuedBy, stop, Diff.length] using hc
      have hfront : t.slice start (start + text.length) = text := hd rfl
      have hback : t.slice (start + text.length) (start + text.length + text'.length) = text' :=
        hn rfl
      have hboth := Text.slice_append_slice t (Nat.le_add_right start text.length)
        (Nat.le_add_right (start + text.length) text'.length)
      rw [hfront, hback, Nat.add_assoc, ← List.length_append] at hboth
      exact hboth.symm

theorem stop_toCrlf (hd : d.FindsText t) :
    (d.toCrlf t).stop = d.stop + t.breaksBefore d.stop := by
  obtain ⟨kind, start, text⟩ := d
  cases kind with
  | insertion => rfl
  | deletion =>
    have hfound : t.slice start (start + text.length) = text := hd rfl
    have hbreaks := Text.breaksBefore_add_breakCount_slice t (Nat.le_add_right start text.length)
    rw [hfound] at hbreaks
    simp only [toCrlf, stop, Diff.length, Text.length_toCrlf, ← hbreaks]
    omega

/-- Diffs continue each other on a document with pairs where they do with breaks alone. -/
theorem isContinuedBy_toCrlf (hd : d.FindsText t) (next : Diff) :
    (d.toCrlf t).isContinuedBy (next.toCrlf t) = d.isContinuedBy next := by
  have hstop := stop_toCrlf hd
  obtain ⟨kind, start, text⟩ := d
  obtain ⟨kind', start', text'⟩ := next
  rw [Bool.eq_iff_iff]
  cases kind with
  | insertion =>
    cases kind' with
    | insertion => simp [isContinuedBy, toCrlf, Text.add_breaksBefore_inj]
    | deletion => rfl
  | deletion =>
    cases kind' with
    | insertion => rfl
    | deletion =>
      have hcontinue : (toCrlf t ⟨.deletion, start, text⟩).isContinuedBy
          (toCrlf t ⟨.deletion, start', text'⟩) =
          ((toCrlf t ⟨.deletion, start, text⟩).stop == start' + t.breaksBefore start') := rfl
      rw [hcontinue, hstop, beq_iff_eq, Text.add_breaksBefore_inj]
      exact beq_iff_eq.symm

theorem Simplified.map_toCrlf (hs : Simplified ds) (hds : ∀ d ∈ ds, d.FindsText t) :
    Simplified (ds.map (Diff.toCrlf t)) where
  text_ne_nil e he := by
    obtain ⟨d, hd, rfl⟩ := List.mem_map.mp he
    exact Text.toCrlf_ne_nil (hs.text_ne_nil d hd)
  apart := by
    rw [List.isChain_map]
    exact hs.apart.imp_of_mem_imp fun d next hd _ hc => (isContinuedBy_toCrlf (hds d hd) next).trans hc

theorem toLf_toCrlf (t : Text) (d : Diff) : (d.toCrlf t).toLf t.toCrlf = d := by
  simp only [toLf, toCrlf, Text.pairsBefore_toCrlf, Nat.add_sub_cancel, Text.toLf_toCrlf]

end Diff

namespace Patch

variable {t : Text} {ds : List Diff}

theorem toLf_toCrlf (hds : ∀ d ∈ ds, d.FindsText t) (version : Int) :
    ((forDocument version ds t.length).toCrlf t).toLf t.toCrlf = forDocument version ds t.length := by
  have hs := Diff.simplified_simplify ds
  have hfound : ∀ d ∈ Diff.simplify ds, d.FindsText t :=
    Diff.forall_mem_simplify (fun _ _ hc hd hn => hd.merge hc hn) fun d hd _ => hds d hd
  have hthere : ((forDocument version ds t.length).toCrlf t).diffs =
      (Diff.simplify ds).map (Diff.toCrlf t) := Diff.simplify_eq_self (hs.map_toCrlf hfound)
  have hback : ((Diff.simplify ds).map (Diff.toCrlf t)).map (Diff.toLf t.toCrlf) =
      Diff.simplify ds := by
    simp [Function.comp_def, Diff.toLf_toCrlf]
  have hlength : t.toCrlf.length - t.toCrlf.pairCount = t.length := by
    rw [Text.length_toCrlf, Text.pairCount_toCrlf, Nat.add_sub_cancel]
  rw [toLf, hthere, hback, hlength, baseVersion_toCrlf]
  simp only [forDocument, Diff.simplify_eq_self hs]

/-- A diff that is taken to a document with pairs and back is what it was, wherever it lies and
whatever its text, and so is a patch whose deletions carry what they delete. The order of its diffs
plays no part. -/
theorem endings_reversible (t : Text) :
    (∀ d : Diff, (d.toCrlf t).toLf t.toCrlf = d) ∧
      ∀ version ds, (∀ d ∈ ds, d.FindsText t) →
        ((forDocument version ds t.length).toCrlf t).toLf t.toCrlf =
          forDocument version ds t.length :=
  ⟨Diff.toLf_toCrlf t, fun version _ hds => toLf_toCrlf hds version⟩

/-- A document that has carriage returns of its own, a diff past its end, and a patch whose deletions
join before it is taken there. -/
theorem endings_reversible_own_returns :
    let t : Text := ['a', '\r', '\n', '\n', 'b']
    let d : Diff := .insertion 9 ['\r', '\n']
    let ds : List Diff := [.insertion 1 ['\n'], .deletion 1 ['\r'], .deletion 2 ['\n'],
      .insertion 3 ['x'], .deletion 4 ['b']]
    let p : Patch := .forDocument 7 ds t.length
    d.toCrlf t = .insertion 11 ['\r', '\r', '\n'] ∧ (d.toCrlf t).toLf t.toCrlf = d ∧
      (∀ d ∈ ds, d.FindsText t) ∧
      p.toCrlf t = ⟨7, [.insertion 1 ['\r', '\n'], .deletion 1 ['\r', '\r', '\n'],
        .insertion 4 ['x'], .deletion 6 ['b']], 6⟩ ∧
      (p.toCrlf t).toLf t.toCrlf = p := by
  intro t d ds p
  have hds : ∀ d ∈ ds, d.FindsText t := by decide
  have h := endings_reversible t
  exact ⟨rfl, h.1 d, hds, rfl, h.2 7 ds hds⟩

end Patch

end Coedit
