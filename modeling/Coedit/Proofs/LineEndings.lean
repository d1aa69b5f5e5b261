import Coedit.Proofs.Sequence

/-!
Patches on a document with pairs of carriage return and break. They do there what they do on the
same document with breaks alone (`rewrites_toCrlf_iff` for the diffs of one patch), since an index
that moves by the breaks before it lands neither inside a pair nor short of a character. In a list
of patches each looks anew at the document that it meets; once the last break is gone, what follows
makes breaks alone, so that the result has one of the two line endings throughout
(`applyAll_toCrlf`).
-/
namespace Coedit

namespace Text

variable {t u : Text}

theorem toCrlf_append (t u : Text) : (t ++ u).toCrlf = t.toCrlf ++ u.toCrlf :=
  List.flatMap_append

theorem toCrlf_eq_self (h : '\n' ∉ t) : t.toCrlf = t := by
  induction t with
  | nil => rfl
  | cons c cs ih =>
    rw [List.mem_cons, not_or] at h
    rw [toCrlf_cons, if_neg (Ne.symm h.1), ih h.2]
    rfl

theorem toCrlf_ne_nil (h : t ≠ []) : t.toCrlf ≠ [] := by
  intro he
  have hl := length_toCrlf t
  rw [he] at hl
  exact h (List.eq_nil_of_length_eq_zero (Nat.eq_zero_of_add_eq_zero_right hl.symm))

theorem head?_toCrlf_ne (t : Text) : t.toCrlf.head? ≠ some '\n' := by
  cases t with
  | nil => simp
  | cons c cs =>
    rw [toCrlf_cons]
    split
    · simp
    · simpa

theorem toLf_toCrlf (t : Text) : t.toCrlf.toLf = t := by
  induction t with
  | nil => rfl
  | cons c cs ih =>
    rw [toCrlf_cons]
    split
    · rename_i hc
      simp [hc, toLf, ih]
    · -- a carriage return of the text itself is no half of a new pair
      simp [toLf, ih, head?_toCrlf_ne]

theorem length_toLf_add_pairCount (t : Text) : t.toLf.length + t.pairCount = t.length := by
  induction t with
  | nil => rfl
  | cons c cs ih =>
    rw [toLf, pairCount]
    split <;> simp only [List.length_cons] <;> omega

theorem hasCrlf_toCrlf (h : '\n' ∈ t) : t.toCrlf.hasCrlf = true := by
  induction t with
  | nil => cases h
  | cons c cs ih =>
    rw [toCrlf_cons]
    by_cases hc : c = '\n'
    · simp [hc, hasCrlf]
    · rw [List.mem_cons, or_iff_right (Ne.symm hc)] at h
      simp [hc, hasCrlf, ih h]

/-- A text with pairs does not end in the middle of one. -/
theorem getLast?_toCrlf_ne (h : '\r' ∉ t) : t.toCrlf.getLast? ≠ some '\r' := by
  rcases List.eq_nil_or_concat t with rfl | ⟨t, c, rfl⟩
  · simp
  · simp only [List.concat_eq_append, List.mem_append, List.mem_singleton, not_or] at h
    rw [List.concat_eq_append, toCrlf_append, toCrlf_cons]
    split
    · simp
    · simpa using Ne.symm h.2

/-- Where a text with pairs is cut at a character of the text with breaks alone, no pair is
split. -/
theorem splitsPair_toCrlf (h : '\r' ∉ t) (u : Text) :
    (t ++ u).toCrlf.splitsPair t.toCrlf.length = false := by
  have hlast := getLast?_toCrlf_ne h
  rw [toCrlf_append, splitsPair]
  by_cases hz : t.toCrlf.length = 0
  · simp [hz]
  · rw [List.getElem?_append_left (by omega), ← List.getLast?_eq_getElem?]
    simp [hlast]

/-- What a text with pairs begins with, the text with breaks alone begins with. -/
theorem eq_append_of_toCrlf_eq {rest : Text} (ht : '\r' ∉ t) (hu : '\r' ∉ u)
    (h : t.toCrlf = u.toCrlf ++ rest) : ∃ more, t = u ++ more ∧ rest = more.toCrlf := by
  induction u generalizing t with
  | nil => exact ⟨t, rfl, h.symm⟩
  | cons c cs ih =>
    rw [List.mem_cons, not_or] at hu
    cases t with
    | nil =>
      rw [toCrlf_cons] at h
      split at h <;> cases h
    | cons x xs =>
      rw [List.mem_cons, not_or] at ht
      rw [toCrlf_cons, toCrlf_cons, List.append_assoc] at h
      have hx : x = c := by
        by_cases hn : x = '\n' <;> by_cases hc : c = '\n' <;> simp_all
      subst hx
      obtain ⟨more, rfl, hrest⟩ := ih ht.2 hu.2 (List.append_cancel_left h)
      exact ⟨more, rfl, hrest⟩

theorem length_add_breaksBefore (t u : Text) :
    t.length + (t ++ u).breaksBefore t.length = t.toCrlf.length := by
  rw [breaksBefore, List.take_left', length_toCrlf]
  rfl

theorem breaksBefore_of_length_le {i : Nat} (h : t.length ≤ i) :
    t.breaksBefore i = t.breakCount := by
  rw [breaksBefore, List.take_of_length_le h]

end Text

namespace Diff

variable {d : Diff} {ds : List Diff} {t u out : Text}

theorem toCrlf_eq (hs : d.start = t.length) (u : Text) :
    d.toCrlf (t ++ u) = ⟨d.kind, t.toCrlf.length, d.text.toCrlf⟩ := by
  rw [toCrlf, hs, Text.length_add_breaksBefore]

/-- A diff that lies behind the first part of a document with pairs lies at a character of the
document with breaks alone, behind the same part. -/
theorem exists_start_toCrlf (hle : t.toCrlf.length ≤ (d.toCrlf (t ++ u)).start)
    (hlt : (d.toCrlf (t ++ u)).start ≤ (t ++ u).toCrlf.length) :
    ∃ middle rest, u = middle ++ rest ∧ d.start = (t ++ middle).length ∧
      (d.toCrlf (t ++ u)).start = (t ++ middle).toCrlf.length := by
  have hstart : d.start ≤ (t ++ u).length := by
    refine Nat.not_lt.mp fun hout => ?_
    have hbreaks := Text.breaksBefore_of_length_le (Nat.le_of_lt hout)
    rw [Text.length_toCrlf] at hlt
    simp only [toCrlf, hbreaks] at hlt
    omega
  have hpos : (d.toCrlf (t ++ u)).start = (Text.toCrlf ((t ++ u).take d.start)).length := by
    rw [Text.length_toCrlf, List.length_take_of_le hstart]
    rfl
  have hbehind : t.length ≤ d.start := by
    refine Nat.not_lt.mp fun hin => ?_
    rw [hpos, List.take_append_of_le_length (Nat.le_of_lt hin)] at hle
    have htake := congrArg (fun text => (Text.toCrlf text).length) (List.take_append_drop d.start t)
    simp only [Text.toCrlf_append, List.length_append] at htake
    have hdrop := Text.length_toCrlf (t.drop d.start)
    rw [List.length_drop] at hdrop
    omega
  refine ⟨u.take (d.start - t.length), u.drop (d.start - t.length),
    (List.take_append_drop ..).symm, ?_, ?_⟩
  · rw [List.length_append] at hstart ⊢
    rw [List.length_take_of_le (by omega), Nat.add_sub_cancel' hbehind]
  · rw [hpos, List.take_append, List.take_of_length_le hbehind]

theorem splitsPair_start_toCrlf (ht : '\r' ∉ t) (d : Diff) :
    t.toCrlf.splitsPair (d.toCrlf t).start = false := by
  by_cases hle : (d.toCrlf t).start ≤ t.toCrlf.length
  · obtain ⟨front, back, rfl, -, hs⟩ := exists_start_toCrlf (t := []) (Nat.zero_le _) hle
    rw [List.mem_append, not_or] at ht
    exact hs ▸ Text.splitsPair_toCrlf ht.1 back
  · simp [Text.splitsPair, List.getElem?_eq_none (Nat.le_of_not_le hle)]

theorem Rewrites.toCrlf (h : Rewrites t.length u ds out) :
    Rewrites t.toCrlf.length u.toCrlf (ds.map (Diff.toCrlf (t ++ u))) out.toCrlf := by
  generalize hi : t.length = i at h
  induction h generalizing t with
  | done => exact .done _
  | @keep i rest result diffs c _ ih =>
    have hc := ih (t := t ++ [c]) (by simp [hi])
    rw [List.append_assoc, Text.toCrlf_append, List.length_append] at hc
    rw [← List.singleton_append, Text.toCrlf_append, ← List.singleton_append (l := result),
      Text.toCrlf_append]
    exact keepAll _ hc
  | insert text _ ih =>
    subst hi
    rw [List.map_cons, toCrlf_eq rfl, Text.toCrlf_append]
    exact insert _ (ih rfl)
  | delete text _ ih =>
    subst hi
    have hd := ih (t := t ++ text) List.length_append
    rw [List.append_assoc, Text.toCrlf_append, List.length_append] at hd
    rw [List.map_cons, toCrlf_eq rfl, Text.toCrlf_append]
    exact delete _ hd

theorem Rewrites.of_toCrlf (ht : '\r' ∉ t) (hu : '\r' ∉ u) (hds : ∀ d ∈ ds, '\r' ∉ d.text)
    (h : Rewrites t.toCrlf.length u.toCrlf (ds.map (Diff.toCrlf (t ++ u))) out) :
    ∃ result, Rewrites t.length u ds result ∧ out = result.toCrlf := by
  induction ds generalizing t u out with
  | nil => exact ⟨u, .nothing _ u, h.eq_of_nil⟩
  | cons d ds ih =>
    obtain ⟨hd, hmore⟩ := List.forall_mem_cons.mp hds
    obtain ⟨kept, rest, after, hk, rfl, hs, hd'⟩ := h.reach
    have hlen := congrArg List.length hk
    rw [List.length_append] at hlen
    obtain ⟨middle, back, rfl, hm, hms⟩ := exists_start_toCrlf (d := d) (t := t) (u := u)
      (by omega) (by rw [Text.toCrlf_append, List.length_append]; omega)
    rw [List.mem_append, not_or] at hu
    have hfree : '\r' ∉ t ++ middle := by simp [ht, hu.1]
    rw [Text.toCrlf_append] at hk
    obtain ⟨rfl, rfl⟩ := List.append_inj hk (by
      rw [Text.toCrlf_append, List.length_append] at hms
      omega)
    rw [← List.append_assoc] at hd'
    rw [toCrlf_eq hm] at hd'
    obtain ⟨kind, start, text⟩ := d
    obtain rfl : start = (t ++ middle).length := hm
    cases kind with
    | insertion =>
      obtain ⟨result, rfl, hrest⟩ := Rewrites.of_insertion hd'
      obtain ⟨result, hback, rfl⟩ := ih hfree hu.2 hmore hrest
      refine ⟨middle ++ (text ++ result), keepAll middle ?_, ?_⟩
      · rw [← List.length_append]
        exact insert text hback
      · simp only [Text.toCrlf_append]
    | deletion =>
      obtain ⟨rest, hrest, hafter⟩ := Rewrites.of_deletion hd'
      obtain ⟨rest, rfl, rfl⟩ := Text.eq_append_of_toCrlf_eq hu.2 hd hrest
      rw [List.mem_append, not_or] at hu
      rw [← List.append_assoc, ← List.length_append, ← Text.toCrlf_append] at hafter
      have hfree' : '\r' ∉ (t ++ middle) ++ text := by
        rw [List.mem_append, not_or]
        exact ⟨hfree, hd⟩
      obtain ⟨result, hresult, rfl⟩ := ih hfree' hu.2.2 hmore hafter
      refine ⟨middle ++ result, keepAll middle ?_, (Text.toCrlf_append ..).symm⟩
      rw [← List.length_append]
      exact delete text (by rwa [← List.length_append])

/-- On a document with pairs the diffs do what they do on the document with breaks alone. -/
theorem rewrites_toCrlf_iff (ht : '\r' ∉ t) (hds : ∀ d ∈ ds, '\r' ∉ d.text) :
    Rewrites 0 t.toCrlf (ds.map (Diff.toCrlf t)) out ↔
      ∃ result, Rewrites 0 t ds result ∧ out = result.toCrlf := by
  constructor
  · exact fun h => Rewrites.of_toCrlf (t := []) (by simp) ht hds h
  · rintro ⟨result, h, rfl⟩
    exact Rewrites.toCrlf (t := []) h

end Diff

namespace Patch

variable {p : Patch} {ps : List Patch} {t u v : Text}

/-- A document with pairs is rewritten by the diffs as they are taken to it. -/
theorem apply_toCrlf_iff_rewrites (p : Patch) (ht : '\r' ∉ t) (hbreak : '\n' ∈ t) :
    p.apply t.toCrlf = .ok v ↔ Diff.Rewrites 0 t.toCrlf (p.toCrlf t).diffs v := by
  have hon : p.onDocument t.toCrlf = p.toCrlf t := by
    rw [onDocument, if_pos (Text.hasCrlf_toCrlf hbreak), Text.toLf_toCrlf]
  have hsplit : ∀ d ∈ (p.toCrlf t).diffs, t.toCrlf.splitsPair d.start = false := by
    intro d hd
    obtain ⟨e, he, hstart⟩ := Diff.exists_start_eq_of_mem_simplify hd
    obtain ⟨d, -, rfl⟩ := List.mem_map.mp he
    exact hstart ▸ Diff.splitsPair_start_toCrlf ht d
  rw [apply, hon]
  exact Diff.applyFrom_eq_ok_iff (Nat.zero_le _) hsplit

/-- What a patch makes of a document with breaks alone, it makes of the document with pairs. -/
theorem apply_toCrlf (ht : '\r' ∉ t) (hp : p.ReturnFree) (h : p.apply t = .ok u) :
    p.apply t.toCrlf = .ok (if '\n' ∈ t then u.toCrlf else u) := by
  split
  · rename_i hbreak
    have hr := (apply_eq_ok_iff ht).mp h
    have hpairs := (Diff.rewrites_toCrlf_iff ht hp).mpr ⟨u, hr, rfl⟩
    exact (apply_toCrlf_iff_rewrites p ht hbreak).mpr hpairs.simplify
  · rename_i hbreak
    rw [Text.toCrlf_eq_self hbreak, h]

/-- A patch on a document with pairs makes what it makes of the document with breaks alone. -/
theorem apply_toCrlf_iff (ht : '\r' ∉ t) (hbreak : '\n' ∈ t) (hp : p.ReturnFree)
    (hs : Diff.Simplified p.diffs) :
    p.apply t.toCrlf = .ok v ↔ ∃ u, p.apply t = .ok u ∧ v = u.toCrlf := by
  have htext : ∀ d ∈ p.diffs.map (Diff.toCrlf t), d.text ≠ [] := by
    intro d hd
    obtain ⟨e, he, rfl⟩ := List.mem_map.mp hd
    exact Text.toCrlf_ne_nil (hs.text_ne_nil e he)
  simp only [apply_eq_ok_iff ht]
  rw [apply_toCrlf_iff_rewrites p ht hbreak, ← Diff.rewrites_toCrlf_iff ht hp]
  exact ⟨Diff.Rewrites.of_simplify htext, Diff.Rewrites.simplify⟩

/-- One text is another in one of the two line endings. -/
def InEither (u v : Text) : Prop := v = u.toCrlf ∨ v = u

/-- A patch fits a document in both line endings or in neither, and makes one document. -/
theorem apply_inEither (hu : '\r' ∉ u) (h : InEither u v) (hp : p.ReturnFree)
    (hs : Diff.Simplified p.diffs) :
    (∀ u', p.apply u = .ok u' → ∃ v', p.apply v = .ok v' ∧ InEither u' v') ∧
      ∀ v', p.apply v = .ok v' → ∃ u', p.apply u = .ok u' ∧ InEither u' v' := by
  by_cases hbreak : '\n' ∈ u
  · rcases h with rfl | rfl
    · constructor
      · exact fun u' hu' => ⟨_, (apply_toCrlf_iff hu hbreak hp hs).mpr ⟨u', hu', rfl⟩, .inl rfl⟩
      · intro v' hv'
        obtain ⟨u', hu', rfl⟩ := (apply_toCrlf_iff hu hbreak hp hs).mp hv'
        exact ⟨u', hu', .inl rfl⟩
    · exact ⟨fun u' hu' => ⟨u', hu', .inr rfl⟩, fun v' hv' => ⟨v', hv', .inr rfl⟩⟩
  · -- without breaks the two line endings are one
    obtain rfl : v = u := by
      rcases h with rfl | rfl
      · exact Text.toCrlf_eq_self hbreak
      · rfl
    exact ⟨fun u' hu' => ⟨u', hu', .inr rfl⟩, fun v' hv' => ⟨v', hv', .inr rfl⟩⟩

theorem applyAll_inEither (hu : '\r' ∉ u) (h : InEither u v)
    (hps : ∀ p ∈ ps, p.ReturnFree ∧ Diff.Simplified p.diffs) :
    (∀ u', applyAll u ps = .ok u' → '\r' ∉ u' ∧ ∃ v', applyAll v ps = .ok v' ∧ InEither u' v') ∧
      ∀ v', applyAll v ps = .ok v' → ∃ u', applyAll u ps = .ok u' := by
  induction ps generalizing u v with
  | nil =>
    refine ⟨fun u' hu' => ?_, fun _ _ => ⟨u, rfl⟩⟩
    obtain rfl := Except.ok.inj hu'
    exact ⟨hu, v, rfl, h⟩
  | cons p ps ih =>
    obtain ⟨⟨hp, hs⟩, hps⟩ := List.forall_mem_cons.mp hps
    obtain ⟨hforth, hback⟩ := apply_inEither hu h hp hs
    constructor
    · intro u' hu'
      obtain ⟨next, hnext, hu'⟩ := exists_apply_of_applyAll_cons hu'
      obtain ⟨next', hnext', he⟩ := hforth next hnext
      rw [applyAll_cons_of_apply hnext']
      exact (ih (free_of_apply hu hp hnext) he hps).1 u' hu'
    · intro v' hv'
      obtain ⟨next', hnext', hv'⟩ := exists_apply_of_applyAll_cons hv'
      obtain ⟨next, hnext, he⟩ := hback next' hnext'
      rw [applyAll_cons_of_apply hnext]
      exact (ih (free_of_apply hu hp hnext) he hps).2 v' hv'

/-- Patches made for breaks alone act on a document with pairs as on the same document with breaks
alone: they fit both or neither, the result has one of the two line endings throughout, and one
patch keeps the pairs of a document that has any. The diffs of a patch are simplified however it is
built or read. -/
theorem applyAll_toCrlf (ht : '\r' ∉ t)
    (hps : ∀ p ∈ ps, p.ReturnFree ∧ Diff.Simplified p.diffs) :
    ((∃ v, applyAll t.toCrlf ps = .ok v) ↔ ∃ u, applyAll t ps = .ok u) ∧
      ∀ u, applyAll t ps = .ok u →
        '\r' ∉ u ∧ (applyAll t.toCrlf ps = .ok u.toCrlf ∨ applyAll t.toCrlf ps = .ok u) ∧
          (ps.length = 1 → '\n' ∈ t → applyAll t.toCrlf ps = .ok u.toCrlf) := by
  obtain ⟨hforth, hback⟩ := applyAll_inEither ht (.inl rfl) hps
  refine ⟨⟨fun ⟨v, hv⟩ => hback v hv, fun ⟨u, hu⟩ => ?_⟩, fun u hu => ?_⟩
  · obtain ⟨-, v, hv, -⟩ := hforth u hu
    exact ⟨v, hv⟩
  · obtain ⟨hfree, v, hv, he⟩ := hforth u hu
    refine ⟨hfree, ?_, fun hone hbreak => ?_⟩
    · rcases he with rfl | rfl
      · exact .inl hv
      · exact .inr hv
    · obtain ⟨p, rfl⟩ := List.length_eq_one_iff.mp hone
      obtain ⟨hp, hs⟩ := hps p List.mem_cons_self
      obtain ⟨next, hnext, hu⟩ := exists_apply_of_applyAll_cons hu
      obtain rfl := Except.ok.inj hu
      exact applyAll_cons_of_apply ((apply_toCrlf_iff ht hbreak hp hs).mpr ⟨_, hnext, rfl⟩)

/-- Where the only break is taken away and made anew, the new one has no carriage return; one patch
keeps the carriage return that it finds. -/
theorem applyAll_toCrlf_rejoined :
    let t : Text := ['a', '\n', 'b']
    let cut : Patch := ⟨0, [.deletion 1 ['\n']], 2⟩
    let split : Patch := ⟨1, [.insertion 1 ['\n']], 3⟩
    let mark : Patch := ⟨0, [.insertion 1 ['x']], 4⟩
    (∃ v, applyAll t.toCrlf [cut, split] = .ok v) ∧
      (applyAll t.toCrlf [cut, split] = .ok t.toCrlf ∨ applyAll t.toCrlf [cut, split] = .ok t) ∧
      applyAll t.toCrlf [mark] = .ok ['a', 'x', '\r', '\n', 'b'] := by
  intro t cut split mark
  have htwo : ∀ p ∈ [cut, split], p.ReturnFree ∧ Diff.Simplified p.diffs := by decide
  have hone : ∀ p ∈ [mark], p.ReturnFree ∧ Diff.Simplified p.diffs := by decide
  have h := applyAll_toCrlf (t := t) (by decide) htwo
  have hmark := applyAll_toCrlf (t := t) (by decide) hone
  exact ⟨h.1.mpr ⟨t, rfl⟩, (h.2 t rfl).2.1, (hmark.2 ['a', 'x', '\n', 'b'] rfl).2.2 rfl (by decide)⟩

end Patch

end Coedit
