import Coedit.Patch.Apply
import Mathlib.Logic.Basic

/-!
Applying diffs, said of what is left of a document: `Rewrites index rest diffs result` walks `rest`
character by character, while `applyFrom` cuts slices out of the whole document. The two agree
where no insertion lies inside a pair of carriage return and break
(`applyFrom_eq_ok_iff_rewrites`), so that later proofs can follow the characters. An application can
be undone: the result and the diffs leave only one document (`Rewrites.source_unique`).
-/
namespace Coedit

namespace Text

theorem drop_eq_slice_append (text : Text) {i j : Nat} (h : i ≤ j) :
    text.drop i = text.slice i j ++ text.drop j := by
  have hj : (text.drop i).drop (j - i) = text.drop j := by
    rw [List.drop_drop, Nat.add_sub_cancel' h]
  rw [slice, List.drop_take, ← hj, List.take_append_drop]

theorem length_slice {text : Text} {i j : Nat} (h : j ≤ text.length) :
    (text.slice i j).length = j - i := by
  simp [slice, Nat.min_eq_left h]

theorem drop_eq_append_of_slice {content text : Text} {start : Nat} (hs : start ≤ content.length)
    (h : content.slice start (start + text.length) = text) :
    start + text.length ≤ content.length ∧
      content.drop start = text ++ content.drop (start + text.length) := by
  have hdrop := drop_eq_slice_append content (Nat.le_add_right start text.length)
  rw [h] at hdrop
  have hlen := congrArg List.length hdrop
  simp only [List.length_drop, List.length_append] at hlen
  exact ⟨by omega, hdrop⟩

theorem slice_of_drop_eq_append {content text rest : Text} {start : Nat}
    (hs : start ≤ content.length) (h : content.drop start = text ++ rest) :
    content.slice start (start + text.length) = text ∧
      rest = content.drop (start + text.length) := by
  have hlen := congrArg List.length h
  simp only [List.length_drop, List.length_append] at hlen
  rw [drop_eq_slice_append content (Nat.le_add_right start text.length)] at h
  have hslice : (content.slice start (start + text.length)).length = text.length := by
    rw [length_slice (by omega), Nat.add_sub_cancel_left]
  obtain ⟨htext, hrest⟩ := List.append_inj h hslice
  exact ⟨htext, hrest.symm⟩

theorem hasCrlf_eq_false {text : Text} (h : '\r' ∉ text) : text.hasCrlf = false := by
  induction text with
  | nil => rfl
  | cons c cs ih =>
    rw [List.mem_cons, not_or] at h
    simp [hasCrlf, ih h.2, Ne.symm h.1]

theorem splitsPair_eq_false {text : Text} (h : text.hasCrlf = false) (index : Nat) :
    text.splitsPair index = false := by
  induction text generalizing index with
  | nil => simp [splitsPair]
  | cons c cs ih =>
    simp only [hasCrlf, Bool.or_eq_false_iff] at h
    cases index with
    | zero => rfl
    | succ index =>
      cases index with
      | zero =>
        have hpair := h.1
        rw [List.head?_eq_getElem?] at hpair
        simpa [splitsPair] using hpair
      | succ index => simpa [splitsPair] using ih h.2 (index + 1)

end Text

theorem map_eq_ok_iff {ε α β : Type} {f : α → β} {x : Except ε α} {b : β} :
    x.map f = .ok b ↔ ∃ a, x = .ok a ∧ f a = b := by
  cases x <;> simp [Except.map]

theorem map_eq_error_iff {ε α β : Type} {f : α → β} {x : Except ε α} {e : ε} :
    x.map f = .error e ↔ x = .error e := by
  cases x <;> simp [Except.map]

theorem bind_eq_ok_iff {ε α β : Type} {f : α → Except ε β} {x : Except ε α} {b : β} :
    x >>= f = .ok b ↔ ∃ a, x = .ok a ∧ f a = .ok b := by
  cases x <;> simp [bind, Except.bind]

theorem toOption_map {ε α β : Type} (x : Except ε α) (f : α → β) :
    (x.map f).toOption = x.toOption.map f := by
  cases x <;> rfl

theorem toOption_bind {ε α β : Type} (x : Except ε α) (f : α → Except ε β) :
    (x >>= f).toOption = x.toOption.bind fun a => (f a).toOption := by
  cases x <;> rfl

theorem toOption_eq_some_iff {ε α : Type} {x : Except ε α} {a : α} :
    x.toOption = some a ↔ x = .ok a := by
  cases x <;> simp [Except.toOption]

namespace Diff

/-- What `diffs` make of the rest of a document that begins at an index. -/
inductive Rewrites : Nat → Text → List Diff → Text → Prop
  | done (index : Nat) : Rewrites index [] [] []
  | keep {index : Nat} {rest result : Text} {diffs : List Diff} (c : Char) :
      Rewrites (index + 1) rest diffs result → Rewrites index (c :: rest) diffs (c :: result)
  | insert {index : Nat} {rest result : Text} {diffs : List Diff} (text : Text) :
      Rewrites index rest diffs result →
      Rewrites index rest (insertion index text :: diffs) (text ++ result)
  | delete {index : Nat} {rest result : Text} {diffs : List Diff} (text : Text) :
      Rewrites (index + text.length) rest diffs result →
      Rewrites index (text ++ rest) (deletion index text :: diffs) result

namespace Rewrites

variable {i : Nat} {cs out : Text} {d : Diff} {ds : List Diff}

theorem le_start (h : Rewrites i cs ds out) : ∀ d ∈ ds, i ≤ d.start := by
  induction h with
  | done => simp
  | keep _ _ ih => exact fun d hd => Nat.le_of_succ_le (ih d hd)
  | insert _ _ ih =>
    intro d hd
    rcases List.mem_cons.mp hd with rfl | hd
    · exact Nat.le_refl _
    · exact ih d hd
  | delete _ _ ih =>
    intro d hd
    rcases List.mem_cons.mp hd with rfl | hd
    · exact Nat.le_refl _
    · exact Nat.le_of_add_right_le (ih d hd)

theorem keepAll (kept : Text) (h : Rewrites (i + kept.length) cs ds out) :
    Rewrites i (kept ++ cs) ds (kept ++ out) := by
  induction kept generalizing i with
  | nil => exact h
  | cons c kept ih =>
    refine keep c (ih ?_)
    rwa [List.length_cons, Nat.add_comm kept.length, ← Nat.add_assoc] at h

theorem nothing (i : Nat) (cs : Text) : Rewrites i cs [] cs := by
  simpa using keepAll cs (done (i + cs.length))

theorem eq_of_nil (h : Rewrites i cs [] out) : out = cs := by
  generalize hds : ([] : List Diff) = ds at h
  induction h with
  | done => rfl
  | keep c _ ih => rw [ih hds]
  | insert => cases hds
  | delete => cases hds

/-- Before its first diff a document stays as it is. -/
theorem reach (h : Rewrites i cs (d :: ds) out) :
    ∃ kept rest result, cs = kept ++ rest ∧ out = kept ++ result ∧
      d.start = i + kept.length ∧ Rewrites d.start rest (d :: ds) result := by
  generalize hds : d :: ds = diffs at h
  induction h with
  | done => cases hds
  | keep c _ ih =>
    obtain ⟨kept, rest, result, rfl, rfl, hs, h⟩ := ih hds
    exact ⟨c :: kept, rest, result, rfl, rfl, by simp [hs]; omega, hds ▸ h⟩
  | insert text h =>
    cases hds
    exact ⟨[], _, _, rfl, rfl, rfl, insert text h⟩
  | delete text h =>
    cases hds
    exact ⟨[], _, _, rfl, rfl, rfl, delete text h⟩

theorem of_insertion {text : Text} (h : Rewrites i cs (insertion i text :: ds) out) :
    ∃ result, out = text ++ result ∧ Rewrites i cs ds result := by
  generalize hds : insertion i text :: ds = diffs at h
  cases h with
  | done => cases hds
  | keep c h =>
    exact absurd (h.le_start (insertion i text) (hds ▸ List.mem_cons_self)) (Nat.not_succ_le_self i)
  | insert _ h =>
    cases hds
    exact ⟨_, rfl, h⟩
  | delete => cases hds

theorem of_deletion {text : Text} (h : Rewrites i cs (deletion i text :: ds) out) :
    ∃ rest, cs = text ++ rest ∧ Rewrites (i + text.length) rest ds out := by
  generalize hds : deletion i text :: ds = diffs at h
  cases h with
  | done => cases hds
  | keep c h =>
    exact absurd (h.le_start (deletion i text) (hds ▸ List.mem_cons_self)) (Nat.not_succ_le_self i)
  | insert => cases hds
  | delete _ h =>
    cases hds
    exact ⟨_, rfl, h⟩

/-- What lies before every diff stays as it is. -/
theorem of_keepAll {kept : Text} (hs : ∀ d ∈ ds, i + kept.length ≤ d.start)
    (h : Rewrites i (kept ++ cs) ds out) :
    ∃ result, out = kept ++ result ∧ Rewrites (i + kept.length) cs ds result := by
  cases ds with
  | nil =>
    obtain rfl := h.eq_of_nil
    exact ⟨cs, rfl, nothing _ cs⟩
  | cons d ds =>
    obtain ⟨front, rest, result, hcs, rfl, hd, hrest⟩ := h.reach
    have hle : kept.length ≤ front.length := by
      have := hs d List.mem_cons_self
      omega
    obtain ⟨more, rfl⟩ := List.prefix_of_prefix_length_le ⟨cs, rfl⟩ ⟨rest, hcs.symm⟩ hle
    rw [List.append_assoc] at hcs
    obtain rfl := List.append_cancel_left hcs
    refine ⟨more ++ result, List.append_assoc .., keepAll more ?_⟩
    rwa [hd, List.length_append, ← Nat.add_assoc] at hrest

theorem length_add_deletedLength (h : Rewrites i cs ds out) :
    out.length + deletedLength ds = cs.length + insertedLength ds := by
  induction h with
  | done => rfl
  | keep _ _ ih => simp only [List.length_cons]; omega
  | insert text _ ih =>
    simp only [List.length_append, deletedLength, insertedLength, insertion, isDeletion,
      isInsertion, length]
    simp; omega
  | delete text _ ih =>
    simp only [List.length_append, deletedLength, insertedLength, deletion, isDeletion,
      isInsertion, length]
    simp; omega

/-- The document before is determined by the diffs and the document after. -/
theorem source_unique {cs' : Text} (h : Rewrites i cs ds out) (h' : Rewrites i cs' ds out) :
    cs = cs' := by
  induction h generalizing cs' with
  | done => exact h'.eq_of_nil
  | @keep i cs out ds c h ih =>
    generalize ho : c :: out = result at h'
    cases h' with
    | done => cases ho
    | keep c' h' => cases ho; rw [ih h']
    | insert text => exact absurd (h.le_start _ List.mem_cons_self) (Nat.not_succ_le_self i)
    | delete text => exact absurd (h.le_start _ List.mem_cons_self) (Nat.not_succ_le_self i)
  | insert text _ ih =>
    obtain ⟨result, ho, hrest⟩ := h'.of_insertion
    exact ih (List.append_cancel_left ho ▸ hrest)
  | delete text _ ih =>
    obtain ⟨rest, rfl, hrest⟩ := h'.of_deletion
    rw [ih hrest]

/-- Where a diff lies in the document, and that a deletion finds its text there. -/
theorem exists_at (h : Rewrites i cs ds out) (hd : d ∈ ds) :
    ∃ front back, cs = front ++ back ∧ d.start = i + front.length ∧
      (d.isDeletion = true → d.text <+: back) := by
  induction h with
  | done => cases hd
  | keep c _ ih =>
    obtain ⟨front, back, rfl, hs, htext⟩ := ih hd
    exact ⟨c :: front, back, rfl, by rw [hs, List.length_cons]; omega, htext⟩
  | insert text _ ih =>
    rcases List.mem_cons.mp hd with rfl | hd
    · exact ⟨[], _, rfl, rfl, nofun⟩
    · exact ih hd
  | delete text _ ih =>
    rcases List.mem_cons.mp hd with rfl | hd
    · exact ⟨[], _, rfl, rfl, fun _ => List.prefix_append ..⟩
    · obtain ⟨front, back, rfl, hs, htext⟩ := ih hd
      exact ⟨text ++ front, back, (List.append_assoc ..).symm,
        by rw [hs, List.length_append, Nat.add_assoc], htext⟩

/-- A character that is neither in the document nor in an inserted text does not appear. -/
theorem not_mem {c : Char} (h : Rewrites i cs ds out) (hcs : c ∉ cs) (hds : ∀ d ∈ ds, c ∉ d.text) :
    c ∉ out := by
  induction h with
  | done => exact hcs
  | keep _ _ ih =>
    rw [List.mem_cons, not_or] at hcs ⊢
    exact ⟨hcs.1, ih hcs.2 hds⟩
  | insert text _ ih =>
    rw [List.forall_mem_cons] at hds
    rw [List.mem_append, not_or]
    exact ⟨hds.1, ih hcs hds.2⟩
  | delete text _ ih =>
    rw [List.mem_append, not_or] at hcs
    exact ih hcs.2 (List.forall_mem_cons.mp hds).2

/-- A character that is in neither document is in no text of the diffs. -/
theorem not_mem_text {c : Char} (h : Rewrites i cs ds out) (hcs : c ∉ cs) (hout : c ∉ out) :
    ∀ d ∈ ds, c ∉ d.text := by
  induction h with
  | done => simp
  | keep _ _ ih =>
    rw [List.mem_cons, not_or] at hcs hout
    exact ih hcs.2 hout.2
  | insert text _ ih =>
    rw [List.mem_append, not_or] at hout
    exact List.forall_mem_cons.mpr ⟨hout.1, ih hcs hout.2⟩
  | delete text _ ih =>
    rw [List.mem_append, not_or] at hcs
    exact List.forall_mem_cons.mpr ⟨hcs.1, ih hcs.2 hout⟩

/-- Diffs may be exchanged behind others for diffs that do the same. -/
theorem exchange {back back' : List Diff} (front : List Diff)
    (hback : ∀ {j rest result}, Rewrites j rest back result → Rewrites j rest back' result)
    (h : Rewrites i cs (front ++ back) out) : Rewrites i cs (front ++ back') out := by
  induction front generalizing i cs out with
  | nil => exact hback h
  | cons d front ih =>
    obtain ⟨kept, rest, result, rfl, rfl, hs, hd⟩ := reach h
    refine keepAll kept (hs ▸ ?_)
    obtain ⟨kind, start, text⟩ := d
    cases kind with
    | insertion =>
      obtain ⟨result, rfl, hfront⟩ := of_insertion hd
      exact insert text (ih hfront)
    | deletion =>
      obtain ⟨rest, rfl, hfront⟩ := of_deletion hd
      exact delete text (ih hfront)

end Rewrites

/-- The way to the first diff, in slices of the whole document. -/
theorem rewrites_drop_cons_iff {content : Text} {i : Nat} {d : Diff} {ds : List Diff} {out : Text}
    (hi : i ≤ content.length) :
    Rewrites i (content.drop i) (d :: ds) out ↔
      i ≤ d.start ∧ d.start ≤ content.length ∧ ∃ result,
        out = content.slice i d.start ++ result ∧
          Rewrites d.start (content.drop d.start) (d :: ds) result := by
  constructor
  · intro h
    obtain ⟨kept, rest, result, hk, rfl, hs, hd⟩ := h.reach
    have hlen : d.start ≤ content.length := by
      have := congrArg List.length hk
      simp at this; omega
    have hle : i ≤ d.start := by omega
    rw [Text.drop_eq_slice_append content hle] at hk
    obtain ⟨rfl, rfl⟩ := List.append_inj hk (by rw [Text.length_slice hlen]; omega)
    exact ⟨hle, hlen, result, rfl, hd⟩
  · rintro ⟨hle, hlen, result, rfl, hd⟩
    rw [Text.drop_eq_slice_append content hle]
    refine Rewrites.keepAll _ ?_
    rwa [Text.length_slice hlen, Nat.add_sub_cancel' hle]

/-- Diffs fit a document exactly if they rewrite it and no insertion lies inside a pair. -/
theorem applyFrom_eq_ok_iff_rewrites {content : Text} {i : Nat} (hi : i ≤ content.length)
    {ds : List Diff} {out : Text} :
    applyFrom content i ds = .ok out ↔
      (∀ d ∈ ds, d.isInsertion = true → content.splitsPair d.start = false) ∧
        Rewrites i (content.drop i) ds out := by
  induction ds generalizing i out with
  | nil =>
    simp only [applyFrom, Except.ok.injEq]
    exact ⟨fun h => ⟨nofun, h ▸ .nothing i _⟩, fun h => h.2.eq_of_nil.symm⟩
  | cons d ds ih =>
    obtain ⟨kind, start, text⟩ := d
    rw [rewrites_drop_cons_iff hi, List.forall_mem_cons]
    simp only [applyFrom]
    split
    · rename_i hlt
      exact ⟨fun h => (by cases h), fun h => absurd h.2.1 (Nat.not_le.mpr hlt)⟩
    rename_i hle
    split
    · rename_i hlt
      exact ⟨fun h => (by cases h), fun h => absurd h.2.2.1 (Nat.not_le.mpr hlt)⟩
    rename_i hlen
    rw [Nat.not_lt] at hle hlen
    cases kind with
    | insertion =>
      cases hsplit : content.splitsPair start with
      | true => exact ⟨fun h => (by cases h), fun h => (by cases h.1.1 rfl)⟩
      | false =>
        simp only [Bool.false_eq_true, if_false, map_eq_ok_iff, ih hlen]
        constructor
        · rintro ⟨rest, ⟨hmore, h⟩, rfl⟩
          exact ⟨⟨fun _ => trivial, hmore⟩, hle, hlen, text ++ rest, List.append_assoc ..,
            .insert text h⟩
        · rintro ⟨⟨-, hmore⟩, -, -, result, rfl, h⟩
          obtain ⟨rest, rfl, hrest⟩ := h.of_insertion
          exact ⟨rest, ⟨hmore, hrest⟩, List.append_assoc ..⟩
    | deletion =>
      by_cases hfound : content.slice start (start + text.length) = text
      · obtain ⟨hstop, hdrop⟩ := Text.drop_eq_append_of_slice hlen hfound
        simp only [length, hfound, ne_eq, not_true, if_false, map_eq_ok_iff, ih hstop]
        constructor
        · rintro ⟨rest, ⟨hmore, h⟩, rfl⟩
          exact ⟨⟨nofun, hmore⟩, hle, hlen, rest, rfl, hdrop ▸ .delete text h⟩
        · rintro ⟨⟨-, hmore⟩, -, -, result, rfl, h⟩
          obtain ⟨rest, hrest, hresult⟩ := h.of_deletion
          exact ⟨result, ⟨hmore, (Text.slice_of_drop_eq_append hlen hrest).2 ▸ hresult⟩, rfl⟩
      · simp only [length, ne_eq, hfound, not_false_iff, if_true]
        refine ⟨fun h => (by cases h), fun ⟨_, _, _, result, _, h⟩ => ?_⟩
        obtain ⟨rest, hrest, -⟩ := h.of_deletion
        exact absurd (Text.slice_of_drop_eq_append hlen hrest).1 hfound

theorem applyFrom_eq_ok_iff {content : Text} {i : Nat} (hi : i ≤ content.length) {ds : List Diff}
    (hc : ∀ d ∈ ds, content.splitsPair d.start = false) {out : Text} :
    applyFrom content i ds = .ok out ↔ Rewrites i (content.drop i) ds out :=
  (applyFrom_eq_ok_iff_rewrites hi).trans (and_iff_right fun d hd _ => hc d hd)

/-- What diffs make of a document without carriage returns. -/
theorem applyAll_eq_ok_iff {content : Text} (hc : '\r' ∉ content) {ds : List Diff} {out : Text} :
    applyAll content ds = .ok out ↔ Rewrites 0 content ds out :=
  applyFrom_eq_ok_iff (Nat.zero_le _) fun d _ =>
    Text.splitsPair_eq_false (Text.hasCrlf_eq_false hc) d.start

end Diff

end Coedit
