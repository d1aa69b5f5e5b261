import Coedit.Proofs.Edit

/-!
Which diffs fit a document, and what is reported of diffs that do not. Said of one diff behind the
stop of the one before (`Fits`), it decides the whole walk: diffs that all fit make the edit that
they are index by index, and otherwise the first that does not fit is the one reported
(`applied_exactly`). The walk never cuts a slice that the document does not have (`applyGuarded_eq`).
-/
namespace Coedit

namespace Text

def slice? (text : Text) (start stop : Nat) : Option Text :=
  if start ≤ stop ∧ stop ≤ text.length then some (text.slice start stop) else none

/-- Whether an index lies between a carriage return and its break, where there is a character before
the index. -/
def splitsPair? (text : Text) (index : Nat) : Option Bool :=
  if index = 0 then some false
  else text[index - 1]?.map fun before => before == '\r' && text[index]? == some '\n'

theorem slice?_eq {text : Text} {start stop : Nat} (h : start ≤ stop) (hs : stop ≤ text.length) :
    text.slice? start stop = some (text.slice start stop) := if_pos ⟨h, hs⟩

theorem slice_min (text : Text) (start stop : Nat) :
    text.slice start (min stop text.length) = text.slice start stop := by
  rw [slice, slice, ← List.take_eq_take_min]

theorem splitsPair?_eq {text : Text} {index : Nat} (h : index ≤ text.length) :
    text.splitsPair? index = some (text.splitsPair index) := by
  cases index with
  | zero => rfl
  | succ index =>
    have hbefore : text[index]? = some text[index] := List.getElem?_eq_getElem h
    simp [splitsPair?, splitsPair, hbefore]

end Text

namespace Diff

variable {content : Text} {cursor : Nat} {d : Diff} {ds : List Diff} {e : ApplyError}

/-- Where the last of some diffs stops; `cursor`, if there is none. -/
def reached (cursor : Nat) (before : List Diff) : Nat := (before.getLast?.map stop).getD cursor

/-- A diff begins at `cursor` or behind it and in the document, and what it deletes is there. -/
structure Fits (content : Text) (cursor : Nat) (d : Diff) : Prop where
  cursor_le : cursor ≤ d.start
  start_le : d.start ≤ content.length
  found_eq : d.isDeletion = true → content.slice d.start d.stop = d.text

def misfit (content : Text) (cursor : Nat) (d : Diff) : ApplyError :=
  if d.start < cursor then .overlap d.start
  else if content.length < d.start then .outOfBounds d.start content.length
  else .consistency d.start d.text (content.slice d.start d.stop)

/-- Each diff fits behind the stop of the one before. -/
def AllFit (content : Text) (cursor : Nat) (ds : List Diff) : Prop :=
  ∀ before d after, ds = before ++ d :: after → Fits content (reached cursor before) d

theorem reached_cons (cursor : Nat) (d : Diff) (before : List Diff) :
    reached cursor (d :: before) = reached d.stop before := by
  cases h : before.getLast? <;> simp [reached, List.getLast?_cons, h]

theorem allFit_nil (content : Text) (cursor : Nat) : AllFit content cursor [] := by
  intro before d after h
  cases before <;> cases h

theorem allFit_cons_iff :
    AllFit content cursor (d :: ds) ↔ Fits content cursor d ∧ AllFit content d.stop ds := by
  constructor
  · refine fun h => ⟨h [] d ds rfl, fun before e after hsplit => ?_⟩
    rw [← reached_cons cursor]
    exact h (d :: before) e after (by rw [hsplit, List.cons_append])
  · rintro ⟨hd, hds⟩ before e after hsplit
    cases before with
    | nil =>
      obtain ⟨rfl, -⟩ := List.cons.inj hsplit
      exact hd
    | cons first before =>
      obtain ⟨rfl, hrest⟩ := List.cons.inj hsplit
      rw [reached_cons]
      exact hds before e after hrest

/-- The walk goes on behind a diff that fits. -/
theorem applyFrom_cons_of_fits (hc : content.hasCrlf = false) (h : Fits content cursor d) :
    applyFrom content cursor (d :: ds) = (applyFrom content d.stop ds).map fun rest =>
      content.slice cursor d.start ++ (if d.isInsertion then d.text else []) ++ rest := by
  obtain ⟨kind, start, text⟩ := d
  rw [applyFrom, if_neg (Nat.not_lt.mpr h.cursor_le), if_neg (Nat.not_lt.mpr h.start_le)]
  cases kind with
  | insertion =>
    simp [Text.splitsPair_eq_false hc, isInsertion, stop]
  | deletion =>
    have hfound : content.slice start (start + text.length) = text := h.found_eq rfl
    simp [length, hfound, isInsertion, stop]

/-- The walk ends at a diff that does not fit. -/
theorem applyFrom_cons_of_not_fits (h : ¬Fits content cursor d) (ds : List Diff) :
    applyFrom content cursor (d :: ds) = .error (misfit content cursor d) := by
  obtain ⟨kind, start, text⟩ := d
  rw [applyFrom, misfit]
  split
  · rfl
  rename_i hcursor
  split
  · rfl
  rename_i hstart
  rw [Nat.not_lt] at hcursor hstart
  cases kind with
  | insertion => exact absurd ⟨hcursor, hstart, fun hdeletion => by cases hdeletion⟩ h
  | deletion =>
    have hfound : content.slice start (start + text.length) ≠ text := fun hfound =>
      h ⟨hcursor, hstart, fun _ => hfound⟩
    simp [length, hfound, stop]

theorem exists_applyFrom_eq_ok_iff (hc : content.hasCrlf = false) :
    (∃ out, applyFrom content cursor ds = .ok out) ↔ AllFit content cursor ds := by
  induction ds generalizing cursor with
  | nil => exact ⟨fun _ => allFit_nil content cursor, fun _ => ⟨_, rfl⟩⟩
  | cons d ds ih =>
    rw [allFit_cons_iff]
    by_cases hd : Fits content cursor d
    · rw [applyFrom_cons_of_fits hc hd, ← ih]
      simp only [hd, true_and, map_eq_ok_iff]
      exact ⟨fun ⟨_, made, hmade, _⟩ => ⟨made, hmade⟩, fun ⟨made, hmade⟩ => ⟨_, made, hmade, rfl⟩⟩
    · rw [applyFrom_cons_of_not_fits hd]
      simp [hd]

/-- What is reported is the first diff that does not fit. -/
theorem applyFrom_eq_error_iff (hc : content.hasCrlf = false) :
    applyFrom content cursor ds = .error e ↔ ∃ before d after, ds = before ++ d :: after ∧
      AllFit content cursor before ∧ ¬Fits content (reached cursor before) d ∧
      e = misfit content (reached cursor before) d := by
  induction ds generalizing cursor with
  | nil => simp [applyFrom]
  | cons first ds ih =>
    by_cases hfirst : Fits content cursor first
    · rw [applyFrom_cons_of_fits hc hfirst, map_eq_error_iff, ih]
      constructor
      · rintro ⟨before, d, after, rfl, hbefore, hd, rfl⟩
        refine ⟨first :: before, d, after, rfl, allFit_cons_iff.mpr ⟨hfirst, hbefore⟩, ?_⟩
        rw [reached_cons]
        exact ⟨hd, rfl⟩
      · rintro ⟨before, d, after, hsplit, hbefore, hd, rfl⟩
        cases before with
        | nil =>
          obtain ⟨rfl, -⟩ := List.cons.inj hsplit
          exact absurd hfirst hd
        | cons b before =>
          obtain ⟨rfl, rfl⟩ := List.cons.inj hsplit
          rw [reached_cons] at hd ⊢
          exact ⟨before, d, after, rfl, (allFit_cons_iff.mp hbefore).2, hd, rfl⟩
    · rw [applyFrom_cons_of_not_fits hfirst, Except.error.injEq]
      constructor
      · rintro rfl
        exact ⟨[], first, ds, rfl, allFit_nil content cursor, hfirst, rfl⟩
      · rintro ⟨before, d, after, hsplit, hbefore, -, rfl⟩
        cases before with
        | nil =>
          obtain ⟨rfl, -⟩ := List.cons.inj hsplit
          rfl
        | cons b before =>
          obtain ⟨rfl, -⟩ := List.cons.inj hsplit
          exact absurd (allFit_cons_iff.mp hbefore).1 hfirst

/-! ### Slices in range -/

/-- The walk of `applyFrom`, with slices and characters that the document may not have. -/
def applyGuarded (content : Text) (cursor : Nat) : List Diff → Option (Except ApplyError Text)
  | [] => (content.slice? cursor content.length).map .ok
  | d :: ds =>
    if d.start < cursor then some (.error (.overlap d.start))
    else if content.length < d.start then some (.error (.outOfBounds d.start content.length))
    else
      (content.slice? cursor d.start).bind fun kept =>
        match d.kind with
        | .insertion =>
          (content.splitsPair? d.start).bind fun splits =>
            if splits then some (.error (.invalidPosition d.start))
            else (applyGuarded content d.start ds).map fun result =>
              result.map fun rest => kept ++ d.text ++ rest
        | .deletion =>
          (content.slice? d.start (min (d.start + d.length) content.length)).bind fun found =>
            if found ≠ d.text then some (.error (.consistency d.start d.text found))
            else (applyGuarded content (d.start + d.length) ds).map fun result =>
              result.map fun rest => kept ++ rest

/-- Every slice that the walk cuts is in the document, and every character that it looks at. -/
theorem applyGuarded_eq (hcursor : cursor ≤ content.length) (ds : List Diff) :
    applyGuarded content cursor ds = some (applyFrom content cursor ds) := by
  induction ds generalizing cursor with
  | nil =>
    rw [applyGuarded, Text.slice?_eq hcursor (Nat.le_refl _)]
    simp [applyFrom, Text.slice]
  | cons d ds ih =>
    rw [applyGuarded, applyFrom]
    split
    · rfl
    rename_i hle
    split
    · rfl
    rename_i hlen
    rw [Nat.not_lt] at hle hlen
    rw [Text.slice?_eq hle hlen, Option.bind_some]
    obtain ⟨kind, start, text⟩ := d
    cases kind with
    | insertion =>
      dsimp only
      rw [Text.splitsPair?_eq hlen, Option.bind_some, ih hlen]
      split <;> rfl
    | deletion =>
      have hstop : start ≤ min (start + text.length) content.length :=
        Nat.le_min.mpr ⟨Nat.le_add_right .., hlen⟩
      simp only [length]
      rw [Text.slice?_eq hstop (Nat.min_le_right ..), Text.slice_min, Option.bind_some]
      by_cases hfound : content.slice start (start + text.length) = text
      · have hbehind := (Text.drop_eq_append_of_slice hlen hfound).1
        simp only [hfound, ne_eq, not_true, if_false, ih hbehind, Option.map_some]
      · simp only [ne_eq, hfound, not_false_iff, if_true]

end Diff

namespace Patch

variable {content : Text}

theorem applyAll_singleton (hc : content.hasCrlf = false) (p : Patch) :
    applyAll content [p] = Diff.applyFrom content 0 p.diffs := by
  rw [applyAll, apply, onDocument_of_hasCrlf_eq_false hc, Diff.applyAll]
  cases Diff.applyFrom content 0 p.diffs <;> rfl

/-- Applying a patch to a document without pairs succeeds exactly if every diff fits, and then makes
of it the edit that the diffs are; otherwise the first diff that does not fit is reported. Either way
no slice is cut that the document does not have. -/
theorem applied_exactly (hc : content.hasCrlf = false) (p : Patch) :
    (∀ out, applyAll content [p] = .ok out ↔
      Diff.AllFit content 0 p.diffs ∧ out = (Edit.ofDiffs p.diffs).apply 0 content) ∧
    (∀ out, applyAll content [p] = .ok out →
      out.length + Diff.deletedLength p.diffs = content.length + Diff.insertedLength p.diffs) ∧
    (∀ e, applyAll content [p] = .error e ↔ ∃ before d after, p.diffs = before ++ d :: after ∧
      Diff.AllFit content 0 before ∧ ¬Diff.Fits content (Diff.reached 0 before) d ∧
      e = Diff.misfit content (Diff.reached 0 before) d) ∧
    Diff.applyGuarded content 0 p.diffs = some (applyAll content [p]) := by
  have hsplit : ∀ d ∈ p.diffs, content.splitsPair d.start = false :=
    fun d _ => Text.splitsPair_eq_false hc d.start
  have hrewrites {out : Text} (h : Diff.applyFrom content 0 p.diffs = .ok out) :
      Diff.Rewrites 0 content p.diffs out := (Diff.applyFrom_eq_ok_iff (Nat.zero_le _) hsplit).mp h
  rw [applyAll_singleton hc]
  refine ⟨fun out => ⟨fun h => ?_, fun ⟨hfit, hout⟩ => ?_⟩,
    fun out h => (hrewrites h).length_add_deletedLength,
    fun e => Diff.applyFrom_eq_error_iff hc, Diff.applyGuarded_eq (Nat.zero_le _) p.diffs⟩
  · exact ⟨(Diff.exists_applyFrom_eq_ok_iff hc).mp ⟨out, h⟩, (hrewrites h).eq_apply⟩
  · obtain ⟨made, hmade⟩ := (Diff.exists_applyFrom_eq_ok_iff hc).mpr hfit
    rw [hmade, hout, (hrewrites hmade).eq_apply]

/-- A document with a carriage return and a break that are no pair. The last of the diffs that do not
fit begins in front of the one before, but that one, which runs past the end, is reported. -/
theorem applied_exactly_lone_return :
    let content : Text := ['a', '\r', 'b', '\n', 'c']
    let p : Patch := ⟨3, [.insertion 0 ['x'], .deletion 1 ['\r', 'b'], .insertion 3 ['y', 'z']], 6⟩
    let q : Patch := ⟨3, [.deletion 3 ['\n'], .deletion 4 ['c', 'd'], .insertion 2 ['y']], 3⟩
    content.hasCrlf = false ∧ Diff.AllFit content 0 p.diffs ∧
      applyAll content [p] = .ok ['x', 'a', 'y', 'z', '\n', 'c'] ∧
      applyAll content [q] = .error (.consistency 4 ['c', 'd'] ['c']) ∧
      (∃ before d after, q.diffs = before ++ d :: after ∧ Diff.AllFit content 0 before ∧
        ¬Diff.Fits content (Diff.reached 0 before) d ∧
        .consistency 4 ['c', 'd'] ['c'] = Diff.misfit content (Diff.reached 0 before) d) ∧
      Diff.applyGuarded content 0 q.diffs = some (applyAll content [q]) := by
  intro content p q
  have hc : content.hasCrlf = false := rfl
  have hp : applyAll content [p] = .ok ['x', 'a', 'y', 'z', '\n', 'c'] := rfl
  have hq : applyAll content [q] = .error (.consistency 4 ['c', 'd'] ['c']) := rfl
  exact ⟨hc, ((applied_exactly hc p).1 _ |>.mp hp).1, hp, hq, (applied_exactly hc q).2.2.1 _ |>.mp hq,
    (applied_exactly hc q).2.2.2⟩

end Patch

end Coedit
