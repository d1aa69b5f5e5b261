import Coedit.Proofs.Marking
import Coedit.Proofs.Walk

/-!
Marked documents along walks. Carrying marks over a walk is what carrying them over its diffs is
(`Leads.past_eq_carry`), and the composition of two walks carries marks where the two carry them one
after the other (`Leads.carry_compose`): what the later walk inserts stands in front of what the
earlier one deletes at the same place, and so in front of every mark there.
-/
namespace Coedit

def Marking.drop (m : Marking) (n : Nat) : Marking := ⟨m.marks.drop n, m.last⟩

namespace Walk

variable {walk earlier later : Walk} {a b : Step} {t u v : Text} {i n : Nat} {m : Marking}

/-- A marked document when a walk over it comes first. -/
def carry : Walk → Marking → Marking
  | [], m => m
  | .keep count :: walk, m => (carry walk (m.drop count)).after (m.marks.take count)
  | .insert text :: walk, m => (carry walk m).after (Mark.plain false text)
  | .delete text :: walk, m =>
    (carry walk (m.drop text.length)).push (Mark.gaps (m.marks.take text.length))

theorem after_take_drop (m : Marking) (n : Nat) : (m.drop n).after (m.marks.take n) = m := by
  simp [Marking.after, Marking.drop]

theorem length_take_marks (kept : Text) (h : m.marks.length = (kept ++ t).length) :
    (m.marks.take kept.length).length = kept.length := by
  rw [List.length_append] at h
  exact List.length_take_of_le (by omega)

theorem length_drop_marks (kept : Text) (h : m.marks.length = (kept ++ t).length) :
    (m.drop kept.length).marks.length = t.length := by
  rw [List.length_append] at h
  rw [Marking.drop, List.length_drop]
  omega

theorem drop_after (m : Marking) {front : List Mark} (hn : front.length = n) :
    (m.after front).drop n = m ∧ (m.after front).marks.take n = front := by
  subst hn
  simp [Marking.after, Marking.drop]

theorem carry_keep_after {front : List Mark} (hn : front.length = n) (walk : Walk) (m : Marking) :
    carry (.keep n :: walk) (m.after front) = (carry walk m).after front := by
  obtain ⟨hdrop, htake⟩ := drop_after m hn
  rw [carry, hdrop, htake]

theorem carry_delete_after {front : List Mark} {text : Text} (hn : front.length = text.length)
    (walk : Walk) (m : Marking) :
    carry (.delete text :: walk) (m.after front) = (carry walk m).push (Mark.gaps front) := by
  obtain ⟨hdrop, htake⟩ := drop_after m hn
  rw [carry, hdrop, htake]

/-- Over the diffs of a walk marks are carried as over the walk. -/
theorem Leads.past_eq_carry (h : Leads walk t u) (hm : m.marks.length = t.length) (i : Nat) :
    Marking.past (Edit.ofDiffs (walk.diffsFrom i)) i m = carry walk m := by
  induction h generalizing i m with
  | nil =>
    obtain ⟨marks, last⟩ := m
    obtain rfl := List.eq_nil_of_length_eq_zero hm
    rfl
  | @keep walk t u kept _ h ih =>
    have hfront := length_take_marks kept hm
    have hstarts := (h.rewrites (i + kept.length)).le_start
    rw [← hfront] at hstarts
    have hkept := Diff.past_of_le_start (m := m.drop kept.length) _ hstarts
    rw [after_take_drop, hfront, ih (length_drop_marks kept hm)] at hkept
    exact hkept
  | @insert walk t u text _ h ih =>
    rw [carry, ← ih hm i]
    exact Diff.past_insertion i text _ m
  | @delete walk t u text _ h ih =>
    have hgone := Diff.past_deletion (m := m.drop text.length) (length_take_marks text hm)
      (h.rewrites (i + text.length)).le_start
    rw [after_take_drop, ih (length_drop_marks text hm)] at hgone
    exact hgone

theorem Leads.length_carry (h : Leads walk t u) (hm : m.marks.length = t.length) :
    (carry walk m).marks.length = u.length := by
  induction h generalizing m with
  | nil => exact hm
  | keep kept _ _ ih =>
    have hrest := ih (length_drop_marks kept hm)
    simp [carry, Marking.after, hrest, length_take_marks kept hm]
  | insert text _ _ ih => simp [carry, Marking.after, Mark.plain, ih hm]
  | delete text _ _ ih =>
    rw [carry, Marking.length_push]
    exact ih (length_drop_marks text hm)

/-- Text in front of all marks stays there unless the walk begins with an insertion. -/
theorem Leads.carry_push (hb : ∀ text walk', walk ≠ .insert text :: walk') (h : Leads walk t u)
    (hm : m.marks.length = t.length) (gap : Text) :
    carry walk (m.push gap) = (carry walk m).push gap := by
  obtain ⟨marks, last⟩ := m
  cases h with
  | nil => rfl
  | keep kept hk h =>
    obtain ⟨c, kept, rfl⟩ := List.exists_cons_of_ne_nil hk
    obtain ⟨k, ks, rfl⟩ := List.exists_cons_of_length_eq_add_one hm
    rfl
  | insert text => exact absurd rfl (hb text _)
  | delete text hk h =>
    obtain ⟨c, text, rfl⟩ := List.exists_cons_of_ne_nil hk
    obtain ⟨k, ks, rfl⟩ := List.exists_cons_of_length_eq_add_one hm
    have hgaps : Mark.gaps ((Marking.push ⟨k :: ks, last⟩ gap).marks.take (c :: text).length) =
        gap ++ Mark.gaps ((k :: ks).take (c :: text).length) := by
      simp [Mark.gaps, Marking.push]
    rw [carry, carry, hgaps, Marking.push_push]
    rfl

/-- A step carries as its two parts do. -/
theorem carry_split (hle : n ≤ a.length) (walk : Walk) (m : Marking) :
    carry (a.take n :: advance n a walk) m = carry (a :: walk) m := by
  unfold advance
  split
  · rename_i hn
    rw [← hn, take_length]
  · cases a with
    | keep count =>
      have hcount : n + (count - n) = count := Nat.add_sub_cancel' hle
      have hfront : m.marks.take n ++ (m.marks.drop n).take (count - n) = m.marks.take count := by
        rw [← List.take_add, hcount]
      simp only [Step.take, Step.drop, carry, Marking.drop, Marking.after_after, List.drop_drop,
        hcount, hfront]
    | insert text =>
      simp only [Step.take, Step.drop, carry, Marking.after_after, ← Mark.plain_append,
        List.take_append_drop]
    | delete text =>
      have hcount : n + (text.length - n) = text.length := Nat.add_sub_cancel' hle
      have hfront : m.marks.take n ++ (m.marks.drop n).take (text.length - n) =
          m.marks.take text.length := by
        rw [← List.take_add, hcount]
      have htake : (text.take n).length = n := List.length_take_of_le hle
      simp only [Step.take, Step.drop, carry, Marking.drop, Marking.push_push, htake,
        List.length_drop, List.drop_drop, hcount, ← Mark.gaps_append, hfront]

/-- Over two steps that handle the same characters marks are carried as over what the steps leave
together, and go on alike behind them. -/
theorem Leads.carry_meet {met : Walk} (ha : ∀ text, a ≠ .delete text) (hb : ∀ text, b ≠ .insert text)
    (hlen : a.length = b.length) (hmet : Walk.meet a b = .ok met) (h : Leads (a :: earlier) t u)
    (h' : Leads (b :: later) u v) (hm : m.marks.length = t.length) :
    ∃ t' u' v' m', Leads earlier t' u' ∧ Leads later u' v' ∧ m'.marks.length = t'.length ∧
      ∃ front : Marking → Marking,
        carry (b :: later) (carry (a :: earlier) m) = front (carry later (carry earlier m')) ∧
        ∀ walk, carry (met ++ walk) m = front (carry walk m') := by
  cases h with
  | delete text => exact absurd rfl (ha text)
  | @keep _ t' u' kept hk h =>
    have hfront := length_take_marks kept hm
    have hm' := length_drop_marks kept hm
    generalize hu : kept ++ u' = u at h'
    cases h' with
    | insert text => exact absurd rfl (hb text)
    | keep kept' hk' h' =>
      obtain ⟨rfl, rfl⟩ := List.append_inj hu hlen
      obtain rfl := Except.ok.inj hmet
      exact ⟨_, _, _, _, h, h', hm', (Marking.after · (m.marks.take kept.length)),
        carry_keep_after hfront later _, fun walk => rfl⟩
    | delete text hk' h' =>
      obtain ⟨rfl, rfl⟩ := List.append_inj hu hlen
      obtain rfl := Except.ok.inj hmet
      exact ⟨_, _, _, _, h, h', hm', (Marking.push · (Mark.gaps (m.marks.take kept.length))),
        carry_delete_after hfront later _, fun walk => rfl⟩
  | @insert _ _ u' text hk h =>
    have hfront : (Mark.plain false text).length = text.length := List.length_map _
    generalize hu : text ++ u' = u at h'
    cases h' with
    | insert text => exact absurd rfl (hb text)
    | keep kept' hk' h' =>
      obtain ⟨rfl, rfl⟩ := List.append_inj hu hlen
      obtain rfl := Except.ok.inj hmet
      exact ⟨_, _, _, m, h, h', hm, (Marking.after · (Mark.plain false text)),
        carry_keep_after hfront later _, fun walk => rfl⟩
    | delete text' hk' h' =>
      -- the text goes before a mark can stand in front of a character of it
      obtain ⟨rfl, rfl⟩ := List.append_inj hu hlen
      have hdelete := carry_delete_after hfront later (carry earlier m)
      rw [Mark.gaps_plain, Marking.push_nil] at hdelete
      obtain rfl := Except.ok.inj (hmet.symm.trans (if_pos rfl))
      exact ⟨_, _, _, m, h, h', hm, id, hdelete, fun walk => rfl⟩

/-- The same for as much of two steps as both handle. -/
theorem Leads.carry_meet_take {met : Walk} (ha : ∀ text, a ≠ .delete text)
    (hb : ∀ text, b ≠ .insert text) (hn : n = min a.length b.length)
    (hmet : Walk.meet (a.take n) (b.take n) = .ok met) (h : Leads (a :: earlier) t u)
    (h' : Leads (b :: later) u v) (hm : m.marks.length = t.length) :
    ∃ t' u' v' m', Leads (advance n a earlier) t' u' ∧ Leads (advance n b later) u' v' ∧
      m'.marks.length = t'.length ∧ ∃ front : Marking → Marking,
        carry (b :: later) (carry (a :: earlier) m) =
          front (carry (advance n b later) (carry (advance n a earlier) m')) ∧
        ∀ walk, carry (met ++ walk) m = front (carry walk m') := by
  obtain ⟨hpos, hle, hle', hlen⟩ := take_bounds h.length_pos h'.length_pos hn
  obtain ⟨ha', hb'⟩ := take_kinds n ha hb
  rw [← carry_split hle earlier m, ← carry_split hle' later]
  exact (h.split hpos hle).carry_meet ha' hb' hlen hmet (h'.split hpos hle') hm

/-- Over the composition of two walks marks are carried as over the two in turn. -/
theorem Leads.carry_compose (h : Leads earlier t u) (h' : Leads later u v)
    (hw : Walk.compose earlier later = .ok walk) (hm : m.marks.length = t.length) :
    carry later (carry earlier m) = carry walk m := by
  fun_induction Walk.compose earlier later generalizing t u v m walk with
  | case1 earlier text later ih =>
    obtain ⟨rest, hrest, rfl⟩ := map_eq_ok_iff.mp hw
    cases h' with
    | insert _ hk h' => rw [carry, carry, ih h h' hrest hm]
  | case2 text earlier later hlater ih =>
    obtain ⟨rest, hrest, rfl⟩ := map_eq_ok_iff.mp hw
    cases h with
    | delete _ hk h =>
      have hm' := length_drop_marks text hm
      rw [carry, carry, ← ih h h' hrest hm']
      exact h'.carry_push hlater (h.length_carry hm') _
  | case3 =>
    obtain rfl := Except.ok.inj hw
    rfl
  | case4 => cases hw
  | case5 a earlier b later hb ha n met hmet =>
    rename_i ih
    obtain ⟨rest, hrest, rfl⟩ := map_eq_ok_iff.mp hw
    obtain ⟨t', u', v', m', hearlier, hlater, hm', front, hboth, hmeet⟩ :=
      h.carry_meet_take ha hb rfl hmet h' hm
    rw [hboth, hmeet, ih hearlier hlater hrest hm']
  | case6 => cases hw

end Walk

end Coedit
