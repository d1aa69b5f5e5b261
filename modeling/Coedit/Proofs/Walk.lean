import Coedit.Proofs.Rewrites
import Coedit.Walk.Compose

/-!
Walks as relations between texts. A walk says what the diffs it was read from say
(`leads_of_rewrites`, `Leads.rewrites`), and the composition of two walks leads where the two lead
one after the other (`Leads.compose`).
-/
namespace Coedit.Walk

/-- The walk leads from one text to another, and no step of it is idle. -/
inductive Leads : Walk → Text → Text → Prop
  | nil : Leads [] [] []
  | keep {walk : Walk} {t u : Text} (kept : Text) : kept ≠ [] → Leads walk t u →
      Leads (.keep kept.length :: walk) (kept ++ t) (kept ++ u)
  | insert {walk : Walk} {t u : Text} (text : Text) : text ≠ [] → Leads walk t u →
      Leads (.insert text :: walk) t (text ++ u)
  | delete {walk : Walk} {t u : Text} (text : Text) : text ≠ [] → Leads walk t u →
      Leads (.delete text :: walk) (text ++ t) u

variable {walk earlier later : Walk} {a b : Step} {t u v : Text} {i n : Nat}

theorem Leads.keepThen (kept : Text) (h : Leads walk t u) :
    Leads (keepThen kept.length walk) (kept ++ t) (kept ++ u) := by
  unfold Walk.keepThen
  split
  · rename_i hk
    obtain rfl := List.eq_nil_of_length_eq_zero hk
    exact h
  · rename_i hk
    exact keep kept (fun he => hk (he ▸ rfl)) h

/-- Diffs that fit a text are read as a walk over it. -/
theorem leads_of_rewrites {cs out : Text} {ds : List Diff} (h : Diff.Rewrites i cs ds out)
    (hne : ∀ d ∈ ds, d.text ≠ []) :
    ∃ walk, ofDiffsFrom (i + cs.length) i ds = .ok walk ∧ Leads walk cs out := by
  induction ds generalizing i cs out with
  | nil =>
    obtain rfl := h.eq_of_nil
    refine ⟨_, if_neg (Nat.not_lt.mpr (Nat.le_add_right ..)), ?_⟩
    rw [Nat.add_sub_cancel_left]
    simpa using Leads.nil.keepThen out
  | cons d ds ih =>
    obtain ⟨hd, hds⟩ := List.forall_mem_cons.mp hne
    obtain ⟨kept, rest, result, rfl, rfl, hs, hrest⟩ := h.reach
    obtain ⟨kind, start, text⟩ := d
    simp only at hs hd
    subst hs
    have hlen : i + (kept ++ rest).length = i + kept.length + rest.length := by
      rw [List.length_append, Nat.add_assoc]
    rw [ofDiffsFrom, if_neg (Nat.not_lt.mpr (Nat.le_add_right ..)), Nat.add_sub_cancel_left, hlen]
    cases kind with
    | insertion =>
      obtain ⟨result, rfl, hmore⟩ := hrest.of_insertion
      obtain ⟨walk, hw, hl⟩ := ih hmore hds
      exact ⟨_, map_eq_ok_iff.mpr ⟨walk, hw, rfl⟩, (hl.insert text hd).keepThen kept⟩
    | deletion =>
      obtain ⟨rest, rfl, hmore⟩ := hrest.of_deletion
      obtain ⟨walk, hw, hl⟩ := ih hmore hds
      rw [List.length_append, ← Nat.add_assoc]
      exact ⟨_, map_eq_ok_iff.mpr ⟨walk, hw, rfl⟩, (hl.delete text hd).keepThen kept⟩

theorem diffsFrom_keepThen (count position : Nat) (walk : Walk) :
    diffsFrom position (Walk.keepThen count walk) = diffsFrom (position + count) walk := by
  unfold Walk.keepThen
  split
  · rename_i hcount
    rw [hcount, Nat.add_zero]
  · rfl

/-- A walk that was read from diffs has these diffs. -/
theorem diffsFrom_of_ofDiffsFrom {baseLength cursor : Nat} {ds : List Diff}
    (h : ofDiffsFrom baseLength cursor ds = .ok walk) : walk.diffsFrom cursor = ds := by
  induction ds generalizing cursor walk with
  | nil =>
    rw [ofDiffsFrom] at h
    split at h
    · cases h
    · obtain rfl := Except.ok.inj h
      rw [diffsFrom_keepThen, diffsFrom]
  | cons d ds ih =>
    rw [ofDiffsFrom] at h
    split at h
    · cases h
    · rename_i hle
      obtain ⟨rest, hrest, rfl⟩ := map_eq_ok_iff.mp h
      have hds := ih hrest
      rw [diffsFrom_keepThen, Nat.add_sub_cancel' (Nat.not_lt.mp hle)]
      obtain ⟨kind, start, text⟩ := d
      cases kind with
      | insertion => exact congrArg (Diff.insertion start text :: ·) hds
      | deletion => exact congrArg (Diff.deletion start text :: ·) hds

/-- The diffs of a walk do what the walk does. -/
theorem Leads.rewrites (h : Leads walk t u) (i : Nat) :
    Diff.Rewrites i t (walk.diffsFrom i) u := by
  induction h generalizing i with
  | nil => exact .done i
  | keep kept _ _ ih => exact .keepAll kept (ih _)
  | insert text _ _ ih => exact .insert text (ih i)
  | delete text _ _ ih => exact .delete text (ih _)

theorem take_length (a : Step) : a.take a.length = a := by
  cases a <;> simp [Step.take, Step.length]

/-- A step may be taken in two parts. -/
theorem Leads.split (hn : 0 < n) (hle : n ≤ a.length) (h : Leads (a :: walk) t u) :
    Leads (a.take n :: advance n a walk) t u := by
  by_cases hs : a.length = n
  · subst hs
    rwa [take_length, advance, if_pos rfl]
  rw [advance, if_neg hs]
  have hlt : n < a.length := Nat.lt_of_le_of_ne hle (Ne.symm hs)
  have htake : ∀ {text : Text}, n < text.length → text.take n ≠ [] := fun h he => by
    simp only [List.take_eq_nil_iff] at he
    rcases he with rfl | rfl <;> simp at hn h
  have hdrop : ∀ {text : Text}, n < text.length → text.drop n ≠ [] := fun h he =>
    absurd (List.drop_eq_nil_iff.mp he) (Nat.not_le.mpr h)
  cases h with
  | keep kept hk h =>
    have hl : (kept.take n).length = n := List.length_take_of_le hle
    have hparts := (h.keep _ (hdrop hlt)).keep _ (htake hlt)
    rwa [hl, List.length_drop, ← List.append_assoc, ← List.append_assoc,
      List.take_append_drop] at hparts
  | insert text hk h =>
    have hparts := (h.insert _ (hdrop hlt)).insert _ (htake hlt)
    rwa [← List.append_assoc, List.take_append_drop] at hparts
  | delete text hk h =>
    have hparts := (h.delete _ (hdrop hlt)).delete _ (htake hlt)
    rwa [← List.append_assoc, List.take_append_drop] at hparts

theorem Leads.length_pos (h : Leads (a :: walk) t u) : 0 < a.length := by
  cases h with
  | keep kept hk _ => exact List.length_pos_iff.mpr hk
  | insert text hk _ => exact List.length_pos_iff.mpr hk
  | delete text hk _ => exact List.length_pos_iff.mpr hk

theorem Leads.target_ne_nil (ha : ∀ text, a ≠ .delete text) (h : Leads (a :: walk) t u) :
    u ≠ [] := by
  cases h with
  | keep kept hk _ => exact List.append_ne_nil_of_left_ne_nil hk _
  | insert text hk _ => exact List.append_ne_nil_of_left_ne_nil hk _
  | delete text => exact absurd rfl (ha text)

theorem Leads.source_ne_nil (ha : ∀ text, a ≠ .insert text) (h : Leads (a :: walk) t u) :
    t ≠ [] := by
  cases h with
  | keep kept hk _ => exact List.append_ne_nil_of_left_ne_nil hk _
  | insert text => exact absurd rfl (ha text)
  | delete text hk _ => exact List.append_ne_nil_of_left_ne_nil hk _

theorem length_take_of_le (hle : n ≤ a.length) : (a.take n).length = n := by
  cases a with
  | keep count => rfl
  | insert text => exact List.length_take_of_le hle
  | delete text => exact List.length_take_of_le hle

/-- What two steps over the same characters leave for the walks behind them to do. -/
theorem Leads.meet (ha : ∀ text, a ≠ .delete text) (hb : ∀ text, b ≠ .insert text)
    (hlen : a.length = b.length) (h : Leads (a :: earlier) t u) (h' : Leads (b :: later) u v) :
    ∃ met t' u' v', meet a b = .ok met ∧ Leads earlier t' u' ∧ Leads later u' v' ∧
      ∀ {walk}, Leads walk t' v' → Leads (met ++ walk) t v := by
  cases h with
  | delete text => exact absurd rfl (ha text)
  | @keep _ t' u' kept hk h =>
    generalize hu : kept ++ u' = u at h'
    cases h' with
    | insert text => exact absurd rfl (hb text)
    | keep kept' hk' h' =>
      obtain ⟨rfl, rfl⟩ := List.append_inj hu hlen
      exact ⟨_, _, _, _, rfl, h, h', fun hw => hw.keep kept hk⟩
    | delete text hk' h' =>
      obtain ⟨rfl, rfl⟩ := List.append_inj hu hlen
      exact ⟨_, _, _, _, rfl, h, h', fun hw => hw.delete kept hk⟩
  | @insert _ _ u' text hk h =>
    generalize hu : text ++ u' = u at h'
    cases h' with
    | insert text => exact absurd rfl (hb text)
    | keep kept' hk' h' =>
      obtain ⟨rfl, rfl⟩ := List.append_inj hu hlen
      exact ⟨_, _, _, _, rfl, h, h', fun hw => hw.insert text hk⟩
    | delete text' hk' h' =>
      obtain ⟨rfl, rfl⟩ := List.append_inj hu hlen
      exact ⟨_, _, _, _, if_pos rfl, h, h', id⟩

theorem take_kinds (n : Nat) (ha : ∀ text, a ≠ .delete text) (hb : ∀ text, b ≠ .insert text) :
    (∀ text, a.take n ≠ .delete text) ∧ ∀ text, b.take n ≠ .insert text := by
  constructor
  · cases a with
    | delete text => exact absurd rfl (ha text)
    | keep _ | insert _ => exact fun _ h => Step.noConfusion h
  · cases b with
    | insert text => exact absurd rfl (hb text)
    | keep _ | delete _ => exact fun _ h => Step.noConfusion h

/-- As much of two steps as both handle are two steps over the same characters. -/
theorem take_bounds (ha : 0 < a.length) (hb : 0 < b.length) (hn : n = min a.length b.length) :
    0 < n ∧ n ≤ a.length ∧ n ≤ b.length ∧ (a.take n).length = (b.take n).length := by
  have hle : n ≤ a.length := hn ▸ Nat.min_le_left ..
  have hle' : n ≤ b.length := hn ▸ Nat.min_le_right ..
  refine ⟨hn ▸ Nat.lt_min.mpr ⟨ha, hb⟩, hle, hle', ?_⟩
  rw [length_take_of_le hle, length_take_of_le hle']

/-- The same for as much of two steps as both handle. -/
theorem Leads.meet_take (ha : ∀ text, a ≠ .delete text) (hb : ∀ text, b ≠ .insert text)
    (hn : n = min a.length b.length) (h : Leads (a :: earlier) t u) (h' : Leads (b :: later) u v) :
    ∃ met t' u' v', Walk.meet (a.take n) (b.take n) = .ok met ∧
      Leads (advance n a earlier) t' u' ∧ Leads (advance n b later) u' v' ∧
      ∀ {walk}, Leads walk t' v' → Leads (met ++ walk) t v := by
  obtain ⟨hpos, hle, hle', hlen⟩ := take_bounds h.length_pos h'.length_pos hn
  obtain ⟨ha', hb'⟩ := take_kinds n ha hb
  exact (h.split hpos hle).meet ha' hb' hlen (h'.split hpos hle')

/-- Where two walks lead one after the other, there their composition leads. -/
theorem Leads.compose (h : Leads earlier t u) (h' : Leads later u v) :
    ∃ walk, compose earlier later = .ok walk ∧ Leads walk t v := by
  -- a step of either walk is never idle, so that the walks end together
  fun_induction Walk.compose earlier later generalizing t u v with
  | case1 earlier text later ih =>
    cases h' with
    | insert _ hk h' =>
      obtain ⟨walk, hw, hl⟩ := ih h h'
      exact ⟨_, map_eq_ok_iff.mpr ⟨walk, hw, rfl⟩, hl.insert text hk⟩
  | case2 text earlier later _ ih =>
    cases h with
    | delete _ hk h =>
      obtain ⟨walk, hw, hl⟩ := ih h h'
      exact ⟨_, map_eq_ok_iff.mpr ⟨walk, hw, rfl⟩, hl.delete text hk⟩
  | case3 =>
    cases h
    cases h'
    exact ⟨[], rfl, .nil⟩
  | case4 a earlier b later hb ha n error =>
    rename_i herror
    obtain ⟨met, _, _, _, hmet, -⟩ := h.meet_take ha hb rfl h'
    cases hmet.symm.trans herror
  | case5 a earlier b later hb ha n met hmet =>
    rename_i ih
    obtain ⟨met', _, _, _, hmet', hearlier, hlater, hwalk⟩ := h.meet_take ha hb rfl h'
    obtain rfl := Except.ok.inj (hmet.symm.trans hmet')
    obtain ⟨walk, hw, hl⟩ := ih hearlier hlater
    exact ⟨_, map_eq_ok_iff.mpr ⟨walk, hw, rfl⟩, hwalk hl⟩
  | case6 earlier later hb ha hnil hcons =>
    cases earlier with
    | nil =>
      cases later with
      | nil => exact (hnil rfl rfl).elim
      | cons b later =>
        cases h
        exact absurd rfl (h'.source_ne_nil fun text he => hb text later (he ▸ rfl))
    | cons a earlier =>
      cases later with
      | nil =>
        cases h'
        exact absurd rfl (h.target_ne_nil fun text he => ha text earlier (he ▸ rfl))
      | cons b later => exact (hcons a earlier b later rfl rfl).elim

end Coedit.Walk
