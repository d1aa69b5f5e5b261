import Coedit.Proofs.Walk

/-!
What a walk is a walk over. Every proper walk leads somewhere (`Proper.exists_leads`), over texts of
one length (`Leads.consumed_eq`), and the diffs of a walk do nothing that the walk does not do
(`leads_of_rewrites_diffsFrom`). A composition is made of parts of the steps of the two walks
(`Hereditary.compose`). Where the composition of two walks leads, there the two lead one after the
other (`Leads.of_compose`): the text between them is found step by step, also where an insertion and
its deletion leave no trace.
-/
namespace Coedit

def Step.text : Step → Text
  | .keep _ => []
  | .insert text => text
  | .delete text => text

/-- A step that is not idle and handles no carriage return. -/
structure Step.Proper (step : Step) : Prop where
  length_pos : 0 < step.length
  free : '\r' ∉ step.text

namespace Walk

variable {walk earlier later met : Walk} {a b : Step} {t u v : Text} {i n : Nat}

def Proper (walk : Walk) : Prop := ∀ step ∈ walk, step.Proper

theorem proper_cons : Proper (a :: walk) ↔ a.Proper ∧ Proper walk := List.forall_mem_cons

theorem length_drop (a : Step) (n : Nat) : (a.drop n).length = a.length - n := by
  cases a with
  | keep count => rfl
  | insert text => exact List.length_drop
  | delete text => exact List.length_drop

/-- A property that idle steps lack and that the parts of a step have from the step. -/
structure Hereditary (P : Step → Prop) : Prop where
  length_pos : ∀ {a : Step}, P a → 0 < a.length
  take : ∀ {a : Step} {n : Nat}, P a → 0 < n → n ≤ a.length → P (a.take n)
  drop : ∀ {a : Step} {n : Nat}, P a → n < a.length → P (a.drop n)

theorem hereditary_busy : Hereditary fun a => 0 < a.length where
  length_pos ha := ha
  take _ hn hle := by rwa [length_take_of_le hle]
  drop _ hlt := by
    rw [length_drop]
    exact Nat.sub_pos_of_lt hlt

theorem hereditary_proper : Hereditary Step.Proper where
  length_pos ha := ha.length_pos
  take {a n} ha hn hle := by
    refine ⟨hereditary_busy.take ha.length_pos hn hle, ?_⟩
    cases a with
    | keep count => exact ha.free
    | insert text => exact fun h => ha.free (List.mem_of_mem_take h)
    | delete text => exact fun h => ha.free (List.mem_of_mem_take h)
  drop {a n} ha hlt := by
    refine ⟨hereditary_busy.drop ha.length_pos hlt, ?_⟩
    cases a with
    | keep count => exact ha.free
    | insert text => exact fun h => ha.free (List.mem_of_mem_drop h)
    | delete text => exact fun h => ha.free (List.mem_of_mem_drop h)

/-- Of two steps at most one is left. -/
theorem of_meet (h : meet a b = .ok met) : met = [] ∨ met = [a] ∨ met = [b] := by
  unfold meet at h
  split at h
  · split at h
    · exact .inl (Except.ok.inj h).symm
    · cases h
  · exact .inr (.inl (Except.ok.inj h).symm)
  · exact .inr (.inr (Except.ok.inj h).symm)

section Members

variable {P : Step → Prop}

theorem Hereditary.advance (hP : Hereditary P) (ha : P a) (h : ∀ step ∈ walk, P step)
    (hle : n ≤ a.length) : ∀ step ∈ advance n a walk, P step := by
  unfold Walk.advance
  split
  · exact h
  · rename_i hne
    exact List.forall_mem_cons.mpr ⟨hP.drop ha (Nat.lt_of_le_of_ne hle (Ne.symm hne)), h⟩

/-- The steps of a composition are parts of the steps of the two walks. -/
theorem Hereditary.compose (hP : Hereditary P) (he : ∀ step ∈ earlier, P step)
    (hl : ∀ step ∈ later, P step) (h : compose earlier later = .ok walk) :
    ∀ step ∈ walk, P step := by
  fun_induction Walk.compose earlier later generalizing walk with
  | case1 earlier text later ih =>
    obtain ⟨rest, hrest, rfl⟩ := map_eq_ok_iff.mp h
    obtain ⟨hb, hl⟩ := List.forall_mem_cons.mp hl
    exact List.forall_mem_cons.mpr ⟨hb, ih he hl hrest⟩
  | case2 text earlier later _ ih =>
    obtain ⟨rest, hrest, rfl⟩ := map_eq_ok_iff.mp h
    obtain ⟨ha, he⟩ := List.forall_mem_cons.mp he
    exact List.forall_mem_cons.mpr ⟨ha, ih he hl hrest⟩
  | case3 =>
    obtain rfl := Except.ok.inj h
    exact he
  | case4 => cases h
  | case5 a earlier b later _ _ n met hmet =>
    rename_i ih
    obtain ⟨rest, hrest, rfl⟩ := map_eq_ok_iff.mp h
    obtain ⟨ha, he⟩ := List.forall_mem_cons.mp he
    obtain ⟨hb, hl⟩ := List.forall_mem_cons.mp hl
    obtain ⟨hn, hle, hle', -⟩ :=
      take_bounds (hP.length_pos ha) (hP.length_pos hb) (Eq.refl n)
    have hhead : ∀ step ∈ met, P step := by
      obtain rfl | rfl | rfl := of_meet hmet
      · exact List.forall_mem_nil _
      · exact List.forall_mem_cons.mpr ⟨hP.take ha hn hle, List.forall_mem_nil _⟩
      · exact List.forall_mem_cons.mpr ⟨hP.take hb hn hle', List.forall_mem_nil _⟩
    exact List.forall_mem_append.mpr
      ⟨hhead, ih (hP.advance ha he hle) (hP.advance hb hl hle') hrest⟩
  | case6 => cases h

theorem forall_mem_keepThen (hkeep : ∀ count, 0 < count → P (.keep count)) (count : Nat)
    (h : ∀ step ∈ walk, P step) : ∀ step ∈ keepThen count walk, P step := by
  unfold keepThen
  split
  · exact h
  · rename_i hcount
    exact List.forall_mem_cons.mpr ⟨hkeep count (Nat.pos_of_ne_zero hcount), h⟩

/-- What keeps have, and the steps of the diffs, all steps of the walk have that is read from the
diffs. -/
theorem forall_mem_ofDiffsFrom {ds : List Diff} (hkeep : ∀ count, 0 < count → P (.keep count))
    (hds : ∀ d ∈ ds, P (stepOf d)) (h : ofDiffsFrom n i ds = .ok walk) :
    ∀ step ∈ walk, P step := by
  induction ds generalizing i walk with
  | nil =>
    rw [ofDiffsFrom] at h
    split at h
    · cases h
    · obtain rfl := Except.ok.inj h
      exact forall_mem_keepThen hkeep _ (List.forall_mem_nil _)
  | cons d ds ih =>
    rw [ofDiffsFrom] at h
    split at h
    · cases h
    · obtain ⟨rest, hrest, rfl⟩ := map_eq_ok_iff.mp h
      obtain ⟨hd, hds⟩ := List.forall_mem_cons.mp hds
      exact forall_mem_keepThen hkeep _ (List.forall_mem_cons.mpr ⟨hd, ih hds hrest⟩)

end Members

theorem Proper.advance (ha : a.Proper) (h : walk.Proper) (hle : n ≤ a.length) :
    (advance n a walk).Proper := hereditary_proper.advance ha h hle

theorem Proper.compose (he : earlier.Proper) (hl : later.Proper)
    (h : compose earlier later = .ok walk) : walk.Proper := hereditary_proper.compose he hl h

theorem length_stepOf (d : Diff) : (stepOf d).length = d.length := by
  obtain ⟨kind, start, text⟩ := d
  cases kind with
  | insertion => rfl
  | deletion => rfl

theorem text_stepOf (d : Diff) : (stepOf d).text = d.text := by
  obtain ⟨kind, start, text⟩ := d
  cases kind with
  | insertion => rfl
  | deletion => rfl

theorem proper_of_ofDiffsFrom {ds : List Diff} (hds : ∀ d ∈ ds, d.text ≠ [])
    (hfree : ∀ d ∈ ds, '\r' ∉ d.text) (h : ofDiffsFrom n i ds = .ok walk) : walk.Proper := by
  refine forall_mem_ofDiffsFrom (fun count hcount => ⟨hcount, List.not_mem_nil⟩) (fun d hd => ?_) h
  refine ⟨?_, ?_⟩
  · rw [length_stepOf]
    exact List.length_pos_iff.mpr (hds d hd)
  · rw [text_stepOf]
    exact hfree d hd

theorem consumed_keepThen (count : Nat) (walk : Walk) :
    consumed (keepThen count walk) = count + consumed walk := by
  unfold keepThen
  split
  · rename_i hcount
    rw [hcount, Nat.zero_add]
  · rfl

theorem start_add_consumed_stepOf (d : Diff) : d.start + (stepOf d).consumed = d.stop := by
  obtain ⟨kind, start, text⟩ := d
  cases kind with
  | insertion => rfl
  | deletion => rfl

/-- A walk that was read from diffs passes the whole base. -/
theorem add_consumed_of_ofDiffsFrom {ds : List Diff} (h : ofDiffsFrom n i ds = .ok walk) :
    i + consumed walk = n := by
  induction ds generalizing i walk with
  | nil =>
    rw [ofDiffsFrom] at h
    split at h
    · cases h
    · rename_i hle
      obtain rfl := Except.ok.inj h
      rw [consumed_keepThen, consumed, Nat.add_zero, Nat.add_sub_cancel' (Nat.not_lt.mp hle)]
  | cons d ds ih =>
    rw [ofDiffsFrom] at h
    split at h
    · cases h
    · rename_i hle
      obtain ⟨rest, hrest, rfl⟩ := map_eq_ok_iff.mp h
      rw [consumed_keepThen, consumed, ← Nat.add_assoc, Nat.add_sub_cancel' (Nat.not_lt.mp hle),
        ← Nat.add_assoc, start_add_consumed_stepOf, ih hrest]

theorem Leads.consumed_eq (h : Leads walk t u) : consumed walk = t.length := by
  induction h with
  | nil => rfl
  | keep kept _ _ ih => rw [consumed, ih, List.length_append]; rfl
  | insert text _ _ ih => rw [consumed, ih]; exact Nat.zero_add _
  | delete text _ _ ih => rw [consumed, ih, List.length_append]; rfl

/-- Every proper walk is a walk over some text: what it keeps may be anything. -/
theorem Proper.exists_leads (h : walk.Proper) : ∃ t u, '\r' ∉ t ∧ Leads walk t u := by
  induction walk with
  | nil => exact ⟨[], [], List.not_mem_nil, .nil⟩
  | cons step walk ih =>
    obtain ⟨hstep, h⟩ := proper_cons.mp h
    obtain ⟨t, u, ht, hl⟩ := ih h
    cases step with
    | keep count =>
      have hkept : '\r' ∉ List.replicate count ' ' := fun hmem =>
        absurd (List.eq_of_mem_replicate hmem) (by decide)
      have hlen : (List.replicate count ' ').length = count := List.length_replicate
      have hkeep := hl.keep _ (List.length_pos_iff.mp (hlen ▸ hstep.length_pos))
      rw [hlen] at hkeep
      exact ⟨_, _, by simp [hkept, ht], hkeep⟩
    | insert text => exact ⟨_, _, ht, hl.insert text (List.length_pos_iff.mp hstep.length_pos)⟩
    | delete text =>
      have hfree : '\r' ∉ text := hstep.free
      exact ⟨_, _, by simp [hfree, ht], hl.delete text (List.length_pos_iff.mp hstep.length_pos)⟩

theorem le_start_of_mem_diffsFrom (walk : Walk) (i : Nat) :
    ∀ d ∈ walk.diffsFrom i, i ≤ d.start := by
  induction walk generalizing i with
  | nil => exact List.forall_mem_nil _
  | cons step walk ih =>
    cases step with
    | keep count => exact fun d hd => Nat.le_of_add_right_le (ih _ d hd)
    | insert text => exact List.forall_mem_cons.mpr ⟨Nat.le_refl _, ih i⟩
    | delete text =>
      exact List.forall_mem_cons.mpr
        ⟨Nat.le_refl _, fun d hd => Nat.le_of_add_right_le (ih _ d hd)⟩

theorem Proper.text_ne_nil (h : walk.Proper) (i : Nat) :
    ∀ d ∈ walk.diffsFrom i, d.text ≠ [] := by
  induction walk generalizing i with
  | nil => exact List.forall_mem_nil _
  | cons step walk ih =>
    obtain ⟨hstep, hmore⟩ := proper_cons.mp h
    cases step with
    | keep count => exact ih hmore _
    | insert text =>
      exact List.forall_mem_cons.mpr ⟨List.length_pos_iff.mp hstep.length_pos, ih hmore i⟩
    | delete text =>
      exact List.forall_mem_cons.mpr ⟨List.length_pos_iff.mp hstep.length_pos, ih hmore _⟩

/-- On a text of the right length the diffs of a proper walk do what the walk does. -/
theorem leads_of_rewrites_diffsFrom (hw : walk.Proper) (hlen : consumed walk = t.length)
    (h : Diff.Rewrites i t (walk.diffsFrom i) u) : Leads walk t u := by
  induction walk generalizing i t u with
  | nil =>
    obtain rfl := List.eq_nil_of_length_eq_zero hlen.symm
    obtain rfl := h.eq_of_nil
    exact .nil
  | cons step walk ih =>
    obtain ⟨hstep, hmore⟩ := proper_cons.mp hw
    cases step with
    | keep count =>
      obtain ⟨kept, rest, rfl, hkept⟩ : ∃ kept rest, t = kept ++ rest ∧ kept.length = count :=
        ⟨t.take count, t.drop count, (List.take_append_drop count t).symm,
          List.length_take_of_le (hlen ▸ Nat.le_add_right ..)⟩
      subst hkept
      have hrest : consumed walk = rest.length := by
        rw [List.length_append] at hlen
        exact Nat.add_left_cancel hlen
      obtain ⟨result, rfl, hwalk⟩ := h.of_keepAll (le_start_of_mem_diffsFrom walk _)
      exact (ih hmore hrest hwalk).keep kept (List.length_pos_iff.mp hstep.length_pos)
    | insert text =>
      obtain ⟨result, rfl, hwalk⟩ := h.of_insertion
      have hrest : consumed walk = t.length := (Nat.zero_add _).symm.trans hlen
      exact (ih hmore hrest hwalk).insert text (List.length_pos_iff.mp hstep.length_pos)
    | delete text =>
      obtain ⟨rest, rfl, hwalk⟩ := h.of_deletion
      have hrest : consumed walk = rest.length := by
        rw [List.length_append] at hlen
        exact Nat.add_left_cancel hlen
      exact (ih hmore hrest hwalk).delete text (List.length_pos_iff.mp hstep.length_pos)

theorem Leads.of_keep (h : Leads (.keep n :: walk) t u) :
    ∃ kept t' u', kept.length = n ∧ t = kept ++ t' ∧ u = kept ++ u' ∧ Leads walk t' u' := by
  cases h with
  | keep kept _ h => exact ⟨kept, _, _, rfl, rfl, rfl, h⟩

/-- The two parts of a step are the step. -/
theorem Leads.unsplit (ha : 0 < a.length) (hle : n ≤ a.length)
    (h : Leads (a.take n :: advance n a walk) t u) : Leads (a :: walk) t u := by
  by_cases hs : a.length = n
  · subst hs
    rwa [take_length, advance, if_pos rfl] at h
  rw [advance, if_neg hs] at h
  cases a with
  | keep count =>
    obtain ⟨kept, t', u', hkept, rfl, rfl, hdrop⟩ := h.of_keep
    obtain ⟨kept', t', u', hkept', rfl, rfl, hwalk⟩ := hdrop.of_keep
    have hcount : (kept ++ kept').length = count := by
      rw [List.length_append, hkept, hkept']
      exact Nat.add_sub_cancel' hle
    have hboth := hwalk.keep (kept ++ kept') (List.length_pos_iff.mp (hcount ▸ ha))
    rwa [hcount, List.append_assoc, List.append_assoc] at hboth
  | insert text =>
    cases h with
    | insert _ _ h =>
    cases h with
    | insert _ _ h =>
    rw [← List.append_assoc, List.take_append_drop]
    exact h.insert text (List.length_pos_iff.mp ha)
  | delete text =>
    cases h with
    | delete _ _ h =>
    cases h with
    | delete _ _ h =>
    rw [← List.append_assoc, List.take_append_drop]
    exact h.delete text (List.length_pos_iff.mp ha)

/-- What two steps leave together comes of the two, whatever the walks behind them do. -/
theorem Leads.of_meet (ha : ∀ text, a ≠ .delete text) (hb : ∀ text, b ≠ .insert text)
    (hpos : 0 < a.length) (hlen : a.length = b.length) (hmet : Walk.meet a b = .ok met)
    (h : Leads (met ++ walk) t v) :
    ∃ t' v', Leads walk t' v' ∧ ∀ {earlier later : Walk} {u' : Text}, Leads earlier t' u' →
      Leads later u' v' → ∃ u, Leads (a :: earlier) t u ∧ Leads (b :: later) u v := by
  cases a with
  | delete text => exact absurd rfl (ha text)
  | keep count =>
    cases b with
    | insert text => exact absurd rfl (hb text)
    | keep count' =>
      obtain rfl := Except.ok.inj hmet
      obtain ⟨kept, t', v', hkept, rfl, rfl, hwalk⟩ := h.of_keep
      subst hkept
      obtain rfl : count = kept.length := hlen
      have hkept := List.length_pos_iff.mp hpos
      exact ⟨t', v', hwalk, fun he hl => ⟨_, he.keep kept hkept, hl.keep kept hkept⟩⟩
    | delete text =>
      obtain rfl := Except.ok.inj hmet
      cases h with
      | delete _ htext h =>
        obtain rfl : count = text.length := hlen
        exact ⟨_, _, h, fun he hl => ⟨_, he.keep text htext, hl.delete text htext⟩⟩
  | insert text =>
    have htext := List.length_pos_iff.mp hpos
    cases b with
    | insert text' => exact absurd rfl (hb text')
    | keep count =>
      obtain rfl := Except.ok.inj hmet
      cases h with
      | insert _ _ h =>
        obtain rfl : text.length = count := hlen
        exact ⟨_, _, h, fun he hl => ⟨_, he.insert text htext, hl.keep text htext⟩⟩
    | delete text' =>
      -- the text is there only between the two walks
      rw [Walk.meet] at hmet
      split at hmet
      · rename_i hsame
        subst hsame
        obtain rfl := Except.ok.inj hmet
        exact ⟨t, v, h, fun he hl => ⟨_, he.insert text htext, hl.delete text htext⟩⟩
      · cases hmet

/-- The same for as much of two steps as both handle. -/
theorem Leads.of_meet_take (ha : ∀ text, a ≠ .delete text) (hb : ∀ text, b ≠ .insert text)
    (hpa : a.Proper) (hpb : b.Proper) (hn : n = min a.length b.length)
    (hmet : Walk.meet (a.take n) (b.take n) = .ok met) (h : Leads (met ++ walk) t v) :
    ∃ t' v', Leads walk t' v' ∧ ∀ {u' : Text}, Leads (advance n a earlier) t' u' →
      Leads (advance n b later) u' v' → ∃ u, Leads (a :: earlier) t u ∧ Leads (b :: later) u v := by
  obtain ⟨hpos, hle, hle', hlen⟩ := take_bounds hpa.length_pos hpb.length_pos hn
  obtain ⟨ha', hb'⟩ := take_kinds n ha hb
  have hpos' : 0 < (a.take n).length := by rwa [length_take_of_le hle]
  obtain ⟨t', v', h, hboth⟩ := h.of_meet ha' hb' hpos' hlen hmet
  refine ⟨t', v', h, fun he hl => ?_⟩
  obtain ⟨u, he, hl⟩ := hboth he hl
  exact ⟨u, he.unsplit hpa.length_pos hle, hl.unsplit hpb.length_pos hle'⟩

/-- Where the composition of two walks leads, there the two lead one after the other. -/
theorem Leads.of_compose (he : earlier.Proper) (hl : later.Proper)
    (hw : Walk.compose earlier later = .ok walk) (h : Leads walk t v) :
    ∃ u, Leads earlier t u ∧ Leads later u v := by
  -- the two texts at the ends shrink with the composition; the one between them is put together on
  -- the way back
  fun_induction Walk.compose earlier later generalizing walk t v with
  | case1 earlier text later ih =>
    obtain ⟨rest, hrest, rfl⟩ := map_eq_ok_iff.mp hw
    obtain ⟨_, hl⟩ := proper_cons.mp hl
    cases h with
    | insert _ htext h =>
      obtain ⟨u, hu, hv⟩ := ih he hl hrest h
      exact ⟨u, hu, hv.insert text htext⟩
  | case2 text earlier later _ ih =>
    obtain ⟨rest, hrest, rfl⟩ := map_eq_ok_iff.mp hw
    obtain ⟨_, he⟩ := proper_cons.mp he
    cases h with
    | delete _ htext h =>
      obtain ⟨u, hu, hv⟩ := ih he hl hrest h
      exact ⟨u, hu.delete text htext, hv⟩
  | case3 =>
    obtain rfl := Except.ok.inj hw
    cases h
    exact ⟨[], .nil, .nil⟩
  | case4 => cases hw
  | case5 a earlier b later hb ha n met hmet =>
    rename_i ih
    obtain ⟨rest, hrest, rfl⟩ := map_eq_ok_iff.mp hw
    obtain ⟨hpa, he⟩ := proper_cons.mp he
    obtain ⟨hpb, hl⟩ := proper_cons.mp hl
    obtain ⟨t', v', h, hboth⟩ := h.of_meet_take ha hb hpa hpb rfl hmet
    obtain ⟨u', hu, hv⟩ := ih (he.advance hpa (Nat.min_le_left ..))
      (hl.advance hpb (Nat.min_le_right ..)) hrest h
    exact hboth hu hv
  | case6 => cases hw

end Walk

end Coedit
