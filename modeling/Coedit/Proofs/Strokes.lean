import Coedit.Proofs.WalkApart

/-!
Walks taken character by character. `Walk.compose` cuts steps wherever those of the other walk end;
on single characters, where there is nothing to cut, it is `Stroke.fuse` (`Walk.strokes_compose`).
Of three walks one after another it does not matter which two are fused first, whether they fit or
not (`Stroke.fuse_assoc`).
-/
namespace Coedit

/-- What a walk does at one character. -/
inductive Stroke where
  | keep
  | insert (c : Char)
  | delete (c : Char)
  deriving DecidableEq, Repr

namespace Stroke

/-- Two walks one after another, character by character; nothing if they do not fit. -/
def fuse : List Stroke → List Stroke → Option (List Stroke)
  | earlier, insert c :: later => (fuse earlier later).map (insert c :: ·)
  | delete c :: earlier, later => (fuse earlier later).map (delete c :: ·)
  | [], [] => some []
  | keep :: earlier, step :: later => (fuse earlier later).map (step :: ·)
  | insert c :: earlier, keep :: later => (fuse earlier later).map (insert c :: ·)
  | insert c :: earlier, delete d :: later => if c = d then fuse earlier later else none
  | _, _ => none
termination_by earlier later => earlier.length + later.length

/-- The strokes do not begin with an insertion, so that what is deleted before them comes first. -/
def Reads (later : List Stroke) : Prop := ∀ c rest, later ≠ insert c :: rest

/-- The strokes do not begin with a deletion. -/
def Writes (earlier : List Stroke) : Prop := ∀ c rest, earlier ≠ delete c :: rest

variable {a b c s : List Stroke} {x y : Char}

theorem reads_nil : Reads [] := by simp [Reads]

theorem reads_keep (b : List Stroke) : Reads (keep :: b) := by simp [Reads]

theorem reads_delete (x : Char) (b : List Stroke) : Reads (delete x :: b) := by simp [Reads]

theorem writes_nil : Writes [] := by simp [Writes]

theorem writes_keep (a : List Stroke) : Writes (keep :: a) := by simp [Writes]

theorem writes_insert (x : Char) (a : List Stroke) : Writes (insert x :: a) := by simp [Writes]

theorem fuse_nil : fuse [] [] = some [] := by rw [fuse]

theorem fuse_insert (a b : List Stroke) (x : Char) :
    fuse a (insert x :: b) = (fuse a b).map (insert x :: ·) := by
  rw [fuse]

theorem fuse_delete (hb : Reads b) (a : List Stroke) (x : Char) :
    fuse (delete x :: a) b = (fuse a b).map (delete x :: ·) := by
  rw [fuse]
  exact hb

theorem fuse_keep {step : Stroke} (hb : Reads (step :: b)) (a : List Stroke) :
    fuse (keep :: a) (step :: b) = (fuse a b).map (step :: ·) := by
  rw [fuse]
  rintro x rfl
  exact hb x b rfl

theorem fuse_insert_keep (a b : List Stroke) (x : Char) :
    fuse (insert x :: a) (keep :: b) = (fuse a b).map (insert x :: ·) := by
  rw [fuse]

theorem fuse_insert_delete (a b : List Stroke) (x y : Char) :
    fuse (insert x :: a) (delete y :: b) = if x = y then fuse a b else none := by
  rw [fuse]

/-- There is nothing for the later strokes to pass. -/
theorem fuse_nil_left (hb : Reads b) (hne : b ≠ []) : fuse [] b = none := by
  rw [fuse.eq_7]
  all_goals simp [hne]
  exact hb

/-- There is nothing that passes what the earlier strokes leave. -/
theorem fuse_nil_right (ha : Writes a) (hne : a ≠ []) : fuse a [] = none := by
  rw [fuse.eq_7]
  all_goals simp [hne]
  exact ha

theorem reads_fuse (ha : Reads a) (hb : Reads b) (h : fuse a b = some s) : Reads s := by
  rcases a with _ | ⟨_ | x | x, a⟩
  · rcases b with _ | ⟨y, b⟩
    · rw [fuse_nil] at h
      exact Option.some.inj h ▸ reads_nil
    · rw [fuse_nil_left hb (List.cons_ne_nil y b)] at h
      cases h
  · rcases b with _ | ⟨_ | y | y, b⟩
    · rw [fuse_nil_right (writes_keep a) (List.cons_ne_nil keep a)] at h
      cases h
    · rw [fuse_keep hb] at h
      obtain ⟨_, -, rfl⟩ := Option.map_eq_some_iff.mp h
      exact reads_keep _
    · exact absurd rfl (hb y b)
    · rw [fuse_keep hb] at h
      obtain ⟨_, -, rfl⟩ := Option.map_eq_some_iff.mp h
      exact reads_delete y _
  · exact absurd rfl (ha x a)
  · rw [fuse_delete hb] at h
    obtain ⟨_, -, rfl⟩ := Option.map_eq_some_iff.mp h
    exact reads_delete x _

/-! ### Three walks one after another -/

/-- It does not matter which two are fused first. -/
def Associate (a b c : List Stroke) : Prop := (fuse a b).bind (fuse · c) = (fuse b c).bind (fuse a)

theorem bind_map_eq {α β γ : Type} (o : Option α) (f : α → Option β) (g : β → γ) :
    (o.bind fun s => (f s).map g) = (o.bind f).map g := Option.map_bind.symm

/-- What the first strokes delete goes in front of everything. -/
theorem associate_of_writes (hb : Reads b) (hc : Reads c) (h : ∀ a, Writes a → Associate a b c)
    (a : List Stroke) : Associate a b c := by
  induction a with
  | nil => exact h [] writes_nil
  | cons step a ih =>
    cases step with
    | keep => exact h _ (writes_keep a)
    | insert x => exact h _ (writes_insert x a)
    | delete x =>
      have hlater : (fuse b c).bind (fuse (delete x :: a)) =
          (fuse b c).bind fun s => (fuse a s).map (delete x :: ·) :=
        Option.bind_congr fun s hs => fuse_delete (reads_fuse hb hc hs) a x
      rw [Associate, hlater, bind_map_eq, ← ih, fuse_delete hb, Option.bind_map, ← bind_map_eq]
      exact congrArg _ (funext fun s => fuse_delete hc s x)

theorem Associate.insert_last (h : Associate a b c) (x : Char) : Associate a b (insert x :: c) := by
  simp only [Associate, fuse_insert, Option.bind_map, Function.comp_def, bind_map_eq]
  rw [h]

theorem Associate.insert_middle (h : Associate a b c) (x : Char) :
    Associate a (insert x :: b) (keep :: c) := by
  simp only [Associate, fuse_insert, fuse_insert_keep, Option.bind_map, Function.comp_def,
    bind_map_eq]
  rw [h]

theorem Associate.cancel (h : Associate a b c) (x y : Char) :
    Associate a (insert x :: b) (delete y :: c) := by
  simp only [Associate, fuse_insert, fuse_insert_delete, Option.bind_map, Function.comp_def]
  split
  · exact h
  · simp

theorem Associate.delete_middle (hc : Reads c) (h : ∀ a, Associate a b c) (x : Char)
    (a : List Stroke) : Associate a (delete x :: b) c := by
  refine associate_of_writes (reads_delete x b) hc (fun a ha => ?_) a
  rw [Associate, fuse_delete hc, Option.bind_map]
  rcases a with _ | ⟨_ | y | y, a⟩
  · have hnone (s : List Stroke) : fuse [] (delete x :: s) = none :=
      fuse_nil_left (reads_delete x s) (List.cons_ne_nil _ s)
    simp only [Function.comp_def, hnone, Option.bind_none, Option.bind_fun_none]
  · have hkeep (b : List Stroke) := fuse_keep (reads_delete x b) a
    simp only [Function.comp_def, hkeep, Option.bind_map, fuse_delete hc, bind_map_eq]
    rw [h]
  · simp only [Function.comp_def, fuse_insert_delete]
    split
    · exact h a
    · simp
  · exact absurd rfl (ha y a)

theorem Associate.keep_middle {step : Stroke} (hc : Reads (step :: c)) (h : ∀ a, Associate a b c)
    (a : List Stroke) : Associate a (keep :: b) (step :: c) := by
  refine associate_of_writes (reads_keep b) hc (fun a ha => ?_) a
  have hstep (s : List Stroke) : Reads (step :: s) := by
    rintro x rest he
    exact hc x c (by rw [(List.cons.inj he).1])
  rw [Associate, fuse_keep hc, Option.bind_map]
  rcases a with _ | ⟨_ | y | y, a⟩
  · have hnone (s : List Stroke) : fuse [] (step :: s) = none :=
      fuse_nil_left (hstep s) (List.cons_ne_nil _ s)
    simp only [Function.comp_def, hnone, fuse_nil_left (reads_keep b) (List.cons_ne_nil keep b),
      Option.bind_none, Option.bind_fun_none]
  · simp only [Function.comp_def, fuse_keep (reads_keep b), fuse_keep (hstep _), Option.bind_map,
      bind_map_eq]
    rw [h]
  · cases step with
    | keep =>
      simp only [Function.comp_def, fuse_insert_keep, Option.bind_map, bind_map_eq]
      rw [h]
    | insert x => exact absurd rfl (hc x c)
    | delete x =>
      simp only [Function.comp_def, fuse_insert_keep, fuse_insert_delete, Option.bind_map]
      split
      · exact h a
      · simp
  · exact absurd rfl (ha y a)

/-- The last strokes end while those before them leave something. -/
theorem Associate.ends (hb : Writes b) (hne : b ≠ []) (a : List Stroke) : Associate a b [] := by
  have hnone : fuse b [] = none := fuse_nil_right hb hne
  rcases b with _ | ⟨_ | x | x, b⟩
  · exact absurd rfl hne
  · refine associate_of_writes (reads_keep b) reads_nil (fun a ha => ?_) a
    rw [Associate, hnone]
    rcases a with _ | ⟨_ | y | y, a⟩
    · simp [fuse_nil_left (reads_keep b)]
    · simp [fuse_keep (reads_keep b), fuse_nil_right (writes_keep _)]
    · simp [fuse_insert_keep, fuse_nil_right (writes_insert y _)]
    · exact absurd rfl (ha y a)
  · rw [Associate, hnone]
    simp [fuse_insert, fuse_nil_right (writes_insert x _)]
  · exact absurd rfl (hb x b)

/-- The strokes in the middle end while the last ones still pass something. -/
theorem Associate.ended (hc : Reads c) (a : List Stroke) : Associate a [] c := by
  refine associate_of_writes reads_nil hc (fun a ha => ?_) a
  rcases a with _ | ⟨y, a⟩
  · rw [Associate, fuse_nil, Option.bind_some]
    cases hnone : fuse [] c with
    | none => rfl
    | some s =>
      rcases c with _ | ⟨z, c⟩
      · rw [← hnone, fuse_nil, Option.bind_some, fuse_nil]
      · rw [fuse_nil_left hc (List.cons_ne_nil z c)] at hnone
        cases hnone
  · rw [Associate, fuse_nil_right ha (List.cons_ne_nil y a)]
    rcases c with _ | ⟨z, c⟩
    · rw [fuse_nil, Option.bind_some, fuse_nil_right ha (List.cons_ne_nil y a), Option.bind_none]
    · rw [fuse_nil_left hc (List.cons_ne_nil z c), Option.bind_none, Option.bind_none]

/-- Of three walks one after another any two neighbours may be fused first: either way the three fit
or do not fit, and make the same. -/
theorem fuse_assoc (a b c : List Stroke) : Associate a b c := by
  match b, c with
  | b, insert x :: c => exact (fuse_assoc a b c).insert_last x
  | [], [] => exact .ended reads_nil a
  | [], keep :: c => exact .ended (reads_keep c) a
  | [], delete x :: c => exact .ended (reads_delete x c) a
  | delete x :: b, [] => exact .delete_middle reads_nil (fun a => fuse_assoc a b []) x a
  | delete x :: b, keep :: c =>
    exact .delete_middle (reads_keep c) (fun a => fuse_assoc a b (keep :: c)) x a
  | delete x :: b, delete y :: c =>
    exact .delete_middle (reads_delete y c) (fun a => fuse_assoc a b (delete y :: c)) x a
  | keep :: b, [] => exact .ends (writes_keep b) (List.cons_ne_nil _ b) a
  | keep :: b, keep :: c => exact .keep_middle (reads_keep c) (fun a => fuse_assoc a b c) a
  | keep :: b, delete x :: c => exact .keep_middle (reads_delete x c) (fun a => fuse_assoc a b c) a
  | insert x :: b, [] => exact .ends (writes_insert x b) (List.cons_ne_nil _ b) a
  | insert x :: b, keep :: c => exact (fuse_assoc a b c).insert_middle x
  | insert x :: b, delete y :: c => exact (fuse_assoc a b c).cancel x y
termination_by b.length + c.length

/-! ### Strokes of steps -/

theorem fuse_inserts (a b : List Stroke) (text : Text) :
    fuse a (text.map insert ++ b) = (fuse a b).map (text.map insert ++ ·) := by
  induction text with
  | nil => simp
  | cons x text ih => rw [List.map_cons, List.cons_append, fuse_insert, ih, Option.map_map]; rfl

theorem fuse_deletes (hb : Reads b) (a : List Stroke) (text : Text) :
    fuse (text.map delete ++ a) b = (fuse a b).map (text.map delete ++ ·) := by
  induction text with
  | nil => simp
  | cons x text ih => rw [List.map_cons, List.cons_append, fuse_delete hb, ih, Option.map_map]; rfl

/-- What is kept is left to the later strokes. -/
theorem fuse_keeps (hs : ∀ x, insert x ∉ s) (a b : List Stroke) :
    fuse (List.replicate s.length keep ++ a) (s ++ b) = (fuse a b).map (s ++ ·) := by
  induction s with
  | nil => simp
  | cons step s ih =>
    have hreads : Reads (step :: (s ++ b)) := by
      rintro x rest he
      exact hs x (by simp [(List.cons.inj he).1])
    rw [List.length_cons, List.replicate_succ, List.cons_append, List.cons_append, fuse_keep hreads,
      ih fun x hx => hs x (List.mem_cons_of_mem step hx), Option.map_map]
    rfl

theorem fuse_inserts_keeps (a b : List Stroke) (text : Text) :
    fuse (text.map insert ++ a) (List.replicate text.length keep ++ b) =
      (fuse a b).map (text.map insert ++ ·) := by
  induction text with
  | nil => simp
  | cons x text ih =>
    rw [List.map_cons, List.length_cons, List.replicate_succ, List.cons_append, List.cons_append,
      fuse_insert_keep, ih, Option.map_map]
    rfl

theorem fuse_inserts_deletes {text text' : Text} (hlen : text.length = text'.length)
    (a b : List Stroke) : fuse (text.map insert ++ a) (text'.map delete ++ b) =
      if text = text' then fuse a b else none := by
  induction text generalizing text' with
  | nil =>
    obtain rfl := List.eq_nil_of_length_eq_zero hlen.symm
    rfl
  | cons x text ih =>
    cases text' with
    | nil => cases hlen
    | cons y text' =>
      rw [List.map_cons, List.map_cons, List.cons_append, List.cons_append, fuse_insert_delete,
        ih (Nat.succ.inj hlen)]
      simp only [List.cons.injEq]
      split <;> simp [*]

end Stroke

def Step.strokes : Step → List Stroke
  | .keep count => List.replicate count .keep
  | .insert text => text.map .insert
  | .delete text => text.map .delete

namespace Walk

open Stroke

def strokes (walk : Walk) : List Stroke := walk.flatMap Step.strokes

/-- No step of the walk is idle. -/
def Busy (walk : Walk) : Prop := ∀ step ∈ walk, 0 < step.length

variable {walk earlier later met : Walk} {a b : Step} {n : Nat}

theorem strokes_cons (a : Step) (walk : Walk) :
    strokes (a :: walk) = a.strokes ++ walk.strokes := rfl

theorem strokes_append (walk later : Walk) :
    strokes (walk ++ later) = walk.strokes ++ later.strokes := List.flatMap_append

theorem strokes_take_drop (hle : n ≤ a.length) :
    (a.take n).strokes ++ (a.drop n).strokes = a.strokes := by
  cases a with
  | keep count =>
    obtain ⟨more, rfl⟩ := Nat.exists_eq_add_of_le hle
    rw [Step.take, Step.drop, Nat.add_sub_cancel_left]
    exact List.replicate_append_replicate
  | insert text =>
    rw [Step.take, Step.drop, Step.strokes, Step.strokes, ← List.map_append, List.take_append_drop]
    rfl
  | delete text =>
    rw [Step.take, Step.drop, Step.strokes, Step.strokes, ← List.map_append, List.take_append_drop]
    rfl

theorem strokes_advance (hle : n ≤ a.length) (walk : Walk) :
    (a.take n).strokes ++ strokes (advance n a walk) = strokes (a :: walk) := by
  unfold advance
  split
  · rename_i hn
    rw [← hn, take_length, strokes_cons]
  · rw [strokes_cons, strokes_cons, ← List.append_assoc, strokes_take_drop hle]

theorem length_strokes (a : Step) : a.strokes.length = a.length := by
  cases a with
  | keep count => exact List.length_replicate
  | insert text => exact List.length_map ..
  | delete text => exact List.length_map ..

theorem Busy.strokes_ne_nil (h : Busy (a :: walk)) : strokes (a :: walk) ≠ [] := by
  have ha : a.strokes ≠ [] := by
    rw [← List.length_pos_iff, length_strokes]
    exact h a List.mem_cons_self
  exact List.append_ne_nil_of_left_ne_nil ha _

theorem Busy.reads (h : walk.Busy) (hi : ∀ text rest, walk ≠ .insert text :: rest) :
    Reads walk.strokes := by
  cases walk with
  | nil => exact reads_nil
  | cons a walk =>
    match a, h a List.mem_cons_self with
    | .keep (_ + 1), _ => exact reads_keep _
    | .insert text, _ => exact absurd rfl (hi text walk)
    | .delete (x :: _), _ => exact reads_delete x _

theorem Busy.writes (h : walk.Busy) (hd : ∀ text rest, walk ≠ .delete text :: rest) :
    Writes walk.strokes := by
  cases walk with
  | nil => exact writes_nil
  | cons a walk =>
    match a, h a List.mem_cons_self with
    | .keep (_ + 1), _ => exact writes_keep _
    | .insert (x :: _), _ => exact writes_insert x _
    | .delete text, _ => exact absurd rfl (hd text walk)

theorem fuse_meet (ha : ∀ text, a ≠ .delete text) (hb : ∀ text, b ≠ .insert text)
    (hlen : a.length = b.length) (before behind : List Stroke) :
    fuse (a.strokes ++ before) (b.strokes ++ behind) =
      (meet a b).toOption.bind fun met => (fuse before behind).map (met.strokes ++ ·) := by
  have hone (c : Step) : strokes [c] = c.strokes := List.append_nil _
  cases a with
  | delete text => exact absurd rfl (ha text)
  | keep count =>
    have hmeet : meet (.keep count) b = .ok [b] := by cases b <;> rfl
    obtain rfl : count = b.strokes.length := hlen.trans (length_strokes b).symm
    rw [hmeet]
    refine (fuse_keeps (fun x hx => ?_) before behind).trans (by simp [hone, Except.toOption])
    cases b with
    | keep count => cases List.eq_of_mem_replicate hx
    | insert text => exact absurd rfl (hb text)
    | delete text => simp [Step.strokes] at hx
  | insert text =>
    cases b with
    | insert text' => exact absurd rfl (hb text')
    | keep count =>
      obtain rfl : text.length = count := hlen
      refine (fuse_inserts_keeps before behind text).trans ?_
      simp [meet, hone, Except.toOption]
      rfl
    | delete text' =>
      refine (fuse_inserts_deletes hlen before behind).trans ?_
      rw [meet]
      split
      · simp [Except.toOption, strokes]
      · rfl

/-- The same for as much of two steps as both handle. -/
theorem fuse_meet_take (ha : ∀ text, a ≠ .delete text) (hb : ∀ text, b ≠ .insert text)
    (hpa : 0 < a.length) (hpb : 0 < b.length) (hn : n = min a.length b.length) :
    fuse (strokes (a :: earlier)) (strokes (b :: later)) =
      (meet (a.take n) (b.take n)).toOption.bind fun met =>
        (fuse (advance n a earlier).strokes (advance n b later).strokes).map
          (met.strokes ++ ·) := by
  obtain ⟨-, hle, hle', hlen⟩ := take_bounds hpa hpb hn
  obtain ⟨ha', hb'⟩ := take_kinds n ha hb
  rw [← strokes_advance hle earlier, ← strokes_advance hle' later, fuse_meet ha' hb' hlen]

/-- The composition of two walks is the two fused. -/
theorem strokes_compose (he : earlier.Busy) (hl : later.Busy) :
    (compose earlier later).toOption.map strokes = fuse earlier.strokes later.strokes := by
  fun_induction Walk.compose earlier later with
  | case1 earlier text later ih =>
    obtain ⟨_, hl⟩ := List.forall_mem_cons.mp hl
    rw [strokes_cons, Step.strokes, fuse_inserts, ← ih he hl, toOption_map, Option.map_map,
      Option.map_map]
    rfl
  | case2 text earlier later hi ih =>
    obtain ⟨_, he⟩ := List.forall_mem_cons.mp he
    rw [strokes_cons, Step.strokes, fuse_deletes (hl.reads hi), ← ih he hl, toOption_map,
      Option.map_map, Option.map_map]
    rfl
  | case3 => exact fuse_nil.symm
  | case4 a earlier b later hb ha n error =>
    rename_i herror
    obtain ⟨hpa, -⟩ := List.forall_mem_cons.mp he
    obtain ⟨hpb, -⟩ := List.forall_mem_cons.mp hl
    rw [fuse_meet_take ha hb hpa hpb (Eq.refl n), herror]
    rfl
  | case5 a earlier b later hb ha n met hmet =>
    rename_i ih
    obtain ⟨hpa, he⟩ := List.forall_mem_cons.mp he
    obtain ⟨hpb, hl⟩ := List.forall_mem_cons.mp hl
    rw [fuse_meet_take ha hb hpa hpb (Eq.refl n), hmet, toOption_map, Option.map_map,
      ← ih (hereditary_busy.advance hpa he (Nat.min_le_left ..))
        (hereditary_busy.advance hpb hl (Nat.min_le_right ..))]
    simp [Except.toOption, Function.comp_def, strokes_append]
  | case6 earlier later hb ha hnil hcons =>
    cases earlier with
    | nil =>
      cases later with
      | nil => exact (hnil rfl rfl).elim
      | cons b later => exact (fuse_nil_left (hl.reads hb) hl.strokes_ne_nil).symm
    | cons a earlier =>
      cases later with
      | nil => exact (fuse_nil_right (he.writes ha) he.strokes_ne_nil).symm
      | cons b later => exact (hcons a earlier b later rfl rfl).elim

end Walk

end Coedit
