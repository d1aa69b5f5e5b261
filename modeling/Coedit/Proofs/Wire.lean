import Coedit.Proofs.Joining
import Coedit.Proofs.Percent
import Mathlib.Data.List.Forall2
import Mathlib.Tactic.Tauto

/-!
Diffs and patches survive the wire (`Diff.parse_render`, `Patch.parse_render`). A separator is found
again where it was put, because what stands before it, or after it, holds no character of its kind;
what is found between the separators is a numeral, a sign or percent-encoded text, and each of them
is read back. Of a diff nothing but the written form is read (`Diff.parse_eq_ok_iff`). On machine
numbers a patch is read where its diffs are joinable, and nothing is given where they are not
(`parse?_eq_some_iff`).
-/
namespace Coedit

/-- A list is read through exactly if each of its members is read. -/
theorem mapM_eq_ok_iff {ε α β : Type} {f : α → Except ε β} {xs : List α} {ys : List β} :
    xs.mapM f = .ok ys ↔ List.Forall₂ (fun x y => f x = .ok y) xs ys := by
  induction xs generalizing ys with
  | nil => cases ys <;> simp [pure, Except.pure]
  | cons x xs ih =>
    rw [List.mapM_cons, List.forall₂_cons_left_iff, bind_eq_ok_iff]
    refine exists_congr fun y => ?_
    simp only [bind_eq_ok_iff, ih, pure, Except.pure, Except.ok.injEq]
    tauto

/-- Reading a list fails at the first member that cannot be read. -/
theorem mapM_eq_error_iff {ε α β : Type} {f : α → Except ε β} {xs : List α} {e : ε} :
    xs.mapM f = .error e ↔ ∃ good bad more, xs = good ++ bad :: more ∧
      (∀ x ∈ good, ∃ y, f x = .ok y) ∧ f bad = .error e := by
  constructor
  · intro h
    induction xs with
    | nil => cases h
    | cons x xs ih =>
      rw [List.mapM_cons] at h
      cases hx : f x with
      | error e' =>
        rw [hx] at h
        obtain rfl : e' = e := Except.error.inj h
        exact ⟨[], x, xs, rfl, by simp, hx⟩
      | ok y =>
        cases hrest : xs.mapM f with
        | ok ys =>
          rw [hx, hrest] at h
          cases h
        | error e' =>
          rw [hx, hrest] at h
          obtain rfl : e' = e := Except.error.inj h
          obtain ⟨good, bad, more, rfl, hgood, hbad⟩ := ih hrest
          exact ⟨x :: good, bad, more, rfl, List.forall_mem_cons.mpr ⟨⟨y, hx⟩, hgood⟩, hbad⟩
  · rintro ⟨good, bad, more, rfl, hgood, hbad⟩
    induction good with
    | nil =>
      rw [List.nil_append, List.mapM_cons, hbad]
      rfl
    | cons x good ih =>
      obtain ⟨⟨y, hy⟩, hgood⟩ := List.forall_mem_cons.mp hgood
      rw [List.cons_append, List.mapM_cons, hy, ih hgood]
      rfl

theorem mapM_map_eq_ok {ε α β : Type} {f : β → Except ε α} {g : α → β} {xs : List α}
    (h : ∀ x ∈ xs, f (g x) = .ok x) : (xs.map g).mapM f = .ok xs :=
  mapM_eq_ok_iff.mpr (List.forall₂_map_left_iff.mpr (List.forall₂_same.mpr h))

namespace Text

variable {c : Char} {sep before after : Text}

theorem dropPrefix?_cons_of_ne {x : Char} (h : c ≠ x) (rest : Text) :
    dropPrefix? (c :: sep) (x :: rest) = none := by
  simp [dropPrefix?, h]

theorem dropPrefix?_eq_none_iff {front text : Text} :
    dropPrefix? front text = none ↔ ¬front <+: text := by
  constructor
  · rintro h ⟨rest, rfl⟩
    rw [dropPrefix?_append] at h
    cases h
  · intro h
    refine Option.eq_none_iff_forall_not_mem.mpr fun rest hrest => h ?_
    exact ⟨rest, (eq_append_of_dropPrefix? hrest).symm⟩

theorem not_infix_of_not_mem {text : Text} (h : c ∉ text) (sep : Text) : ¬(c :: sep) <:+: text :=
  fun hwithin => h (hwithin.subset List.mem_cons_self)

theorem cutFirst?_of_not_mem (h : c ∉ before) (sep after : Text) :
    cutFirst? (c :: sep) (before ++ (c :: sep ++ after)) = some (before, after) := by
  induction before with
  | nil => simp [cutFirst?, dropPrefix?, dropPrefix?_append]
  | cons x xs ih =>
    rw [List.mem_cons, not_or] at h
    rw [List.cons_append, cutFirst?, dropPrefix?_cons_of_ne h.1]
    simp only [ih h.2, Option.map_some]

theorem cutLast?_eq_none (h : c ∉ after) (sep : Text) : cutLast? (c :: sep) after = none := by
  induction after with
  | nil => rfl
  | cons x xs ih =>
    rw [List.mem_cons, not_or] at h
    rw [cutLast?, ih h.2, dropPrefix?_cons_of_ne h.1]
    rfl

theorem cutLast?_of_not_mem (h : c ∉ sep ++ after) (before : Text) :
    cutLast? (c :: sep) (before ++ (c :: sep ++ after)) = some (before, after) := by
  induction before with
  | nil =>
    rw [List.nil_append, List.cons_append, cutLast?, cutLast?_eq_none h]
    simp [dropPrefix?, dropPrefix?_append]
  | cons x xs ih => simp only [List.cons_append, cutLast?] at ih ⊢; rw [ih]

theorem piecesFrom_skip (skipped rest sep : Text) :
    piecesFrom sep skipped.length (skipped ++ rest) = piecesFrom sep 0 rest := by
  induction skipped with
  | nil => rfl
  | cons x xs ih => rw [List.length_cons, List.cons_append, piecesFrom, ih]

/-- A separator that does not begin inside itself begins in front of none where there is none. -/
theorem not_prefix_append {x : Char} {xs : Text} (hc : c ∉ sep) (h : ¬(c :: sep) <:+: x :: xs)
    (hafter : after = [] ∨ (c :: sep) <+: after) : ¬(c :: sep) <+: x :: xs ++ after := by
  intro hp
  rcases List.prefix_or_prefix_of_prefix hp (List.prefix_append (x :: xs) after) with
    hshort | ⟨tail, htail⟩
  · exact h hshort.isInfix
  · cases tail with
    | nil =>
      rw [List.append_nil] at htail
      exact h (htail ▸ List.infix_rfl)
    | cons y tail =>
      -- the separator would run into what follows, which begins with a separator itself
      rw [← htail, List.prefix_append_right_inj] at hp
      have hy : y ∈ sep := by
        obtain ⟨-, hsep⟩ := List.cons.inj htail
        exact hsep ▸ List.mem_append_right xs List.mem_cons_self
      rcases hafter with rfl | ⟨more, rfl⟩
      · cases List.prefix_nil.mp hp
      · obtain ⟨rfl, -⟩ := List.cons_prefix_cons.mp hp
        exact hc hy

theorem piecesFrom_of_not_infix (hc : c ∉ sep) (h : ¬(c :: sep) <:+: before)
    (hafter : after = [] ∨ (c :: sep) <+: after) :
    piecesFrom (c :: sep) 0 (before ++ after) =
      (before ++ (piecesFrom (c :: sep) 0 after).1, (piecesFrom (c :: sep) 0 after).2) := by
  induction before with
  | nil => rfl
  | cons x xs ih =>
    have hhead := dropPrefix?_eq_none_iff.mpr (not_prefix_append hc h hafter)
    rw [List.cons_append] at hhead ⊢
    rw [piecesFrom, hhead, ih fun hxs => h (List.infix_cons hxs)]
    rfl

theorem piecesFrom_separator (c : Char) (sep rest : Text) :
    piecesFrom (c :: sep) 0 (c :: sep ++ rest) = ([], pieces (c :: sep) rest) := by
  have hskip := piecesFrom_skip sep rest (c :: sep)
  rw [List.cons_append, piecesFrom, ← List.cons_append, dropPrefix?_append]
  simp [hskip, pieces]

theorem pieces_of_not_infix (hc : c ∉ sep) (h : ¬(c :: sep) <:+: before) (after : Text) :
    pieces (c :: sep) (before ++ (c :: sep ++ after)) = before :: pieces (c :: sep) after := by
  rw [pieces, piecesFrom_of_not_infix hc h (.inr (List.prefix_append ..)), piecesFrom_separator]
  simp

theorem pieces_eq_singleton (hc : c ∉ sep) (h : ¬(c :: sep) <:+: before) :
    pieces (c :: sep) before = [before] := by
  have hp := piecesFrom_of_not_infix hc h (.inl rfl)
  rw [List.append_nil] at hp
  rw [pieces, hp]
  simp [piecesFrom]

/-- What is joined is cut where it was joined. -/
theorem pieces_join (hc : c ∉ sep) {texts : List Text} (hne : texts ≠ [])
    (h : ∀ t ∈ texts, ¬(c :: sep) <:+: t) :
    pieces (c :: sep) (join (c :: sep) texts) = texts := by
  induction texts with
  | nil => exact absurd rfl hne
  | cons t texts ih =>
    obtain ⟨ht, h⟩ := List.forall_mem_cons.mp h
    cases texts with
    | nil => exact pieces_eq_singleton hc ht
    | cons next more =>
      rw [join, List.append_assoc, pieces_of_not_infix hc ht, ih (List.cons_ne_nil next more) h]
      simp

end Text

namespace Numeral

theorem not_mem_ofNat {c : Char} (hc : c.isDigit = false) (n : Nat) : c ∉ ofNat n := by
  intro h
  rw [isDigit_of_mem_ofNat h] at hc
  cases hc

theorem readWord?_ofNat_eq (n : Nat) : readWord? (ofNat n) = (some n).filter (· < wordLimit) := by
  unfold readWord?
  split
  · rename_i digits he
    exact absurd (he ▸ List.mem_cons_self) (not_mem_ofNat (by decide) n)
  · rw [word?, value?_ofNat]

theorem readWord?_ofNat {n : Nat} (h : n < wordLimit) : readWord? (ofNat n) = some n := by
  rw [readWord?_ofNat_eq]
  simp [h]

theorem not_mem_ofInt {c : Char} (hc : c.isDigit = false) (hm : c ≠ '-') (n : Int) :
    c ∉ ofInt n := by
  cases n with
  | ofNat n => exact not_mem_ofNat hc n
  | negSucc n => simpa [ofInt, hm] using not_mem_ofNat hc (n + 1)

theorem readInt?_ofInt_eq (n : Int) : readInt? (ofInt n) = (some n).filter fits := by
  cases n with
  | ofNat n =>
    have hsign : ∀ {c digits}, c.isDigit = false → ofNat n ≠ c :: digits :=
      fun hc he => absurd (he ▸ List.mem_cons_self) (not_mem_ofNat hc n)
    rw [ofInt]
    unfold readInt?
    split
    · rename_i he
      exact absurd he (hsign rfl)
    · rename_i he
      exact absurd he (hsign rfl)
    · rw [value?_ofNat]
      rfl
  | negSucc n =>
    rw [ofInt, readInt?, value?_ofNat]
    rfl

theorem readInt?_ofInt {n : Int} (h : fits n = true) : readInt? (ofInt n) = some n := by
  rw [readInt?_ofInt_eq]
  simp [h]

theorem takeWhile_ofNat {c : Char} (hc : c.isDigit = false) (n : Nat) (rest : Text) :
    (ofNat n ++ c :: rest).takeWhile Char.isDigit = ofNat n := by
  rw [List.takeWhile_append_of_pos fun _ => isDigit_of_mem_ofNat]
  simp [hc]

theorem dropWhile_ofNat {c : Char} (hc : c.isDigit = false) (n : Nat) (rest : Text) :
    (ofNat n ++ c :: rest).dropWhile Char.isDigit = c :: rest := by
  rw [List.dropWhile_append_of_pos fun _ => isDigit_of_mem_ofNat]
  simp [hc]

end Numeral

namespace Diff

variable {d : Diff} {c : Char}

theorem readField?_ofNat {n : Nat} (h : n < Numeral.wordLimit) (rest : Text) :
    readField? (Numeral.ofNat n ++ ':' :: rest) = some (n, rest) := by
  have hc : Char.isDigit ':' = false := rfl
  rw [readField?, Numeral.dropWhile_ofNat hc, Numeral.takeWhile_ofNat hc, Numeral.word?_ofNat h]
  rfl

theorem readSign?_sign (kind : Kind) (rest : Text) :
    readSign? (kind.sign :: rest) = some (kind, rest) := by
  cases kind <;> rfl

/-- A diff as it can be sent: with text, and with numbers of 64 bits. -/
structure Sendable (d : Diff) : Prop where
  text_ne_nil : d.text ≠ []
  start_lt : d.start < Numeral.wordLimit
  length_lt : d.length < Numeral.wordLimit

/-- The parts are found again if there is text; without text they are refused. -/
theorem readParts?_renderWith {n : Nat} (hs : d.start < Numeral.wordLimit)
    (hn : n < Numeral.wordLimit) :
    readParts? (d.renderWith n) =
      if d.text = [] then none else some ⟨d.start, d.kind, n, Percent.encode d.text⟩ := by
  have hline := Percent.not_mem_encode (c := '\n') (by decide) d.text
  have hfront := readField?_ofNat hs
    (d.kind.sign :: (Numeral.ofNat n ++ ':' :: Percent.encode d.text))
  have hparts : readParts? (d.renderWith n) =
      if Percent.encode d.text = [] then none
      else some ⟨d.start, d.kind, n, Percent.encode d.text⟩ := by
    simp [readParts?, renderWith, hfront, readSign?_sign, readField?_ofNat hn, hline]
  rw [hparts]
  by_cases ht : d.text = []
  · rw [if_pos ht, ht]
    rfl
  · rw [if_neg ht, if_neg (Percent.encode_ne_nil ht)]

theorem readParts?_render (h : d.Sendable) :
    readParts? d.render = some ⟨d.start, d.kind, d.length, Percent.encode d.text⟩ := by
  rw [render, readParts?_renderWith h.start_lt h.length_lt, if_neg h.text_ne_nil]

theorem parse_render (h : d.Sendable) : parse d.render = .ok d := by
  rw [parse, readParts?_render h]
  dsimp only
  rw [Percent.decode_encode]
  simp [render, length]

theorem lt_of_readField? {written rest : Text} {n : Nat}
    (h : readField? written = some (n, rest)) : n < Numeral.wordLimit := by
  unfold readField? at h
  split at h
  · obtain ⟨m, hm, he⟩ := Option.map_eq_some_iff.mp h
    obtain ⟨rfl, -⟩ := Prod.mk.inj he
    exact of_decide_eq_true (Option.filter_eq_some_iff.mp hm).2
  · cases h

theorem lt_of_readParts? {written : Text} {parts : Parts} (h : readParts? written = some parts) :
    parts.start < Numeral.wordLimit ∧ parts.declared < Numeral.wordLimit := by
  obtain ⟨⟨start, rest⟩, hstart, h⟩ := Option.bind_eq_some_iff.mp h
  obtain ⟨⟨kind, rest⟩, -, h⟩ := Option.bind_eq_some_iff.mp h
  obtain ⟨⟨declared, body⟩, hdeclared, h⟩ := Option.bind_eq_some_iff.mp h
  dsimp only at h
  split at h
  · cases h
  · obtain rfl := Option.some.inj h
    exact ⟨lt_of_readField? hstart, lt_of_readField? hdeclared⟩

/-- Only what can be sent is read. -/
theorem sendable_of_parse {written : Text} (h : parse written = .ok d) : d.Sendable := by
  obtain ⟨rfl, body, hparts⟩ := readParts?_of_parse h
  obtain ⟨hs, hl⟩ := lt_of_readParts? hparts
  refine ⟨fun ht => ?_, hs, hl⟩
  rw [render, readParts?_renderWith hs hl, if_pos ht] at hparts
  cases hparts

/-- A diff is read from its written form and from no other text, and it is read exactly if it has
text and its numbers are of 64 bits. -/
theorem parse_eq_ok_iff (written : Text) (d : Diff) :
    parse written = .ok d ↔
      d.text ≠ [] ∧ d.start < Numeral.wordLimit ∧ d.length < Numeral.wordLimit ∧
        d.render = written := by
  constructor
  · intro h
    have hd := sendable_of_parse h
    exact ⟨hd.text_ne_nil, hd.start_lt, hd.length_lt, render_eq_of_parse h⟩
  · rintro ⟨ht, hs, hl, rfl⟩
    exact parse_render ⟨ht, hs, hl⟩

theorem not_mem_render (hc : c ∈ [',', '\n']) (d : Diff) : c ∉ d.render := by
  have hcolon : c ≠ ':' := by rintro rfl; simp at hc
  have hdigit : c.isDigit = false := by
    rcases List.mem_pair.mp hc with rfl | rfl <;> rfl
  have hsign : c ≠ d.kind.sign := by
    cases d.kind <;> (rcases List.mem_pair.mp hc with rfl | rfl <;> decide)
  have hbody := Percent.not_mem_encode (List.mem_cons_of_mem ':' hc) d.text
  simp [render, renderWith, hcolon, hsign, hbody, Numeral.not_mem_ofNat hdigit]

theorem render_ne_nil (d : Diff) : d.render ≠ [] := by
  simp [render, renderWith]

end Diff

namespace Patch

variable {p : Patch}

/-- A patch as it can be sent: simplified, and with numbers of 64 bits. -/
structure Sendable (p : Patch) : Prop where
  simplified : Diff.Simplified p.diffs
  diffs : ∀ d ∈ p.diffs, d.Sendable
  baseVersion : Numeral.fits p.baseVersion = true
  docLength : p.docLength < Numeral.wordLimit

theorem join_render_eq_nil_iff {ds : List Diff} :
    Text.join diffEnd (ds.map Diff.render) = [] ↔ ds = [] := by
  cases ds with
  | nil => simp [Text.join]
  | cons d ds =>
    have hd := d.render_ne_nil
    cases ds <;> simp [Text.join, hd]

/-- Between a version and a length without a colon the body is found again, whatever it holds. -/
theorem readSections?_append {version length : Text} (hv : ':' ∉ version) (hl : ':' ∉ length)
    (body : Text) :
    readSections? ('v' :: version ++ sectionEnd ++ body ++ sectionEnd ++ length) =
      some (version, body, length) := by
  have hlength : ':' ∉ ['\n'] ++ length := by simpa using hl
  have hfirst := Text.cutFirst?_of_not_mem hv ['\n'] (body ++ (sectionEnd ++ length))
  have hlast := Text.cutLast?_of_not_mem hlength body
  simp only [List.cons_append, List.append_assoc, readSections?]
  simp only [sectionEnd] at hfirst hlast ⊢
  rw [hfirst, Option.bind_eq_bind, Option.bind_some, hlast]
  rfl

theorem readSections?_render (p : Patch) :
    readSections? p.render = some (Numeral.ofInt p.baseVersion,
      Text.join diffEnd (p.diffs.map Diff.render), Numeral.ofNat p.docLength) :=
  readSections?_append (Numeral.not_mem_ofInt rfl (by decide) _) (Numeral.not_mem_ofNat rfl _) _

/-- Written diffs are found again where they were joined. -/
theorem pieces_join_render (ds : List Diff) :
    (if Text.join diffEnd (ds.map Diff.render) = [] then []
      else Text.pieces diffEnd (Text.join diffEnd (ds.map Diff.render))) = ds.map Diff.render := by
  by_cases hnil : ds = []
  · simp [hnil, Text.join]
  · rw [if_neg fun he => hnil (join_render_eq_nil_iff.mp he)]
    refine Text.pieces_join (by decide) (by simpa using hnil) fun line hline => ?_
    obtain ⟨d, -, rfl⟩ := List.mem_map.mp hline
    exact Text.not_infix_of_not_mem (Diff.not_mem_render (by decide) d) ['\n']

theorem readParts?_render (h : p.Sendable) :
    readParts? p.render = some (p.baseVersion, p.diffs.map Diff.render, p.docLength) := by
  simp [readParts?, readSections?_render, Numeral.readInt?_ofInt h.baseVersion,
    Numeral.readWord?_ofNat h.docLength, pieces_join_render]

/-- What is sent is read. -/
theorem parse_render (h : p.Sendable) : parse p.render = .ok p := by
  rw [parse, readParts?_render h]
  dsimp only
  rw [mapM_map_eq_ok fun d hd => Diff.parse_render (h.diffs d hd)]
  show Except.ok (ofDiffs p.baseVersion p.diffs p.docLength) = _
  rw [ofDiffs, Diff.simplify_eq_self h.simplified]

/-! ### On machine numbers -/

/-- The diffs of a text that can be read are joinable. -/
def JoinableText (written : Text) : Prop :=
  ∀ version lines length diffs, readParts? written = some (version, lines, length) →
    lines.mapM Diff.parse = .ok diffs → Diff.Joinable diffs

theorem parse?_eq_some_iff {written : Text} {read : Except FormatError Patch} :
    parse? written = some read ↔ JoinableText written ∧ read = parse written := by
  unfold parse? parse JoinableText
  cases readParts? written with
  | none => simp [eq_comm]
  | some parts =>
    obtain ⟨version, lines, length⟩ := parts
    simp only [Option.some.injEq, Prod.mk.injEq]
    cases hlines : lines.mapM Diff.parse with
    | error error =>
      constructor
      · rintro h
        refine ⟨?_, (Option.some.inj h).symm⟩
        rintro _ _ _ diffs ⟨rfl, rfl, rfl⟩ hdiffs
        cases hlines.symm.trans hdiffs
      · rintro ⟨-, rfl⟩
        rfl
    | ok diffs =>
      simp only [Option.map_eq_some_iff, ofDiffs?_eq_some_iff]
      constructor
      · rintro ⟨_, ⟨hjoin, rfl⟩, rfl⟩
        refine ⟨?_, rfl⟩
        rintro _ _ _ _ ⟨rfl, rfl, rfl⟩ hdiffs
        exact Except.ok.inj (hlines.symm.trans hdiffs) ▸ hjoin
      · rintro ⟨hjoin, rfl⟩
        exact ⟨_, ⟨hjoin _ _ _ _ ⟨rfl, rfl, rfl⟩ hlines, rfl⟩, rfl⟩

theorem parse?_eq_none_iff {written : Text} : parse? written = none ↔ ¬JoinableText written := by
  rw [Option.eq_none_iff_forall_ne_some]
  simp [parse?_eq_some_iff]

theorem parse_of_parse? {written : Text} {read : Except FormatError Patch}
    (h : parse? written = some read) : parse written = read :=
  (parse?_eq_some_iff.mp h).2.symm

theorem parse?_render (h : p.Sendable) (hjoin : Diff.Joinable p.diffs) :
    parse? p.render = some (.ok p) := by
  refine parse?_eq_some_iff.mpr ⟨fun version lines length diffs hparts hlines => ?_,
    (parse_render h).symm⟩
  obtain ⟨-, rfl, -⟩ : p.baseVersion = version ∧ p.diffs.map Diff.render = lines ∧ _ := by
    simpa using (readParts?_render h).symm.trans hparts
  rw [mapM_map_eq_ok fun d hd => Diff.parse_render (h.diffs d hd)] at hlines
  exact Except.ok.inj hlines ▸ hjoin

end Patch

end Coedit
