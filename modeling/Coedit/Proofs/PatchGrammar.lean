import Coedit.Proofs.Wire

/-!
What is read as a patch. A written patch is laid out as a version, a line for each diff and a length,
with separators between them, and no text can be laid out in two readable ways. The texts that can be
are the texts that are read, where their diffs are joinable; where they are not nothing comes of
reading them (`parse_grammar`, `parse_grammar_last_index`). A readable line holds no separator, and
neither do readable numbers, which is why the parser cuts where the separators are.
-/
namespace Coedit

namespace Text

variable {c : Char} {sep t : Text} {texts : List Text}

theorem join_cons (sep t : Text) (h : texts ≠ []) :
    join sep (t :: texts) = t ++ sep ++ join sep texts := by
  cases texts with
  | nil => exact absurd rfl h
  | cons next more => rfl

theorem join_cons_cons (sep : Text) (c : Char) (t : Text) (texts : List Text) :
    join sep ((c :: t) :: texts) = c :: join sep (t :: texts) := by
  cases texts <;> rfl

theorem prefix_join_cons (sep t : Text) (texts : List Text) : t <+: join sep (t :: texts) := by
  cases texts with
  | nil => exact List.prefix_rfl
  | cons next more => exact ⟨sep ++ join sep (next :: more), (List.append_assoc ..).symm⟩

/-- Every text is joined of texts without the separator. -/
theorem exists_join_eq (c : Char) (sep text : Text) :
    ∃ texts, texts ≠ [] ∧ (∀ t ∈ texts, ¬(c :: sep) <:+: t) ∧ join (c :: sep) texts = text := by
  -- by length, because a whole separator is taken off at once
  induction hn : text.length using Nat.strongRecOn generalizing text with
  | ind n ih =>
    cases text with
    | nil => exact ⟨[[]], by simp, by simp, rfl⟩
    | cons x xs =>
      rw [List.length_cons] at hn
      by_cases hp : (c :: sep) <+: x :: xs
      · obtain ⟨rest, hrest⟩ := hp
        have hlength := congrArg List.length hrest
        simp only [List.length_append, List.length_cons] at hlength
        obtain ⟨texts, hne, htexts, rfl⟩ := ih rest.length (by omega) rest rfl
        refine ⟨[] :: texts, by simp, List.forall_mem_cons.mpr ⟨by simp, htexts⟩, ?_⟩
        rw [join_cons _ _ hne, ← hrest]
        rfl
      · obtain ⟨texts, hne, htexts, rfl⟩ := ih xs.length (by omega) xs rfl
        obtain ⟨t, texts, rfl⟩ := List.exists_cons_of_ne_nil hne
        obtain ⟨ht, htexts⟩ := List.forall_mem_cons.mp htexts
        refine ⟨(x :: t) :: texts, by simp, List.forall_mem_cons.mpr ⟨fun hin => ?_, htexts⟩,
          join_cons_cons ..⟩
        rcases List.infix_cons_iff.mp hin with hfront | hin
        · exact hp (hfront.trans (List.cons_prefix_cons.mpr ⟨rfl, prefix_join_cons ..⟩))
        · exact ht hin

/-- The pieces of a text are the texts without the separator that it is joined of. -/
theorem pieces_spec (hc : c ∉ sep) (text : Text) :
    (∀ t ∈ pieces (c :: sep) text, ¬(c :: sep) <:+: t) ∧
      join (c :: sep) (pieces (c :: sep) text) = text := by
  obtain ⟨texts, hne, htexts, rfl⟩ := exists_join_eq c sep text
  rw [pieces_join hc hne htexts]
  exact ⟨htexts, rfl⟩

end Text

namespace Numeral

variable {c : Char} {t : Text}

theorem not_mem_of_value? {n : Nat} (h : value? t = some n) (hc : c.isDigit = false) : c ∉ t := by
  intro hmem
  rw [value?] at h
  split at h
  · rename_i hdigits
    have hdigit := List.all_eq_true.mp hdigits.2 c hmem
    rw [hc] at hdigit
    cases hdigit
  · cases h

/-- A number that is read is of digits and signs. -/
theorem not_mem_of_readWord? {n : Nat} (h : readWord? t = some n) (hc : c.isDigit = false)
    (hplus : c ≠ '+') : c ∉ t := by
  unfold readWord? at h
  split at h
  · have hdigits := not_mem_of_value? (Option.filter_eq_some_iff.mp h).1 hc
    simpa [hplus] using hdigits
  · exact not_mem_of_value? (Option.filter_eq_some_iff.mp h).1 hc

theorem not_mem_of_readInt? {n : Int} (h : readInt? t = some n) (hc : c.isDigit = false)
    (hplus : c ≠ '+') (hminus : c ≠ '-') : c ∉ t := by
  have hmagnitude := (Option.filter_eq_some_iff.mp h).1
  split at hmagnitude <;> obtain ⟨m, hm, -⟩ := Option.map_eq_some_iff.mp hmagnitude
  · simpa [hplus] using not_mem_of_value? hm hc
  · simpa [hminus] using not_mem_of_value? hm hc
  · exact not_mem_of_value? hm hc

theorem ofNat_injective {m n : Nat} (h : ofNat m = ofNat n) : m = n := by
  have hm := value?_ofNat m
  rw [h, value?_ofNat n] at hm
  exact (Option.some.inj hm).symm

theorem ofInt_injective {m n : Int} (h : ofInt m = ofInt n) : m = n := by
  have hsign (k k' : Nat) : ofNat k ≠ '-' :: ofNat k' := fun he =>
    not_mem_ofNat (c := '-') rfl k (he ▸ List.mem_cons_self)
  cases m with
  | ofNat m =>
    cases n with
    | ofNat n => rw [ofNat_injective h]
    | negSucc n => exact absurd h (hsign m (n + 1))
  | negSucc m =>
    cases n with
    | ofNat n => exact absurd h.symm (hsign n (m + 1))
    | negSucc n => rw [Nat.succ.inj (ofNat_injective (List.cons.inj h).2)]

end Numeral

namespace Diff

/-- Diffs are told apart by their written forms. -/
theorem render_injective {d e : Diff} (h : d.render = e.render) : d = e := by
  have hcolon : Char.isDigit ':' = false := rfl
  simp only [render, renderWith, List.append_assoc, List.cons_append] at h
  have hstart := congrArg (List.takeWhile Char.isDigit) h
  have hrest := congrArg (List.dropWhile Char.isDigit) h
  rw [Numeral.takeWhile_ofNat hcolon, Numeral.takeWhile_ofNat hcolon] at hstart
  rw [Numeral.dropWhile_ofNat hcolon, Numeral.dropWhile_ofNat hcolon, List.cons.injEq,
    List.cons.injEq] at hrest
  have hbody := congrArg (List.dropWhile Char.isDigit) hrest.2.2
  rw [Numeral.dropWhile_ofNat hcolon, Numeral.dropWhile_ofNat hcolon, List.cons.injEq] at hbody
  have htext := Percent.decode_encode d.text
  rw [hbody.2, Percent.decode_encode] at htext
  have hkind : d.kind = e.kind := by
    have hsign := hrest.2.1
    cases hd : d.kind <;> cases he : e.kind <;> simp [hd, he, Kind.sign] at hsign ⊢
  obtain ⟨kind, start, text⟩ := d
  obtain ⟨kind', start', text'⟩ := e
  rw [Diff.mk.injEq]
  exact ⟨hkind, Numeral.ofNat_injective hstart, (Except.ok.inj htext).symm⟩

end Diff

namespace Patch

variable {written : Text} {p : Patch}

/-- The texts of which a written patch is made. -/
structure Layout where
  version : Text
  lines : List Text
  length : Text
  deriving DecidableEq, Repr

namespace Layout

variable {l l' : Layout} {version : Int} {length : Nat} {diffs : List Diff}

def text (l : Layout) : Text :=
  'v' :: l.version ++ sectionEnd ++ Text.join diffEnd l.lines ++ sectionEnd ++ l.length

structure Numbers (l : Layout) (version : Int) (length : Nat) : Prop where
  version_eq : Numeral.readInt? l.version = some version
  length_eq : Numeral.readWord? l.length = some length

/-- Both numbers are read, and each line is read as a diff. -/
structure Reads (l : Layout) (version : Int) (diffs : List Diff) (length : Nat) : Prop
    extends Numbers l version length where
  lines_eq : List.Forall₂ (fun line d => Diff.parse line = .ok d) l.lines diffs

/-- There are lines, and none of them holds what stands between two. -/
structure Split (l : Layout) : Prop where
  body_ne_nil : Text.join diffEnd l.lines ≠ []
  not_infix : ∀ line ∈ l.lines, ¬diffEnd <:+: line

theorem readSections?_text (h : l.Numbers version length) :
    readSections? l.text = some (l.version, Text.join diffEnd l.lines, l.length) :=
  readSections?_append
    (Numeral.not_mem_of_readInt? h.version_eq (by decide) (by decide) (by decide))
    (Numeral.not_mem_of_readWord? h.length_eq (by decide) (by decide)) _

theorem readParts?_text (h : l.Numbers version length) :
    readParts? l.text = some (version,
      if Text.join diffEnd l.lines = [] then [] else Text.pieces diffEnd (Text.join diffEnd l.lines),
      length) := by
  simp [readParts?, readSections?_text h, h.version_eq, h.length_eq]

theorem readParts?_of_split (h : l.Numbers version length) (hs : l.Split) :
    readParts? l.text = some (version, l.lines, length) := by
  have hpieces : Text.pieces diffEnd (Text.join diffEnd l.lines) = l.lines :=
    Text.pieces_join (by decide) (fun hnil => hs.body_ne_nil (by rw [hnil]; rfl)) hs.not_infix
  rw [readParts?_text h, if_neg hs.body_ne_nil, hpieces]

/-- Lines that are read are written diffs. -/
theorem Reads.lines_eq_map (h : l.Reads version diffs length) :
    l.lines = diffs.map Diff.render := by
  have hrender : List.Forall₂ (· = ·) l.lines (diffs.map Diff.render) :=
    List.forall₂_map_right_iff.mpr
      (h.lines_eq.imp fun _ _ hline => (Diff.render_eq_of_parse hline).symm)
  rwa [List.forall₂_eq_eq_eq] at hrender

theorem readParts?_of_reads (h : l.Reads version diffs length) :
    readParts? l.text = some (version, l.lines, length) := by
  rw [readParts?_text h.toNumbers, h.lines_eq_map, pieces_join_render]

end Layout

/-- What is cut at the first and the last section end is put together again. -/
theorem eq_of_readSections? {version body length : Text}
    (h : readSections? written = some (version, body, length)) :
    written = 'v' :: version ++ sectionEnd ++ body ++ sectionEnd ++ length := by
  unfold readSections? at h
  split at h
  · obtain ⟨⟨front, rest⟩, hfirst, h⟩ := Option.bind_eq_some_iff.mp h
    obtain ⟨⟨middle, back⟩, hlast, h⟩ := Option.bind_eq_some_iff.mp h
    cases h
    rw [Text.eq_of_cutFirst? hfirst, Text.eq_of_cutLast? hlast]
    simp
  · cases h

/-- Where the parts of a text are read, it is laid out in these parts. -/
theorem exists_layout {version : Int} {lines : List Text} {length : Nat}
    (h : readParts? written = some (version, lines, length)) :
    ∃ l : Layout, l.text = written ∧ l.Numbers version length ∧ l.lines = lines ∧
      (lines ≠ [] → l.Split) := by
  obtain ⟨⟨front, body, back⟩, hsections, h⟩ := Option.bind_eq_some_iff.mp h
  obtain ⟨v, hversion, h⟩ := Option.bind_eq_some_iff.mp h
  obtain ⟨n, hlength, h⟩ := Option.bind_eq_some_iff.mp h
  obtain ⟨rfl, hlines, rfl⟩ :
      v = version ∧ (if body = [] then [] else Text.pieces diffEnd body) = lines ∧ n = length := by
    simpa using h
  obtain ⟨hsplit, hjoin⟩ := Text.pieces_spec (c := ',') (by decide : ',' ∉ ['\n']) body
  by_cases hbody : body = []
  · rw [if_pos hbody] at hlines
    refine ⟨⟨front, lines, back⟩, ?_, ⟨hversion, hlength⟩, rfl, fun hne => absurd hlines.symm hne⟩
    rw [eq_of_readSections? hsections, hbody, ← hlines]
    rfl
  · rw [if_neg hbody] at hlines
    subst hlines
    refine ⟨⟨front, Text.pieces diffEnd body, back⟩, ?_, ⟨hversion, hlength⟩, rfl,
      fun _ => ⟨fun hnil => hbody (hjoin.symm.trans hnil), hsplit⟩⟩
    rw [eq_of_readSections? hsections, Layout.text]
    exact congrArg (fun middle => 'v' :: front ++ sectionEnd ++ middle ++ sectionEnd ++ back) hjoin

theorem parse_of_readParts? {version : Int} {lines : List Text} {length : Nat}
    (h : readParts? written = some (version, lines, length)) :
    parse written = (lines.mapM Diff.parse).map fun diffs => ofDiffs version diffs length := by
  rw [parse, h]
  dsimp only
  cases lines.mapM Diff.parse <;> rfl

theorem parse_eq_malformedPatch (h : readParts? written = none) :
    parse written = .error (.malformedPatch written) := by
  rw [parse, h]

theorem parse_ok_iff_layout : parse written = .ok p ↔ ∃ l : Layout, ∃ version diffs length,
    l.text = written ∧ l.Reads version diffs length ∧ p = ofDiffs version diffs length := by
  constructor
  · intro h
    cases hparts : readParts? written with
    | none =>
      rw [parse_eq_malformedPatch hparts] at h
      cases h
    | some parts =>
      obtain ⟨version, lines, length⟩ := parts
      rw [parse_of_readParts? hparts] at h
      obtain ⟨diffs, hdiffs, rfl⟩ := map_eq_ok_iff.mp h
      obtain ⟨l, htext, hnumbers, rfl, -⟩ := exists_layout hparts
      exact ⟨l, version, diffs, length, htext, ⟨hnumbers, mapM_eq_ok_iff.mp hdiffs⟩, rfl⟩
  · rintro ⟨l, version, diffs, length, rfl, hreads, rfl⟩
    rw [parse_of_readParts? (Layout.readParts?_of_reads hreads), mapM_eq_ok_iff.mpr hreads.lines_eq]
    rfl

/-- Two readable layouts of one text are one. -/
theorem Layout.Reads.unique {l l' : Layout} {version version' : Int} {diffs diffs' : List Diff}
    {length length' : Nat} (h : l.Reads version diffs length)
    (h' : l'.Reads version' diffs' length') (htext : l.text = l'.text) : l = l' := by
  have hsections := Layout.readSections?_text h.toNumbers
  have hparts := Layout.readParts?_of_reads h
  rw [htext, Layout.readSections?_text h'.toNumbers, Option.some_inj, Prod.mk.injEq,
    Prod.mk.injEq] at hsections
  rw [htext, Layout.readParts?_of_reads h', Option.some_inj, Prod.mk.injEq, Prod.mk.injEq] at hparts
  obtain ⟨version, lines, length⟩ := l
  obtain ⟨version', lines', length'⟩ := l'
  simp only [Layout.mk.injEq]
  exact ⟨hsections.1.symm, hparts.2.1.symm, hsections.2.2.symm⟩

theorem parse_error_iff_layout {e : FormatError} : parse written = .error e ↔
    (∃ l : Layout, ∃ version length, l.text = written ∧ l.Numbers version length ∧ l.Split ∧
      ∃ good bad more, l.lines = good ++ bad :: more ∧
        (∀ line ∈ good, ∃ d, Diff.parse line = .ok d) ∧ Diff.parse bad = .error e) ∨
    e = .malformedPatch written ∧
      ¬∃ l : Layout, ∃ version length, l.text = written ∧ l.Numbers version length := by
  constructor
  · intro h
    cases hparts : readParts? written with
    | none =>
      rw [parse_eq_malformedPatch hparts] at h
      refine .inr ⟨(Except.error.inj h).symm, ?_⟩
      rintro ⟨l, version, length, rfl, hnumbers⟩
      rw [Layout.readParts?_text hnumbers] at hparts
      cases hparts
    | some parts =>
      obtain ⟨version, lines, length⟩ := parts
      rw [parse_of_readParts? hparts, map_eq_error_iff] at h
      obtain ⟨l, htext, hnumbers, rfl, hsplit⟩ := exists_layout hparts
      obtain ⟨good, bad, more, hsplit', hgood, hbad⟩ := mapM_eq_error_iff.mp h
      exact .inl ⟨l, version, length, htext, hnumbers, hsplit (by simp [hsplit']), good, bad, more,
        hsplit', hgood, hbad⟩
  · rintro (⟨l, version, length, rfl, hnumbers, hsplit, hlines⟩ | ⟨rfl, hnone⟩)
    · rw [parse_of_readParts? (Layout.readParts?_of_split hnumbers hsplit),
        mapM_eq_error_iff.mpr hlines]
      rfl
    · refine parse_eq_malformedPatch (Option.eq_none_iff_forall_not_mem.mpr fun parts hparts => ?_)
      obtain ⟨version, lines, length⟩ := parts
      obtain ⟨l, htext, hnumbers, -⟩ := exists_layout hparts
      exact hnone ⟨l, version, length, htext, hnumbers⟩

/-- A text that can be laid out in a readable way has the diffs of that layout. -/
theorem Layout.Reads.joinableText_iff {l : Layout} {version : Int} {diffs : List Diff} {length : Nat}
    (h : l.Reads version diffs length) : JoinableText l.text ↔ Diff.Joinable diffs := by
  have hdiffs := mapM_eq_ok_iff.mpr h.lines_eq
  constructor
  · intro hjoin
    exact hjoin _ _ _ _ (Layout.readParts?_of_reads h) hdiffs
  · rintro hjoin _ lines _ diffs' hparts hdiffs'
    rw [Layout.readParts?_of_reads h, Option.some_inj, Prod.mk.injEq, Prod.mk.injEq] at hparts
    rw [← hparts.2.1, hdiffs] at hdiffs'
    exact Except.ok.inj hdiffs' ▸ hjoin

/-- What is not read has no diffs to join. -/
theorem joinableText_of_error {e : FormatError} (h : parse written = .error e) :
    JoinableText written := by
  intro version lines length diffs hparts hdiffs
  rw [parse_of_readParts? hparts, hdiffs] at h
  cases h

theorem parse?_ok_iff_layout : parse? written = some (.ok p) ↔
    ∃ l : Layout, ∃ version diffs length, l.text = written ∧ l.Reads version diffs length ∧
      Diff.Joinable diffs ∧ p = ofDiffs version diffs length := by
  rw [parse?_eq_some_iff, eq_comm, parse_ok_iff_layout]
  constructor
  · rintro ⟨hjoin, l, version, diffs, length, rfl, hreads, rfl⟩
    exact ⟨l, version, diffs, length, rfl, hreads, hreads.joinableText_iff.mp hjoin, rfl⟩
  · rintro ⟨l, version, diffs, length, rfl, hreads, hjoin, rfl⟩
    exact ⟨hreads.joinableText_iff.mpr hjoin, l, version, diffs, length, rfl, hreads, rfl⟩

theorem parse?_none_iff_layout : parse? written = none ↔
    ∃ l : Layout, ∃ version diffs length, l.text = written ∧ l.Reads version diffs length ∧
      ¬Diff.Joinable diffs := by
  rw [parse?_eq_none_iff]
  constructor
  · intro hnot
    cases hparse : parse written with
    | error e => exact absurd (joinableText_of_error hparse) hnot
    | ok p =>
      obtain ⟨l, version, diffs, length, rfl, hreads, -⟩ := parse_ok_iff_layout.mp hparse
      exact ⟨l, version, diffs, length, rfl, hreads, fun hjoin =>
        hnot (hreads.joinableText_iff.mpr hjoin)⟩
  · rintro ⟨l, version, diffs, length, rfl, hreads, hnot⟩ hjoin
    exact hnot (hreads.joinableText_iff.mp hjoin)

theorem parse?_error_iff {e : FormatError} :
    parse? written = some (.error e) ↔ parse written = .error e := by
  rw [parse?_eq_some_iff]
  exact ⟨fun h => h.2.symm, fun h => ⟨joinableText_of_error h, h.symm⟩⟩

/-- The texts that are read as a patch are the readable layouts, each of which is the only one of its
text; but nothing comes of a layout whose diffs are not joinable. Where only the numbers are readable,
the first line that is not says why; everything else is malformed. -/
theorem parse_grammar (written : Text) :
    (∀ p, parse? written = some (.ok p) ↔ ∃ l : Layout, ∃ version diffs length,
      l.text = written ∧ l.Reads version diffs length ∧ Diff.Joinable diffs ∧
        p = ofDiffs version diffs length) ∧
    (∀ (l l' : Layout) (version version' : Int) (diffs diffs' : List Diff) (length length' : Nat),
      l.text = written → l'.text = written → l.Reads version diffs length →
        l'.Reads version' diffs' length' → l = l') ∧
    (∀ e, parse? written = some (.error e) ↔
      (∃ l : Layout, ∃ version length, l.text = written ∧ l.Numbers version length ∧ l.Split ∧
        ∃ good bad more, l.lines = good ++ bad :: more ∧
          (∀ line ∈ good, ∃ d, Diff.parse line = .ok d) ∧ Diff.parse bad = .error e) ∨
      e = .malformedPatch written ∧
        ¬∃ l : Layout, ∃ version length, l.text = written ∧ l.Numbers version length) ∧
    (parse? written = none ↔ ∃ l : Layout, ∃ version diffs length,
      l.text = written ∧ l.Reads version diffs length ∧ ¬Diff.Joinable diffs) :=
  ⟨fun _ => parse?_ok_iff_layout,
    fun _ _ _ _ _ _ _ _ htext htext' h h' => h.unique h' (htext.trans htext'.symm),
    fun _ => parse?_error_iff.trans parse_error_iff_layout, parse?_none_iff_layout⟩

/-- A plus sign and a leading zero are read, and the first of two lines that cannot be read is
reported. -/
theorem parse_grammar_plus_sign :
    let written := "v+7:\n0:+1:a,\n2:-1:b:\n03".toList
    let l : Layout := ⟨"+7".toList, ["0:+1:a".toList, "2:-1:b".toList], "03".toList⟩
    let broken := "v7:\n0:+1:a,\n0:+2:a,\n0,:+1:a:\n3".toList
    l.text = written ∧ l.Reads 7 [.insertion 0 ['a'], .deletion 2 ['b']] 3 ∧
      parse? written = some (.ok ⟨7, [.insertion 0 ['a'], .deletion 2 ['b']], 3⟩) ∧
      (∀ (l' : Layout) (version : Int) (diffs : List Diff) (length : Nat),
        l'.text = written → l'.Reads version diffs length → l' = l) ∧
      parse? broken = some (.error (.lengthMismatch 2 1)) := by
  intro written l broken
  have htext : l.text = written := rfl
  have hreads : l.Reads 7 [.insertion 0 ['a'], .deletion 2 ['b']] 3 :=
    ⟨⟨by decide +kernel, by decide +kernel⟩,
      .cons (by decide +kernel) (.cons (by decide +kernel) .nil)⟩
  have hbroken : (⟨"7".toList, ["0:+1:a".toList, "0:+2:a".toList, "0,:+1:a".toList], "3".toList⟩ :
      Layout).Split := ⟨by decide +kernel, by decide +kernel⟩
  obtain ⟨hok, hunique, -⟩ := parse_grammar written
  obtain ⟨-, -, herror, -⟩ := parse_grammar broken
  refine ⟨htext, hreads, (hok _).mpr ⟨l, 7, _, 3, htext, hreads, by decide, by decide +kernel⟩,
    fun l' version diffs length htext' hreads' =>
      hunique l' l version 7 diffs _ length 3 htext' htext hreads' hreads, (herror _).mpr (.inl ?_)⟩
  exact ⟨_, 7, 3, rfl, ⟨by decide +kernel, by decide +kernel⟩, hbroken, ["0:+1:a".toList],
    "0:+2:a".toList, ["0,:+1:a".toList], rfl,
    by simpa using ⟨.insertion 0 ['a'], by decide +kernel⟩, by decide +kernel⟩

/-- Two readable deletions, of which the first begins at the last index there is. Where it ends is no
number, so that nothing comes of reading them. -/
theorem parse_grammar_last_index :
    let written := "v0:\n18446744073709551615:-1:a,\n0:-1:b:\n0".toList
    let l : Layout := ⟨"0".toList, ["18446744073709551615:-1:a".toList, "0:-1:b".toList],
      "0".toList⟩
    l.text = written ∧
      l.Reads 0 [.deletion 18446744073709551615 ['a'], .deletion 0 ['b']] 0 ∧
      parse? written = none := by
  refine ⟨rfl, ⟨⟨by decide +kernel, by decide +kernel⟩,
    .cons (by decide +kernel) (.cons (by decide +kernel) .nil)⟩, by decide +kernel⟩

/-! ### Written back -/

/-- Both numbers of a written patch are written as numbers are shown. -/
def PlainNumbers (written : Text) : Prop :=
  ∃ (version : Int) (body : Text) (length : Nat), written =
    'v' :: Numeral.ofInt version ++ sectionEnd ++ body ++ sectionEnd ++ Numeral.ofNat length

/-- Patches are told apart by their written forms. -/
theorem render_injective {q : Patch} (h : p.render = q.render) : p = q := by
  have hsections := readSections?_render p
  rw [h, readSections?_render q, Option.some_inj, Prod.mk.injEq, Prod.mk.injEq] at hsections
  obtain ⟨hversion, hbody, hlength⟩ := hsections
  have hlines := pieces_join_render p.diffs
  rw [← hbody, pieces_join_render] at hlines
  obtain ⟨version, diffs, length⟩ := p
  obtain ⟨version', diffs', length'⟩ := q
  rw [Patch.mk.injEq]
  exact ⟨(Numeral.ofInt_injective hversion).symm,
    (List.map_injective_iff.mpr (fun _ _ => Diff.render_injective) hlines).symm,
    (Numeral.ofNat_injective hlength).symm⟩

/-- A text that is read and shows its numbers plainly is written back with its diffs simplified: as it
was exactly if there is nothing to simplify. -/
theorem writes_back_simplified (h : parse? written = some (.ok p)) (hn : PlainNumbers written) :
    ∃ diffs : List Diff, written = ({ p with diffs } : Patch).render ∧
      p.diffs = Diff.simplify diffs ∧ (p.render = written ↔ Diff.Simplified diffs) := by
  obtain ⟨l, version, diffs, length, htext, hreads, rfl⟩ :=
    parse_ok_iff_layout.mp (parse_of_parse? h)
  obtain ⟨shown, body, shownLength, rfl⟩ := hn
  -- the text is cut at the same places whether it is seen as the layout or as the plain numbers
  have hsections := readSections?_append (Numeral.not_mem_ofInt rfl (by decide) shown)
    (Numeral.not_mem_ofNat rfl shownLength) body
  rw [← htext, Layout.readSections?_text hreads.toNumbers, Option.some_inj, Prod.mk.injEq,
    Prod.mk.injEq] at hsections
  obtain ⟨hversion, hbody, hlength⟩ := hsections
  have hshown := hreads.version_eq
  rw [hversion, Numeral.readInt?_ofInt_eq] at hshown
  obtain rfl := Option.some.inj (Option.filter_eq_some_iff.mp hshown).1
  have hshown := hreads.length_eq
  rw [hlength, Numeral.readWord?_ofNat_eq] at hshown
  obtain rfl := Option.some.inj (Option.filter_eq_some_iff.mp hshown).1
  have hwritten : 'v' :: Numeral.ofInt shown ++ sectionEnd ++ body ++ sectionEnd ++
      Numeral.ofNat shownLength = render ⟨shown, diffs, shownLength⟩ := by
    rw [render, ← hbody, hreads.lines_eq_map]
  refine ⟨diffs, hwritten, rfl, ?_⟩
  rw [hwritten]
  constructor
  · intro hsame
    have hdiffs : Diff.simplify diffs = diffs := congrArg Patch.diffs (render_injective hsame)
    exact hdiffs ▸ Diff.simplified_simplify diffs
  · intro hs
    rw [ofDiffs, Diff.simplify_eq_self hs]

/-- Two deletions that continue each other, in front of an insertion. -/
theorem writes_back_simplified_joined :
    let written := "v-3:\n4:-2:ab,\n6:-1:c,\n9:+1:%0A:\n8".toList
    let p : Patch := ⟨-3, [.deletion 4 ['a', 'b', 'c'], .insertion 9 ['\n']], 8⟩
    parse? written = some (.ok p) ∧ PlainNumbers written ∧
      p.render = "v-3:\n4:-3:abc,\n9:+1:%0A:\n8".toList ∧
      ∃ diffs : List Diff, written = ({ p with diffs } : Patch).render ∧
        p.diffs = Diff.simplify diffs ∧ (p.render = written ↔ Diff.Simplified diffs) := by
  intro written p
  have hparse : parse? written = some (.ok p) := by decide +kernel
  have hplain : PlainNumbers written :=
    ⟨-3, "4:-2:ab,\n6:-1:c,\n9:+1:%0A".toList, 8, by decide +kernel⟩
  exact ⟨hparse, hplain, by decide +kernel, writes_back_simplified hparse hplain⟩

/-- Two insertions at one index are written back as one. -/
theorem writes_back_otherwise :
    let written := "v0:\n0:+1:a,\n0:+1:b:\n2".toList
    ∃ p, parse? written = some (.ok p) ∧ p.render = "v0:\n0:+2:ab:\n2".toList ∧
      p.render ≠ written := by
  refine ⟨⟨0, [.insertion 0 ['a', 'b']], 2⟩, ?_⟩
  decide +kernel

theorem plainNumbers_render (p : Patch) : PlainNumbers p.render :=
  ⟨p.baseVersion, Text.join diffEnd (p.diffs.map Diff.render), p.docLength, rfl⟩

/-- Numbers can be spelled otherwise, and nothing spelled so is written back as it was. -/
theorem render_ne_of_not_plain (h : ¬PlainNumbers written) (p : Patch) : p.render ≠ written :=
  fun he => h (he ▸ plainNumbers_render p)

/-- A plus sign and a leading zero are read and not written. -/
theorem writes_back_second_spelling :
    let written := "v+1:\n:\n03".toList
    ∃ p, parse? written = some (.ok p) ∧ p.render = "v1:\n:\n3".toList ∧
      p.render ≠ written ∧ ¬PlainNumbers written := by
  intro written
  have hplain : ¬PlainNumbers written := by
    rintro ⟨version, body, length, h⟩
    have hplus : '+' ∉ Numeral.ofInt version := Numeral.not_mem_ofInt rfl (by decide) version
    cases hshown : Numeral.ofInt version with
    | nil =>
      rw [hshown] at h
      have hcolon : '+' = ':' := (List.cons.inj (List.cons.inj h).2).1
      exact absurd hcolon (by decide)
    | cons c rest =>
      rw [hshown] at h hplus
      obtain rfl : '+' = c := (List.cons.inj (List.cons.inj h).2).1
      exact hplus List.mem_cons_self
  exact ⟨⟨1, [], 3⟩, by decide +kernel, by decide +kernel, render_ne_of_not_plain hplain _, hplain⟩

end Patch

end Coedit
