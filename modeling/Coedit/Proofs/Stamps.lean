import Coedit.Documents

/-!
A stamp identifies a text: as long as a file shows one stamp it shows one text, whatever calls come in
between, and a patch made for a stamp is taken only by the text that was seen with it
(`stamp_identifies_text`). A call either writes its file, one stamp later, or leaves every file as it
was, but that the file may be made, empty (`call_cases`); so what a file shows later on has a higher
stamp or is what it showed (`later_after`).
-/
namespace Coedit.Documents

variable {docs docs' docs'' : Documents} {file : FileId} {patch : Patch} {expected stamp : Int}

theorem buffer_set_self (docs : Documents) (file other : FileId) :
    buffer (docs.set file (docs.buffer file)) other = docs.buffer other := by
  rw [buffer_set]
  split
  · rename_i hfile
    rw [hfile]
  · rfl

/-- An edit that fits is written one stamp later, and any other leaves the document as it is. -/
theorem edit_cases (docs : Documents) (file : FileId) (patch : Patch) :
    (∃ text, patch.apply (docs.buffer file).text = .ok text ∧
      docs.edit file patch =
        (docs.set file ((docs.buffer file).write text), .ok (docs.stamp file + 1))) ∨
    ∃ error, patch.apply (docs.buffer file).text = .error error ∧
      docs.edit file patch = (docs.set file (docs.buffer file), .error error) := by
  unfold edit
  dsimp only
  cases patch.apply (docs.buffer file).text with
  | error error => exact .inr ⟨error, rfl, rfl⟩
  | ok text => exact .inl ⟨text, rfl, rfl⟩

theorem stamp_le_edit (docs : Documents) (file : FileId) (patch : Patch) :
    docs.stamp file ≤ (docs.edit file patch).1.stamp file := by
  unfold stamp
  rcases docs.edit_cases file patch with ⟨text, -, hedit⟩ | ⟨error, -, hedit⟩
  · rw [hedit, buffer_set_same]
    exact Int.le_add_one (Int.le_refl _)
  · rw [hedit]
    exact Int.le_of_eq (congrArg Buffer.stamp (docs.buffer_set_same file _)).symm

/-- A patch is taken for the expected stamp alone, as an edit is; otherwise the document stays as it
is. -/
theorem apply_cases (docs : Documents) (file : FileId) (patch : Patch) (expected : Int) :
    (∃ text, docs.stamp file = expected ∧ patch.apply (docs.buffer file).text = .ok text ∧
      docs.apply file patch expected =
        (docs.set file ((docs.buffer file).write text), .ok (some (docs.stamp file + 1)))) ∨
    (∃ error, docs.stamp file = expected ∧ patch.apply (docs.buffer file).text = .error error ∧
      docs.apply file patch expected = (docs.set file (docs.buffer file), .error error)) ∨
    docs.stamp file ≠ expected ∧
      docs.apply file patch expected = (docs.set file (docs.buffer file), .ok none) := by
  unfold apply
  split
  · rename_i hstamp
    rcases docs.edit_cases file patch with ⟨text, happly, hedit⟩ | ⟨error, happly, hedit⟩
    · exact .inl ⟨text, hstamp, happly, by rw [hedit]; rfl⟩
    · exact .inr (.inl ⟨error, hstamp, happly, by rw [hedit]; rfl⟩)
  · rename_i hstamp
    exact .inr (.inr ⟨hstamp, rfl⟩)

/-! ### Calls in any order -/

/-- What may change a document: a whole new text, an edit, or a patch made for an expected stamp. -/
inductive Change where
  | insert (text : Text)
  | edit (patch : Patch)
  | apply (patch : Patch) (expected : Int)

structure Call where
  file : FileId
  change : Change

/-- The documents after a call and its answer: the stamp that the file has then, none if the call is
refused, or why it fails. A whole new text is always accepted. -/
def call (docs : Documents) (c : Call) : Documents × Except ApplyError (Option Int) :=
  match c.change with
  | .insert text =>
    let docs := docs.insert c.file text
    (docs, .ok (some (docs.stamp c.file)))
  | .edit patch =>
    let (docs, result) := docs.edit c.file patch
    (docs, result.map some)
  | .apply patch expected => docs.apply c.file patch expected

def after (docs : Documents) (calls : List Call) : Documents :=
  calls.foldl (fun docs c => (docs.call c).1) docs

def Accepted (answer : Except ApplyError (Option Int)) : Prop := ∃ stamp, answer = .ok (some stamp)

variable {c : Call}

/-- A call writes its file, one stamp later, or it is not accepted and the file stays as it is. -/
theorem call_cases (docs : Documents) (c : Call) :
    (∃ text, docs.call c =
      (docs.set c.file ((docs.buffer c.file).write text), .ok (some (docs.stamp c.file + 1)))) ∨
    ∃ answer, ¬Accepted answer ∧ docs.call c = (docs.set c.file (docs.buffer c.file), answer) := by
  obtain ⟨file, change⟩ := c
  cases change with
  | insert text =>
    refine .inl ⟨text, ?_⟩
    simp only [call, insert, stamp, buffer_set_same]
    rfl
  | edit patch =>
    rcases docs.edit_cases file patch with ⟨text, -, hedit⟩ | ⟨error, -, hedit⟩
    · exact .inl ⟨text, by simp only [call, hedit]; rfl⟩
    · exact .inr ⟨.error error, by simp [Accepted], by simp only [call, hedit]; rfl⟩
  | apply patch expected =>
    rcases docs.apply_cases file patch expected with
      ⟨text, -, -, happly⟩ | ⟨error, -, -, happly⟩ | ⟨-, happly⟩
    · exact .inl ⟨text, happly⟩
    · exact .inr ⟨.error error, by simp [Accepted], happly⟩
    · exact .inr ⟨.ok none, by simp [Accepted], happly⟩

theorem call_of_accepted (h : (docs.call c).2 = .ok (some stamp)) :
    stamp = docs.stamp c.file + 1 ∧ (docs.call c).1.stamp c.file = stamp ∧
      ∀ file, file ≠ c.file → (docs.call c).1.get? file = docs.get? file := by
  rcases docs.call_cases c with ⟨text, hcall⟩ | ⟨answer, hanswer, hcall⟩
  · rw [hcall] at h ⊢
    obtain rfl := Option.some.inj (Except.ok.inj h)
    refine ⟨rfl, congrArg Buffer.stamp (docs.buffer_set_same c.file _), fun file hfile => ?_⟩
    exact Table.get?_set_of_ne (Ne.symm hfile) docs _
  · rw [hcall] at h
    exact absurd ⟨stamp, h⟩ hanswer

/-- A call that fails or is refused changes nothing, but that its file may be made. -/
theorem get?_call_of_not_accepted (h : ¬Accepted (docs.call c).2) (file : FileId) :
    (docs.call c).1.get? file = docs.get? file ∨
      docs.get? file = none ∧ (docs.call c).1.get? file = some ⟨[], 0⟩ := by
  rcases docs.call_cases c with ⟨text, hcall⟩ | ⟨answer, -, hcall⟩
  · exact absurd ⟨_, by rw [hcall]⟩ h
  rw [hcall, Table.get?_set]
  split
  · rename_i hfile
    subst hfile
    cases hknown : docs.get? c.file with
    | none => exact .inr ⟨rfl, by rw [buffer, hknown]; rfl⟩
    | some b => exact .inl (by rw [buffer, hknown]; rfl)
  · exact .inl rfl

theorem after_append (docs : Documents) (calls more : List Call) :
    docs.after (calls ++ more) = (docs.after calls).after more :=
  List.foldl_append

/-- What a file shows later on has a higher stamp, or is what it showed. -/
def Later (file : FileId) (docs docs' : Documents) : Prop :=
  docs.stamp file < docs'.stamp file ∨ docs'.buffer file = docs.buffer file

theorem Later.trans (h : Later file docs docs') (h' : Later file docs' docs'') :
    Later file docs docs'' := by
  unfold Later stamp at *
  rcases h with h | h
  · rcases h' with h' | h'
    · exact .inl (Int.lt_trans h h')
    · exact .inl (h'.symm ▸ h)
  · rwa [h] at h'

theorem Later.buffer_eq (h : Later file docs docs') (hs : docs'.stamp file = docs.stamp file) :
    docs'.buffer file = docs.buffer file :=
  h.resolve_left fun hlt => Int.lt_irrefl _ (hs ▸ hlt)

theorem later_call (docs : Documents) (c : Call) (file : FileId) :
    Later file docs (docs.call c).1 := by
  rcases docs.call_cases c with ⟨text, hcall⟩ | ⟨answer, -, hcall⟩
  · by_cases hfile : c.file = file
    · subst hfile
      refine .inl ?_
      rw [hcall, stamp, stamp, buffer_set_same]
      exact Int.lt_succ _
    · exact .inr (by rw [hcall, buffer_set, if_neg hfile])
  · exact .inr (by rw [hcall, buffer_set_self])

theorem later_after (docs : Documents) (calls : List Call) (file : FileId) :
    Later file docs (docs.after calls) := by
  induction calls generalizing docs with
  | nil => exact .inr rfl
  | cons c calls ih => exact (docs.later_call c file).trans (ih _)

/-- Two moments of one run that show the same stamp of a file show the same text and stamp. -/
theorem buffer_take_eq (docs : Documents) (calls : List Call) {i j : Nat}
    (hs : (docs.after (calls.take i)).stamp file = (docs.after (calls.take j)).stamp file) :
    (docs.after (calls.take i)).buffer file = (docs.after (calls.take j)).buffer file := by
  have hlater {i j : Nat} (hij : i ≤ j) :
      Later file (docs.after (calls.take i)) (docs.after (calls.take j)) := by
    have hsplit := List.take_append_drop i (calls.take j)
    rw [List.take_take, Nat.min_eq_left hij] at hsplit
    rw [← hsplit, after_append]
    exact later_after ..
  rcases Nat.le_total i j with hij | hij
  · exact ((hlater hij).buffer_eq hs.symm).symm
  · exact (hlater hij).buffer_eq hs

theorem stamp_eq_of_accepted (h : Accepted (docs.call ⟨file, .apply patch expected⟩).2) :
    docs.stamp file = expected := by
  obtain ⟨stamp, h⟩ := h
  change (docs.apply file patch expected).2 = .ok (some stamp) at h
  rcases docs.apply_cases file patch expected with
    ⟨text, hstamp, -, -⟩ | ⟨error, hstamp, -, -⟩ | ⟨-, happly⟩
  · exact hstamp
  · exact hstamp
  · rw [happly] at h
    cases h

/-- An accepted call raises the stamp of its file by one and changes no other file. A call that fails
or is refused changes no file, but that one which was unknown may be there, empty. So all moments of a
run that show the same stamp of a file show the same text, and a patch is taken for an expected stamp
only by the text that was seen with it. -/
theorem stamp_identifies_text (docs : Documents) :
    (∀ (c : Call) (stamp : Int), (docs.call c).2 = .ok (some stamp) →
      stamp = docs.stamp c.file + 1 ∧ (docs.call c).1.stamp c.file = stamp ∧
        ∀ file, file ≠ c.file → (docs.call c).1.get? file = docs.get? file) ∧
    (∀ c : Call, ¬Accepted (docs.call c).2 → ∀ file,
      (docs.call c).1.get? file = docs.get? file ∨
        docs.get? file = none ∧ (docs.call c).1.get? file = some ⟨[], 0⟩) ∧
    (∀ (calls : List Call) (i j : Nat) (file : FileId),
      (docs.after (calls.take i)).stamp file = (docs.after (calls.take j)).stamp file →
        ((docs.after (calls.take i)).buffer file).text =
          ((docs.after (calls.take j)).buffer file).text) ∧
    ∀ (calls : List Call) (i j : Nat) (file : FileId) (patch : Patch) (expected : Int),
      (docs.after (calls.take i)).stamp file = expected →
      calls[j]? = some ⟨file, .apply patch expected⟩ →
      Accepted ((docs.after (calls.take j)).call ⟨file, .apply patch expected⟩).2 →
        ((docs.after (calls.take j)).buffer file).text =
          ((docs.after (calls.take i)).buffer file).text := by
  refine ⟨fun c stamp h => call_of_accepted h, fun c h file => get?_call_of_not_accepted h file,
    fun calls i j file hs => ?_, fun calls i j file patch expected hseen _ h => ?_⟩
  · exact congrArg Buffer.text (docs.buffer_take_eq calls hs)
  · have hnow := (stamp_eq_of_accepted h).trans hseen.symm
    exact congrArg Buffer.text (docs.buffer_take_eq calls hnow)

/-- A stamp that was read before calls that fail and are refused is still good for the text that was
read with it. A file that only such calls were made for is there, empty. -/
theorem stamp_identifies_text_failures_between :
    let f : FileId := ⟨['f']⟩
    let g : FileId := ⟨['g']⟩
    let add : Patch := ⟨0, [.insertion 2 ['!']], 3⟩
    let misfit : Patch := ⟨0, [.deletion 0 ['x']], 1⟩
    let docs : Documents := {}
    let refused : Call := ⟨f, .apply add 0⟩
    let failed : Call := ⟨g, .edit misfit⟩
    let accepted : Call := ⟨f, .apply add 1⟩
    let calls : List Call := [⟨f, .insert ['h', 'i']⟩, refused, failed, accepted]
    let seen := docs.after (calls.take 1)
    let now := docs.after (calls.take 3)
    ((now.call accepted).2 = .ok (some 2) ∧ (now.call accepted).1.stamp f = 2 ∧
      (now.call accepted).1.get? g = now.get? g) ∧
    (¬Accepted (seen.call failed).2 ∧ seen.get? g = none ∧
      (seen.call failed).1.get? g = some ⟨[], 0⟩) ∧
    (seen.stamp f = now.stamp f ∧ (seen.buffer f).text = (now.buffer f).text) ∧
    calls[3]? = some accepted ∧ (now.buffer f).text = ['h', 'i'] := by
  intro f g add misfit docs refused failed accepted calls seen now
  have haccepted : (now.call accepted).2 = .ok (some 2) := rfl
  have hfailed : ¬Accepted (seen.call failed).2 := by
    have hanswer : (seen.call failed).2 = .error (.consistency 0 ['x'] []) := rfl
    simp [Accepted, hanswer]
  have hstamp : seen.stamp f = now.stamp f := by decide
  have hraised := (now.stamp_identifies_text).1 accepted 2 haccepted
  have hmade := (seen.stamp_identifies_text).2.1 failed hfailed g
  have hsame := (docs.stamp_identifies_text).2.2.1 calls 1 3 f hstamp
  have hfound := (docs.stamp_identifies_text).2.2.2 calls 1 3 f add 1 (by decide) rfl ⟨2, haccepted⟩
  refine ⟨⟨haccepted, hraised.2.1, hraised.2.2 g (by decide)⟩, ⟨hfailed, by decide, ?_⟩,
    ⟨hstamp, hsame⟩, rfl, hfound⟩
  exact (hmade.resolve_left (by decide)).2

end Coedit.Documents
