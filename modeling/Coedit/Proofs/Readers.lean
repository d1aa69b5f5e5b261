import Coedit.Message.Field

/-!
Readers look no further than they read: what a reader takes off the front of some octets it takes off
them whatever follows. `Extends` says so of a reader and one that may go on for longer, since the
bounds on tags, chunks and items grow with the octets; it is kept by the ways in which readers are put
together, so that each reader has it by its own structure. Only an item that is passed over behind a
tag needs an argument of its own: it is tried as a number first, and more octets must not make a
number of what was passed over as an item (`skippedBignum?_append`).
-/
namespace Coedit

namespace Cbor

variable {α β : Type}

/-- What `read` reads of some octets, `further` reads of them whatever follows. -/
def Extends (read further : Reader α) : Prop :=
  ∀ ⦃bytes a rest⦄, read bytes = some (a, rest) →
    ∀ more, further (bytes ++ more) = some (a, rest ++ more)

namespace Extends

variable {read further read' further' : Reader α} {next next' : α × Bytes → Option (β × Bytes)}

theorem pure (a : α) : Extends (fun bytes => some (a, bytes)) fun bytes => some (a, bytes) := by
  intro bytes b rest h more
  obtain ⟨rfl, rfl⟩ := Prod.mk.inj (Option.some.inj h)
  rfl

theorem refuse : Extends (fun _ => none) further := by
  intro bytes a rest h more
  cases h

theorem ite {c : Prop} [Decidable c] (h : Extends read further) (h' : Extends read' further') :
    Extends (fun bytes => if c then read bytes else read' bytes)
      fun bytes => if c then further bytes else further' bytes := by
  split
  · exact h
  · exact h'

theorem bind (h : Extends read further)
    (hnext : ∀ a, Extends (fun rest => next (a, rest)) fun rest => next' (a, rest)) :
    Extends (fun bytes => read bytes >>= next) fun bytes => further bytes >>= next' := by
  intro bytes b rest hread more
  obtain ⟨⟨a, tail⟩, ha, hb⟩ := Option.bind_eq_some_iff.mp hread
  change (further (bytes ++ more) >>= next') = _
  rw [h ha more]
  exact hnext a hb more

theorem bindOption {o : Option α} {step step' : α → Reader β}
    (h : ∀ a, Extends (step a) (step' a)) :
    Extends (fun bytes => o >>= fun a => step a bytes) fun bytes => o >>= fun a => step' a bytes := by
  cases o with
  | none => exact refuse
  | some a => exact h a

theorem map {f : α × Bytes → β × Bytes} {g : α → β} (h : Extends read further)
    (hf : ∀ a rest, f (a, rest) = (g a, rest)) :
    Extends (fun bytes => (read bytes).map f) fun bytes => (further bytes).map f := by
  intro bytes b rest hread more
  obtain ⟨⟨a, tail⟩, ha, hb⟩ := Option.map_eq_some_iff.mp hread
  rw [hf] at hb
  obtain ⟨rfl, rfl⟩ := Prod.mk.inj hb
  change (further (bytes ++ more)).map f = _
  rw [h ha more, Option.map_some, hf]

/-- Octets that are read to their end cannot be read once some of them are missing. -/
theorem eq_none_of_cut {bytes front : Bytes} {a : α} (h : Extends read read)
    (hall : read bytes = some (a, [])) (hp : front <+: bytes) (hne : front ≠ bytes) :
    read front = none := by
  obtain ⟨more, rfl⟩ := hp
  cases hread : read front with
  | none => rfl
  | some result =>
    obtain ⟨b, rest⟩ := result
    have hlonger := h hread more
    rw [hall] at hlonger
    obtain ⟨-, hrest⟩ := Prod.mk.inj (Option.some.inj hlonger)
    obtain ⟨-, rfl⟩ := List.append_eq_nil_iff.mp hrest.symm
    exact absurd (List.append_nil front).symm hne

end Extends

theorem extends_readOctets (n : Nat) : Extends (readOctets n) (readOctets n) := by
  intro bytes octets rest h more
  simp only [readOctets] at h ⊢
  split at h
  · rename_i hle
    obtain ⟨rfl, rfl⟩ := Prod.mk.inj (Option.some.inj h)
    have hlong : n ≤ (bytes ++ more).length := by
      rw [List.length_append]
      exact Nat.le_add_right_of_le hle
    rw [if_pos hlong, List.take_append_of_le_length hle, List.drop_append_of_le_length hle]
  · cases h

theorem extends_readArgument (low : Nat) : Extends (readArgument low) (readArgument low) :=
  .ite (.pure none) <| .bindOption fun width => .bind (extends_readOctets width) fun _ => .pure _

theorem extends_readSpecial (low : Nat) : Extends (readSpecial low) (readSpecial low) :=
  .ite (.pure _) <| .bindOption fun width => .bind (extends_readOctets width) fun _ =>
    .ite (.pure _) (.ite (.pure _) (.pure _))

theorem extends_readHeader : Extends readHeader readHeader := by
  intro bytes header rest h more
  cases bytes with
  | nil => cases h
  | cons b bytes =>
    have hbehind : Extends (fun rest => readHeader (b :: rest)) fun rest => readHeader (b :: rest) :=
      .ite (extends_readSpecial _) <| .bind (extends_readArgument _) fun _ =>
        .bindOption fun _ => .pure _
    exact hbehind h more

/-- A reader that looks at the header first may go on behind it, or read the item from its header
on. -/
theorem Extends.peek {read further read' further' : Reader α} {c : Header → Prop} [DecidablePred c]
    (h : Extends read further) (h' : Extends read' further') :
    Extends
      (fun bytes => readHeader bytes >>= fun (header, rest) =>
        if c header then read rest else read' bytes)
      fun bytes => readHeader bytes >>= fun (header, rest) =>
        if c header then further rest else further' bytes := by
  intro bytes a rest hread more
  obtain ⟨⟨header, tail⟩, hheader, hread⟩ := Option.bind_eq_some_iff.mp hread
  dsimp only at hread ⊢
  rw [extends_readHeader hheader more, Option.bind_eq_bind, Option.bind_some]
  dsimp only
  split at hread
  · rename_i hc
    rw [if_pos hc]
    exact h hread more
  · rename_i hc
    rw [if_neg hc]
    exact h' hread more

/-! ### Readers with a bound -/

theorem extends_readUntagged (keep : Nat → Bool) (fuel extra : Nat) :
    Extends (readUntagged keep fuel) (readUntagged keep (fuel + extra)) := by
  induction fuel with
  | zero => exact .refuse
  | succ fuel ih =>
    rw [Nat.add_right_comm]
    refine .bind extends_readHeader fun header => ?_
    cases header with
    | tag number => exact .ite (.pure _) ih
    | _ => exact .pure _

theorem extends_readChunks (length? : Header → Option (Option Nat)) (level fuel extra : Nat) :
    Extends (readChunks length? fuel level) (readChunks length? (fuel + extra) level) := by
  induction fuel generalizing level with
  | zero => exact .refuse
  | succ fuel ih =>
    rw [Nat.add_right_comm]
    refine .bind extends_readHeader fun header => .ite (.ite (.pure _) (ih _)) ?_
    refine .bindOption fun length => ?_
    cases length with
    | none => exact ih _
    | some n => exact .bind (extends_readOctets n) fun _ => .bind (ih _) fun _ => .pure _

theorem extends_readToStop {item : Reader α} (h : Extends item item) (fuel extra : Nat) :
    Extends (readToStop item fuel) (readToStop item (fuel + extra)) := by
  induction fuel with
  | zero => exact .refuse
  | succ fuel ih =>
    rw [Nat.add_right_comm]
    refine Extends.peek (c := fun header => header = .stop) (.pure []) ?_
    exact .bind h fun _ => .bind ih fun _ => .pure _

/-- The bound of a reader is the length of its octets, which grows as more octets follow. -/
theorem Extends.bounded {read : Nat → Reader α}
    (h : ∀ fuel extra, Extends (read fuel) (read (fuel + extra))) :
    Extends (fun bytes => read bytes.length bytes) fun bytes => read bytes.length bytes := by
  intro bytes a rest hread more
  dsimp only
  rw [List.length_append]
  exact h bytes.length more.length hread more

theorem extends_readOpening : Extends readOpening readOpening :=
  .bounded (extends_readUntagged _)

theorem extends_readString (length? : Header → Option (Option Nat)) (length : Option Nat) :
    Extends (readString length? length) (readString length? length) := by
  cases length with
  | none => exact .bounded (extends_readChunks length? 1)
  | some n => exact .map (extends_readOctets n) fun _ _ => rfl

theorem extends_readText : Extends readText readText :=
  .bind extends_readOpening fun _ => .bindOption fun length =>
    .bind (extends_readString textLength? length) fun _ => .bindOption fun _ => .pure _

theorem extends_readName : Extends readName readName := by
  refine .bind extends_readOpening fun header => ?_
  cases header with
  | text length =>
    cases length with
    | none => exact .refuse
    | some n => exact .ite (.bind (extends_readOctets n) fun _ => .ite (.pure _) .refuse) .refuse
  | bytes length =>
    cases length with
    | none => exact .refuse
    | some n => exact .ite (extends_readOctets n) .refuse
  | _ => exact .refuse

theorem extends_readMagnitude : Extends readMagnitude readMagnitude := by
  refine .bind extends_readHeader fun _ => .bindOption fun length => ?_
  refine .bind (extends_readString octetLength? length) fun chunks => ?_
  exact .ite (.pure _) .refuse

theorem extends_readInteger : Extends readInteger readInteger := by
  refine .bind (.bounded (extends_readUntagged isBignumTag)) fun header => ?_
  cases header with
  | positive n => exact .pure _
  | negative n => exact .pure _
  | tag number => exact .bind extends_readMagnitude fun _ => .pure _
  | _ => exact .refuse

section Items

variable {item : Reader α} {second : Reader β}

theorem extends_readCounted (h : Extends item item) (count : Nat) :
    Extends (readCounted item count) (readCounted item count) := by
  induction count with
  | zero => exact .pure _
  | succ count ih => exact .bind h fun _ => .bind ih fun _ => .pure _

theorem extends_readItems (h : Extends item item) (count : Option Nat) :
    Extends (readItems item count) (readItems item count) := by
  cases count with
  | none => exact .bounded (extends_readToStop h)
  | some n => exact extends_readCounted h n

theorem extends_readBoth (h : Extends item item) (h' : Extends second second) :
    Extends (readBoth item second) (readBoth item second) :=
  .bind h fun _ => .bind h' fun _ => .pure _

end Items

/-! ### Passing over items -/

theorem extends_skippedBignum? (number : Nat) :
    Extends (skippedBignum? number) (skippedBignum? number) := by
  refine .ite .refuse (.bind extends_readHeader fun header => ?_)
  cases header with
  | bytes length =>
    cases length with
    | none => exact .refuse
    | some n => exact .ite (.map (extends_readOctets n) fun _ _ => rfl) .refuse
  | _ => exact .refuse

/-- What is passed over as an item behind a tag, since it is no number there, is no number either
when more octets follow it. -/
theorem skippedBignum?_append {number depth : Nat} {bytes rest : Bytes}
    (hnone : skippedBignum? number bytes = none) (hitem : skipItem depth bytes = some ((), rest))
    (more : Bytes) : skippedBignum? number (bytes ++ more) = none := by
  rw [skipItem] at hitem
  obtain ⟨⟨header, tail⟩, hheader, hitem⟩ := Option.bind_eq_some_iff.mp hitem
  rw [skippedBignum?, hheader] at hnone
  rw [skippedBignum?, extends_readHeader hheader more]
  cases hnumber : isBignumTag number with
  | false => rfl
  | true =>
    rw [hnumber] at hnone
    cases header with
    | bytes length =>
      cases length with
      | none => rfl
      | some n =>
        by_cases hn : n ≤ 16
        · -- the octets of a short string are there, so it was read as a number
          obtain ⟨_, hread, -⟩ := Option.map_eq_some_iff.mp hitem
          obtain ⟨_, hread, -⟩ := Option.map_eq_some_iff.mp hread
          simp [hn, hread] at hnone
        · simp [hn]
    | _ => rfl

theorem extends_skipItem (depth : Nat) : Extends (skipItem depth) (skipItem depth) := by
  induction depth using Nat.strongRecOn with
  | ind depth ih =>
    change Extends (fun bytes => skipItem depth bytes) fun bytes => skipItem depth bytes
    unfold skipItem
    refine .bind extends_readHeader fun header => ?_
    cases header with
    | positive _ => exact .pure _
    | negative _ => exact .pure _
    | float _ => exact .pure _
    | simple number => exact .ite (.pure _) .refuse
    | bytes length => exact .map (extends_readString octetLength? length) fun _ _ => rfl
    | text length =>
      refine .bind (extends_readString textLength? length) fun chunks => ?_
      dsimp only
      cases textOfChunks chunks with
      | none => exact .refuse
      | some _ => exact .pure _
    | array count =>
      cases depth with
      | zero => exact .refuse
      | succ depth =>
        exact .map (extends_readItems (ih depth (Nat.lt_succ_self depth)) count) fun _ _ => rfl
    | map count =>
      cases depth with
      | zero => exact .refuse
      | succ depth =>
        have hitem := ih depth (Nat.lt_succ_self depth)
        exact .map (extends_readItems (extends_readBoth hitem hitem) count) fun _ _ => rfl
    | tag number =>
      intro bytes u rest hread more
      dsimp only at hread ⊢
      cases hnumber : skippedBignum? number bytes with
      | some result =>
        obtain ⟨n, tail⟩ := result
        rw [hnumber] at hread
        rw [extends_skippedBignum? number hnumber more]
        dsimp only at hread ⊢
        split at hread
        · cases hread
        · rename_i hrange
          rw [if_neg hrange]
          exact Extends.pure _ hread more
      | none =>
        rw [hnumber] at hread
        cases depth with
        | zero => cases hread
        | succ depth =>
          rw [skippedBignum?_append hnumber hread more]
          exact ih depth (Nat.lt_succ_self depth) hread more
    | stop => exact .refuse

end Cbor

namespace Field

open Cbor

variable {α β : Type}

theorem extends_readUuid : Extends readUuid readUuid :=
  .bind extends_readOpening fun _ =>
    .ite (.bind (extends_readOctets 16) fun _ => .bindOption fun _ => .pure _) .refuse

theorem extends_readStatus : Extends readStatus readStatus := by
  refine .bind extends_readOpening fun header => ?_
  cases header with
  | text length =>
    cases length with
    | none => exact .refuse
    | some n => exact .ite (.bind (extends_readOctets n) fun _ => .bindOption fun _ => .pure _) .refuse
  | map count =>
    cases count with
    | none => exact .refuse
    | some n =>
      rcases n with _ | _ | n
      · exact .refuse
      · exact .bind extends_readName fun _ => .bindOption fun _ => .pure _
      · exact .refuse
  | _ => exact .refuse

theorem extends_readVersion : Extends readVersion readVersion :=
  .bind extends_readInteger fun _ => .ite (.pure _) .refuse

theorem extends_readTexts : Extends readTexts readTexts := by
  refine .bind extends_readOpening fun header => ?_
  cases header with
  | array count => exact extends_readItems extends_readText count
  | bytes length => exact .bind (extends_readString octetLength? length) fun _ => .ite (.pure _) .refuse
  | _ => exact .refuse

theorem extends_mapReader {read : Reader α} (f : α → β) (h : Extends read read) :
    Extends (mapReader f read) (mapReader f read) :=
  .map h fun _ _ => rfl

theorem extends_readOptionalText : Extends readOptionalText readOptionalText :=
  .peek (c := fun header => header = .simple 22 ∨ header = .simple 23) (.pure none)
    (extends_mapReader some extends_readText)

theorem Kind.extends_read (kind : Kind) : Extends kind.read kind.read := by
  cases kind with
  | uuid => exact extends_mapReader _ extends_readUuid
  | status => exact extends_mapReader _ extends_readStatus
  | version => exact extends_mapReader _ extends_readVersion
  | text => exact extends_mapReader _ extends_readText
  | texts => exact extends_mapReader _ extends_readTexts
  | optionalText => exact extends_mapReader _ extends_readOptionalText

theorem extends_readEntry (schema : Schema) : Extends (readEntry schema) (readEntry schema) := by
  refine .bind extends_readName fun octets => ?_
  dsimp only
  cases lookup? schema octets with
  | none => exact extends_mapReader _ (extends_skipItem nestingLimit)
  | some entry => exact extends_mapReader _ entry.2.extends_read

/-- What is read of a message is read of it whatever octets follow. -/
theorem extends_read (schema : Schema) : Extends (read schema) (read schema) := by
  refine .bind extends_readOpening fun header => ?_
  cases header with
  | map count =>
    exact .bind (extends_readItems (extends_readEntry schema) count) fun _ => .ite (.pure _) .refuse
  | _ => exact .refuse

end Field

end Coedit
