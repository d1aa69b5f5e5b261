import Coedit.Cbor.Item
import Coedit.Proofs.Percent
import Coedit.Text.Numeral
import Mathlib.Algebra.Group.Nat.Defs

/-!
Headers and strings of CBOR are read as they are written, whatever follows them. An argument of 64
bits is written in one of five widths, and each of them is found again from the low bits of the
first octet (`Width.readHeader_write`). Behind a header a string is its octets, and an array or a
map its items one after another, up to their number or up to a stop code (`readCounted_reads`,
`readToStop_reads`); where one of them is refused, all are.
-/
namespace Coedit.Cbor

/-- How many octets the argument of a header takes up behind the first. -/
inductive Width where
  | immediate
  | one
  | two
  | four
  | eight
  deriving DecidableEq, Repr

namespace Width

def octets : Width → Nat
  | immediate => 0
  | one => 1
  | two => 2
  | four => 4
  | eight => 8

/-- One past the greatest argument. -/
def limit : Width → Nat
  | immediate => 24
  | one => 0x100
  | two => 0x10000
  | four => 0x100000000
  | eight => Numeral.wordLimit

/-- The low five bits of the first octet, by the argument. -/
def low : Width → Nat → Nat
  | immediate, n => n
  | one, _ => 24
  | two, _ => 25
  | four, _ => 26
  | eight, _ => 27

def write (w : Width) (major n : Nat) : Bytes :=
  UInt8.ofNat (major * 32 + w.low n) :: bigEndian w.octets n

def shortest (n : Nat) : Width :=
  if n < 24 then immediate
  else if n < 0x100 then one
  else if n < 0x10000 then two
  else if n < 0x100000000 then four
  else eight

end Width

variable {bytes rest : Bytes} {header : Header} {major low width n : Nat}

theorem ofBigEndian_concat (bytes : Bytes) (b : UInt8) :
    ofBigEndian (bytes ++ [b]) = ofBigEndian bytes * 256 + b.toNat := by
  simp [ofBigEndian, List.foldl_append]

theorem ofBigEndian_bigEndian (h : n < 256 ^ width) : ofBigEndian (bigEndian width n) = n := by
  induction width generalizing n with
  | zero =>
    obtain rfl : n = 0 := Nat.lt_one_iff.mp h
    rfl
  | succ width ih =>
    have hhigh : n / 256 < 256 ^ width := Nat.div_lt_of_lt_mul (by rwa [Nat.mul_comm, ← Nat.pow_succ])
    have hlow : (UInt8.ofNat (n % 256)).toNat = n % 256 := Utf8.toNat_ofNat (Nat.mod_lt _ (by decide))
    rw [bigEndian, ofBigEndian_concat, ih hhigh, hlow]
    exact Nat.div_add_mod' n 256

theorem readArgument_bigEndian (hlow : argumentWidth? low = some width) (hw : width ≠ 0)
    (hn : n < 256 ^ width) (rest : Bytes) :
    readArgument low (bigEndian width n ++ rest) = some (some n, rest) := by
  have hopen : low ≠ 31 := by rintro rfl; cases hlow
  simp only [readArgument, if_neg hopen, hlow, Option.bind_eq_bind, Option.bind_some,
    readOctets_append (length_bigEndian width n), if_neg hw, ofBigEndian_bigEndian hn]

theorem readArgument_low (hlow : low < 24) (rest : Bytes) :
    readArgument low rest = some (some low, rest) := by
  have hopen : low ≠ 31 := by omega
  have hwidth : argumentWidth? low = some 0 := if_pos hlow
  simp [readArgument, hopen, hwidth, readOctets]

/-- The first octet of a header gives back its major type and its low bits. -/
theorem readHeader_cons {argument : Option Nat} (hm : major < 7) (hl : low < 32)
    (ha : readArgument low bytes = some (argument, rest))
    (hh : headerOf major argument = some header) :
    readHeader (UInt8.ofNat (major * 32 + low) :: bytes) = some (header, rest) := by
  have hb : (UInt8.ofNat (major * 32 + low)).toNat = major * 32 + low :=
    Utf8.toNat_ofNat (by omega)
  have hmajor : (major * 32 + low) / 32 = major := by omega
  have hlow : (major * 32 + low) % 32 = low := by omega
  simp only [readHeader, hb, hmajor, hlow, if_neg (Nat.ne_of_lt hm), ha, hh, Option.bind_eq_bind,
    Option.bind_some]

namespace Width

theorem low_lt (w : Width) (h : n < w.limit) : w.low n < 32 := by
  cases w with
  | immediate => exact Nat.lt_trans h (by decide)
  | one => exact (by decide : 24 < 32)
  | two => exact (by decide : 25 < 32)
  | four => exact (by decide : 26 < 32)
  | eight => exact (by decide : 27 < 32)

theorem readArgument_bigEndian (w : Width) (h : n < w.limit) (rest : Bytes) :
    readArgument (w.low n) (bigEndian w.octets n ++ rest) = some (some n, rest) := by
  cases w with
  | immediate => exact readArgument_low h rest
  | one => exact Cbor.readArgument_bigEndian rfl (by decide) h rest
  | two => exact Cbor.readArgument_bigEndian rfl (by decide) h rest
  | four => exact Cbor.readArgument_bigEndian rfl (by decide) h rest
  | eight => exact Cbor.readArgument_bigEndian rfl (by decide) h rest

theorem readHeader_write (w : Width) (hm : major < 7) (h : n < w.limit)
    (hh : headerOf major (some n) = some header) (rest : Bytes) :
    readHeader (w.write major n ++ rest) = some (header, rest) :=
  readHeader_cons hm (w.low_lt h) (w.readArgument_bigEndian h rest) hh

theorem lt_limit_shortest (h : n < Numeral.wordLimit) : n < (shortest n).limit := by
  unfold shortest
  split
  · assumption
  split
  · assumption
  split
  · assumption
  split
  · assumption
  · exact h

theorem write_shortest (major n : Nat) : (shortest n).write major n = writeHead major n := by
  unfold shortest writeHead
  split
  · rfl
  split
  · rfl
  split
  · rfl
  split
  · rfl
  · rfl

end Width

/-- What is written as a header is read as one, in each of the five widths. -/
theorem readHeader_writeHead (hm : major < 7) (hn : n < Numeral.wordLimit)
    (hh : headerOf major (some n) = some header) (rest : Bytes) :
    readHeader (writeHead major n ++ rest) = some (header, rest) := by
  rw [← Width.write_shortest]
  exact Width.readHeader_write _ hm (Width.lt_limit_shortest hn) hh rest

/-- A header that is no tag is the next untagged one. -/
theorem readUntagged_of_readHeader (keep : Nat → Bool) (h : readHeader bytes = some (header, rest))
    (ht : ∀ number, header ≠ .tag number) :
    readUntagged keep bytes.length bytes = some (header, rest) := by
  cases bytes with
  | nil => cases h
  | cons b bytes =>
    rw [List.length_cons, readUntagged, h, Option.bind_eq_bind, Option.bind_some]
    cases header with
    | tag number => exact absurd rfl (ht number)
    | _ => rfl

theorem readOpening_of_readHeader (h : readHeader bytes = some (header, rest))
    (ht : ∀ number, header ≠ .tag number) : readOpening bytes = some (header, rest) :=
  readUntagged_of_readHeader _ h ht

theorem readString_append (length? : Header → Option (Option Nat)) {octets : Bytes}
    (h : octets.length = n) (rest : Bytes) :
    readString length? (some n) (octets ++ rest) = some ([octets], rest) := by
  rw [readString, readOctets_append h]
  rfl

theorem textOfChunks_encode (text : Text) : textOfChunks [Utf8.encode text] = some text := by
  simp [textOfChunks, Utf8.decode_encode, Except.toOption]

/-! ### Reading what is written in a given way -/

section Reads

variable {α β : Type} {item : Reader α} {octets octets' : Bytes} {p p' : Bool} {a : α} {b : β}

/-- The octets are read as `a` if they pass, and refused otherwise, whatever follows them. -/
def Reads (item : Reader α) (octets : Bytes) (passes : Bool) (a : α) : Prop :=
  ∀ rest, item (octets ++ rest) = if passes then some (a, rest) else none

/-- The octets begin an item, rather than end the items of a map or an array. -/
def Opens (octets : Bytes) : Prop :=
  ∀ rest, ∃ header tail, readHeader (octets ++ rest) = some (header, tail) ∧ header ≠ .stop

namespace Reads

variable {next : α × Bytes → Option (β × Bytes)}

theorem bind (h : Reads item octets p a) (hnext : Reads (fun rest => next (a, rest)) octets' p' b) :
    Reads (fun bytes => item bytes >>= next) (octets ++ octets') (p && p') b := by
  intro rest
  dsimp only
  rw [List.append_assoc, h]
  cases p with
  | false => rfl
  | true => exact hnext rest

/-- What is made of a value takes nothing more off the octets, but may refuse the value. -/
theorem bindCheck (h : Reads item octets p a)
    (hnext : ∀ rest, next (a, rest) = if p' then some (b, rest) else none) :
    Reads (fun bytes => item bytes >>= next) octets (p && p') b := by
  have hnothing : Reads (fun rest => next (a, rest)) [] p' b := hnext
  have hread := h.bind hnothing
  rwa [List.append_nil] at hread

theorem bindPure (h : Reads item octets p a) (hnext : ∀ rest, next (a, rest) = some (b, rest)) :
    Reads (fun bytes => item bytes >>= next) octets p b := by
  have hkept : ∀ rest, next (a, rest) = if true then some (b, rest) else none := hnext
  have hread := h.bindCheck hkept
  rwa [Bool.and_true] at hread

theorem map {f : α × Bytes → β × Bytes} (h : Reads item octets p a)
    (hf : ∀ rest, f (a, rest) = (b, rest)) :
    Reads (fun bytes => (item bytes).map f) octets p b := by
  intro rest
  dsimp only
  rw [h]
  cases p with
  | false => rfl
  | true => exact congrArg some (hf rest)

/-- A reader that looks for a stop code first finds the item instead. -/
theorem unlessStop (atStop : Reader α) (h : Reads item octets p a) (ho : Opens octets) :
    Reads (fun bytes => readHeader bytes >>= fun (header, rest) =>
      if header = .stop then atStop rest else item bytes) octets p a := by
  intro rest
  obtain ⟨header, tail, hheader, hstop⟩ := ho rest
  dsimp only
  rw [hheader, Option.bind_eq_bind, Option.bind_some]
  dsimp only
  rw [if_neg hstop]
  exact h rest

theorem both {second : Reader β} (h : Reads item octets p a) (h' : Reads second octets' p' b) :
    Reads (readBoth item second) (octets ++ octets') (p && p') (a, b) :=
  h.bind (h'.bindPure fun _ => rfl)

end Reads

theorem Opens.append (h : Opens octets) (more : Bytes) : Opens (octets ++ more) := by
  intro rest
  rw [List.append_assoc]
  exact h (more ++ rest)

theorem Opens.length_pos (h : Opens octets) : 0 < octets.length := by
  rw [List.length_pos_iff]
  rintro rfl
  obtain ⟨_, _, hread, -⟩ := h []
  cases hread

variable {write : β → Bytes} {passes : β → Bool} {value : β → α} {items : List β}

/-- Each item of an array or a map takes up an octet at least, so that the octets bound the items. -/
theorem length_lt_flatMap (h : ∀ x ∈ items, Opens (write x)) (rest : Bytes) :
    items.length < (items.flatMap write ++ [0xFF] ++ rest).length := by
  induction items with
  | nil => exact Nat.succ_pos _
  | cons x items ih =>
    obtain ⟨hx, hitems⟩ := List.forall_mem_cons.mp h
    have hpos := hx.length_pos
    have hlt := ih hitems
    simp only [List.length_cons, List.flatMap_cons, List.length_append] at hlt ⊢
    omega

theorem readCounted_reads (h : ∀ x ∈ items, Reads item (write x) (passes x) (value x)) :
    Reads (readCounted item items.length) (items.flatMap write) (items.all passes)
      (items.map value) := by
  induction items with
  | nil => exact fun _ => rfl
  | cons x items ih =>
    obtain ⟨hx, hitems⟩ := List.forall_mem_cons.mp h
    rw [List.flatMap_cons, List.all_cons]
    exact hx.bind ((ih hitems).bindPure fun _ => rfl)

theorem readToStop_reads {fuel : Nat} (h : ∀ x ∈ items, Reads item (write x) (passes x) (value x))
    (ho : ∀ x ∈ items, Opens (write x)) (hfuel : items.length < fuel) :
    Reads (readToStop item fuel) (items.flatMap write ++ [0xFF]) (items.all passes)
      (items.map value) := by
  induction items generalizing fuel with
  | nil =>
    obtain ⟨fuel, rfl⟩ := Nat.exists_eq_add_of_lt hfuel
    exact fun _ => rfl
  | cons x items ih =>
    obtain ⟨hx, hitems⟩ := List.forall_mem_cons.mp h
    obtain ⟨hox, hoitems⟩ := List.forall_mem_cons.mp ho
    cases fuel with
    | zero => exact absurd hfuel (Nat.not_lt_zero _)
    | succ fuel =>
      have hbehind := ih hitems hoitems (Nat.lt_of_succ_lt_succ hfuel)
      rw [List.flatMap_cons, List.append_assoc, List.all_cons]
      refine .unlessStop (fun rest => some ([], rest)) ?_ (hox.append _)
      refine hx.bind (hbehind.bindPure ?_)
      exact fun _ => rfl

end Reads

/-- Items that are read as they are written are read one after another. -/
theorem readCounted_flatMap {α β : Type} {item : Reader β} {write : α → Bytes} (value : α → β)
    {items : List α}
    (h : ∀ a ∈ items, ∀ rest, item (write a ++ rest) = some (value a, rest)) (rest : Bytes) :
    readCounted item items.length (items.flatMap write ++ rest) =
      some (items.map value, rest) := by
  have hall : items.all (fun _ => true) = true := List.all_eq_true.mpr fun _ _ => rfl
  have hread : Reads (readCounted item items.length) (items.flatMap write)
      (items.all fun _ => true) (items.map value) := readCounted_reads h
  rw [hread rest, hall, if_pos rfl]

end Coedit.Cbor
