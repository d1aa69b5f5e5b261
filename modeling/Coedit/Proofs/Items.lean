import Coedit.Proofs.Cbor

/-!
Data items as senders may write them. The grammar of well-formed CBOR lets an argument take up more
octets than it needs, strings come in pieces, and arrays and maps go on to a stop code; the reader
that passes over items has to find the end of each of them. `Item.WellFormed` has a production for
each way of writing an item, and gives an item, beside its octets, how deep it nests and whether the
reader knows all values in it. A well-formed item that nests no deeper than the reader allows and
has only known values is passed over exactly, whatever follows it, and any other is refused
(`Item.WellFormed.reads_skipItem`).
-/
namespace Coedit.Cbor

/-! ### Headers -/

structure Argument where
  width : Width
  value : Nat
  value_lt : value < width.limit

def Argument.write (n : Argument) (major : Nat) : Bytes := n.width.write major n.value

theorem Argument.readHeader_write (n : Argument) {major : Nat} {header : Header} (hm : major < 7)
    (hh : headerOf major (some n.value) = some header) (rest : Bytes) :
    readHeader (n.write major ++ rest) = some (header, rest) :=
  n.width.readHeader_write hm n.value_lt hh rest

theorem readHeader_special {low : Nat} (h : low < 32) (rest : Bytes) :
    readHeader (UInt8.ofNat (7 * 32 + low) :: rest) = readSpecial low rest := by
  have hb : (UInt8.ofNat (7 * 32 + low)).toNat = 7 * 32 + low := Utf8.toNat_ofNat (by omega)
  have hmajor : (7 * 32 + low) / 32 = 7 := by omega
  have hlow : (7 * 32 + low) % 32 = low := by omega
  simp only [readHeader, hb, hmajor, hlow, if_true]

/-- How an array or a map says where it ends: by the number of its items, or by a stop code. -/
inductive Size where
  | definite (width : Width)
  | indefinite
  deriving DecidableEq, Repr

namespace Size

def argument : Size → Nat → Option Nat
  | definite _, n => some n
  | indefinite, _ => none

/-- The header says how many items there are, if it says so at all. -/
def Fits : Size → Nat → Prop
  | definite w, n => n < w.limit
  | indefinite, _ => True

def opening : Size → Nat → Nat → Bytes
  | definite w, major, n => w.write major n
  | indefinite, major, _ => [UInt8.ofNat (major * 32 + 31)]

def closing : Size → Bytes
  | definite _ => []
  | indefinite => [0xFF]

/-- The octets `body` of `n` items with what stands around them. -/
def enclose (s : Size) (major n : Nat) (body : Bytes) : Bytes :=
  s.opening major n ++ (body ++ s.closing)

variable {s : Size} {major n : Nat} {header : Header}

theorem readHeader_enclose (hm : major < 7) (h : s.Fits n)
    (hh : headerOf major (s.argument n) = some header) (body rest : Bytes) :
    readHeader (s.enclose major n body ++ rest) = some (header, body ++ s.closing ++ rest) := by
  rw [enclose, List.append_assoc]
  cases s with
  | definite w => exact w.readHeader_write hm h hh _
  | indefinite => exact readHeader_cons hm (by decide) rfl hh

/-- The items of an array or a map are read to their end, which a number or a stop code marks. -/
theorem readItems_reads {α β : Type} {item : Reader α} {write : β → Bytes} {passes : β → Bool}
    {value : β → α} {items : List β} (s : Size)
    (h : ∀ x ∈ items, Reads item (write x) (passes x) (value x))
    (ho : ∀ x ∈ items, Opens (write x)) :
    Reads (readItems item (s.argument items.length)) (items.flatMap write ++ s.closing)
      (items.all passes) (items.map value) := by
  cases s with
  | definite w =>
    rw [closing, List.append_nil]
    exact readCounted_reads h
  | indefinite => exact fun rest => readToStop_reads h ho (length_lt_flatMap ho rest) rest

end Size

/-! ### Strings -/

/-- A string of definite length, or a piece of one that goes on to a stop code. -/
structure Piece where
  width : Width
  octets : Bytes
  length_lt : octets.length < width.limit

def Piece.write (major : Nat) (p : Piece) : Bytes := p.width.write major p.octets.length ++ p.octets

inductive StringForm where
  | whole (piece : Piece)
  | pieces (pieces : List Piece)

namespace StringForm

def parts : StringForm → List Piece
  | whole p => [p]
  | pieces ps => ps

def length : StringForm → Option Nat
  | whole p => some p.octets.length
  | pieces _ => none

def body (major : Nat) : StringForm → Bytes
  | whole p => p.octets
  | pieces ps => ps.flatMap (Piece.write major) ++ [0xFF]

/-- The written string, with the major type of octets or of text. -/
def write (major : Nat) : StringForm → Bytes
  | whole p => p.write major
  | pieces ps => UInt8.ofNat (major * 32 + 31) :: (pieces ps).body major

def octets (s : StringForm) : Bytes := s.parts.flatMap Piece.octets

/-- Whether a string can be a name: it is a text in one piece, of limited length. -/
def isName : StringForm → Bool
  | whole p => decide (p.octets.length ≤ nameLimit) && (Utf8.decode p.octets).toBool
  | pieces _ => false

/-- Whether each piece is a text by itself. -/
def isText (s : StringForm) : Bool := s.parts.all fun p => (Utf8.decode p.octets).toBool

end StringForm

/-- What the reader of a kind of strings goes by: the major type, the headers with it, and the
length in such a header. -/
structure StringKind (major : Nat) (header : Option Nat → Header)
    (length? : Header → Option (Option Nat)) : Prop where
  major_lt : major < 7
  headerOf : ∀ length, headerOf major length = some (header length)
  length? : ∀ length, length? (header length) = some length
  ne_stop : ∀ length, header length ≠ .stop

theorem StringKind.bytes : StringKind 2 .bytes octetLength? :=
  ⟨by decide, fun _ => rfl, fun _ => rfl, fun _ h => by cases h⟩

theorem StringKind.text : StringKind 3 .text textLength? :=
  ⟨by decide, fun _ => rfl, fun _ => rfl, fun _ h => by cases h⟩

namespace StringKind

variable {major : Nat} {header : Option Nat → Header} {length? : Header → Option (Option Nat)}

theorem readHeader_piece (k : StringKind major header length?) (p : Piece) (rest : Bytes) :
    readHeader (p.write major ++ rest) =
      some (header (some p.octets.length), p.octets ++ rest) := by
  rw [Piece.write, List.append_assoc]
  exact p.width.readHeader_write k.major_lt p.length_lt (k.headerOf _) _

theorem readHeader_write (k : StringKind major header length?) (s : StringForm) (rest : Bytes) :
    readHeader (s.write major ++ rest) = some (header s.length, s.body major ++ rest) := by
  cases s with
  | whole p => exact k.readHeader_piece p rest
  | pieces ps => exact readHeader_cons k.major_lt (by decide) rfl (k.headerOf none)

theorem opens_write (k : StringKind major header length?) (s : StringForm) :
    Opens (s.write major) :=
  fun rest => ⟨_, _, k.readHeader_write s rest, k.ne_stop _⟩

/-- Pieces are read one after another up to the stop code. -/
theorem readChunks_reads (k : StringKind major header length?) {fuel : Nat} {ps : List Piece}
    (hfuel : ps.length < fuel) :
    Reads (readChunks length? fuel 1) (ps.flatMap (Piece.write major) ++ [0xFF]) true
      (ps.map Piece.octets) := by
  induction ps generalizing fuel with
  | nil =>
    obtain ⟨fuel, rfl⟩ := Nat.exists_eq_add_of_lt hfuel
    exact fun _ => rfl
  | cons p ps ih =>
    cases fuel with
    | zero => exact absurd hfuel (Nat.not_lt_zero _)
    | succ fuel =>
      have hbehind := ih (Nat.lt_of_succ_lt_succ hfuel)
      have hpiece : Reads (readOctets p.octets.length) p.octets true p.octets :=
        fun _ => readOctets_append rfl
      rw [List.flatMap_cons, List.append_assoc]
      intro rest
      rw [List.append_assoc, readChunks, k.readHeader_piece, ← List.append_assoc]
      change (if header (some p.octets.length) = .stop then _ else _) = _
      rw [if_neg (k.ne_stop _), k.length?]
      refine hpiece.bind (hbehind.bindPure ?_) rest
      exact fun _ => rfl

/-- Behind its header a string is read as its pieces. -/
theorem readString_reads (k : StringKind major header length?) (s : StringForm) :
    Reads (readString length? s.length) (s.body major) true (s.parts.map Piece.octets) := by
  cases s with
  | whole p => exact readString_append length? rfl
  | pieces ps =>
    have hopen : ∀ p ∈ ps, Opens (p.write major) := fun p _ => k.opens_write (.whole p)
    exact fun rest => k.readChunks_reads (length_lt_flatMap hopen rest) rest

end StringKind

/-- The pieces of a string spell a text if each of them does. -/
theorem StringForm.isSome_textOfChunks (s : StringForm) :
    (textOfChunks (s.parts.map Piece.octets)).isSome = s.isText := by
  rw [textOfChunks, Option.isSome_map, isText]
  induction s.parts with
  | nil => rfl
  | cons p ps ih =>
    rw [List.map_cons, List.mapM_cons, List.all_cons, ← ih]
    cases Utf8.decode p.octets with
    | error e => rfl
    | ok t => cases (ps.map Piece.octets).mapM fun chunk => (Utf8.decode chunk).toOption <;> rfl

theorem StringForm.reads_readName (s : StringForm) :
    Reads readName (s.write 3) s.isName s.octets := by
  intro rest
  rw [readName, readOpening_of_readHeader (StringKind.text.readHeader_write s rest) nofun,
    Option.bind_eq_bind, Option.bind_some]
  cases s with
  | pieces ps => rfl
  | whole p =>
    by_cases hlength : p.octets.length ≤ nameLimit <;>
      by_cases htext : (Utf8.decode p.octets).toBool = true <;>
        simp [length, body, isName, octets, parts, hlength, htext, readOctets_append]

/-! ### Items -/

/-- A written item, with what decides whether it can be passed over. -/
structure Item where
  octets : Bytes
  /-- How many levels of arrays, maps and tagged items it has. -/
  depth : Nat
  /-- Whether the reader knows all values in it: simple values that are truth values or one of the
  two for no value, texts whose pieces are UTF-8, negative numbers behind a tag that are in range. -/
  known : Bool
  /-- The number that a tag makes of it, if it is a whole string of at most sixteen octets. -/
  magnitude : Option Nat

namespace Item

/-- Whether an item can be passed over where `depth` levels are left. -/
def passes (depth : Nat) (x : Item) : Bool := x.known && decide (x.depth ≤ depth)

def deepest (items : List Item) : Nat := items.foldr (fun x depth => max x.depth depth) 0

def members (entries : List (Item × Item)) : List Item :=
  entries.flatMap fun entry => [entry.1, entry.2]

def positive (n : Argument) : Item := ⟨n.write 0, 0, true, none⟩

def negative (n : Argument) : Item := ⟨n.write 1, 0, true, none⟩

def bytes (s : StringForm) : Item where
  octets := s.write 2
  depth := 0
  known := true
  magnitude :=
    match s with
    | .whole p => if p.octets.length ≤ 16 then some (ofBigEndian p.octets) else none
    | .pieces _ => none

def text (s : StringForm) : Item := ⟨s.write 3, 0, s.isText, none⟩

def array (size : Size) (items : List Item) : Item where
  octets := size.enclose 4 items.length (items.flatMap octets)
  depth := deepest items + 1
  known := items.all known
  magnitude := none

def map (size : Size) (entries : List (Item × Item)) : Item where
  octets := size.enclose 5 entries.length
    (entries.flatMap fun entry => entry.1.octets ++ entry.2.octets)
  depth := deepest (members entries) + 1
  known := (members entries).all known
  magnitude := none

/-- The number that a tag makes of an item. -/
def bignum? (number : Nat) (x : Item) : Option Nat :=
  if isBignumTag number then x.magnitude else none

/-- A tagged item, which is a number with a tag that makes a number of it. -/
def tag (number : Argument) (content : Item) : Item where
  octets := number.write 6 ++ content.octets
  depth := if (content.bignum? number.value).isSome then 0 else content.depth + 1
  known :=
    match content.bignum? number.value with
    | some n => !(number.value == 3 && decide (skippedNegativeLimit ≤ n))
    | none => content.known
  magnitude := none

/-- A simple value in the first octet; those that the reader knows are the two truth values and the
two values for no value. -/
def simple (n : Nat) : Item :=
  ⟨[UInt8.ofNat (7 * 32 + n)], 0, decide (20 ≤ n) && decide (n ≤ 23), none⟩

def simpleWide (n : Nat) : Item := ⟨[UInt8.ofNat (7 * 32 + 24), UInt8.ofNat n], 0, false, none⟩

def float (w : Width) (octets : Bytes) : Item :=
  ⟨UInt8.ofNat (7 * 32 + w.low 0) :: octets, 0, true, none⟩

/-- An item that follows the grammar of data items. -/
inductive WellFormed : Item → Prop
  | positive (n : Argument) : WellFormed (positive n)
  | negative (n : Argument) : WellFormed (negative n)
  | bytes (s : StringForm) : WellFormed (bytes s)
  | text (s : StringForm) : WellFormed (text s)
  | array {size : Size} {items : List Item} (hsize : size.Fits items.length)
      (hitems : ∀ x ∈ items, WellFormed x) : WellFormed (array size items)
  | map {size : Size} {entries : List (Item × Item)} (hsize : size.Fits entries.length)
      (hmembers : ∀ x ∈ members entries, WellFormed x) : WellFormed (map size entries)
  | tag (number : Argument) {content : Item} (h : WellFormed content) :
      WellFormed (tag number content)
  | simple {n : Nat} (h : n < 24) : WellFormed (simple n)
  | simpleWide {n : Nat} (hmin : 32 ≤ n) (hmax : n < 256) : WellFormed (simpleWide n)
  | float {w : Width} {octets : Bytes} (hw : 2 ≤ w.octets) (h : octets.length = w.octets) :
      WellFormed (float w octets)

theorem all_passes (depth : Nat) (items : List Item) :
    items.all (passes depth) = (items.all known && decide (deepest items ≤ depth)) := by
  induction items with
  | nil => simp [deepest]
  | cons x items ih =>
    have hdeepest : deepest (x :: items) = max x.depth (deepest items) := rfl
    rw [List.all_cons, List.all_cons, ih, hdeepest, Bool.eq_iff_iff]
    simp only [passes, Bool.and_eq_true, decide_eq_true_eq, Nat.max_le]
    exact and_and_and_comm

theorem all_members (p : Item → Bool) (entries : List (Item × Item)) :
    (members entries).all p = entries.all fun entry => p entry.1 && p entry.2 := by
  simp [members, List.all_flatMap]

theorem mem_members {entry : Item × Item} {entries : List (Item × Item)} (h : entry ∈ entries) :
    entry.1 ∈ members entries ∧ entry.2 ∈ members entries := by
  constructor <;> exact List.mem_flatMap.mpr ⟨entry, h, by simp⟩

/-- One level less is left for what stands within an item. -/
theorem passes_succ {x : Item} {depth inner : Nat} (hd : x.depth = inner + 1) :
    x.passes (depth + 1) = (x.known && decide (inner ≤ depth)) := by
  rw [passes, hd, decide_eq_decide.mpr Nat.succ_le_succ_iff]

theorem not_passes_zero {x : Item} {inner : Nat} (hd : x.depth = inner + 1) :
    x.passes 0 = false := by
  simp [passes, hd]

theorem passes_array (size : Size) (items : List Item) (depth : Nat) :
    (array size items).passes (depth + 1) = items.all (passes depth) := by
  rw [all_passes]
  exact passes_succ rfl

theorem passes_map (size : Size) (entries : List (Item × Item)) (depth : Nat) :
    (map size entries).passes (depth + 1) =
      entries.all fun entry => entry.1.passes depth && entry.2.passes depth := by
  rw [← all_members, all_passes]
  exact passes_succ rfl

section Tag

variable {number : Argument} {content : Item} {depth n : Nat}

theorem depth_tag (h : content.bignum? number.value = none) :
    (tag number content).depth = content.depth + 1 := by
  simp [tag, h]

theorem passes_tag (h : content.bignum? number.value = none) :
    (tag number content).passes (depth + 1) = content.passes depth := by
  rw [passes_succ (depth_tag h), passes, tag, h]

theorem passes_tag_bignum (h : content.bignum? number.value = some n) :
    (tag number content).passes depth =
      !(number.value == 3 && decide (skippedNegativeLimit ≤ n)) := by
  simp [passes, tag, h]

end Tag

/-! What each production opens with, and what stands behind that. -/

theorem readHeader_positive (n : Argument) (rest : Bytes) :
    readHeader ((positive n).octets ++ rest) = some (.positive n.value, rest) :=
  n.readHeader_write (by decide) rfl rest

theorem readHeader_negative (n : Argument) (rest : Bytes) :
    readHeader ((negative n).octets ++ rest) = some (.negative n.value, rest) :=
  n.readHeader_write (by decide) rfl rest

theorem readHeader_bytes (s : StringForm) (rest : Bytes) :
    readHeader ((bytes s).octets ++ rest) = some (.bytes s.length, s.body 2 ++ rest) :=
  StringKind.bytes.readHeader_write s rest

theorem readHeader_text (s : StringForm) (rest : Bytes) :
    readHeader ((text s).octets ++ rest) = some (.text s.length, s.body 3 ++ rest) :=
  StringKind.text.readHeader_write s rest

theorem readHeader_array {size : Size} {items : List Item} (h : size.Fits items.length)
    (rest : Bytes) :
    readHeader ((array size items).octets ++ rest) =
      some (.array (size.argument items.length), items.flatMap octets ++ size.closing ++ rest) :=
  Size.readHeader_enclose (by decide) h rfl _ rest

theorem readHeader_map {size : Size} {entries : List (Item × Item)} (h : size.Fits entries.length)
    (rest : Bytes) :
    readHeader ((map size entries).octets ++ rest) =
      some (.map (size.argument entries.length),
        entries.flatMap (fun entry => entry.1.octets ++ entry.2.octets) ++ size.closing ++ rest) :=
  Size.readHeader_enclose (by decide) h rfl _ rest

theorem readHeader_tag (number : Argument) (content : Item) (rest : Bytes) :
    readHeader ((tag number content).octets ++ rest) =
      some (.tag number.value, content.octets ++ rest) := by
  rw [tag, List.append_assoc]
  exact number.readHeader_write (by decide) rfl _

theorem readHeader_simple {n : Nat} (h : n < 24) (rest : Bytes) :
    readHeader ((simple n).octets ++ rest) = some (.simple n, rest) := by
  have hopen : n ≠ 31 := by omega
  have hwidth : argumentWidth? n = some 0 := if_pos h
  rw [simple, List.cons_append, readHeader_special (by omega)]
  simp [readSpecial, hopen, hwidth, readOctets]

theorem readHeader_simpleWide {n : Nat} (h : n < 256) (rest : Bytes) :
    readHeader ((simpleWide n).octets ++ rest) = some (.simple n, rest) := by
  have hone : ofBigEndian [UInt8.ofNat n] = n := by
    simpa [ofBigEndian] using Utf8.toNat_ofNat h
  rw [simpleWide, List.cons_append, readHeader_special (by decide)]
  simp [readSpecial, argumentWidth?, readOctets, hone]

theorem readHeader_float {w : Width} {octets : Bytes} (hw : 2 ≤ w.octets)
    (h : octets.length = w.octets) (rest : Bytes) :
    readHeader ((float w octets).octets ++ rest) = some (.float octets, rest) := by
  have hlow : w.low 0 ≠ 31 := by cases w <;> decide
  have hwidth : argumentWidth? (w.low 0) = some w.octets := by cases w <;> rfl
  have hzero : w.octets ≠ 0 := by omega
  have hone : w.octets ≠ 1 := by omega
  rw [float, List.cons_append, readHeader_special (w.low_lt (by cases w <;> decide))]
  simp [readSpecial, hlow, hwidth, hzero, hone, readOctets_append h]

theorem skippedBignum?_of_readHeader {bytes rest : Bytes} {header : Header} {number : Nat}
    (h : readHeader bytes = some (header, rest)) (hne : ∀ n, header ≠ .bytes (some n)) :
    skippedBignum? number bytes = none := by
  rw [skippedBignum?, h]
  cases isBignumTag number with
  | false => rfl
  | true =>
    cases header with
    | bytes length =>
      cases length with
      | none => rfl
      | some n => exact absurd rfl (hne n)
    | _ => rfl

namespace WellFormed

variable {x : Item}

theorem opens (h : x.WellFormed) : Opens x.octets := by
  cases h with
  | positive n => exact fun rest => ⟨_, _, readHeader_positive n rest, nofun⟩
  | negative n => exact fun rest => ⟨_, _, readHeader_negative n rest, nofun⟩
  | bytes s => exact fun rest => ⟨_, _, readHeader_bytes s rest, nofun⟩
  | text s => exact fun rest => ⟨_, _, readHeader_text s rest, nofun⟩
  | array hsize _ => exact fun rest => ⟨_, _, readHeader_array hsize rest, nofun⟩
  | map hsize _ => exact fun rest => ⟨_, _, readHeader_map hsize rest, nofun⟩
  | tag number h => exact fun rest => ⟨_, _, readHeader_tag number _ rest, nofun⟩
  | simple h => exact fun rest => ⟨_, _, readHeader_simple h rest, nofun⟩
  | simpleWide _ h => exact fun rest => ⟨_, _, readHeader_simpleWide h rest, nofun⟩
  | float hw h => exact fun rest => ⟨_, _, readHeader_float hw h rest, nofun⟩

/-- What is tried as a number behind a tag is one exactly if the tag makes a number of it. -/
theorem skippedBignum?_octets (h : x.WellFormed) (number : Nat) (rest : Bytes) :
    skippedBignum? number (x.octets ++ rest) = (x.bignum? number).map (·, rest) := by
  have hother : ∀ {header tail}, readHeader (x.octets ++ rest) = some (header, tail) →
      (∀ n, header ≠ .bytes (some n)) → x.magnitude = none →
      skippedBignum? number (x.octets ++ rest) = (x.bignum? number).map (·, rest) := by
    intro header tail hheader hne hnone
    rw [skippedBignum?_of_readHeader hheader hne, bignum?, hnone, ite_self, Option.map_none]
  cases h with
  | bytes s =>
    cases s with
    | pieces ps => exact hother (readHeader_bytes (.pieces ps) rest) nofun rfl
    | whole p =>
      rw [skippedBignum?, readHeader_bytes, bignum?]
      cases isBignumTag number with
      | false => rfl
      | true =>
        by_cases hp : p.octets.length ≤ 16
        · simp [Item.bytes, StringForm.length, StringForm.body, hp, readOctets_append]
        · simp [Item.bytes, StringForm.length, hp]
  | positive n => exact hother (readHeader_positive n rest) nofun rfl
  | negative n => exact hother (readHeader_negative n rest) nofun rfl
  | text s => exact hother (readHeader_text s rest) nofun rfl
  | array hsize _ => exact hother (readHeader_array hsize rest) nofun rfl
  | map hsize _ => exact hother (readHeader_map hsize rest) nofun rfl
  | tag number h => exact hother (readHeader_tag number _ rest) nofun rfl
  | simple h => exact hother (readHeader_simple h rest) nofun rfl
  | simpleWide _ h => exact hother (readHeader_simpleWide h rest) nofun rfl
  | float hw h => exact hother (readHeader_float hw h rest) nofun rfl

/-- A well-formed item is passed over to its end, whatever follows it, if the levels that are left
are enough for it and the reader knows all values in it; otherwise it is refused. -/
theorem reads_skipItem (h : x.WellFormed) (depth : Nat) :
    Reads (skipItem depth) x.octets (x.passes depth) () := by
  induction h generalizing depth with
  | positive n =>
    intro rest
    rw [skipItem, readHeader_positive]
    rfl
  | negative n =>
    intro rest
    rw [skipItem, readHeader_negative]
    rfl
  | bytes s =>
    intro rest
    rw [skipItem, readHeader_bytes]
    exact (StringKind.bytes.readString_reads s).map (fun _ => rfl) rest
  | text s =>
    intro rest
    rw [skipItem, readHeader_text]
    have hread := StringKind.text.readString_reads s rest
    have htext := s.isSome_textOfChunks
    simp only [Option.bind_eq_bind, Option.bind_some, hread, if_true, passes, Item.text, ← htext]
    cases textOfChunks (s.parts.map Piece.octets) <;> simp
  | @array size items hsize hitems ih =>
    intro rest
    rw [skipItem, readHeader_array hsize]
    cases depth with
    | zero =>
      rw [not_passes_zero rfl]
      rfl
    | succ depth =>
      have hread := size.readItems_reads (fun x hx => ih x hx depth)
        fun x hx => (hitems x hx).opens
      rw [passes_array]
      exact hread.map (fun _ => rfl) rest
  | @map size entries hsize hmembers ih =>
    intro rest
    rw [skipItem, readHeader_map hsize]
    cases depth with
    | zero =>
      rw [not_passes_zero rfl]
      rfl
    | succ depth =>
      have hentry := fun entry (h : entry ∈ entries) =>
        (ih _ (mem_members h).1 depth).both (ih _ (mem_members h).2 depth)
      have hopen := fun entry (h : entry ∈ entries) =>
        (hmembers _ (mem_members h).1).opens.append entry.2.octets
      rw [passes_map]
      exact (size.readItems_reads hentry hopen).map (fun _ => rfl) rest
  | @tag number content h ih =>
    intro rest
    rw [skipItem, readHeader_tag, Option.bind_eq_bind, Option.bind_some]
    dsimp only
    rw [h.skippedBignum?_octets]
    cases hn : content.bignum? number.value with
    | some n =>
      rw [passes_tag_bignum hn]
      by_cases hrange : number.value = 3 ∧ skippedNegativeLimit ≤ n <;> simp [hrange]
    | none =>
      cases depth with
      | zero =>
        rw [not_passes_zero (depth_tag hn)]
        rfl
      | succ depth =>
        rw [passes_tag hn]
        exact ih depth rest
  | @simple n h =>
    intro rest
    rw [skipItem, readHeader_simple h]
    by_cases hn : 20 ≤ n ∧ n ≤ 23 <;> simp [passes, Item.simple, hn]
  | @simpleWide n hmin hmax =>
    intro rest
    have hn : ¬(20 ≤ n ∧ n ≤ 23) := by omega
    rw [skipItem, readHeader_simpleWide hmax]
    simp [passes, Item.simpleWide, hn]
  | float hw h =>
    intro rest
    rw [skipItem, readHeader_float hw h]
    rfl

end WellFormed

end Item

end Coedit.Cbor
