import Coedit.Proofs.Items
import Coedit.Proofs.Messages
import Mathlib.Data.List.Nodup

/-!
A message is read from its map however the sender lays it out: with its fields in any order, among
fields of the sender's own, behind a header that counts the entries or goes on to a stop code. The
reader takes one entry after another, so each entry is read or passed over by itself
(`Entry.reads_readEntry`), and what is made of the fields depends on their names alone
(`Fields.get?_eq_of_perm`). Not every well-formed field of a sender's own can be passed over,
however shallow it is: `Entry.isReadable` says which can, and a message is read exactly if all can.
-/
namespace Coedit

namespace Field

open Cbor (StringForm Item Size Reads Opens)

/-! ### Layouts -/

/-- An entry of a message's map: a field that the reader may know, or one of the sender's own. -/
inductive Entry where
  | field (name : Text) (value : Value)
  | other (name : StringForm) (value : Item)

namespace Entry

def write : Entry → Bytes
  | field name v => writeText name ++ v.write
  | other name x => name.write 3 ++ x.octets

def field? : Entry → Option (Text × Value)
  | field name v => some (name, v)
  | other _ _ => none

/-- Fields are those of the schema, with values of their kind that 64 bits can hold. Other entries
have a name that the schema does not know, and any well-formed value. -/
def WellFormed (schema : Schema) : Entry → Prop
  | field name v => (name, v.kind) ∈ schema ∧ v.InWords
  | other name x => (∀ entry ∈ schema, Utf8.encode entry.1 ≠ name.octets) ∧ x.WellFormed

def ofField (f : Text × Value) : Entry := field f.1 f.2

def depth : Entry → Nat
  | field _ _ => 0
  | other _ x => x.depth

/-- Whether the reader reads an entry, or passes over it. -/
def isReadable : Entry → Bool
  | field _ _ => true
  | other name x => name.isName && x.passes nestingLimit

end Entry

structure Layout where
  size : Size
  entries : List Entry

namespace Layout

def write (l : Layout) : Bytes :=
  l.size.enclose 5 l.entries.length (l.entries.flatMap Entry.write)

def fields (l : Layout) : Fields := l.entries.filterMap Entry.field?

def names (l : Layout) : List Text := l.fields.map Prod.fst

structure WellFormed (schema : Schema) (l : Layout) : Prop where
  size_fits : l.size.Fits l.entries.length
  entries : ∀ e ∈ l.entries, e.WellFormed schema

/-- Whether the reader gets to the end of the map. -/
def isReadable (l : Layout) : Bool := l.entries.all Entry.isReadable

/-- Each of the fields in `required` is there, and no field is there twice. -/
def Complete (required : List Text) (l : Layout) : Prop :=
  (∀ name ∈ required, name ∈ l.names) ∧ l.names.Nodup

instance (required : List Text) (l : Layout) : Decidable (l.Complete required) :=
  inferInstanceAs (Decidable (_ ∧ _))

/-- The map that the encoder writes for fields: one entry for each, in order. -/
def ofFields (fields : Fields) : Layout :=
  ⟨.definite (.shortest fields.length), fields.map .ofField⟩

/-- What is written for a message is one of the ways to lay out its map. -/
theorem write_ofFields (fields : Fields) : (ofFields fields).write = Field.write fields := by
  rw [write, Size.enclose, Field.write, ← Cbor.Width.write_shortest]
  simp [ofFields, Size.opening, Size.closing, List.flatMap_map, Entry.write, Entry.ofField]

end Layout

/-! ### Reading a layout -/

variable {schema : Schema} {fields f g : Fields} {name : Text} {v : Value}

theorem lookup?_eq_none {octets : Bytes} (h : ∀ entry ∈ schema, Utf8.encode entry.1 ≠ octets) :
    lookup? schema octets = none :=
  List.find?_eq_none.mpr fun entry hentry he => h entry hentry (beq_iff_eq.mp he)

namespace Entry

variable {e : Entry}

theorem forall_wellFormed_ofField (h : ∀ field ∈ fields, (field.1, field.2.kind) ∈ schema)
    (hv : InWords fields) : ∀ e ∈ fields.map .ofField, Entry.WellFormed schema e :=
  List.forall_mem_map.mpr fun field hfield => ⟨h field hfield, hv field hfield⟩

theorem opens (hs : schema.Sound) (h : e.WellFormed schema) : Opens e.write := by
  cases e with
  | field name v =>
    have hname := countable_of_le_nameLimit (hs.length_le _ h.1)
    have hopen : Opens (writeText name) :=
      fun rest => ⟨_, _, readHeader_writeText hname rest, nofun⟩
    exact hopen.append v.write
  | other name x => exact (Cbor.StringKind.text.opens_write name).append x.octets

/-- An entry is read as its field, or passed over, whatever follows it. -/
theorem reads_readEntry (hs : schema.Sound) (h : e.WellFormed schema) :
    Reads (readEntry schema) e.write e.isReadable e.field? := by
  cases e with
  | field name v => exact readEntry_write hs h.1 h.2
  | other name x =>
    obtain ⟨hunknown, hvalue⟩ := h
    refine name.reads_readName.bind ?_
    dsimp only
    rw [lookup?_eq_none hunknown]
    exact (hvalue.reads_skipItem nestingLimit).map fun _ => rfl

end Entry

theorem Layout.wellFormed_ofFields (h : ∀ field ∈ fields, (field.1, field.2.kind) ∈ schema)
    (hv : InWords fields) (hlength : fields.length < Numeral.wordLimit) :
    (ofFields fields).WellFormed schema := by
  refine ⟨?_, Entry.forall_wellFormed_ofField h hv⟩
  change (fields.map Entry.ofField).length < (Cbor.Width.shortest fields.length).limit
  rw [List.length_map]
  exact Cbor.Width.lt_limit_shortest hlength

/-- A well-formed map is read to its end if its entries can be read or passed over and none of its
fields is repeated, and is refused otherwise. -/
theorem Layout.reads_read {l : Layout} (hs : schema.Sound) (h : l.WellFormed schema) :
    Reads (read schema) l.write (l.isReadable && decide l.names.Nodup) l.fields := by
  have hentries := l.size.readItems_reads (fun e he => Entry.reads_readEntry hs (h.entries e he))
    fun e he => Entry.opens hs (h.entries e he)
  have hfields : (l.entries.map Entry.field?).filterMap id = l.fields := by
    rw [List.filterMap_map, fields]
    rfl
  intro rest
  rw [read, write, Cbor.readOpening_of_readHeader
    (Size.readHeader_enclose (by decide) h.size_fits rfl _ rest) fun _ h => by cases h]
  refine hentries.bindCheck (fun rest => ?_) rest
  dsimp only
  rw [hfields]
  change (if l.names.Nodup then _ else _) = _
  by_cases hd : l.names.Nodup
  · rw [if_pos hd, decide_eq_true hd, if_pos rfl]
  · rw [if_neg hd, decide_eq_false hd]
    rfl

/-! ### Fields by their names -/

theorem Fields.get?_eq_some_iff (hd : (fields.map Prod.fst).Nodup) :
    fields.get? name = some v ↔ (name, v) ∈ fields := by
  rw [get?, List.lookup_eq_some_iff]
  constructor
  · rintro ⟨front, back, rfl, -⟩
    exact List.mem_append_right _ List.mem_cons_self
  · intro hmem
    obtain ⟨front, back, rfl⟩ := List.append_of_mem hmem
    refine ⟨front, back, rfl, fun field hfield => ?_⟩
    rw [List.map_append, List.map_cons, List.nodup_middle, List.nodup_cons] at hd
    rw [bne_iff_ne]
    rintro rfl
    have hname : field.1 ∈ front.map Prod.fst := List.mem_map_of_mem hfield
    exact hd.1 (List.mem_append_left _ hname)

/-- Where a field stands among others does not matter. -/
theorem Fields.get?_eq_of_perm (h : f.Perm g) (hd : (g.map Prod.fst).Nodup) (name : Text) :
    f.get? name = g.get? name := by
  have hdf : (f.map Prod.fst).Nodup := (h.map Prod.fst).nodup_iff.mpr hd
  ext v
  rw [get?_eq_some_iff hdf, get?_eq_some_iff hd, h.mem_iff]

theorem Fields.get?_eq_none (h : name ∉ fields.map Prod.fst) : fields.get? name = none := by
  rw [get?, List.lookup_eq_none_iff]
  intro field hfield
  rw [bne_iff_ne]
  rintro rfl
  exact h (List.mem_map_of_mem hfield)

/-- A message is made of nothing but what its names stand for, and each name in `required` has to
stand for something. -/
structure Determines {α : Type} (ofFields? : Fields → Option α) (required : List Text) : Prop where
  congr : ∀ {f g : Fields}, (∀ name, f.get? name = g.get? name) → ofFields? f = ofFields? g
  isSome : ∀ {f : Fields} {a : α}, ofFields? f = some a →
    ∀ name ∈ required, (f.get? name).isSome = true

section Decode

variable {α : Type} {ofFields? : Fields → Option α} {required : List Text} {l : Layout} {a : α}

theorem Determines.eq_none (hd : Determines ofFields? required) (hm : name ∈ required)
    (hnone : f.get? name = none) : ofFields? f = none := by
  cases hmade : ofFields? f with
  | none => rfl
  | some a =>
    have hsome := hd.isSome hmade name hm
    rw [hnone] at hsome
    cases hsome

theorem Determines.eq_of_perm (hd : Determines ofFields? required) (hp : f.Perm g)
    (hn : (g.map Prod.fst).Nodup) : ofFields? f = ofFields? g :=
  hd.congr (Fields.get?_eq_of_perm hp hn)

/-- What is made of the fields of a map is read if all other entries can be passed over, and is
refused otherwise. -/
theorem Layout.read_bind (hs : schema.Sound) (h : l.WellFormed schema) (hn : l.names.Nodup)
    (ha : ofFields? l.fields = some a) (rest : Bytes) :
    (read schema (l.write ++ rest) >>= fun (fields, _) => ofFields? fields) =
      if l.isReadable then some a else none := by
  rw [l.reads_read hs h, decide_eq_true hn, Bool.and_true]
  cases l.isReadable with
  | false => rfl
  | true => exact ha

/-- The order of the fields does not matter. -/
theorem Layout.read_bind_of_perm (hs : schema.Sound) (hd : Determines ofFields? required)
    (h : l.WellFormed schema) (hp : l.fields.Perm fields) (hn : (fields.map Prod.fst).Nodup)
    (ha : ofFields? fields = some a) (rest : Bytes) :
    (read schema (l.write ++ rest) >>= fun (fields, _) => ofFields? fields) =
      if l.isReadable then some a else none :=
  l.read_bind hs h ((hp.map Prod.fst).nodup_iff.mpr hn) ((hd.eq_of_perm hp hn).trans ha) rest

/-- No message is read from a map that lacks a field or has one twice. -/
theorem Layout.read_bind_eq_none (hs : schema.Sound) (hd : Determines ofFields? required)
    (h : l.WellFormed schema) (hc : ¬l.Complete required) (rest : Bytes) :
    (read schema (l.write ++ rest) >>= fun (fields, _) => ofFields? fields) = none := by
  rw [l.reads_read hs h]
  by_cases hnames : l.names.Nodup
  · obtain ⟨name, hrequired, hmissing⟩ : ∃ name ∈ required, name ∉ l.names := by
      simpa [Complete, hnames] using hc
    have hnone := hd.eq_none hrequired (Fields.get?_eq_none hmissing)
    split
    · exact hnone
    · rfl
  · rw [decide_eq_false hnames, Bool.and_false]
    rfl

end Decode

end Field

open Coedit.Field (Fields Entry Layout Determines)
open Coedit.Cbor (StringForm Item)

theorem Request.determines : Determines ofFields? (schema.map Prod.fst) where
  congr h := by simp only [ofFields?, h]
  isSome h := by
    unfold ofFields? at h
    split at h
    · rename_i hid hfile hpatch
      simp only [schema, List.map_cons, List.map_nil, List.forall_mem_cons, hid, hfile, hpatch,
        Option.isSome_some, List.not_mem_nil, false_implies, implies_true, and_self]
    · cases h

theorem Response.determines :
    Determines ofFields? ((schema.map Prod.fst).erase "message".toList) where
  congr h := by simp only [ofFields?, h]
  isSome {f a} h := by
    unfold ofFields? at h
    split at h
    · rename_i hid hstatus hversion hmissing _
      change ∀ name ∈ ["request_id".toList, "status".toList, "version".toList,
        "missing_patches".toList], (f.get? name).isSome = true
      simp only [List.forall_mem_cons, hid, hstatus, hversion, hmissing, Option.isSome_some,
        List.not_mem_nil, false_implies, implies_true, and_self]
    · cases h

theorem Notification.determines : Determines ofFields? (schema.map Prod.fst) where
  congr h := by simp only [ofFields?, h]
  isSome h := by
    unfold ofFields? at h
    split at h
    · rename_i hfile hpatch hversion
      simp only [schema, List.map_cons, List.map_nil, List.forall_mem_cons, hfile, hpatch, hversion,
        Option.isSome_some, List.not_mem_nil, false_implies, implies_true, and_self]
    · cases h

/-- An answer without a message is the same as one whose message is left out. -/
theorem Response.ofFields?_leftOut {f : Fields} (h : "message".toList ∉ f.map Prod.fst) :
    ofFields? (("message".toList, .optionalText none) :: f) = ofFields? f := by
  have hother : ∀ name : Text, name ≠ "message".toList →
      Fields.get? (("message".toList, .optionalText none) :: f) name = f.get? name := by
    intro name hne
    rw [Fields.get?, List.lookup_cons, beq_eq_false_iff_ne.mpr hne]
    rfl
  have hsame : Fields.get? (("message".toList, .optionalText none) :: f) "message".toList =
      some (.optionalText none) := List.lookup_cons_self
  rw [ofFields?, ofFields?, hother _ (by decide), hother _ (by decide), hother _ (by decide),
    hother _ (by decide), hsame, Fields.get?_eq_none h]
  rfl

theorem Response.decode?_leftOut {r : Response} {l : Layout} (h : l.WellFormed schema)
    (hp : (("message".toList, .optionalText none) :: l.fields).Perm r.fields) (rest : Bytes) :
    decode? (l.write ++ rest) = if l.isReadable then some r else none := by
  obtain ⟨hmessage, hnames⟩ : "message".toList ∉ l.names ∧ l.names.Nodup :=
    List.nodup_cons.mp ((hp.map Prod.fst).nodup_iff.mpr schema_sound.nodup)
  have hmade : ofFields? l.fields = some r := by
    rw [← ofFields?_leftOut hmessage, determines.eq_of_perm hp schema_sound.nodup]
    rfl
  exact l.read_bind schema_sound h hnames hmade rest

/-- Whatever octets follow, a message is read from a well-formed map that has its fields in any
order, an answer's message left out if there is none, if and only if all other entries can be passed
over; and no message is read from a map that lacks any other field or has one twice. -/
theorem messages_read_in_any_layout (rest : Bytes) :
    (∀ l : Layout, l.WellFormed Request.schema →
      (∀ r : Request, l.fields.Perm r.fields →
        Request.decode? (l.write ++ rest) = if l.isReadable then some r else none) ∧
      (¬l.Complete (Request.schema.map Prod.fst) → Request.decode? (l.write ++ rest) = none)) ∧
    (∀ l : Layout, l.WellFormed Response.schema →
      (∀ r : Response,
        l.fields.Perm r.fields ∨
          (("message".toList, .optionalText none) :: l.fields).Perm r.fields →
        Response.decode? (l.write ++ rest) = if l.isReadable then some r else none) ∧
      (¬l.Complete ((Response.schema.map Prod.fst).erase "message".toList) →
        Response.decode? (l.write ++ rest) = none)) ∧
    (∀ l : Layout, l.WellFormed Notification.schema →
      (∀ n : Notification, l.fields.Perm n.fields →
        Notification.decode? (l.write ++ rest) = if l.isReadable then some n else none) ∧
      (¬l.Complete (Notification.schema.map Prod.fst) →
        Notification.decode? (l.write ++ rest) = none)) := by
  refine ⟨fun l h => ⟨fun r hp => ?_, fun hc => ?_⟩, fun l h => ⟨fun r hp => ?_, fun hc => ?_⟩,
    fun l h => ⟨fun n hp => ?_, fun hc => ?_⟩⟩
  · exact l.read_bind_of_perm Request.schema_sound Request.determines h hp
      Request.schema_sound.nodup rfl rest
  · exact l.read_bind_eq_none Request.schema_sound Request.determines h hc rest
  · rcases hp with hp | hp
    · exact l.read_bind_of_perm Response.schema_sound Response.determines h hp
        Response.schema_sound.nodup rfl rest
    · exact Response.decode?_leftOut h hp rest
  · exact l.read_bind_eq_none Response.schema_sound Response.determines h hc rest
  · exact l.read_bind_of_perm Notification.schema_sound Notification.determines h hp
      Notification.schema_sound.nodup rfl rest
  · exact l.read_bind_eq_none Notification.schema_sound Notification.determines h hc rest

/-- An open map from a text in pieces to a tagged array of a big number and a float stands in front
of each field of a request in reverse order, of an answer without its message, and of two
notifications: one lacks its version, and one has it twice. -/
theorem messages_read_in_any_layout_nested :
    let id := Uuid.ofNat 7
    let r := Request.ofPatch id ⟨['é', '\n']⟩ (.unchanged 4 7)
    let answer : Response := ⟨id, .ok, -1, [['ß']], none⟩
    let n := Notification.ofPatch ⟨['é', '\n']⟩ (.unchanged 4 7) 5
    let text : StringForm :=
      .pieces [⟨.immediate, [0xC3, 0x9F], by decide⟩, ⟨.two, [0x78], by decide⟩]
    let big : Item := .tag ⟨.one, 3, by decide⟩ (.bytes (.whole ⟨.four, [1, 2], by decide⟩))
    let array : Item := .array (.definite .eight) [big, .float .two [0, 1]]
    let map : Item := .map .indefinite [(.text text, .tag ⟨.four, 7, by decide⟩ array)]
    let own : Entry := .other (.whole ⟨.eight, [0x7A, 0x7A], by decide⟩) map
    let among (fields : Fields) : List Entry := fields.flatMap fun field => [own, .ofField field]
    let lr : Layout := ⟨.indefinite, among r.fields.reverse⟩
    let la : Layout := ⟨.definite .four, among (answer.fields.take 4)⟩
    let lacking : Layout := ⟨.indefinite, among (n.fields.take 2)⟩
    let repeated : Layout := ⟨.definite .one, among (n.fields ++ n.fields.drop 2)⟩
    let rest : Bytes := [0xFF, 0x00]
    lr.WellFormed Request.schema ∧ la.WellFormed Response.schema ∧
      lacking.WellFormed Notification.schema ∧ repeated.WellFormed Notification.schema ∧
      lr.fields.Perm r.fields ∧
      (("message".toList, .optionalText none) :: la.fields).Perm answer.fields ∧
      Request.decode? (lr.write ++ rest) = some r ∧
      Response.decode? (la.write ++ rest) = some answer ∧
      Notification.decode? (lacking.write ++ rest) = none ∧
      Notification.decode? (repeated.write ++ rest) = none := by
  intro id r answer n text big array map own among lr la lacking repeated rest
  have hbig : big.WellFormed := .tag _ (.bytes _)
  have hfloat : (Item.float .two [0, 1]).WellFormed := .float (by decide) rfl
  have harray : array.WellFormed :=
    .array (by decide : 2 < Numeral.wordLimit) (by simp [hbig, hfloat])
  have hmap : map.WellFormed :=
    .map trivial (by simp [Item.members, harray, Item.WellFormed.text, Item.WellFormed.tag])
  have hunknown : ∀ schema ∈ [Request.schema, Response.schema, Notification.schema],
      ∀ entry ∈ schema, Utf8.encode entry.1 ≠ [0x7A, 0x7A] := by decide +kernel
  have hamong : ∀ schema ∈ [Request.schema, Response.schema, Notification.schema],
      ∀ fields : Fields, (∀ field ∈ fields, (field.1, field.2.kind) ∈ schema ∧ field.2.InWords) →
        ∀ e ∈ among fields, e.WellFormed schema := by
    intro schema hschema fields hfields e he
    obtain ⟨field, hfield, he⟩ := List.mem_flatMap.mp he
    rcases List.mem_pair.mp he with rfl | rfl
    · exact ⟨hunknown schema hschema, hmap⟩
    · exact hfields field hfield
  have hlr : lr.WellFormed Request.schema :=
    ⟨trivial, hamong _ (by simp) _ (by decide +kernel)⟩
  have hla : la.WellFormed Response.schema :=
    ⟨(by decide : 8 < 0x100000000), hamong _ (by simp) _ (by decide +kernel)⟩
  have hlacking : lacking.WellFormed Notification.schema :=
    ⟨trivial, hamong _ (by simp) _ (by decide +kernel)⟩
  have hrepeated : repeated.WellFormed Notification.schema :=
    ⟨(by decide : 8 < 0x100), hamong _ (by simp) _ (by decide +kernel)⟩
  have hpr : lr.fields.Perm r.fields := by decide +kernel
  have hpa : (("message".toList, .optionalText none) :: la.fields).Perm answer.fields := by
    decide +kernel
  have hreadr : lr.isReadable = true := by decide +kernel
  have hreada : la.isReadable = true := by decide +kernel
  obtain ⟨hrequests, hresponses, hnotifications⟩ := messages_read_in_any_layout rest
  refine ⟨hlr, hla, hlacking, hrepeated, hpr, hpa, ?_, ?_, ?_, ?_⟩
  · rw [(hrequests lr hlr).1 r hpr, hreadr, if_pos rfl]
  · rw [(hresponses la hla).1 answer (.inr hpa), hreada, if_pos rfl]
  · exact (hnotifications lacking hlacking).2 (by decide +kernel)
  · exact (hnotifications repeated hrepeated).2 (by decide +kernel)

/-- Fields of the sender's own that nest no value at all, and still cannot be passed over: a simple
value without a meaning, a text that is not UTF-8, a negative number out of range, a name in two
pieces and a name that is too long. -/
theorem shallow_fields_refused :
    let n : Notification := ⟨⟨['n']⟩, ['v', '1', ':', '\n', ':', '\n', '3'], 5⟩
    let name : StringForm := .whole ⟨.immediate, [0x7A, 0x7A], by decide⟩
    let null : Item := .simple 22
    let refused : List Entry := [
      .other name (.simple 0),
      .other name (.text (.whole ⟨.immediate, [0xFF], by decide⟩)),
      .other name (.tag ⟨.immediate, 3, by decide⟩
        (.bytes (.whole ⟨.immediate, 0x80 :: List.replicate 15 0, by decide⟩))),
      .other (.pieces [⟨.immediate, [0x7A], by decide⟩, ⟨.immediate, [0x7A], by decide⟩]) null,
      .other (.whole ⟨.two, List.replicate 4097 0x7A, by rw [List.length_replicate]; decide⟩) null]
    ∀ e ∈ refused,
      let l : Layout := ⟨.definite .immediate, e :: n.fields.map .ofField⟩
      l.WellFormed Notification.schema ∧ l.fields = n.fields ∧ e.depth ≤ Field.nestingLimit ∧
        Notification.decode? l.write = none := by
  intro n name null refused
  have hnull : null.WellFormed := .simple (by decide)
  have hwell : ∀ e ∈ refused, e.WellFormed Notification.schema := by
    simp only [refused, List.forall_mem_cons]
    exact ⟨⟨by decide +kernel, .simple (by decide)⟩, ⟨by decide +kernel, .text _⟩,
      ⟨by decide +kernel, .tag _ (.bytes _)⟩, ⟨by decide +kernel, hnull⟩,
      ⟨by decide +kernel, hnull⟩, by simp⟩
  have hshallow : ∀ e ∈ refused, e.depth ≤ Field.nestingLimit := by decide +kernel
  have hrefused : ∀ e ∈ refused, e.isReadable = false := by decide +kernel
  have hother : ∀ e ∈ refused, e.field? = none := by decide
  intro e he l
  have hfields : l.fields = n.fields := by
    rw [Layout.fields, List.filterMap_cons, hother e he]
    rfl
  have hl : l.WellFormed Notification.schema := by
    refine ⟨(by decide : 4 < 24), List.forall_mem_cons.mpr ⟨hwell e he, ?_⟩⟩
    exact Entry.forall_wellFormed_ofField (by decide) (by decide +kernel)
  have hstuck : l.isReadable = false := by
    rw [Layout.isReadable, List.all_cons, hrefused e he, Bool.false_and]
  have hread := l.read_bind_of_perm Notification.schema_sound Notification.determines hl
    (.of_eq hfields) Notification.schema_sound.nodup rfl []
  rw [hstuck, List.append_nil] at hread
  exact ⟨hl, hfields, hshallow e he, hread⟩

end Coedit
