import Coedit.Message.Basic
import Coedit.Proofs.Cbor
import Coedit.Proofs.Obtainable

/-!
Messages survive CBOR (`decode?_encode`): whatever octets follow, what is read is the message that was
written, and the patches in it are the patches that were put in. A value of each kind is read as it is
written (`Field.read_write`); the names of a schema are told apart by their octets, so an entry finds
its kind again (`Field.readEntry_write`), and a message its fields (`Field.readFields_write`).
-/
namespace Coedit

namespace Utf8

theorem encode_injective {s t : Text} (h : encode s = encode t) : s = t := by
  have hs := decode_encode s
  rw [h, decode_encode t] at hs
  exact (Except.ok.inj hs).symm

end Utf8

namespace Field

variable {schema : Schema} {name t : Text} {n : Int} {v : Value}

/-- The octets of a text are counted in 64 bits. -/
def Countable (text : Text) : Prop := (Utf8.encode text).length < Numeral.wordLimit

namespace Value

def kind : Value → Kind
  | uuid _ => .uuid
  | status _ => .status
  | version _ => .version
  | text _ => .text
  | texts _ => .texts
  | optionalText _ => .optionalText

/-- The number of a value, or its lengths, are of 64 bits. -/
def InWords : Value → Prop
  | uuid _ => True
  | status _ => True
  | version n => Numeral.fits n = true
  | text t => Countable t
  | texts ts => ts.length < Numeral.wordLimit ∧ ∀ t ∈ ts, Countable t
  | optionalText t => ∀ u ∈ t, Countable u

end Value

def InWords (fields : Fields) : Prop := ∀ field ∈ fields, field.2.InWords

instance (t : Text) : Decidable (Countable t) := inferInstanceAs (Decidable (_ < _))

instance : (v : Value) → Decidable v.InWords
  | .uuid _ | .status _ => .isTrue trivial
  | .version n => inferInstanceAs (Decidable (Numeral.fits n = true))
  | .text t => inferInstanceAs (Decidable (Countable t))
  | .texts ts =>
    inferInstanceAs (Decidable (ts.length < Numeral.wordLimit ∧ ∀ t ∈ ts, Countable t))
  | .optionalText t => inferInstanceAs (Decidable (∀ u ∈ t, Countable u))

instance (fields : Fields) : Decidable (InWords fields) :=
  inferInstanceAs (Decidable (∀ field ∈ fields, field.2.InWords))

theorem readHeader_writeText (h : Countable t) (rest : Bytes) :
    Cbor.readHeader (writeText t ++ rest) =
      some (.text (some (Utf8.encode t).length), Utf8.encode t ++ rest) := by
  rw [writeText, List.append_assoc]
  exact Cbor.readHeader_writeHead (by decide) h rfl _

theorem readOpening_writeText (h : Countable t) (rest : Bytes) :
    Cbor.readOpening (writeText t ++ rest) =
      some (.text (some (Utf8.encode t).length), Utf8.encode t ++ rest) :=
  Cbor.readOpening_of_readHeader (readHeader_writeText h rest) nofun

theorem readText_writeText (h : Countable t) (rest : Bytes) :
    Cbor.readText (writeText t ++ rest) = some (t, rest) := by
  simp only [Cbor.readText, readOpening_writeText h, Cbor.textLength?, Option.bind_eq_bind,
    Option.bind_some, Cbor.readString_append _ rfl, Cbor.textOfChunks_encode]

theorem countable_of_le_nameLimit (h : (Utf8.encode t).length ≤ Cbor.nameLimit) : Countable t :=
  Nat.lt_of_le_of_lt h (by decide)

theorem readName_writeText (h : (Utf8.encode t).length ≤ Cbor.nameLimit) (rest : Bytes) :
    Cbor.readName (writeText t ++ rest) = some (Utf8.encode t, rest) := by
  simp [Cbor.readName, readOpening_writeText (countable_of_le_nameLimit h), h,
    Cbor.readOctets_append, Utf8.decode_encode, Except.toBool]

theorem readUuid_write (id : Uuid) (rest : Bytes) :
    readUuid ((Value.uuid id).write ++ rest) = some (id, rest) := by
  have hopen : Cbor.readOpening ((Value.uuid id).write ++ rest) =
      some (.bytes (some 16), id.octets ++ rest) := by
    rw [Value.write, List.append_assoc, id.length_octets]
    exact Cbor.readOpening_of_readHeader
      (Cbor.readHeader_writeHead (by decide) (by decide) rfl _) nofun
  simp [readUuid, hopen, Cbor.readOctets_append id.length_octets, Uuid.ofOctets?_octets]

theorem ofOctets?_name (s : Status) : Status.ofOctets? (Utf8.encode s.name) = some s := by
  cases s <;> decide

theorem readStatus_write (s : Status) (rest : Bytes) :
    readStatus ((Value.status s).write ++ rest) = some (s, rest) := by
  have hname : (Utf8.encode s.name).length ≤ Cbor.nameLimit := by cases s <;> decide
  simp [Value.write, readStatus, readOpening_writeText (countable_of_le_nameLimit hname), hname,
    Cbor.readOctets_append, ofOctets?_name]

theorem readInteger_writeInteger (h : Numeral.fits n = true) (rest : Bytes) :
    Cbor.readInteger (writeInteger n ++ rest) = some (n, rest) := by
  simp only [Numeral.fits, Bool.and_eq_true, decide_eq_true_eq] at h
  cases n with
  | ofNat n =>
    have hn : n < Numeral.wordLimit := by simp [Numeral.greatestInt, Numeral.wordLimit] at h ⊢; omega
    have hhead : Cbor.readHeader (Cbor.writeHead 0 n ++ rest) = some (.positive n, rest) :=
      Cbor.readHeader_writeHead (by decide) hn rfl rest
    have hread := Cbor.readUntagged_of_readHeader Cbor.isBignumTag hhead nofun
    simp only [Cbor.readInteger, writeInteger, hread, Option.bind_eq_bind, Option.bind_some]
  | negSucc n =>
    have hn : n < Numeral.wordLimit := by simp [Numeral.leastInt, Numeral.wordLimit] at h ⊢; omega
    have hhead : Cbor.readHeader (Cbor.writeHead 1 n ++ rest) = some (.negative n, rest) :=
      Cbor.readHeader_writeHead (by decide) hn rfl rest
    have hread := Cbor.readUntagged_of_readHeader Cbor.isBignumTag hhead nofun
    simp only [Cbor.readInteger, writeInteger, hread, Option.bind_eq_bind, Option.bind_some]

theorem readVersion_write (h : Numeral.fits n = true) (rest : Bytes) :
    readVersion ((Value.version n).write ++ rest) = some (n, rest) := by
  simp [Value.write, readVersion, readInteger_writeInteger h, h]

theorem readTexts_write {ts : List Text} (hlength : ts.length < Numeral.wordLimit)
    (hts : ∀ t ∈ ts, Countable t) (rest : Bytes) :
    readTexts ((Value.texts ts).write ++ rest) = some (ts, rest) := by
  have hopen : Cbor.readOpening ((Value.texts ts).write ++ rest) =
      some (.array (some ts.length), ts.flatMap writeText ++ rest) := by
    rw [Value.write, List.append_assoc]
    exact Cbor.readOpening_of_readHeader
      (Cbor.readHeader_writeHead (by decide) hlength rfl _) nofun
  have hitems := Cbor.readCounted_flatMap id
    (fun t ht rest => readText_writeText (hts t ht) rest) rest
  simp [readTexts, hopen, Cbor.readItems, hitems]

theorem readOptionalText_write {t : Option Text} (h : ∀ u ∈ t, Countable u) (rest : Bytes) :
    readOptionalText ((Value.optionalText t).write ++ rest) = some (t, rest) := by
  cases t with
  | none => rfl
  | some u =>
    have hu : Countable u := h u rfl
    simp [Value.write, readOptionalText, readHeader_writeText hu, readText_writeText hu]

/-- A value is read as it is written. -/
theorem read_write (h : v.InWords) (rest : Bytes) :
    v.kind.read (v.write ++ rest) = some (v, rest) := by
  cases v with
  | uuid id => simp [Value.kind, Kind.read, mapReader, readUuid_write]
  | status s => simp [Value.kind, Kind.read, mapReader, readStatus_write]
  | version n => simp [Value.kind, Kind.read, mapReader, readVersion_write h]
  | text t => simp [Value.kind, Kind.read, mapReader, Value.write, readText_writeText h]
  | texts ts => simp [Value.kind, Kind.read, mapReader, readTexts_write h.1 h.2]
  | optionalText t => simp [Value.kind, Kind.read, mapReader, readOptionalText_write h]

/-- The names of a schema are told apart, each is short enough to be read, and 64 bits count
them. -/
structure Schema.Sound (schema : Schema) : Prop where
  nodup : (schema.map Prod.fst).Nodup
  length_le : ∀ entry ∈ schema, (Utf8.encode entry.1).length ≤ Cbor.nameLimit
  length_lt : schema.length < Numeral.wordLimit

theorem lookup?_encode {kind : Kind} (hs : (schema.map Prod.fst).Nodup)
    (h : (name, kind) ∈ schema) : lookup? schema (Utf8.encode name) = some (name, kind) := by
  induction schema with
  | nil => cases h
  | cons entry schema ih =>
    rw [List.map_cons, List.nodup_cons] at hs
    rcases List.mem_cons.mp h with rfl | h
    · simp [lookup?]
    · -- names are compared as octets, and different names have different octets
      have hne : (Utf8.encode entry.1 == Utf8.encode name) = false :=
        beq_eq_false_iff_ne.mpr fun he => hs.1
          (List.mem_map.mpr ⟨(name, kind), h, (Utf8.encode_injective he).symm⟩)
      have hrest := ih hs.2 h
      simpa [lookup?, hne] using hrest

/-- An entry whose name the schema knows is read as it is written. -/
theorem readEntry_write (hs : schema.Sound) (hm : (name, v.kind) ∈ schema) (hv : v.InWords)
    (rest : Bytes) :
    readEntry schema (writeText name ++ v.write ++ rest) = some (some (name, v), rest) := by
  rw [List.append_assoc]
  simp only [readEntry, readName_writeText (hs.length_le _ hm), Option.bind_eq_bind,
    Option.bind_some, lookup?_encode hs.nodup hm, mapReader, read_write hv, Option.map_some]

/-- Fields that a schema knows are read as they are written, whatever follows them. -/
theorem readFields_write {fields : Fields} (hs : schema.Sound)
    (hm : ∀ field ∈ fields, (field.1, field.2.kind) ∈ schema) (hd : (fields.map Prod.fst).Nodup)
    (hlength : fields.length < Numeral.wordLimit) (hv : InWords fields) (rest : Bytes) :
    read schema (write fields ++ rest) = some (fields, rest) := by
  have hopen : Cbor.readOpening (write fields ++ rest) = some (.map (some fields.length),
      fields.flatMap (fun field => writeText field.1 ++ field.2.write) ++ rest) := by
    rw [write, List.append_assoc]
    exact Cbor.readOpening_of_readHeader
      (Cbor.readHeader_writeHead (by decide) hlength rfl _) fun _ h => by cases h
  have hentries := Cbor.readCounted_flatMap some
    (fun field hfield rest => readEntry_write hs (hm field hfield) (hv field hfield) rest) rest
  simp [read, hopen, Cbor.readItems, hentries, hd]

/-- A message that has all fields of its schema is read as it is written. -/
theorem read_write_all {fields : Fields} (hs : schema.Sound)
    (hkinds : fields.map (fun field => (field.1, field.2.kind)) = schema) (hv : InWords fields)
    (rest : Bytes) : read schema (write fields ++ rest) = some (fields, rest) := by
  subst hkinds
  have hmem : ∀ field ∈ fields, (field.1, field.2.kind) ∈
      fields.map fun field => (field.1, field.2.kind) := fun _ => List.mem_map_of_mem
  have hnodup : (fields.map Prod.fst).Nodup := by simpa [Function.comp_def] using hs.nodup
  have hlength : fields.length < Numeral.wordLimit := by simpa using hs.length_lt
  exact readFields_write hs hmem hnodup hlength hv rest

/-- What is made of all fields of a schema is made of them once they are written and read. -/
theorem readFields_bind {α : Type} {fields : Fields} {ofFields? : Fields → Option α} {a : α}
    (hs : schema.Sound) (hkinds : fields.map (fun field => (field.1, field.2.kind)) = schema)
    (hv : InWords fields) (ha : ofFields? fields = some a) (rest : Bytes) :
    (read schema (write fields ++ rest) >>= fun (fields, _) => ofFields? fields) = some a := by
  rw [read_write_all hs hkinds hv, Option.bind_eq_bind, Option.bind_some]
  exact ha

end Field

theorem Request.schema_sound : Field.Schema.Sound Request.schema := by
  constructor <;> decide

theorem Response.schema_sound : Field.Schema.Sound Response.schema := by
  constructor <;> decide

theorem Notification.schema_sound : Field.Schema.Sound Notification.schema := by
  constructor <;> decide

theorem Request.decode?_encode {r : Request} (h : Field.InWords r.fields) (rest : Bytes) :
    Request.decode? (r.encode ++ rest) = some r := by
  have hmade : Request.ofFields? r.fields = some r := rfl
  exact Field.readFields_bind Request.schema_sound rfl h hmade rest

theorem Response.decode?_encode {r : Response} (h : Field.InWords r.fields) (rest : Bytes) :
    Response.decode? (r.encode ++ rest) = some r := by
  have hmade : Response.ofFields? r.fields = some r := rfl
  exact Field.readFields_bind Response.schema_sound rfl h hmade rest

theorem Notification.decode?_encode {n : Notification} (h : Field.InWords n.fields)
    (rest : Bytes) : Notification.decode? (n.encode ++ rest) = some n := by
  have hmade : Notification.ofFields? n.fields = some n := rfl
  exact Field.readFields_bind Notification.schema_sound rfl h hmade rest

theorem Patch.Obtainable.parse_render {p : Patch} (h : p.Obtainable) (hw : p.InWords) :
    Patch.parse p.render = .ok p :=
  Patch.parse_render (hw.sendable h.simplified)

/-- Whatever octets follow a message, it is read as it was written, and the patches whose written
forms it carries are read from it in their order. -/
theorem messages_survive_cbor (rest : Bytes) :
    (∀ r : Request, Field.InWords r.fields →
      Request.decode? (r.encode ++ rest) = some r ∧
        ∀ p : Patch, p.Obtainable → p.InWords → r.patchText = p.render →
          (Request.decode? (r.encode ++ rest)).map Request.patch = some (.ok p)) ∧
    (∀ r : Response, Field.InWords r.fields →
      Response.decode? (r.encode ++ rest) = some r ∧
        ∀ ps : List Patch, (∀ p ∈ ps, p.Obtainable ∧ p.InWords) → r.missing = ps.map Patch.render →
          (Response.decode? (r.encode ++ rest)).map Response.missingPatches = some (.ok ps)) ∧
    (∀ n : Notification, Field.InWords n.fields →
      Notification.decode? (n.encode ++ rest) = some n ∧
        ∀ p : Patch, p.Obtainable → p.InWords → n.patchText = p.render →
          (Notification.decode? (n.encode ++ rest)).map Notification.patch = some (.ok p)) := by
  refine ⟨fun r h => ⟨Request.decode?_encode h rest, fun p hp hw htext => ?_⟩,
    fun r h => ⟨Response.decode?_encode h rest, fun ps hps htexts => ?_⟩,
    fun n h => ⟨Notification.decode?_encode h rest, fun p hp hw htext => ?_⟩⟩
  · rw [Request.decode?_encode h, Option.map_some, Request.patch, htext, hp.parse_render hw]
  · have hread : r.missingPatches = .ok ps := by
      rw [Response.missingPatches, htexts]
      exact mapM_map_eq_ok fun p hp => (hps p hp).1.parse_render (hps p hp).2
    rw [Response.decode?_encode h, Option.map_some, hread]
  · rw [Notification.decode?_encode h, Option.map_some, Notification.patch, htext,
      hp.parse_render hw]

/-- A message of each kind, the answer with the least version, two patches and text beyond ASCII. -/
theorem messages_survive_cbor_least_version :
    let id := Uuid.ofNat 7
    let file : FileId := ⟨['é', '\n']⟩
    let p : Patch := .forDocument (-1) [.insertion 0 ['é', '\n'], .deletion 2 ['x']] 3
    let q : Patch := .unchanged 4 7
    let rest : Bytes := [0xFF, 0x00]
    let request := Request.ofPatch id file p
    let response : Response := ⟨id, .rejected, Numeral.leastInt, [p.render, q.render], some ['ß']⟩
    let notification := Notification.ofPatch file q Numeral.greatestInt
    Field.InWords request.fields ∧ Field.InWords response.fields ∧
      Field.InWords notification.fields ∧ (∀ m ∈ [p, q], m.Obtainable ∧ m.InWords) ∧
      (Request.decode? (request.encode ++ rest)).map Request.patch = some (.ok p) ∧
      Response.decode? (response.encode ++ rest) = some response ∧
      (Response.decode? (response.encode ++ rest)).map Response.missingPatches =
        some (.ok [p, q]) ∧
      (Notification.decode? (notification.encode ++ rest)).map Notification.patch =
        some (.ok q) := by
  intro id file p q rest request response notification
  have hrequest : Field.InWords request.fields := by decide +kernel
  have hresponse : Field.InWords response.fields := by decide +kernel
  have hnotification : Field.InWords notification.fields := by decide +kernel
  have hp : p.Obtainable ∧ p.InWords :=
    ⟨.forDocument .., ⟨by decide, by decide, by decide, by decide⟩⟩
  have hq : q.Obtainable ∧ q.InWords :=
    ⟨.unchanged .., ⟨by decide, by decide, by decide, by decide⟩⟩
  have hboth : ∀ m ∈ [p, q], m.Obtainable ∧ m.InWords := by simp [hp, hq]
  obtain ⟨hrequests, hresponses, hnotifications⟩ := messages_survive_cbor rest
  exact ⟨hrequest, hresponse, hnotification, hboth,
    (hrequests request hrequest).2 p hp.1 hp.2 rfl, (hresponses response hresponse).1,
    (hresponses response hresponse).2 [p, q] hboth rfl,
    (hnotifications notification hnotification).2 q hq.1 hq.2 rfl⟩

end Coedit
