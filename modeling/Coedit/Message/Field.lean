import Coedit.Cbor.Item
import Coedit.Message.Uuid
import Coedit.Text.Numeral

/-!
Messages travel as CBOR maps from field names to values. A schema says which names a message
knows and what kind of value each has. Reading passes over unknown names, and refuses a known
name that comes twice.
-/
namespace Coedit

/-- Whether the server committed a patch. -/
inductive Status where
  | ok
  | rejected
  deriving DecidableEq, Repr

def Status.name : Status → Text
  | .ok => "ok".toList
  | .rejected => "rejected".toList

def Status.ofOctets? (octets : Bytes) : Option Status :=
  [Status.ok, Status.rejected].find? fun status => Utf8.encode status.name == octets

namespace Field

inductive Kind where
  | uuid
  | status
  | version
  | text
  | texts
  | optionalText
  deriving DecidableEq, Repr

inductive Value where
  | uuid (id : Uuid)
  | status (status : Status)
  | version (version : Int)
  | text (text : Text)
  | texts (texts : List Text)
  | optionalText (text : Option Text)
  deriving DecidableEq, Repr

/-- A message type's known names. -/
abbrev Schema := List (Text × Kind)

abbrev Fields := List (Text × Value)

/-- A text of definite length. -/
def writeText (text : Text) : Bytes :=
  let octets := Utf8.encode text
  Cbor.writeHead 3 octets.length ++ octets

def writeInteger : Int → Bytes
  | .ofNat n => Cbor.writeHead 0 n
  | .negSucc n => Cbor.writeHead 1 n

/-- The simple value that stands for no value. -/
def writeNull : Bytes := [0xF6]

def Value.write : Value → Bytes
  | uuid id => Cbor.writeHead 2 id.octets.length ++ id.octets
  | status s => writeText s.name
  | version n => writeInteger n
  | text t => writeText t
  | texts ts => Cbor.writeHead 4 ts.length ++ ts.flatMap writeText
  | optionalText none => writeNull
  | optionalText (some t) => writeText t

/-- A map of definite length with the fields in order. -/
def write (fields : Fields) : Bytes :=
  Cbor.writeHead 5 fields.length ++
    fields.flatMap fun (name, value) => writeText name ++ value.write

/-- Reads an identifier: an octet string in one chunk. -/
def readUuid : Cbor.Reader Uuid := fun bytes => do
  let (header, rest) ← Cbor.readOpening bytes
  if header = .bytes (some 16) then
    let (octets, rest) ← Cbor.readOctets 16 rest
    some (← Uuid.ofOctets? octets, rest)
  else none

/-- Reads a status: its name, or a map header of one entry in front of its name. -/
def readStatus : Cbor.Reader Status := fun bytes => do
  let (header, rest) ← Cbor.readOpening bytes
  match header with
  | .text (some n) =>
    let (name, rest) ← if n ≤ Cbor.nameLimit then Cbor.readOctets n rest else none
    some (← Status.ofOctets? name, rest)
  | .map (some 1) =>
    let (name, rest) ← Cbor.readName rest
    some (← Status.ofOctets? name, rest)
  | _ => none

def readVersion : Cbor.Reader Int := fun bytes => do
  let (n, rest) ← Cbor.readInteger bytes
  if Numeral.fits n then some (n, rest) else none

/-- Reads a list of texts; an empty octet string is an empty list. -/
def readTexts : Cbor.Reader (List Text) := fun bytes => do
  let (header, rest) ← Cbor.readOpening bytes
  match header with
  | .array count => Cbor.readItems Cbor.readText count rest
  | .bytes length =>
    let (chunks, rest) ← Cbor.readString Cbor.octetLength? length rest
    if chunks.flatten = [] then some ([], rest) else none
  | _ => none

/-- Reads a text, or one of the two simple values for no text. -/
def readOptionalText : Cbor.Reader (Option Text) := fun bytes => do
  let (header, rest) ← Cbor.readHeader bytes
  if header = .simple 22 ∨ header = .simple 23 then some (none, rest)
  else (Cbor.readText bytes).map fun (text, rest) => (some text, rest)

def mapReader (f : α → β) (read : Cbor.Reader α) : Cbor.Reader β := fun bytes =>
  (read bytes).map fun (a, rest) => (f a, rest)

def Kind.read : Kind → Cbor.Reader Value
  | uuid => mapReader .uuid readUuid
  | status => mapReader .status readStatus
  | version => mapReader .version readVersion
  | text => mapReader .text Cbor.readText
  | texts => mapReader .texts readTexts
  | optionalText => mapReader .optionalText readOptionalText

def lookup? (schema : Schema) (octets : Bytes) : Option (Text × Kind) :=
  schema.find? fun (name, _) => Utf8.encode name == octets

/-- How deep values of unknown fields may nest. -/
def nestingLimit : Nat := 255

/-- Reads one entry of a map, which is nothing if its name is unknown. -/
def readEntry (schema : Schema) : Cbor.Reader (Option (Text × Value)) := fun bytes => do
  let (octets, rest) ← Cbor.readName bytes
  match lookup? schema octets with
  | some (name, kind) => mapReader (fun value => some (name, value)) kind.read rest
  | none => mapReader (fun _ => none) (Cbor.skipItem nestingLimit) rest

/-- Reads the known fields of a message in the order they come. -/
def read (schema : Schema) : Cbor.Reader Fields := fun bytes => do
  let (header, rest) ← Cbor.readOpening bytes
  match header with
  | .map count =>
    let (entries, rest) ← Cbor.readItems (readEntry schema) count rest
    let fields := entries.filterMap id
    if (fields.map Prod.fst).Nodup then some (fields, rest) else none
  | _ => none

def Fields.get? (fields : Fields) (name : Text) : Option Value := fields.lookup name

end Field

end Coedit
