import Coedit.Cbor.Header
import Coedit.Text.Utf8

/-!
Reading CBOR data items of an expected kind, and passing over items of any kind. Every reader is
lenient about the form of an item: tags in front of it are passed over, lengths may have any
width, and texts, arrays and maps may go on to a stop code.
-/
namespace Coedit.Cbor

/-- The tags that make an integer of an octet string. -/
def isBignumTag (number : Nat) : Bool := number == 2 || number == 3

/-- The next header that is no tag, or a tag that `keep` picks out; `fuel` bounds the tags. -/
def readUntagged (keep : Nat → Bool) : Nat → Reader Header
  | 0, _ => none
  | fuel + 1, bytes => do
    let (header, rest) ← readHeader bytes
    match header with
    | .tag number => if keep number then some (header, rest) else readUntagged keep fuel rest
    | _ => some (header, rest)

/-- The header of an item behind its tags. -/
def readOpening : Reader Header := fun bytes => readUntagged (fun _ => false) bytes.length bytes

def octetLength? : Header → Option (Option Nat)
  | .bytes length => some length
  | _ => none

def textLength? : Header → Option (Option Nat)
  | .text length => some length
  | _ => none

/-- The definite chunks of a string up to its stop code, where `level` stop codes are still to
come. Chunks may themselves go on to a stop code. -/
def readChunks (length? : Header → Option (Option Nat)) : Nat → Nat → Reader (List Bytes)
  | 0, _, _ => none
  | fuel + 1, level, bytes => do
    let (header, rest) ← readHeader bytes
    if header = .stop then
      if level ≤ 1 then some ([], rest) else readChunks length? fuel (level - 1) rest
    else
      match ← length? header with
      | none => readChunks length? fuel (level + 1) rest
      | some n =>
        let (chunk, rest) ← readOctets n rest
        let (chunks, rest) ← readChunks length? fuel level rest
        some (chunk :: chunks, rest)

/-- The chunks of a string whose header is read; a string of definite length is one chunk. -/
def readString (length? : Header → Option (Option Nat)) (length : Option Nat) :
    Reader (List Bytes) := fun bytes =>
  match length with
  | some n => (readOctets n bytes).map fun (chunk, rest) => ([chunk], rest)
  | none => readChunks length? bytes.length 1 bytes

/-- The text that chunks spell, each of which has to be a text. -/
def textOfChunks (chunks : List Bytes) : Option Text :=
  (chunks.mapM fun chunk => (Utf8.decode chunk).toOption).map List.flatten

def readText : Reader Text := fun bytes => do
  let (header, rest) ← readOpening bytes
  let (chunks, rest) ← readString textLength? (← textLength? header) rest
  some (← textOfChunks chunks, rest)

/-- The longest name that a map key or a choice may have. -/
def nameLimit : Nat := 4096

/-- Reads a name, which is a text or an octet string in one chunk, as its octets. -/
def readName : Reader Bytes := fun bytes => do
  let (header, rest) ← readOpening bytes
  match header with
  | .text (some n) =>
    let (name, rest) ← if n ≤ nameLimit then readOctets n rest else none
    if (Utf8.decode name).toBool then some (name, rest) else none
  | .bytes (some n) => if n ≤ nameLimit then readOctets n rest else none
  | _ => none

/-- The magnitude of a bignum: an octet string of at most sixteen octets after its leading
zeros. -/
def readMagnitude : Reader Nat := fun bytes => do
  let (header, rest) ← readHeader bytes
  let (chunks, rest) ← readString octetLength? (← octetLength? header) rest
  let significant := chunks.flatten.dropWhile (· == 0)
  if significant.length ≤ 16 then some (ofBigEndian significant, rest) else none

/-- Reads an integer of any width, also as a bignum. -/
def readInteger : Reader Int := fun bytes => do
  let (header, rest) ← readUntagged isBignumTag bytes.length bytes
  match header with
  | .positive n => some (Int.ofNat n, rest)
  | .negative n => some (Int.negSucc n, rest)
  | .tag number =>
    let (n, rest) ← readMagnitude rest
    some (if number = 2 then Int.ofNat n else Int.negSucc n, rest)
  | _ => none

def readCounted (item : Reader α) : Nat → Reader (List α)
  | 0, bytes => some ([], bytes)
  | count + 1, bytes => do
    let (first, rest) ← item bytes
    let (others, rest) ← readCounted item count rest
    some (first :: others, rest)

/-- Reads items up to a stop code; `fuel` bounds their number. -/
def readToStop (item : Reader α) : Nat → Reader (List α)
  | 0, _ => none
  | fuel + 1, bytes => do
    let (header, rest) ← readHeader bytes
    if header = .stop then some ([], rest)
    else
      let (first, rest) ← item bytes
      let (others, rest) ← readToStop item fuel rest
      some (first :: others, rest)

/-- Reads the items of an array or map whose header is read. -/
def readItems (item : Reader α) (count : Option Nat) : Reader (List α) := fun bytes =>
  match count with
  | some n => readCounted item n bytes
  | none => readToStop item bytes.length bytes

def readBoth (first : Reader α) (second : Reader β) : Reader (α × β) := fun bytes => do
  let (a, rest) ← first bytes
  let (b, rest) ← second rest
  some ((a, b), rest)

/-- One past the greatest number whose negation a bignum that is passed over may hold. -/
def skippedNegativeLimit : Nat := 0x80000000000000000000000000000000

/-- The magnitude of a bignum that is passed over, behind its tag: it is in one octet string of
known length, and its leading zeros count among its sixteen octets. Any other item behind the tag
is a tagged item like those of other tags. -/
def skippedBignum? (number : Nat) : Reader Nat := fun bytes => do
  if !isBignumTag number then none
  match ← readHeader bytes with
  | (.bytes (some length), rest) =>
    if length ≤ 16 then
      (readOctets length rest).map fun (octets, rest) => (ofBigEndian octets, rest)
    else none
  | _ => none

/-- Passes over one item, which may hold arrays, maps and tagged items up to `depth` deep. -/
def skipItem : Nat → Reader Unit
  | depth, bytes => do
    let (header, rest) ← readHeader bytes
    match header with
    | .positive _ => some ((), rest)
    | .negative _ => some ((), rest)
    | .float _ => some ((), rest)
    | .simple number => if 20 ≤ number ∧ number ≤ 23 then some ((), rest) else none
    | .bytes length => (readString octetLength? length rest).map fun (_, rest) => ((), rest)
    | .text length =>
      let (chunks, rest) ← readString textLength? length rest
      (textOfChunks chunks).map fun _ => ((), rest)
    | .array count =>
      match depth with
      | 0 => none
      | depth + 1 => (readItems (skipItem depth) count rest).map fun (_, rest) => ((), rest)
    | .map count =>
      match depth with
      | 0 => none
      | depth + 1 =>
        (readItems (readBoth (skipItem depth) (skipItem depth)) count rest).map
          fun (_, rest) => ((), rest)
    | .tag number =>
      match skippedBignum? number rest with
      | some (n, rest) => if number = 3 ∧ skippedNegativeLimit ≤ n then none else some ((), rest)
      | none =>
        match depth with
        | 0 => none
        | depth + 1 => skipItem depth rest
    | .stop => none

end Coedit.Cbor
