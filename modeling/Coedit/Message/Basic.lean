import Coedit.FileId
import Coedit.Message.Field
import Coedit.Patch.Wire

/-!
The three messages between a client and the server. Patches travel inside them in their written
form, so a message can be read although a patch in it cannot.
-/
namespace Coedit

/-- A patch that a client asks the server to commit. -/
structure Request where
  requestId : Uuid
  file : FileId
  patchText : Text
  deriving DecidableEq, Repr

/-- The server's answer to a request. -/
structure Response where
  requestId : Uuid
  status : Status
  /-- The version of the document after the commit. -/
  version : Int
  /-- Patches of others that were committed before this one, the oldest first. -/
  missing : List Text
  /-- Why a patch was rejected. -/
  reason : Option Text
  deriving DecidableEq, Repr

/-- A change that another client committed. -/
structure Notification where
  file : FileId
  patchText : Text
  /-- The version of the document after the change. -/
  version : Int
  deriving DecidableEq, Repr

namespace Request

def ofPatch (requestId : Uuid) (file : FileId) (patch : Patch) : Request :=
  ⟨requestId, file, patch.render⟩

def patch (r : Request) : Except FormatError Patch := Patch.parse r.patchText

def schema : Field.Schema :=
  [("request_id".toList, .uuid), ("file_id".toList, .text), ("patch".toList, .text)]

def fields (r : Request) : Field.Fields :=
  [("request_id".toList, .uuid r.requestId), ("file_id".toList, .text r.file.name),
    ("patch".toList, .text r.patchText)]

def ofFields? (fields : Field.Fields) : Option Request :=
  match fields.get? "request_id".toList, fields.get? "file_id".toList,
    fields.get? "patch".toList with
  | some (.uuid id), some (.text file), some (.text patch) => some ⟨id, ⟨file⟩, patch⟩
  | _, _, _ => none

def encode (r : Request) : Bytes := Field.write r.fields

/-- The request at the front of the octets, whatever follows it. -/
def decode? (bytes : Bytes) : Option Request :=
  Field.read schema bytes >>= fun (fields, _) => ofFields? fields

end Request

namespace Response

def committed (requestId : Uuid) (version : Int) (missing : List Patch) : Response :=
  ⟨requestId, .ok, version, missing.map Patch.render, none⟩

def rejected (requestId : Uuid) (version : Int) (reason : Text) : Response :=
  ⟨requestId, .rejected, version, [], some reason⟩

def isOk (r : Response) : Bool := r.status == .ok

/-- The missing patches, or the first that cannot be read. -/
def missingPatches (r : Response) : Except FormatError (List Patch) := r.missing.mapM Patch.parse

def schema : Field.Schema :=
  [("request_id".toList, .uuid), ("status".toList, .status), ("version".toList, .version),
    ("missing_patches".toList, .texts), ("message".toList, .optionalText)]

def fields (r : Response) : Field.Fields :=
  [("request_id".toList, .uuid r.requestId), ("status".toList, .status r.status),
    ("version".toList, .version r.version), ("missing_patches".toList, .texts r.missing),
    ("message".toList, .optionalText r.reason)]

/-- The response with given named values; the message may be left out. -/
def ofFields? (fields : Field.Fields) : Option Response :=
  match fields.get? "request_id".toList, fields.get? "status".toList,
    fields.get? "version".toList, fields.get? "missing_patches".toList,
    (fields.get? "message".toList).getD (.optionalText none) with
  | some (.uuid id), some (.status status), some (.version version), some (.texts missing),
    .optionalText reason => some ⟨id, status, version, missing, reason⟩
  | _, _, _, _, _ => none

def encode (r : Response) : Bytes := Field.write r.fields

def decode? (bytes : Bytes) : Option Response :=
  Field.read schema bytes >>= fun (fields, _) => ofFields? fields

end Response

namespace Notification

def ofPatch (file : FileId) (patch : Patch) (version : Int) : Notification :=
  ⟨file, patch.render, version⟩

def patch (n : Notification) : Except FormatError Patch := Patch.parse n.patchText

def schema : Field.Schema :=
  [("file_id".toList, .text), ("patch".toList, .text), ("version".toList, .version)]

def fields (n : Notification) : Field.Fields :=
  [("file_id".toList, .text n.file.name), ("patch".toList, .text n.patchText),
    ("version".toList, .version n.version)]

def ofFields? (fields : Field.Fields) : Option Notification :=
  match fields.get? "file_id".toList, fields.get? "patch".toList,
    fields.get? "version".toList with
  | some (.text file), some (.text patch), some (.version version) =>
    some ⟨⟨file⟩, patch, version⟩
  | _, _, _ => none

def encode (n : Notification) : Bytes := Field.write n.fields

def decode? (bytes : Bytes) : Option Notification :=
  Field.read schema bytes >>= fun (fields, _) => ofFields? fields

end Notification

end Coedit
