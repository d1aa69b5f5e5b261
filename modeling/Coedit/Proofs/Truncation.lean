import Coedit.Proofs.Messages
import Coedit.Proofs.Readers

/-!
A message that arrives in part is refused. All octets of a message are needed to read it, since
reading them leaves none over (`read_write_all`), and what a reader reads of the first of them it
would also read of all, and leave the others (`extends_read`). So it does not matter where a message
is cut: in front of it, within a header, a name or a value, or between two fields, also in front of the
last field of an answer, which may be left out of a map with one entry less.
-/
namespace Coedit

namespace Field

variable {schema : Schema} {fields : Fields} {front : Bytes}

/-- A proper part of the octets of a message, from their start on, cannot be read. -/
theorem read_eq_none_of_cut (hs : schema.Sound)
    (hkinds : fields.map (fun field => (field.1, field.2.kind)) = schema) (hv : InWords fields)
    (hp : front <+: write fields) (hne : front ≠ write fields) : read schema front = none := by
  have hall : read schema (write fields) = some (fields, []) := by
    have hread := read_write_all hs hkinds hv []
    rwa [List.append_nil] at hread
  exact (extends_read schema).eq_none_of_cut hall hp hne

end Field

/-- What is left of a message's octets when some are missing at their end is no message of its
type. -/
theorem truncated_messages_refused :
    (∀ r : Request, Field.InWords r.fields → ∀ front : Bytes, front <+: r.encode →
      front ≠ r.encode → Request.decode? front = none) ∧
    (∀ r : Response, Field.InWords r.fields → ∀ front : Bytes, front <+: r.encode →
      front ≠ r.encode → Response.decode? front = none) ∧
    (∀ n : Notification, Field.InWords n.fields → ∀ front : Bytes, front <+: n.encode →
      front ≠ n.encode → Notification.decode? front = none) := by
  refine ⟨fun r h front hp hne => ?_, fun r h front hp hne => ?_, fun n h front hp hne => ?_⟩
  · have hread := Field.read_eq_none_of_cut Request.schema_sound rfl h hp hne
    rw [Request.decode?, hread, Option.bind_eq_bind, Option.bind_none]
  · have hread := Field.read_eq_none_of_cut Response.schema_sound rfl h hp hne
    rw [Response.decode?, hread, Option.bind_eq_bind, Option.bind_none]
  · have hread := Field.read_eq_none_of_cut Notification.schema_sound rfl h hp hne
    rw [Notification.decode?, hread, Option.bind_eq_bind, Option.bind_none]

/-- A request that is cut within its identifier, an answer that ends where its last field, which holds
no message, would begin, and a notification of which nothing arrives. -/
theorem truncated_messages_refused_last_field :
    let id := Uuid.ofNat 7
    let file : FileId := ⟨['é', '\n']⟩
    let request := Request.ofPatch id file (.unchanged 4 7)
    let response : Response := ⟨id, .ok, -1, [['ß']], none⟩
    let notification := Notification.ofPatch file (.unchanged 4 7) 5
    let last := Field.writeText "message".toList ++ Field.writeNull
    let answered := response.encode.take (response.encode.length - last.length)
    Field.InWords request.fields ∧ Field.InWords response.fields ∧
      Field.InWords notification.fields ∧ answered ++ last = response.encode ∧
      Request.decode? (request.encode.take 20) = none ∧ Response.decode? answered = none ∧
      Notification.decode? [] = none := by
  intro id file request response notification last answered
  have hrequest : Field.InWords request.fields := by decide +kernel
  have hresponse : Field.InWords response.fields := by decide +kernel
  have hnotification : Field.InWords notification.fields := by decide +kernel
  have hlast : answered ++ last = response.encode := by decide +kernel
  obtain ⟨hrequests, hresponses, hnotifications⟩ := truncated_messages_refused
  refine ⟨hrequest, hresponse, hnotification, hlast, ?_, ?_, ?_⟩
  · exact hrequests request hrequest _ (List.take_prefix 20 _) (by decide +kernel)
  · exact hresponses response hresponse answered ⟨last, hlast⟩ (by decide +kernel)
  · exact hnotifications notification hnotification [] List.nil_prefix (by decide +kernel)

end Coedit
