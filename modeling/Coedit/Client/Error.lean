import Coedit.FileId
import Coedit.Patch.Apply
import Coedit.Patch.Sequence
import Coedit.Patch.Wire

/-!
What can go wrong between a client and the server, each fault with the words that report it.
-/
namespace Coedit

/-- Why a request got no answer. -/
inductive SendError where
  | unavailable (reason : Text)
  | delivery (reason : Text)
  /-- The transport broke down over the request. -/
  | crashed
  deriving DecidableEq, Repr

/-- What is reported of a request without an answer; a break-down has no words of its own. -/
def SendError.message : SendError → Option Text
  | .unavailable reason => some ("server unavailable: ".toList ++ reason)
  | .delivery reason => some ("delivery failed: ".toList ++ reason)
  | .crashed => none

/-- Why patches were not exchanged. -/
inductive SyncError where
  | sendFailure (error : SendError)
  /-- The server refused a patch; its batch is given up. -/
  | rejected (file : FileId) (reason : Text)
  | format (error : FormatError)
  /-- A remote change does not fit the live document. -/
  | apply (error : ApplyError)
  | consolidate (error : SequenceError)
  deriving DecidableEq, Repr

def SyncError.message : SyncError → Option Text
  | .sendFailure error => error.message.map ("send failed: ".toList ++ ·)
  | .rejected file reason =>
    some ("patch for ".toList ++ file.display ++ " rejected: ".toList ++ reason)
  | .format error => some ("malformed patch: ".toList ++ error.message)
  | .apply error => some ("apply failed: ".toList ++ error.message)
  | .consolidate error => some ("consolidation failed: ".toList ++ error.message)

end Coedit
