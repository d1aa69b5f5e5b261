import Coedit.Client.Error
import Coedit.Message.Basic

/-!
What happens to a session from outside: the actions of its user, of other clients and of the
server, and the scripts that decide how requests are answered and when documents refuse changes.
-/
namespace Coedit.Session

inductive ReplyKind where
  /-- It commits the patch if it can. -/
  | commit
  /-- It never answers. -/
  | stall
  | fail (error : SendError)
  | answer (status : Status) (version : Int) (missing : List Text) (reason : Option Text)

mutual
inductive Action where
  /-- The user edits: the patch is sent first and then applied to the document. -/
  | edit (file : FileId) (diffs : List Diff) (version : Option Int)
  /-- The document is edited and nothing is sent. -/
  | editUnsent (file : FileId) (diffs : List Diff) (version : Option Int)
  | setText (file : FileId) (text : Text)
  | send (file : FileId) (patches : Except FormatError (List Patch))
  | notify (notification : Notification)
  /-- Another client commits, and its change is pushed if `pushed` says so. -/
  | commitOther (file : FileId) (diffs : List Diff) (pushed : Bool)
  | openFile (file : FileId) (version : Int)
  | closeFile (file : FileId)
  | applyPatches (content : Text) (patches : Except FormatError (List Patch))
  /-- The next requests get these replies. -/
  | respond (replies : List Reply)
  /-- The document refuses so many more changes. -/
  | refuse (count : Nat)
  /-- The actions happen at the next change that is offered to a document. -/
  | onApply (actions : List Action)
  /-- The actions happen with nothing in between. -/
  | batch (actions : List Action)

/-- What happens when a request arrives: first some actions, then the answer, which is held back
for `delay` milliseconds unless the transport breaks down. -/
inductive Reply where
  | mk (during : List Action) (delay : Nat) (kind : ReplyKind)
end

def Reply.standard : Reply := .mk [] 0 .commit

inductive Result where
  | nothing
  | stamp (stamp : Int)
  | text (text : Text)
  | flag (value : Bool)
  | formatError (error : FormatError)
  | applyError (error : ApplyError)
  | all (results : List Result)

end Coedit.Session
