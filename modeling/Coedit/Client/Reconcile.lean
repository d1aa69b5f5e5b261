import Coedit.Client.Error
import Coedit.Client.Outbox
import Coedit.Patch.Transform

/-!
Reconciling a remote change with the patches that wait locally. The change is transformed past the
waiting patches, so that it fits the live document; the waiting patches are transformed past the
change, so that they fit the server's next version. Local text goes first where both insert. The
document may refuse the change because it was edited meanwhile; then everything is tried anew.
-/
namespace Coedit

structure RemoteChange where
  patch : Patch
  /-- The version of the document after the change. -/
  version : Int
  deriving DecidableEq, Repr

/-- A remote change for the live document, and the waiting patches behind it. -/
structure Plan where
  incoming : Patch
  rebased : List Patch
  deriving DecidableEq, Repr

/-- What a live document says to a change. -/
inductive Verdict where
  /-- It is applied and the document has a new stamp. -/
  | accepted (stamp : Int)
  /-- The document has changed; its stamp is another one now. -/
  | refused (stamp : Int)
  | failed (error : ApplyError)
  deriving DecidableEq, Repr

inductive Attempt where
  | finished (result : Except SyncError Unit)
  | again

namespace RemoteChange

/-- The change past a local patch that the server committed after it. -/
def pastSent (change : RemoteChange) (sent : Patch) : RemoteChange :=
  { change with patch := change.patch.transform true [sent] }

/-- What is to be done with a change while `queue` waits. -/
def plan (change : RemoteChange) (queue : List Patch) : Except SequenceError Plan :=
  (Patch.consolidate queue).map fun
    | none => ⟨change.patch, []⟩
    | some waiting =>
      ⟨change.patch.transform true [waiting], [waiting.transform false [change.patch]]⟩

/-- The outbox after the document's verdict on a plan. -/
def settle (change : RemoteChange) (plan : Plan) (verdict : Verdict) (o : Outbox) :
    Outbox × Attempt :=
  match verdict with
  | .accepted stamp =>
    (((o.replaceQueue plan.rebased).expectStamp stamp).advance change.version, .finished (.ok ()))
  | .refused stamp => (o.expectStamp stamp, .again)
  | .failed error => (o, .finished (.error (.apply error)))

end RemoteChange

end Coedit
