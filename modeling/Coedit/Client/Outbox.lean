import Coedit.Patch.Basic

/-!
What a client keeps of one open file: patches that wait for the server, the server version that
the live document contains, the modification stamp that a remote change expects, and whether a
send is under way. New patches wait in front of the queue (`incoming`) until a round or a
reconciliation takes them in.
-/
namespace Coedit

/-- The waiting patches of one file and where the file stands. -/
structure Outbox where
  /-- Patches not yet in the queue. -/
  incoming : List Patch := []
  queue : List Patch := []
  /-- The last server version in the live document. -/
  version : Int
  /-- The modification stamp that the next remote change expects. -/
  stamp : Int
  /-- Whether the send slot is taken. -/
  sending : Bool := false
  deriving DecidableEq, Repr

namespace Outbox

def opened (version stamp : Int) : Outbox := { version, stamp }

def enqueue (o : Outbox) (patches : List Patch) : Outbox :=
  { o with incoming := o.incoming ++ patches }

/-- A patch of an older version under the current one: it was made on the live document, which
contains every remote change up to that version. -/
def relabel (version : Int) (p : Patch) : Patch :=
  if p.baseVersion < version then p.rebased version else p

def drain (o : Outbox) : Outbox :=
  { o with incoming := [], queue := o.queue ++ o.incoming.map (relabel o.version) }

def snapshot (o : Outbox) (limit : Nat) : List Patch := o.queue.take limit

def removeSent (o : Outbox) (count : Nat) : Outbox := { o with queue := o.queue.drop count }

def replaceQueue (o : Outbox) (patches : List Patch) : Outbox := { o with queue := patches }

/-- Takes the document to a version, and the labels of the queue with it. -/
def advance (o : Outbox) (version : Int) : Outbox :=
  { o with version, queue := o.queue.map (·.rebased version) }

def expectStamp (o : Outbox) (stamp : Int) : Outbox := { o with stamp }

def hasPending (o : Outbox) : Bool := !o.incoming.isEmpty || !o.queue.isEmpty

def pendingCount (o : Outbox) : Nat := o.incoming.length + o.queue.length

def pending (o : Outbox) : List Patch := o.queue ++ o.incoming

def claim? (o : Outbox) : Option Outbox :=
  if o.sending then none else some { o with sending := true }

def release (o : Outbox) : Outbox := { o with sending := false }

@[simp] theorem version_enqueue (o : Outbox) (ps : List Patch) :
    (o.enqueue ps).version = o.version := rfl

@[simp] theorem version_drain (o : Outbox) : o.drain.version = o.version := rfl

@[simp] theorem version_removeSent (o : Outbox) (n : Nat) : (o.removeSent n).version = o.version :=
  rfl

@[simp] theorem version_advance (o : Outbox) (v : Int) : (o.advance v).version = v := rfl

@[simp] theorem incoming_drain (o : Outbox) : o.drain.incoming = [] := rfl

theorem drain_of_incoming_eq_nil {o : Outbox} (h : o.incoming = []) : o.drain = o := by
  cases o
  simp_all [drain]

theorem pendingCount_eq_length (o : Outbox) : o.pendingCount = o.pending.length := by
  simp [pendingCount, pending, Nat.add_comm]

theorem hasPending_eq_false_iff (o : Outbox) :
    o.hasPending = false ↔ o.incoming = [] ∧ o.queue = [] := by
  simp [hasPending]

end Outbox

end Coedit
