/-!
The queue of disk jobs: the lowest priority value first, and among equal ones the job that was
submitted first. An entry keeps its place when it comes back after a failed attempt.
-/

namespace TorrentEngine

/-- A job with its place in the queue and the number of its failed attempts. -/
structure QueuedJob (α : Type) where
  priority : Nat
  sequence : Nat
  attempts : Nat
  job : α
  deriving Repr

namespace QueuedJob

variable {α : Type}

/-- The order of places: of two entries the one that leaves the queue first is greater. -/
def order (a b : QueuedJob α) : Ordering :=
  (compare b.priority a.priority).then (compare b.sequence a.sequence)

/-- Whether `a` leaves the queue before `b`. -/
def precedes (a b : QueuedJob α) : Bool := a.order b == .gt

def samePlace (a b : QueuedJob α) : Bool := a.priority == b.priority && a.sequence == b.sequence

end QueuedJob

/-- Waiting entries in the order in which they leave, and the sequence number of the next job. -/
structure JobQueue (α : Type) where
  entries : List (QueuedJob α) := []
  nextSequence : Nat := 0
  deriving Repr

namespace JobQueue

variable {α : Type}

/-- Entries in order with one more at its place. -/
def place (entry : QueuedJob α) : List (QueuedJob α) → List (QueuedJob α)
  | [] => [entry]
  | e :: rest => if entry.precedes e then entry :: e :: rest else e :: place entry rest

/-- Puts an entry that was taken out back in its place. -/
def requeue (q : JobQueue α) (entry : QueuedJob α) : JobQueue α :=
  { q with entries := place entry q.entries }

def push (q : JobQueue α) (priority : Nat) (job : α) : JobQueue α :=
  { q.requeue { priority, sequence := q.nextSequence, attempts := 0, job } with
    nextSequence := q.nextSequence + 1 }

/-- The entry that leaves first, and the queue without it. -/
def pop? (q : JobQueue α) : Option (QueuedJob α × JobQueue α) :=
  match q.entries with
  | [] => none
  | e :: rest => some (e, { q with entries := rest })

def size (q : JobQueue α) : Nat := q.entries.length

end JobQueue

end TorrentEngine
