import TorrentEngine.Phase

/-!
Chains of phases. A chain has an entry for each phase that can come up: the phase to begin, which
may stand in for the one named, and what follows it. `PhaseChain.build` refuses a chain that leads
from its first phase to one without an entry; `PhaseChain.advance` is one step along the chain.
-/

namespace TorrentEngine

/-- One entry of a chain: the phase that begins under a name, and the name of what follows. -/
structure PhaseEntry where
  id : PhaseId
  makes : PhaseId
  next : Option PhaseId
  deriving DecidableEq, Repr

/-- Why entries do not make a chain. -/
inductive ConfigurationError
  | missingInitialPhase
  | missingSupplier (phase : PhaseId)
  deriving DecidableEq, Repr

def ConfigurationError.message : ConfigurationError → String
  | .missingInitialPhase => "no initial phase was registered"
  | .missingSupplier phase => s!"phase {phase.label} is reachable but has no registered supplier"

/-- A first phase and the entries, at most one for each name. -/
structure PhaseChain where
  initial : PhaseId
  entries : List PhaseEntry
  config : PhaseConfig
  deriving DecidableEq, Repr

/-- A chain being put together, with its first phase once it is named. -/
structure PhaseChain.Draft where
  initial : Option PhaseId := none
  entries : List PhaseEntry := []

namespace PhaseChain

/-- The draft with one more entry, in place of one of the same name. -/
def Draft.register (b : Draft) (entry : PhaseEntry) : Draft :=
  { b with entries := b.entries.filter (·.id ≠ entry.id) ++ [entry] }

/-- The draft with one more entry, whose phase is now the first. -/
def Draft.registerInitial (b : Draft) (entry : PhaseEntry) : Draft :=
  { b.register entry with initial := some entry.id }

def entryOf? (entries : List PhaseEntry) (id : PhaseId) : Option PhaseEntry :=
  entries.find? (·.id = id)

/-- The first name without an entry on the way of at most `steps` entries from `id`. -/
def firstMissing? (entries : List PhaseEntry) : (steps : Nat) → (id : PhaseId) → Option PhaseId
  | 0, _ => none
  | steps + 1, id =>
    match entryOf? entries id with
    | none => some id
    | some entry => entry.next.bind (firstMissing? entries steps)

/-- The number of phases, after which a way that goes on has come back to a phase passed before. -/
def phaseLimit : Nat := 4

/-- The chain of a draft in which every name that can come up has an entry. -/
def build (b : Draft) (config : PhaseConfig) : Except ConfigurationError PhaseChain :=
  match b.initial with
  | none => .error .missingInitialPhase
  | some initial =>
    match firstMissing? b.entries phaseLimit initial with
    | some id => .error (.missingSupplier id)
    | none => .ok { initial, entries := b.entries, config }

def standard (config : PhaseConfig) : PhaseChain :=
  { initial := .preMetadata
    entries :=
      [ { id := .preMetadata, makes := .preMetadata, next := some .metadata },
        { id := .metadata, makes := .metadata, next := some .data },
        { id := .data, makes := .data, next := some .seed },
        { id := .seed, makes := .seed, next := none } ]
    config }

def next? (c : PhaseChain) (id : PhaseId) : Option PhaseId :=
  (entryOf? c.entries id).bind (·.next)

def made? (c : PhaseChain) (id : PhaseId) : Option PhaseId :=
  (entryOf? c.entries id).map (·.makes)

def first (c : PhaseChain) : Except ConfigurationError PhaseId :=
  match c.made? c.initial with
  | some phase => .ok phase
  | none => .error (.missingSupplier c.initial)

def summary (c : PhaseChain) : String :=
  "PhaseChain \x7b initial: " ++ c.initial.label ++ s!", phases: {c.entries.length}" ++ " \x7d"

/-- What an attempt to go on along the chain came to: the phase to stay in or go on with, or why the
next phase could not begin. -/
inductive Advance
  | stay
  | moved (phase : PhaseId)
  | failed (cause : PhaseError)
  deriving DecidableEq, Repr

/-- The phase to begin after `current`, by name and as made, where `current` is done. -/
def successor? (c : PhaseChain) (current : PhaseId) (d : Download) : Option (PhaseId × PhaseId) :=
  if current.isDone d then do
    let id ← c.next? current
    return (id, ← c.made? id)
  else none

/-- Goes on to the next phase if the current one is done. When the next one cannot begin, what
leaving the current one did stays. -/
def advance (c : PhaseChain) (current : PhaseId) (d : Download) :
    Download × List Effect × Advance :=
  match c.successor? current d with
  | none => (d, [], .stay)
  | some (id, phase) =>
    match current.leave c.config d with
    | .error e => (d, [], .failed e)
    | .ok (left, leaving) =>
      match phase.enter c.config left with
      | .error e => (left, leaving, .failed e)
      | .ok (entered, entering) =>
        (entered, leaving ++ entering ++ [.notify (.phaseChanged d.infoHash current id)],
          .moved phase)

end PhaseChain

end TorrentEngine
