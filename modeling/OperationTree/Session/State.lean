import OperationTree.Session.Gathering
import OperationTree.Tree.Compiled

/-! The state of a session: compiled trees, the calls that have been started and the trackers in
which they are registered, the gates that calls wait for, the drains that wait for calls, the
shutdowns of trees, and the tasks that the scheduler runs.  All of them are numbered from zero;
within its tracker a call has an id, and ids count from one. -/

namespace OperationTree

inductive Work where
  /-- The outcome is there and taken at the next poll. -/
  | ready (outcome : Outcome)
  /-- Waiting for a gate. -/
  | gate (number : Nat)
  /-- Something outside is still to be asked. -/
  | exchange (e : Exchange)
  /-- Something outside has been asked and its answer is under way. -/
  | answered (outcome : Outcome)
  /-- Other operations are still to be called. -/
  | aggregate (site : Site) (ids : List String) (request : Request)
  /-- The calls of other operations are being waited for. -/
  | collecting (targets : Gathering)

structure Call where
  tracker : Nat
  id : Nat
  work : Work
  outcome : Option Outcome := none
  /-- Whether the one who started the call still keeps its future. -/
  isHeld : Bool := true
  /-- Those who gather the call, each with its place there. -/
  waiters : List (Waiter × Nat) := []

/-- The unsettled calls of one registry, by ascending ids. -/
structure Tracker where
  lastId : Nat := 0
  entries : List (Nat × Nat) := []
  /-- Whether calls can still be registered. -/
  isHeld : Bool := true

namespace Tracker

def ids (t : Tracker) : List Nat := t.entries.map Prod.fst

def size (t : Tracker) : Nat := t.entries.length

def calls (t : Tracker) : List Nat := t.entries.map Prod.snd

def insert (t : Tracker) (call : Nat) : Tracker where
  lastId := t.lastId + 1
  entries := t.entries ++ [(t.lastId + 1, call)]
  isHeld := t.isHeld

def erase (t : Tracker) (id : Nat) : Tracker :=
  { t with entries := t.entries.filter fun entry => entry.1 != id }

/-- Lets go of a tracker and its entries.  The calls themselves go on. -/
def discard (t : Tracker) : Tracker := { t with entries := [], isHeld := false }

end Tracker

/-- The phases of a tree, in order. -/
inductive Phase where
  | opened
  /-- Shutdown has started and waits for calls. -/
  | draining
  /-- All modules have been asked to close. -/
  | closed
  deriving DecidableEq, Repr

structure TreeState where
  compiled : Compiled
  tracker : Nat
  phase : Phase := .opened
  /-- Whether the tree's owner still has it; its operations may outlive it. -/
  isHeld : Bool := true

/-- A wait for the calls that are registered when it is first polled. -/
inductive Drain where
  | fresh (tracker : Nat)
  | waiting (calls : Gathering)
  | finished (failure : Option CallError)

namespace Drain

/-- Whether a drain will wait for the calls of a tracker and has not been polled. -/
def isFreshOn (tracker : Nat) : Drain → Bool
  | fresh number => number == tracker
  | _ => false

/-- The failure with which a drain has ended, if it has ended. -/
def finished? : Drain → Option (Option CallError)
  | finished failure => some failure
  | _ => none

end Drain

/-- The faults of a shutdown: the names of modules with the reasons why closing them failed. -/
abbrev CloseFaults := List (String × String)

inductive Stage where
  | fresh
  /-- Waiting for the drain of the tree's tracker. -/
  | draining (drain : Nat)
  /-- All modules have been asked to close, and not all of them have been seen to be closed. -/
  | closing
  | finished (faults : CloseFaults)

structure Shutdown where
  tree : Nat
  stage : Stage := .fresh
  isHeld : Bool := true

namespace Shutdown

def drain? (shutdown : Shutdown) : Option Nat :=
  match shutdown.stage with
  | .draining drain => some drain
  | _ => none

def finished? (shutdown : Shutdown) : Option CloseFaults :=
  match shutdown.stage with
  | .finished faults => some faults
  | _ => none

/-- Whether a shutdown has neither ended nor been given up. -/
def isUnderWay (shutdown : Shutdown) : Bool := shutdown.isHeld && shutdown.finished?.isNone

end Shutdown

/-- What the scheduler runs by itself. -/
inductive Task where
  | call (number : Nat)
  /-- A drain, of a tree if it was started on one. -/
  | drain (tree : Option Nat) (number : Nat)
  | shutdown (number : Nat)

/-- The closing of one instance of a tree by a shutdown. -/
structure Closing where
  shutdown : Nat
  tree : Nat
  key : String
  name : String
  isDone : Bool
  deriving DecidableEq, Repr

/-- Everything that runs, and what it runs on. -/
structure Session where
  /-- Whether there is a scheduler; without one a call runs only when it is waited for. -/
  hasScheduler : Bool := true
  /-- How many levels of aggregates one poll follows. -/
  depth : Nat := 1
  trackers : List Tracker := []
  calls : List Call := []
  /-- The gates, with an outcome once they are settled. -/
  gates : List (Option Outcome) := []
  drains : List Drain := []
  shutdowns : List Shutdown := []
  tasks : List Task := []
  /-- The tasks that are new or have been woken and have not run since, in that order. -/
  queue : List Nat := []
  outside : Outside := {}
  trees : List TreeState := []
  /-- The operations that aggregates have found, by the aggregate's site. -/
  resolved : List (Site × List Operation) := []
  closings : List Closing := []

namespace Session

def addTracker (s : Session) : Nat × Session :=
  (s.trackers.length, { s with trackers := s.trackers ++ [{}] })

def tracker (s : Session) (number : Nat) : Tracker := s.trackers.getD number {}

/-- Whether calls can be registered in a tracker. -/
def isTracking (s : Session) (tracker : Nat) : Bool :=
  (s.trackers[tracker]?.map Tracker.isHeld).getD false

/-- Whether a tree, or a drain that has not begun, uses a tracker. -/
def usesTracker (s : Session) (tracker : Nat) : Bool :=
  s.trees.any (fun tree => tree.tracker == tracker) || s.drains.any (Drain.isFreshOn tracker)

/-- Lets go of a tracker, unless something uses it. -/
def discardTracker (s : Session) (number : Nat) : Session :=
  if s.usesTracker number then s
  else { s with trackers := s.trackers.modify number Tracker.discard }

/-- The failure with which a drain has ended, if it has ended. -/
def drainEnd? (s : Session) (number : Nat) : Option (Option CallError) :=
  s.drains[number]?.bind Drain.finished?

def shutdownEnd? (s : Session) (number : Nat) : Option CloseFaults :=
  s.shutdowns[number]?.bind Shutdown.finished?

def polls (s : Session) : Task → Waiter → Bool
  | .call number, .call other => number == other
  | .drain _ number, .drain other => number == other
  | .shutdown number, .drain other => s.shutdowns[number]?.bind Shutdown.drain? == some other
  | .shutdown number, .shutdown other => number == other
  | _, _ => false

/-- The tree that a task keeps: the one it was started on, until it has finished. -/
def keeps? (s : Session) : Task → Option Nat
  | .call _ => none
  | .drain tree number => if (s.drainEnd? number).isSome then none else tree
  | .shutdown number => (s.shutdowns[number]?.filter Shutdown.isUnderWay).map Shutdown.tree

/-- Whether a tree is there: its owner has it, or a task keeps it. -/
def isAlive (s : Session) (tree : Nat) : Bool :=
  (s.trees[tree]?.map TreeState.isHeld).getD false || (s.tasks.filterMap s.keeps?).contains tree

def unsettled? (s : Session) (call : Nat) : Option Call :=
  s.calls[call]?.filter fun c => c.outcome.isNone

def outcomeOf (s : Session) (call : Nat) : Option Outcome := s.calls[call]?.bind Call.outcome

def result (s : Session) : Future → Option Outcome
  | .settled outcome => some outcome
  | .call number => s.outcomeOf number

def openGate (s : Session) : Nat × Session :=
  (s.gates.length, { s with gates := s.gates ++ [none] })

def isOpen (s : Session) (gate : Nat) : Bool := (s.gates[gate]?.map Option.isNone).getD false

def gateOutcome (s : Session) (gate : Nat) : Option Outcome := s.gates[gate]?.join

def setWork (s : Session) (call : Nat) (work : Work) : Session :=
  { s with calls := s.calls.modify call fun c => { c with work } }

def addDrain (s : Session) (tracker : Nat) : Nat × Session :=
  (s.drains.length, { s with drains := s.drains ++ [.fresh tracker] })

def setDrain (s : Session) (number : Nat) (drain : Drain) : Session :=
  { s with drains := s.drains.set number drain }

/-- What a call or a drain gathers, as long as it does. -/
def gathering? (s : Session) : Waiter → Option Gathering
  | .call number =>
    match s.unsettled? number with
    | some { work := .collecting g, .. } => some g
    | _ => none
  | .drain number =>
    match s.drains[number]? with
    | some (.waiting g) => some g
    | _ => none
  | .shutdown _ => none

def setGathering (s : Session) (g : Gathering) : Waiter → Session
  | .call number => s.setWork number (.collecting g)
  | .drain number => s.setDrain number (.waiting g)
  | .shutdown _ => s

/-- Lets go of a call's future; the call itself goes on. -/
def release (s : Session) (call : Nat) : Session :=
  { s with calls := s.calls.modify call fun c => { c with isHeld := false } }

def drop (s : Session) : Future → Session
  | .settled _ => s
  | .call number => s.release number

end Session
end OperationTree
