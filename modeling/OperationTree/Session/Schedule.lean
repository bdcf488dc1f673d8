import OperationTree.Session.Shutdown

/-! The scheduler.  Nothing runs by itself between two ticks; a tick runs the tasks in the order in
which they are queued, until every call that can finish has finished.  Whoever waits polls once,
lets a tick pass if that was not enough, and polls once more. -/

namespace OperationTree.Session

def runTask (s : Session) (number : Nat) : Session :=
  match s.tasks[number]? with
  | none => s
  | some (.call call) => s.poll call
  | some (.drain _ drain) => s.pollDrain drain
  | some (.shutdown shutdown) => s.pollShutdown shutdown

/-- Takes tasks from the front of the queue and polls them. -/
def runFirst : (count : Nat) → Session → Session
  | 0, s => s
  | count + 1, s =>
    match s.queue with
    | [] => s
    | task :: queue => runFirst count ({ s with queue }.runTask task)

/-- Runs all tasks that are queued, and then those that have been queued meanwhile. -/
def rounds : Nat → Session → Session
  | 0, s => s
  | n + 1, s => rounds n (s.runFirst s.queue.length)

/-- Runs tasks until the queue is empty.  One round for each level of aggregates starts all calls,
and a few more let each level go on as often as its calls wake it. -/
def run (s : Session) : Session := s.rounds (4 * (s.depth + 1))

/-- Runs the tasks, lets answers from outside arrive, and runs the tasks again. -/
def tick (s : Session) : Session := if s.hasScheduler then s.run.deliver.run else s

/-- Polls once; if that is not enough, again after a tick. -/
def waitFor {α : Type} (pollOnce : Session → Session) (finished? : Session → Option α)
    (s : Session) : Option α × Session :=
  let s := pollOnce s
  match finished? s with
  | some result => (some result, s)
  | none =>
    let s := pollOnce s.tick
    (finished? s, s)

/-- The outcome of a call for one who waits for it; nothing, if it cannot finish yet. -/
def await (s : Session) (future : Future) : Option Outcome × Session :=
  s.waitFor (pollFuture poll · future) (result · future)

/-- Drains a tracker; nothing, if a call cannot finish yet. -/
def awaitDrain (s : Session) (tracker : Nat) : Option (Option CallError) × Session :=
  let (drain, s) := s.addDrain tracker
  s.waitFor (pollDrain · drain) (drainEnd? · drain)

/-- Shuts a tree down; nothing, if a call cannot finish yet.  The shutdown is then given up. -/
def awaitShutdown (s : Session) (tree : Nat) : Option CloseFaults × Session :=
  let (number, s) := s.addShutdown tree
  let (faults, s) := s.waitFor (pollShutdown · number) (shutdownEnd? · number)
  (faults, s.dropShutdown number)

def drainResult (s : Session) (task : Nat) : Option (Option CallError) :=
  match s.tasks[task]? with
  | some (.drain _ drain) => s.drainEnd? drain
  | _ => none

def shutdownResult (s : Session) (task : Nat) : Option CloseFaults :=
  match s.tasks[task]? with
  | some (.shutdown shutdown) => s.shutdownEnd? shutdown
  | _ => none

/-- Adds a compiled definition whose calls are registered in a tracker. -/
def addTree (s : Session) (catalog : Catalog) (settings : Settings) (tracker : Nat)
    (definition : Json) : Session :=
  let compiled := Compiled.ofDefinition catalog settings s.trees.length definition
  { s with
    trees := s.trees ++ [{ compiled, tracker }]
    depth := max s.depth (compiled.root.operations.length + 1) }

/-- Lets go of a tree.  Its operations can still be called by those who keep them, and its
aggregates find it until the last task that was started on it has finished. -/
def dropTree (s : Session) (tree : Nat) : Session :=
  { s with trees := s.trees.modify tree fun tree => { tree with isHeld := false } }

end OperationTree.Session
