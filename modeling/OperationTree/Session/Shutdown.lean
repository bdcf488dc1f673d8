import OperationTree.Session.Drain

/-! Shutting trees down.  A shutdown drains the tree's tracker and then closes every loaded module,
whatever the outcomes of the calls; a tree that is closed is not shut down again.  The tree is
closed once all modules have been seen to be closed. -/

namespace OperationTree
namespace Session

def setPhase (s : Session) (tree : Nat) (phase : Phase) : Session :=
  { s with trees := s.trees.modify tree fun tree => { tree with phase } }

def phaseOf (s : Session) (tree : Nat) : Phase :=
  (s.trees[tree]?.map TreeState.phase).getD .closed

def instancesOf (s : Session) (tree : Nat) : List Instance :=
  (s.trees[tree]?.map fun tree => tree.compiled.loaded.instances).getD []

def addShutdown (s : Session) (tree : Nat) : Nat × Session :=
  (s.shutdowns.length, { s with shutdowns := s.shutdowns ++ [{ tree }] })

def setStage (s : Session) (number : Nat) (stage : Stage) : Session :=
  { s with shutdowns := s.shutdowns.modify number fun shutdown => { shutdown with stage } }

def dropShutdown (s : Session) (number : Nat) : Session :=
  { s with
    shutdowns := s.shutdowns.modify number fun shutdown => { shutdown with isHeld := false } }

/-- Starts the drain of a shutdown, unless the tree is closed. -/
def beginShutdown (s : Session) (number tree : Nat) : Session :=
  if s.phaseOf tree = .closed then s.setStage number (.finished [])
  else
    let (drain, s) := (s.setPhase tree .draining).addDrain (s.trackerOf tree)
    s.setStage number (.draining drain)

/-- What is noted when a shutdown asks an instance to close. -/
def closing (number tree : Nat) (i : Instance) : Closing where
  shutdown := number
  tree
  key := i.key
  name := i.transport.name
  isDone := !i.transport.closesLater

/-- Asks every instance of a tree to close, in load order. -/
def closeAll (s : Session) (number tree : Nat) : Session :=
  { s with
    closings := s.closings ++ (s.instancesOf tree).map (closing number tree) }.setStage number
      .closing

/-- Whether all that a shutdown has asked to close has closed. -/
def hasClosed (s : Session) (number : Nat) : Bool :=
  s.closings.all fun c => c.shutdown != number || c.isDone

/-- The names and faults of the instances that cannot be closed. -/
def closeFaults (instances : List Instance) : CloseFaults :=
  instances.filterMap fun i => i.transport.closeFault.map fun fault => (i.transport.name, fault)

def endShutdown (s : Session) (number tree : Nat) : Session :=
  (s.setPhase tree .closed).setStage number (.finished (closeFaults (s.instancesOf tree)))

/-- A shutdown that has not been given up. -/
def heldShutdown? (s : Session) (number : Nat) : Option Shutdown :=
  s.shutdowns[number]?.filter Shutdown.isHeld

/-- The first part of a poll of a shutdown: it begins. -/
def pollFresh (s : Session) (number : Nat) : Session :=
  match s.heldShutdown? number with
  | some { tree, stage := .fresh, .. } => s.beginShutdown number tree
  | _ => s

/-- The second part of a poll: the drain is polled, and everything is asked to close once the drain
has ended. -/
def pollDraining (s : Session) (number : Nat) : Session :=
  match s.heldShutdown? number with
  | some { tree, stage := .draining drain, .. } =>
    let s := s.pollDrain drain
    if (s.drainEnd? drain).isSome then s.closeAll number tree else s
  | _ => s

/-- The last part of a poll: the shutdown ends once everything has closed. -/
def pollClosing (s : Session) (number : Nat) : Session :=
  match s.heldShutdown? number with
  | some { tree, stage := .closing, .. } =>
    if s.hasClosed number then s.endShutdown number tree else s
  | _ => s

/-- Polls a shutdown, unless it has been given up. -/
def pollShutdown (s : Session) (number : Nat) : Session :=
  ((s.pollFresh number).pollDraining number).pollClosing number

end Session

namespace CloseFaults

/-- One text for all faults. -/
def message (faults : CloseFaults) : String :=
  "failed to close " ++ toString (List.length faults) ++ " module(s): " ++
    "; ".intercalate (List.map (fun fault => fault.1 ++ ": " ++ fault.2) faults)

end CloseFaults
end OperationTree
