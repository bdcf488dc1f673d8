import OperationTree.Session.Wake

/-! Starting calls and polling them.  A poll takes a call as far as it can go at once.  The first
poll of an aggregate calls all of its targets.  Of few targets every poll polls all in turn; of many
it polls those that are due, and it stops early when two of them have woken the aggregate again. -/

namespace OperationTree.Session

def workOf (s : Session) : Job → Work × Session
  | .finished outcome => (.ready outcome, s)
  | .gated =>
    let (gate, s) := s.openGate
    (.gate gate, s)
  | .exchange e => (.exchange e, s)
  | .aggregate site ids request => (.aggregate site ids request, s)

def start (s : Session) (tracker : Nat) (job : Job) : Nat × Session :=
  let (work, s) := s.workOf job
  s.track tracker work

def trackerOf (s : Session) (tree : Nat) : Nat := (s.trees[tree]?.map TreeState.tracker).getD 0

def invoke (s : Session) (operation : Operation) (request : Request) : Future × Session :=
  match operation.action with
  | .unavailable module => (.settled (.error (.moduleUnavailable module)), s)
  | .tracked start =>
    let (call, s) := s.start (s.trackerOf operation.site.tree) (start request)
    (.call call, s)

/-- Calls operations one after the other with the same request. -/
def invokeAll (s : Session) (request : Request) : List Operation → List Future × Session
  | [] => ([], s)
  | operation :: rest =>
    let (future, s) := s.invoke operation request
    let (futures, s) := s.invokeAll request rest
    (future :: futures, s)

/-- The operations that paths name in a tree, or the error of the first path that names none. -/
def findAll (root : Node Operation) : List String → Except CallError (List Operation)
  | [] => .ok []
  | id :: rest =>
    match root.operationAt? id with
    | none => .error (.unknownOperation id)
    | some operation => (findAll root rest).map (operation :: ·)

/-- The tree that a site belongs to, as long as it is there. -/
def rootOf? (s : Session) (site : Site) : Option (Node Operation) :=
  if s.isAlive site.tree then s.trees[site.tree]?.map fun tree => tree.compiled.root else none

/-- The error of an aggregate whose tree is gone. -/
def treeGone : CallError :=
  .transport Transport.aggregatorName "compiled tree is no longer available"

/-- The operations that an aggregate lists.  The first time that all of them are found they are kept
for later calls. -/
def resolve (s : Session) (site : Site) (ids : List String) :
    Except CallError (List Operation) × Session :=
  match s.resolved.lookup site with
  | some operations => (.ok operations, s)
  | none =>
    match s.rootOf? site with
    | none => (.error treeGone, s)
    | some root =>
      match findAll root ids with
      | .error e => (.error e, s)
      | .ok operations =>
        (.ok operations, { s with resolved := s.resolved ++ [(site, operations)] })

/-- How far the calls of an aggregate have come. -/
inductive Progress where
  | waiting
  | failed (e : CallError)
  | complete (results : List Json)

def Progress.cons (result : Json) : Progress → Progress
  | complete results => complete (result :: results)
  | progress => progress

/-- The progress of calls one of which is unfinished. -/
def Progress.wait : Progress → Progress
  | complete _ => waiting
  | progress => progress

def pollFuture (pollCall : Session → Nat → Session) (s : Session) : Future → Session
  | .settled _ => s
  | .call number => pollCall s number

/-- Polls futures in turn until one has failed. -/
def collect (pollCall : Session → Nat → Session) (s : Session) : List Future → Progress × Session
  | [] => (.complete [], s)
  | future :: rest =>
    let s := pollFuture pollCall s future
    match s.result future with
    | some (.error e) => (.failed e, s)
    | some (.ok value) =>
      let (progress, s) := collect pollCall s rest
      (progress.cons value, s)
    | none =>
      let (progress, s) := collect pollCall s rest
      (progress.wait, s)

/-- The progress of futures from a place on, of which the results taken count, each once all before
it have been taken. -/
def progressFrom (s : Session) (taken : List Nat) : (place : Nat) → List Future → Progress
  | _, [] => .complete []
  | place, future :: rest =>
    if taken.contains place then
      match s.result future with
      | some (.error e) => .failed e
      | some (.ok value) => (progressFrom s taken (place + 1) rest).cons value
      | none => .waiting
    else .waiting

def hasFailed (s : Session) (g : Gathering) : Bool :=
  match s.progressFrom g.taken 0 g.futures with
  | .failed _ => true
  | _ => false

/-- Polls the places that are due, until none is or gathering `isOver`.  When every future that is
missing has been polled since the last result, or two of them have become due again while they were
polled, the one who gathers lets others run and wakes itself; so it does when it is out of fuel. -/
def pollDue (pollCall : Session → Nat → Session) (isOver : Session → Gathering → Bool)
    (waiter : Waiter) : (fuel polled yielded : Nat) → Session → Session
  | 0, _, _, s => s.wake waiter
  | fuel + 1, polled, yielded, s =>
    match s.gathering? waiter with
    | none => s
    | some g =>
      match g.due with
      | [] => s
      | place :: due =>
        let s := s.setGathering { g with due } waiter
        match g.futures[place]? with
        | none => pollDue pollCall isOver waiter fuel polled yielded s
        | some future =>
          if g.taken.contains place then pollDue pollCall isOver waiter fuel polled yielded s
          else
            let s := pollFuture pollCall s future
            match s.gathering? waiter with
            | none => s
            | some g =>
              if (s.result future).isSome then
                let g := g.take place
                let s := s.setGathering g waiter
                if isOver s g then s else pollDue pollCall isOver waiter fuel 0 0 s
              else
                let yielded := g.yields place yielded
                if yielded ≥ 2 || polled + 1 = g.missing then s.wake waiter
                else pollDue pollCall isOver waiter fuel (polled + 1) yielded s

/-- Settles a call whose targets are complete or have failed. -/
def conclude (s : Session) (call : Nat) (targets : List Future) : Progress → Session
  | .waiting => s
  | .failed e => (targets.foldl drop s).settle call (.error e)
  | .complete results => (targets.foldl drop s).settle call (Aggregate.merge results)

/-- Polls the targets of a call and settles it when they are complete or have failed. -/
def pollTargets (pollCall : Session → Nat → Session) (s : Session) (call : Nat) : Session :=
  match s.gathering? (.call call) with
  | none => s
  | some g =>
    if g.isWide then
      let s := pollDue pollCall hasFailed (.call call) g.pollBound 0 0 s
      let taken := (s.gathering? (.call call)).elim [] Gathering.taken
      s.conclude call g.futures (s.progressFrom taken 0 g.futures)
    else
      let (progress, s) := collect pollCall s g.futures
      s.conclude call g.futures progress

/-- Takes an unsettled call one step, with a way to poll the calls of its targets. -/
def advance (pollCall : Session → Nat → Session) (s : Session) (call : Nat) : Work → Session
  | .ready outcome => s.settle call outcome
  | .gate gate =>
    match s.gateOutcome gate with
    | none => s
    | some outcome => s.settle call outcome
  | .exchange e =>
    match e.refusal? with
    | some fault => s.settle call (.error fault)
    | none =>
      let (outcome, outside) := e.perform s.outside
      { s with outside }.setWork call (.answered outcome)
  | .answered _ => s
  | .aggregate site ids request =>
    match s.resolve site ids with
    | (.error e, s) => s.settle call (.error e)
    | (.ok operations, s) =>
      let (targets, s) := s.invokeAll request operations
      pollTargets pollCall (s.gather (.call call) targets) call
  | .collecting _ => pollTargets pollCall s call

/-- Polls a call, following aggregates at most `depth` levels down. -/
def pollWithin : (depth : Nat) → Session → Nat → Session
  | 0, s, _ => s
  | depth + 1, s, call =>
    match s.unsettled? call with
    | none => s
    | some c => advance (pollWithin depth) s call c.work

def poll (s : Session) (call : Nat) : Session := pollWithin s.depth s call

end OperationTree.Session
