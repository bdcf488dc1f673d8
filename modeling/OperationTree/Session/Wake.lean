import OperationTree.Session.State

/-! Waking.  When a call can go on or has ended, everything that waits for it is woken: the tasks
that poll it are queued, and its place becomes due wherever it is gathered.  That in turn wakes
those who gather it.  The queue grows at its end only, and holds no task twice. -/

namespace OperationTree.Session

/-- Queues the tasks that poll what waits, unless they are queued. -/
def enqueue (s : Session) (waiter : Waiter) : Session :=
  let woken := s.tasks.zipIdx.filter fun (task, number) =>
    s.polls task waiter && !s.queue.contains number
  { s with queue := s.queue ++ woken.map Prod.snd }

/-- Tells one who gathers a call, with a way to wake it, that the call at a place can go on. -/
def notify (wake : Session → Waiter → Session) (s : Session) (waiter : Waiter) (place : Nat) :
    Session :=
  match s.gathering? waiter with
  | none => s
  | some g =>
    if !g.isWide then wake s waiter
    else if g.accepts place then wake (s.setGathering (g.push place) waiter) waiter
    else s

/-- Wakes what waits, and those who wait for it at most `depth` levels up. -/
def wakeWithin : (depth : Nat) → Session → Waiter → Session
  | 0, s, _ => s
  | depth + 1, s, waiter =>
    let s := s.enqueue waiter
    match waiter with
    | .drain _ | .shutdown _ => s
    | .call number =>
      (s.calls[number]?.elim [] Call.waiters).foldl
        (fun s (waiter, place) => notify (wakeWithin depth) s waiter place) s

/-- Wakes what waits, and everything that waits for it.  A call is gathered by earlier calls only.
-/
def wake (s : Session) (waiter : Waiter) : Session := wakeWithin (s.calls.length + 1) s waiter

def waitsAt (gate : Nat) : Call → Bool
  | { outcome := none, work := .gate number, .. } => number == gate
  | _ => false

/-- Settles an open gate and wakes the call that waits for it. -/
def settleGate (s : Session) (gate : Nat) (outcome : Outcome) : Session :=
  if s.isOpen gate then
    let s := { s with gates := s.gates.set gate (some outcome) }
    (s.calls.findIdx? (waitsAt gate)).elim s fun call => s.wake (.call call)
  else s

def spawn (s : Session) (task : Task) : Nat × Session :=
  (s.tasks.length, { s with tasks := s.tasks ++ [task], queue := s.queue ++ [s.tasks.length] })

def register (s : Session) (tracker : Nat) (work : Work) : Session :=
  { s with
    calls := s.calls ++ [{ tracker, id := (s.tracker tracker).lastId + 1, work }]
    trackers := s.trackers.modify tracker (·.insert s.calls.length) }

/-- Registers a call that has some work, and gives it to the scheduler. -/
def track (s : Session) (tracker : Nat) (work : Work) : Nat × Session :=
  let number := s.calls.length
  let s := s.register tracker work
  (number, if s.hasScheduler then (s.spawn (.call number)).2 else s)

/-- Gives a call an outcome and removes its entry. -/
def finish (s : Session) (call : Nat) (c : Call) (outcome : Outcome) : Session :=
  { s with
    calls := s.calls.set call { c with outcome := some outcome }
    trackers := s.trackers.modify c.tracker (·.erase c.id) }

/-- Ends a call with an outcome and wakes those who wait for it.  A call that has ended keeps its
outcome. -/
def settle (s : Session) (call : Nat) (outcome : Outcome) : Session :=
  match s.unsettled? call with
  | none => s
  | some c => (s.finish call c outcome).wake (.call call)

def answer? (c : Call) : Option Outcome :=
  match c.work with
  | .answered outcome => some outcome
  | _ => none

/-- Lets the answer to a call arrive, if one is under way. -/
def arrive (s : Session) (call : Nat) : Session :=
  match (s.unsettled? call).bind answer? with
  | none => s
  | some outcome => (s.setWork call (.ready outcome)).wake (.call call)

/-- Ends a closing and wakes the shutdown that waits for it. -/
def endClosing (s : Session) (number : Nat) : Session :=
  match s.closings[number]? with
  | none => s
  | some c =>
    { s with closings := s.closings.set number { c with isDone := true } }.wake
      (.shutdown c.shutdown)

def openClosings (s : Session) : List Nat :=
  (List.range s.closings.length).filter fun number =>
    (s.closings[number]?.map fun c => !c.isDone).getD false

/-- Lets everything from outside arrive: the answers to calls, and the ends of closings. -/
def deliver (s : Session) : Session :=
  let s := (List.range s.calls.length).foldl arrive s
  s.openClosings.foldl endClosing s

/-- Makes a place where a call is gathered known to the call. -/
def addWaiter (s : Session) (call : Nat) (waiter : Waiter × Nat) : Session :=
  { s with calls := s.calls.modify call fun c => { c with waiters := c.waiters ++ [waiter] } }

/-- Makes one who gathers known to the calls behind the futures, the first of which stands at
`place`. -/
def watch (waiter : Waiter) (place : Nat) (s : Session) : List Future → Session
  | [] => s
  | .settled _ :: rest => watch waiter (place + 1) s rest
  | .call number :: rest => watch waiter (place + 1) (s.addWaiter number (waiter, place)) rest

def gather (s : Session) (waiter : Waiter) (futures : List Future) : Session :=
  watch waiter 0 (s.setGathering { futures } waiter) futures

end OperationTree.Session
