import OperationTree.Session.Poll

/-! Waiting for calls.  A drain waits for the calls that are registered when it is first polled, and
ends with the first failure among them. -/

namespace OperationTree.Session

/-- The failure behind a future, if it has settled with one. -/
def failureOf (s : Session) (future : Future) : Option CallError :=
  match s.result future with
  | some (.error e) => some e
  | _ => none

/-- Polls the calls that a drain gathers: few are all polled, of many those that are due. -/
def pollCalls (s : Session) (drain : Nat) (g : Gathering) : Session :=
  if g.isWide then pollDue poll (fun _ _ => false) (.drain drain) g.pollBound 0 0 s
  else g.futures.foldl (pollFuture poll) s

/-- Ends a drain with the first failure among its calls, once all of them have settled. -/
def endDrain (s : Session) (drain : Nat) (futures : List Future) : Session :=
  if futures.all fun future => (s.result future).isSome then
    s.setDrain drain (.finished (futures.findSome? s.failureOf))
  else s

def pollGathered (s : Session) (drain : Nat) : Session :=
  match s.gathering? (.drain drain) with
  | none => s
  | some g => (s.pollCalls drain g).endDrain drain g.futures

def pollDrain (s : Session) (drain : Nat) : Session :=
  match s.drains[drain]? with
  | some (.fresh tracker) =>
    pollGathered (s.gather (.drain drain) ((s.tracker tracker).calls.map .call)) drain
  | some (.waiting _) => s.pollGathered drain
  | _ => s

end OperationTree.Session
