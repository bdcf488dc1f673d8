import OperationTree.Outside.Exchange

/-! Waiting for several futures together.  Few futures are all polled each time.  Of many, a poll
takes only those that are due: at first all of them, later those that have been woken, in the order
in which that happened. -/

namespace OperationTree

/-- What a caller keeps of a call: its outcome, or the number of the registered call. -/
inductive Future where
  | settled (outcome : Outcome)
  | call (number : Nat)

/-- Futures that are waited for together; a place is the number of a future among them. -/
structure Gathering where
  futures : List Future
  /-- The places that are polled next, if there are many. -/
  due : List Nat := List.range futures.length
  /-- The places whose results have been taken. -/
  taken : List Nat := []

namespace Gathering

/-- Up to this many futures are few. -/
def fewLimit : Nat := 30

def isWide (g : Gathering) : Bool := g.futures.length > fewLimit

def missing (g : Gathering) : Nat := g.futures.length - g.taken.length

def accepts (g : Gathering) (place : Nat) : Bool :=
  !(g.due.contains place || g.taken.contains place)

def push (g : Gathering) (place : Nat) : Gathering := { g with due := g.due ++ [place] }

def take (g : Gathering) (place : Nat) : Gathering := { g with taken := place :: g.taken }

/-- The number of places that have become due again while they were polled, from the number before
one of them was polled. -/
def yields (g : Gathering) (place before : Nat) : Nat :=
  if g.due.contains place then before + 1 else before

/-- More steps than one poll of the due places needs: between two results every future is polled at
most once. -/
def pollBound (g : Gathering) : Nat := (g.futures.length + 2) * (g.futures.length + 2)

end Gathering

/-- What waits: a call, a drain, or a shutdown. -/
inductive Waiter where
  | call (number : Nat)
  | drain (number : Nat)
  | shutdown (number : Nat)
  deriving DecidableEq, Repr

end OperationTree
