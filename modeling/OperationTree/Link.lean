import OperationTree.SystemError

/-! Connections to a far side: the web, or a database. -/

namespace OperationTree

/-- A connection over which questions are answered.  It may be down; else the far side answers each
question in the light of the questions before it. -/
inductive Link (Question Answer : Type) where
  | down (fault : SystemError)
  | up (asked : List Question) (answer : List Question → Question → Except String Answer)

namespace Link

variable {Question Answer : Type}

/-- The questions that have reached the far side, in order. -/
def asked : Link Question Answer → List Question
  | down _ => []
  | up asked _ => asked

/-- Asks one question.  Over a connection that is down nothing is sent. -/
def ask (wording : SystemError → String) (link : Link Question Answer) (question : Question) :
    Except String Answer × Link Question Answer :=
  match link with
  | down fault => (.error (wording fault), down fault)
  | up asked answer => (answer asked question, up (asked ++ [question]) answer)

end Link
end OperationTree
