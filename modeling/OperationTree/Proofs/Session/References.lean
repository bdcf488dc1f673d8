import Mathlib.Data.Set.Finite.Lattice
import Mathlib.Order.WellFounded
import OperationTree.Proofs.Session.Regular

/-! The references from aggregates to the operations that they can start.  Nothing keeps them from
coming back to an operation that has been passed; a tree has finitely many operations, so they come
back exactly if they do not come to an end. -/

namespace OperationTree

open Relation

namespace Operation

/-- From an operation to those that it can start, and so on, one never comes back to an operation
that has been passed. -/
def NeverReturns (root : Node Operation) (o : Operation) : Prop :=
  ∀ o', ReflTransGen (CanStart root) o o' → ¬ TransGen (CanStart root) o' o'

theorem CanStart.mem {root : Node Operation} {o o' : Operation} (h : o.CanStart root o') :
    o' ∈ root.operations := by
  obtain ⟨ids, operations, -, hall, ho'⟩ := h
  exact Session.findAll_mem hall o' ho'

/-- The operations that one can come to are finitely many. -/
theorem finite_reachable (root : Node Operation) (o : Operation) :
    {o' | ReflTransGen (CanStart root) o o'}.Finite := by
  refine (root.operations.finite_toSet.insert o).subset fun o' h => ?_
  rcases ReflTransGen.cases_tail h with rfl | ⟨o1, -, hstart⟩
  · exact Set.mem_insert _ _
  · exact Set.mem_insert_of_mem _ hstart.mem

end Operation

end OperationTree
