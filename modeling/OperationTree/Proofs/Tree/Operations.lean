import OperationTree.Tree.Compiled

/-! The operations of a tree: looking one up finds one of them, and those of a compiled definition
stand in the tree that was compiled. -/

namespace OperationTree

namespace Node

variable {α β : Type}

mutual

theorem operations_map (f : α → β) :
    (node : Node α) → (node.map f).operations = node.operations.map f
  | operation _ => rfl
  | group _ entries => operationsOf_mapEntries f entries
  | value _ => rfl

theorem operationsOf_mapEntries (f : α → β) :
    (entries : List (String × Node α)) →
      operationsOf (mapEntries f entries) = (operationsOf entries).map f
  | [] => rfl
  | (_, node) :: rest => by
    rw [mapEntries, operationsOf, operationsOf, List.map_append, operations_map f node,
      operationsOf_mapEntries f rest]

end

theorem operations_entry {entries : List (String × Node α)} {key : String} {node : Node α}
    (h : entries.lookup key = some node) : node.operations ⊆ operationsOf entries := by
  induction entries with
  | nil => simp at h
  | cons entry rest ih =>
    obtain ⟨name, first⟩ := entry
    rw [List.lookup_cons] at h
    rw [operationsOf]
    split at h
    · obtain rfl := Option.some.inj h
      exact List.subset_append_left _ _
    · exact List.Subset.trans (ih h) (List.subset_append_right _ _)

theorem operations_child {node child : Node α} {key : String} (h : node.child? key = some child) :
    child.operations ⊆ node.operations := by
  cases node with
  | group module entries => exact operations_entry h
  | operation | value => simp [child?, entries] at h

theorem operations_follow {node found : Node α} {keys : List String}
    (h : node.follow? keys = some found) : found.operations ⊆ node.operations := by
  induction keys generalizing node with
  | nil =>
    obtain rfl : node = found := by simpa [follow?] using h
    exact List.Subset.refl _
  | cons key keys ih =>
    simp only [follow?, List.foldlM_cons, Option.bind_eq_bind, Option.bind_eq_some_iff] at h
    obtain ⟨child, hchild, h⟩ := h
    exact List.Subset.trans (ih h) (operations_child hchild)

theorem operationAt?_mem {node : Node α} {path : String} {o : α}
    (h : node.operationAt? path = some o) : o ∈ node.operations := by
  obtain ⟨found, hfound, ho⟩ := Option.bind_eq_some_iff.mp h
  refine operations_follow hfound ?_
  cases found with
  | operation content =>
    obtain rfl : content = o := by simpa [operation?] using ho
    simp [operations]
  | group | value => simp [operation?] at ho

end Node

namespace Compiled

/-- The operations of a compiled definition stand in its tree. -/
theorem site_tree {catalog : Catalog} {settings : Settings} {tree : Nat} {definition : Json}
    {o : Operation} (h : o ∈ (ofDefinition catalog settings tree definition).root.operations) :
    o.site.tree = tree := by
  rw [ofDefinition, Node.operations_map] at h
  obtain ⟨leaf, _, rfl⟩ := List.mem_map.mp h
  rfl

end Compiled
end OperationTree
