import OperationTree.Proofs.Tree.Meaning

/-! What the paths of operations tell.  The path of an operation is that of the keys that lead to
it, so it names the operation unless keys have dots in them, which join like several keys, or the
way leads through an empty key at the root, which leaves no trace in the path. -/

namespace OperationTree.Compiled

variable {catalog : Catalog} {settings : Settings} {tree : Nat} {definition : Json}

/-- Only a definition that is an object has operations. -/
theorem eq_object_of_operation {keys : List String} {o : Operation}
    (h : (ofDefinition catalog settings tree definition).root.follow? keys = some (.operation o)) :
    ∃ root, definition = .object root := by
  cases definition with
  | object root => exact ⟨root, rfl⟩
  | _ => cases keys <;> simp [ofDefinition, Node.plan, Node.map, Node.follow?, Node.mapEntries,
      Node.child?, Node.entries] at h

theorem describes {root : Members} {keys : List String} {o : Operation}
    (h : (ofDefinition catalog settings tree (.object root)).root.follow? keys =
      some (.operation o)) : o.Describes catalog settings tree root keys := by
  obtain ⟨leaf, hleaf, rfl⟩ := follow?_operation.mp h
  exact ofLeaf_describes hleaf

/-- The path of an operation is that of the keys that lead to it. -/
theorem path_eq {keys : List String} {o : Operation}
    (h : (ofDefinition catalog settings tree definition).root.follow? keys = some (.operation o)) :
    o.path = Path.ofKeys keys := by
  obtain ⟨root, rfl⟩ := eq_object_of_operation h
  exact (describes h).path

/-- The root of a compiled tree is no operation. -/
theorem ne_nil_of_operation {keys : List String} {o : Operation}
    (h : (ofDefinition catalog settings tree definition).root.follow? keys = some (.operation o)) :
    keys ≠ [] := by
  rintro rfl
  obtain ⟨root, rfl⟩ := eq_object_of_operation h
  cases h

theorem operationAt?_eq_some {root : Node Operation} {path : String} {o : Operation} :
    root.operationAt? path = some o ↔ root.follow? (Path.split path) = some (.operation o) := by
  rw [Node.operationAt?, Option.bind_eq_some_iff, Node.find?]
  constructor
  · rintro ⟨found, hfound, ho⟩
    cases found with
    | operation content => rw [hfound, ← Option.some.inj ho]
    | group | value => cases ho
  · exact fun h => ⟨_, h, rfl⟩

/-- An operation that is looked up by a path that does not begin with a dot has that path.  Two
operations have different paths if no key that leads to them has a dot in it and none of them stands
below the empty key at the root. -/
theorem path_names_operation (catalog : Catalog) (settings : Settings) (tree : Nat)
    (definition : Json) :
    let c := ofDefinition catalog settings tree definition
    (∀ path o, path.toList.head? ≠ some '.' → c.root.operationAt? path = some o → o.path = path) ∧
    ∀ keys keys' o o', c.root.follow? keys = some (.operation o) →
      c.root.follow? keys' = some (.operation o') → Path.IsRooted keys → Path.IsRooted keys' →
      (∀ key ∈ keys ++ keys', Path.HasNoDot key) → keys ≠ keys' → o.path ≠ o'.path := by
  intro c
  refine ⟨fun path o hpath ho => ?_,
    fun keys keys' o o' ho ho' hrooted hrooted' hdots hne heq => ?_⟩
  · rw [path_eq (operationAt?_eq_some.mp ho), Path.ofKeys_split (Path.isRooted_split hpath)]
  · rw [path_eq ho, path_eq ho'] at heq
    refine hne ?_
    have hsplit := Path.split_ofKeys (ne_nil_of_operation ho) hrooted fun key hkey =>
      hdots key (by simp [hkey])
    have hsplit' := Path.split_ofKeys (ne_nil_of_operation ho') hrooted' fun key hkey =>
      hdots key (by simp [hkey])
    rw [← hsplit, heq, hsplit']

theorem path_names_operation_nested :
    ∃ o, (ofDefinition {} {} 0 (.object nested)).root.operationAt? "b.c" = some o ∧
      o.path = "b.c" := by
  obtain ⟨o, ho⟩ : ∃ o, (ofDefinition {} {} 0 (.object nested)).root.operationAt? "b.c" = some o :=
    Option.isSome_iff_exists.mp (by decide +kernel)
  exact ⟨o, ho, (path_names_operation {} {} 0 (.object nested)).1 "b.c" o (by decide +kernel) ho⟩

/-- Paths lead to the operations that report them, and different operations report different
paths. -/
structure PathsIdentify (c : Compiled) : Prop where
  path : ∀ path o, c.root.operationAt? path = some o → o.path = path
  distinct : ∀ keys keys' o o', c.root.follow? keys = some (.operation o) →
    c.root.follow? keys' = some (.operation o') → keys ≠ keys' → o.path ≠ o'.path

/-- Two operations under `a.b`, one of them below `a`. -/
def dottedKeys : Json :=
  .object [("a.b", .object [("mockResponse", .string "x")]),
    ("a", .object [("b", .object [("mockResponse", .string "y")])])]

theorem not_pathsIdentify_dottedKeys : ¬ PathsIdentify (ofDefinition {} {} 0 dottedKeys) := by
  intro h
  exact h.distinct ["a.b"] ["a", "b"] _ _ rfl rfl (by decide) (by decide +kernel)

end OperationTree.Compiled
