import OperationTree.Proofs.Json.Keys
import OperationTree.Proofs.Tree.Naming

/-! The list of all operations.  When no object of a definition has a key twice, the operations are
listed depth first in the order of the definition, each once and no other; when moreover every key
is plain, each of them is found by its path, and other paths find nothing. -/

namespace OperationTree

/-- Every key of every object is plain. -/
def Json.HasPlainKeys (value : Json) : Prop :=
  value.everyObject (fun node => ∀ key ∈ node.keys, Path.IsPlain key) = true

instance (value : Json) : Decidable value.HasPlainKeys :=
  inferInstanceAs
    (Decidable (value.everyObject (fun node => ∀ key ∈ node.keys, Path.IsPlain key) = true))

namespace Definition

/-- Depth first, what stands under an earlier key of an object precedes what stands under a later
one. -/
def Precedes (root : Members) (first second : List String) : Prop :=
  ∃ above node key key' below below', objectAt? root above = some node ∧
    [key, key'].Sublist node.keys ∧ first = above ++ key :: below ∧ second = above ++ key' :: below'

theorem everyObject_objectAt? {test : Members → Bool} {root node : Members} {keys : List String}
    (h : (Json.object root).everyObject test = true) (hnode : objectAt? root keys = some node) :
    (Json.object node).everyObject test = true := by
  induction keys using List.reverseRecOn generalizing node with
  | nil =>
    obtain rfl : root = node := by simpa [objectAt?] using hnode
    exact h
  | append_singleton keys key ih =>
    rw [objectAt?_concat, Option.bind_eq_some_iff] at hnode
    obtain ⟨parent, hparent, hvalue⟩ := hnode
    obtain ⟨value, hvalue, hobject⟩ := Option.bind_eq_some_iff.mp hvalue
    have hall := ih hparent
    rw [Json.everyObject, Bool.and_eq_true] at hall
    cases value with
    | object child =>
      rw [← Option.some.inj hobject]
      exact Json.everyMember_iff.mp hall.2 _ (Members.mem_of_get? hvalue)
    | _ => cases hobject

/-- A key that leads to an object is one of an object above. -/
theorem mem_keys_above {root node : Members} {keys : List String} {key : String}
    (hnode : objectAt? root keys = some node) (hkey : key ∈ keys) :
    ∃ above parent, objectAt? root above = some parent ∧ key ∈ parent.keys := by
  induction keys using List.reverseRecOn generalizing node with
  | nil => cases hkey
  | append_singleton keys last ih =>
    rw [objectAt?_concat, Option.bind_eq_some_iff] at hnode
    obtain ⟨parent, hparent, hvalue⟩ := hnode
    obtain ⟨value, hvalue, -⟩ := Option.bind_eq_some_iff.mp hvalue
    rcases List.mem_append.mp hkey with hkey | hkey
    · exact ih hparent hkey
    · rw [List.mem_singleton.mp hkey]
      exact ⟨keys, parent, hparent, Members.mem_keys_of_get? hvalue⟩

theorem Precedes.ne {root : Members} (hroot : (Json.object root).HasDistinctKeys)
    {first second : List String} (h : Precedes root first second) : first ≠ second := by
  rintro rfl
  obtain ⟨above, node, key, key', below, below', hnode, hsub, heq, heq'⟩ := h
  obtain ⟨rfl, -⟩ := List.cons.inj (List.append_cancel_left (heq.symm.trans heq'))
  have hnodup := everyObject_objectAt? hroot hnode
  rw [Json.everyObject, Bool.and_eq_true, decide_eq_true_eq] at hnodup
  simpa using hnodup.1.sublist hsub

end Definition

open Definition

namespace Node

theorem follow?_cons {α : Type} (node : Node α) (key : String) (keys : List String) :
    node.follow? (key :: keys) = (node.child? key).bind fun child => child.follow? keys := by
  simp [follow?]

mutual

/-- Every operation of a plan is reached by its keys. -/
theorem follow?_of_mem_planValue (s : Surroundings) (key : String) :
    (v : Json) → v.HasDistinctKeys → ∀ leaf ∈ (planValue s key v).operations,
      ∃ below, (planValue s key v).follow? below = some (.operation leaf) ∧
        leaf.keys = s.keys ++ key :: below
  | .object node, h, leaf, hleaf => by
    rw [planValue] at hleaf ⊢
    split at hleaf
    · cases hleaf
    · next hreserved =>
      rw [if_neg hreserved]
      split at hleaf
      · next hisLeaf =>
        obtain rfl := List.mem_singleton.mp hleaf
        exact ⟨[], by rw [if_pos hisLeaf]; rfl, rfl⟩
      · next hisLeaf =>
        rw [Json.HasDistinctKeys, Json.everyObject, Bool.and_eq_true, decide_eq_true_eq] at h
        obtain ⟨key', child, below, hchild, hbelow, hkeys⟩ :=
          lookup_of_mem_planMembers (s.enter key node) node h.1 h.2 leaf hleaf
        refine ⟨key' :: below, ?_, by simp [hkeys, Surroundings.enter]⟩
        rw [if_neg hisLeaf, follow?_cons]
        exact Option.bind_eq_some_iff.mpr ⟨child, hchild, hbelow⟩
  | .null, _, _, h | .bool _, _, _, h | .number _, _, _, h | .string _, _, _, h
  | .array _, _, _, h => nomatch h

theorem lookup_of_mem_planMembers (s : Surroundings) :
    (members : List (String × Json)) → Members.Distinct members →
      Json.everyMember (fun node => node.keys.Nodup) members = true →
      ∀ leaf ∈ operationsOf (planMembers s members),
        ∃ key child below, (planMembers s members).lookup key = some child ∧
          child.follow? below = some (.operation leaf) ∧ leaf.keys = s.keys ++ key :: below
  | [], _, _, _, h => nomatch h
  | (key, v) :: rest, hdistinct, hevery, leaf, hleaf => by
    rw [Members.Distinct, Members.keys, List.map_cons, List.nodup_cons] at hdistinct
    rw [Json.everyMember, Bool.and_eq_true] at hevery
    rw [planMembers, operationsOf, List.mem_append] at hleaf
    rcases hleaf with hfirst | hrest
    · obtain ⟨below, hbelow, hkeys⟩ := follow?_of_mem_planValue s key v hevery.1 leaf hfirst
      exact ⟨key, _, below, by simp [planMembers], hbelow, hkeys⟩
    · obtain ⟨key', child, below, hchild, hbelow, hkeys⟩ :=
        lookup_of_mem_planMembers s rest hdistinct.2 hevery.2 leaf hrest
      -- The key of a later member is not the first one.
      have hne : key' ≠ key := by
        rintro rfl
        rw [lookup_planMembers, Option.map_eq_some_iff] at hchild
        obtain ⟨v', hv', -⟩ := hchild
        exact hdistinct.1 (Members.mem_keys_of_get? hv')
      refine ⟨key', child, below, ?_, hbelow, hkeys⟩
      rw [planMembers, List.lookup_cons, beq_false_of_ne hne]
      exact hchild

end

theorem follow?_keys {root : Members} (h : (Json.object root).HasDistinctKeys) {leaf : Leaf}
    (hleaf : leaf ∈ (plan (.object root)).operations) :
    (plan (.object root)).follow? leaf.keys = some (.operation leaf) := by
  rw [Json.HasDistinctKeys, Json.everyObject, Bool.and_eq_true, decide_eq_true_eq] at h
  obtain ⟨key, child, below, hchild, hbelow, hkeys⟩ :=
    lookup_of_mem_planMembers (.ofRoot root) root h.1 h.2 leaf hleaf
  rw [hkeys, Surroundings.ofRoot, List.nil_append, follow?_cons]
  exact Option.bind_eq_some_iff.mpr ⟨child, hchild, hbelow⟩

/-! ### The order of the operations -/

theorem distinct_of_objectAt? {root : Members} (hroot : (Json.object root).HasDistinctKeys)
    {keys : List String} {node : Members} (hnode : objectAt? root keys = some node) :
    Members.Distinct node ∧ Json.everyMember (fun node => node.keys.Nodup) node = true := by
  have h := everyObject_objectAt? hroot hnode
  rwa [Json.everyObject, Bool.and_eq_true, decide_eq_true_eq] at h

mutual

theorem pairwise_planValue {root : Members} (hroot : (Json.object root).HasDistinctKeys)
    (s : Surroundings) (key : String) :
    (v : Json) → objectAt? root (s.keys ++ [key]) = v.asObject? →
      (planValue s key v).operations.Pairwise fun a b => Precedes root a.keys b.keys
  | .object node, hnode => by
    rw [planValue]
    split
    · exact .nil
    · split
      · exact List.pairwise_singleton _ _
      · exact pairwise_planMembers hroot (s.enter key node) node node List.suffix_rfl hnode
  | .null, _ | .bool _, _ | .number _, _ | .string _, _ | .array _, _ => .nil

theorem pairwise_planMembers {root : Members} (hroot : (Json.object root).HasDistinctKeys)
    (s : Surroundings) :
    (members : List (String × Json)) → (node : Members) → members <:+ node →
      objectAt? root s.keys = some node →
      (operationsOf (planMembers s members)).Pairwise fun a b => Precedes root a.keys b.keys
  | [], _, _, _ => .nil
  | (key, v) :: rest, node, hsuffix, hnode => by
    obtain ⟨hdistinct, hevery⟩ := distinct_of_objectAt? hroot hnode
    have hkeys : Members.keys ((key, v) :: rest) <:+ node.keys := hsuffix.map Prod.fst
    have hvalue := hdistinct.get?_of_mem (hsuffix.subset (List.mem_cons_self ..))
    have hevery' := fun member hmem => Json.everyMember_iff.mp hevery member (hsuffix.subset hmem)
    rw [planMembers, operationsOf, List.pairwise_append]
    refine ⟨pairwise_planValue hroot s key v ?_,
      pairwise_planMembers hroot s rest node ((List.suffix_cons _ _).trans hsuffix) hnode, ?_⟩
    · rw [objectAt?_concat, hnode, Option.bind_some, hvalue, Option.bind_some]
    · intro a ha b hb
      obtain ⟨below, -, ha⟩ :=
        follow?_of_mem_planValue s key v (hevery' (key, v) (List.mem_cons_self ..)) a ha
      obtain ⟨key', child, below', hchild, -, hb⟩ := lookup_of_mem_planMembers s rest
        (hdistinct.sublist ((List.sublist_cons_self _ _).trans hkeys.sublist))
        (Json.everyMember_iff.mpr fun member h => hevery' member (List.mem_cons_of_mem _ h)) b hb
      rw [lookup_planMembers, Option.map_eq_some_iff] at hchild
      obtain ⟨v', hv', -⟩ := hchild
      have hlater : [key'].Sublist (Members.keys rest) :=
        List.singleton_sublist.mpr (Members.mem_keys_of_get? hv')
      exact ⟨s.keys, node, key, key', below, below', hnode,
        (hlater.cons_cons key).trans hkeys.sublist, ha, hb⟩

end

end Node

namespace Compiled

variable {catalog : Catalog} {settings : Settings} {tree : Nat} {definition : Json}
  {root : Members} {o : Operation}

theorem eq_object_of_mem
    (h : o ∈ (ofDefinition catalog settings tree definition).root.operations) :
    ∃ root, definition = .object root := by
  cases definition with
  | object root => exact ⟨root, rfl⟩
  | _ => cases h

/-- The keys of an operation lead to it. -/
theorem follow?_site (h : definition.HasDistinctKeys)
    (ho : o ∈ (ofDefinition catalog settings tree definition).root.operations) :
    (ofDefinition catalog settings tree definition).root.follow? o.site.keys =
      some (.operation o) := by
  obtain ⟨root, rfl⟩ := eq_object_of_mem ho
  rw [ofDefinition, Node.operations_map, List.mem_map] at ho
  obtain ⟨leaf, hleaf, rfl⟩ := ho
  exact follow?_operation.mpr ⟨leaf, Node.follow?_keys h hleaf, rfl⟩

theorem mem_operations_iff (h : definition.HasDistinctKeys) :
    o ∈ (ofDefinition catalog settings tree definition).root.operations ↔
      ∃ keys, (ofDefinition catalog settings tree definition).root.follow? keys =
        some (.operation o) := by
  refine ⟨fun ho => ⟨_, follow?_site h ho⟩, ?_⟩
  rintro ⟨keys, ho⟩
  exact Node.operations_follow ho (by simp [Node.operations])

theorem operations_pairwise (h : (Json.object root).HasDistinctKeys) :
    (ofDefinition catalog settings tree (.object root)).root.operations.Pairwise fun o o' =>
      Precedes root o.site.keys o'.site.keys := by
  rw [ofDefinition, Node.operations_map, List.pairwise_map]
  exact Node.pairwise_planMembers h (.ofRoot root) root root List.suffix_rfl rfl

/-- Keys that lead to an operation of a definition with plain keys are plain. -/
theorem isPlain_of_follow? (h : definition.HasPlainKeys) {keys : List String}
    (ho : (ofDefinition catalog settings tree definition).root.follow? keys =
      some (.operation o)) {key : String} (hkey : key ∈ keys) : Path.IsPlain key := by
  obtain ⟨root, rfl⟩ := eq_object_of_operation ho
  obtain ⟨leaf, hleaf, -⟩ := follow?_operation.mp ho
  obtain ⟨_, _, _, node, -, -, hnode, -⟩ := Node.follow?_operation hleaf
  obtain ⟨above, parent, hparent, hmem⟩ := mem_keys_above hnode hkey
  have hplain := everyObject_objectAt? h hparent
  rw [Json.everyObject, Bool.and_eq_true, decide_eq_true_eq] at hplain
  exact hplain.1 key hmem

theorem split_path (h : definition.HasPlainKeys) {keys : List String}
    (ho : (ofDefinition catalog settings tree definition).root.follow? keys =
      some (.operation o)) : Path.split o.path = keys := by
  have hplain : ∀ key ∈ keys, Path.IsPlain key := fun _ => isPlain_of_follow? h ho
  rw [path_eq ho]
  refine Path.split_ofKeys (ne_nil_of_operation ho) (fun hempty => ?_) fun key hkey =>
    (hplain key hkey).2
  exact absurd rfl (hplain "" (List.mem_of_mem_head? hempty)).1

theorem operationAt?_path (hdistinct : definition.HasDistinctKeys)
    (hplain : definition.HasPlainKeys)
    (ho : o ∈ (ofDefinition catalog settings tree definition).root.operations) :
    (ofDefinition catalog settings tree definition).root.operationAt? o.path = some o := by
  have hfollow := follow?_site hdistinct ho
  rwa [operationAt?_eq_some, split_path hplain hfollow]

theorem mem_paths_of_operationAt? (h : definition.HasPlainKeys) {path : String}
    (ho : (ofDefinition catalog settings tree definition).root.operationAt? path = some o) :
    path ∈ (ofDefinition catalog settings tree definition).paths := by
  have hfollow := operationAt?_eq_some.mp ho
  refine List.mem_map.mpr ⟨o, Node.operationAt?_mem ho, ?_⟩
  rw [path_eq hfollow]
  refine Path.ofKeys_split fun hempty => ?_
  exact absurd rfl (isPlain_of_follow? h hfollow (List.mem_of_mem_head? hempty)).1

theorem paths_nodup (hdistinct : definition.HasDistinctKeys) (hplain : definition.HasPlainKeys) :
    (ofDefinition catalog settings tree definition).paths.Nodup := by
  cases definition with
  | object root =>
    refine List.pairwise_map.mpr ((operations_pairwise hdistinct).imp_of_mem ?_)
    intro o o' ho ho' hprecedes heq
    have hkeys := split_path hplain (follow?_site hdistinct ho)
    rw [heq, split_path hplain (follow?_site hdistinct ho')] at hkeys
    exact hprecedes.ne hdistinct hkeys.symm
  | _ => exact .nil

/-- The list of all operations, depth first.  Each operation stands in it once, under a path of its
own that leads back to it, and no other path leads to an operation. -/
theorem operations_listed (catalog : Catalog) (settings : Settings) (tree : Nat)
    (definition : Json) (hdistinct : definition.HasDistinctKeys)
    (hplain : definition.HasPlainKeys) :
    let c := ofDefinition catalog settings tree definition
    (∀ root, definition = .object root → c.root.operations.Pairwise fun o o' =>
      Precedes root o.site.keys o'.site.keys) ∧
    c.root.operations.Nodup ∧
    (∀ o, o ∈ c.root.operations ↔ ∃ keys, c.root.follow? keys = some (.operation o)) ∧
    c.paths.Nodup ∧
    (∀ o ∈ c.root.operations, c.root.operationAt? o.path = some o) ∧
    ∀ path, path ∉ c.paths → c.root.operationAt? path = none := by
  intro c
  have hpaths : c.paths.Nodup := paths_nodup hdistinct hplain
  have hnodup : c.root.operations.Nodup :=
    List.Pairwise.of_map Operation.path (fun _ _ hne heq => hne (congrArg _ heq)) hpaths
  refine ⟨?_, hnodup, fun o => mem_operations_iff hdistinct, hpaths,
    fun o => operationAt?_path hdistinct hplain, fun path hpath => ?_⟩
  · rintro root rfl
    exact operations_pairwise hdistinct
  · cases ho : c.root.operationAt? path with
    | none => rfl
    | some o => exact absurd (mem_paths_of_operationAt? hplain ho) hpath

theorem operations_listed_nested :
    (Json.object nested).HasDistinctKeys ∧ (Json.object nested).HasPlainKeys ∧
      (ofDefinition {} {} 0 (.object nested)).paths = ["b.c", "a"] ∧
      (ofDefinition {} {} 0 (.object nested)).paths.Nodup ∧
      (ofDefinition {} {} 0 (.object nested)).root.operationAt? "b" = none :=
  have h := operations_listed {} {} 0 (.object nested) (by decide +kernel) (by decide +kernel)
  ⟨by decide +kernel, by decide +kernel, by decide +kernel, h.2.2.2.1,
    h.2.2.2.2.2 "b" (by decide +kernel)⟩

end Compiled
end OperationTree
