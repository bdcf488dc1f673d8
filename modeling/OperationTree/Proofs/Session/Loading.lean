import OperationTree.Proofs.Session.Regular
import OperationTree.Proofs.Tree.Listing

/-! The transports of a tree.  They are loaded when its definition is compiled, for the leaves only
and in the order of the definition, each name once; nothing that is done later loads another one or
lets go of one. -/

namespace OperationTree

open Definition

/-- All leaves of a definition with the modules in effect there, depth first in the order of the
definition.  Leaves with canned responses are among them. -/
structure Definition.ListsLeaves (definition : Json)
    (leaves : List (List String × Option String)) : Prop where
  ordered : leaves.Pairwise fun leaf leaf' =>
    ∃ root, definition = .object root ∧ Precedes root leaf.1 leaf'.1
  complete : ∀ keys, keys ∈ leaves.map Prod.fst ↔
    ∃ root, definition = .object root ∧ keys ≠ [] ∧ IsOperationAt root keys
  modules : ∀ leaf ∈ leaves, ∀ name,
    leaf.2 = some name ↔ ∃ root, definition = .object root ∧ HasModule root leaf.1 name

namespace Compiled

variable {catalog : Catalog} {settings : Settings} {tree : Nat} {definition : Json}

/-- The leaves from which the operations of a tree have been made. -/
def leaves (c : Compiled) : List (List String × Option String) :=
  c.root.operations.map fun o => (o.site.keys, o.module)

theorem leaves_ordered (h : definition.HasDistinctKeys) :
    (ofDefinition catalog settings tree definition).leaves.Pairwise fun leaf leaf' =>
      ∃ root, definition = .object root ∧ Precedes root leaf.1 leaf'.1 := by
  cases definition with
  | object root =>
    rw [leaves, List.pairwise_map]
    exact (operations_pairwise h).imp fun hprecedes => ⟨root, rfl, hprecedes⟩
  | _ => exact .nil

theorem mem_leaves (h : definition.HasDistinctKeys) {keys : List String} :
    keys ∈ (ofDefinition catalog settings tree definition).leaves.map Prod.fst ↔
      ∃ root, definition = .object root ∧ keys ≠ [] ∧ IsOperationAt root keys := by
  rw [leaves, List.map_map, List.mem_map]
  constructor
  · rintro ⟨o, ho, rfl⟩
    have hfollow := follow?_site h ho
    obtain ⟨root, rfl⟩ := eq_object_of_mem ho
    obtain ⟨leaf, hleaf, -⟩ := follow?_operation.mp hfollow
    obtain ⟨-, -, -, -, -, -, -, hat, -⟩ := Node.follow?_operation hleaf
    exact ⟨root, rfl, ne_nil_of_operation hfollow, hat⟩
  · rintro ⟨root, rfl, hne, hat⟩
    obtain ⟨leaf, hleaf⟩ := Node.follow?_of_isOperationAt hne hat
    obtain ⟨o, hfollow⟩ : ∃ o, (ofDefinition catalog settings tree (.object root)).root.follow?
        keys = some (.operation o) := ⟨_, follow?_operation.mpr ⟨leaf, hleaf, rfl⟩⟩
    refine ⟨o, (mem_operations_iff h).mpr ⟨keys, hfollow⟩, ?_⟩
    exact congrArg Site.keys (describes hfollow).site

theorem leaves_modules (h : definition.HasDistinctKeys) :
    ∀ leaf ∈ (ofDefinition catalog settings tree definition).leaves, ∀ name,
      leaf.2 = some name ↔ ∃ root, definition = .object root ∧ HasModule root leaf.1 name := by
  intro leaf hleaf name
  obtain ⟨o, ho, rfl⟩ := List.mem_map.mp hleaf
  have hfollow := follow?_site h ho
  obtain ⟨root, rfl⟩ := eq_object_of_mem ho
  simp [(describes hfollow).module name]

theorem listsLeaves (h : definition.HasDistinctKeys) :
    ListsLeaves definition (ofDefinition catalog settings tree definition).leaves :=
  ⟨leaves_ordered h, fun _ => mem_leaves h, leaves_modules h⟩

theorem modules_plan :
    modules (Node.plan definition) =
      (ofDefinition catalog settings tree definition).leaves.filterMap Prod.snd := by
  rw [leaves, ofDefinition, Node.operations_map, List.map_map, List.filterMap_map, modules]
  rfl

theorem loaded_keys :
    (ofDefinition catalog settings tree definition).loaded.keys =
      (((ofDefinition catalog settings tree definition).leaves.filterMap Prod.snd).filter
        catalog.contains).eraseDups := by
  rw [← modules_plan]
  exact Loaded.ofNames_keys catalog _

end Compiled

namespace Session

/-- Changing trees in ways that keep what they are made of. -/
theorem compiled_modify {s s' : Session} {tree : Nat} {f : TreeState → TreeState}
    (ht : s'.trees = s.trees.modify tree f) (hf : ∀ tree, (f tree).compiled = tree.compiled) :
    s.compiled <+: s'.compiled := by
  have heq : s'.compiled = s.compiled := by
    rw [compiled, ht, map_modify_eq hf]
    rfl
  exact heq ▸ List.prefix_rfl

/-- Compiled trees stay as they are. -/
theorem Step.compiled {s s' : Session} (h : Step s s') : s.compiled <+: s'.compiled := by
  cases h with
  | call h => exact List.IsPrefix.map _ (h.undisturbed.trees ▸ List.prefix_rfl)
  | addTree => simp [Session.compiled, Session.addTree]
  | dropTree => exact compiled_modify rfl fun _ => rfl
  | beginShutdown =>
    rw [Session.beginShutdown]
    split
    · exact List.prefix_rfl
    · exact compiled_modify rfl fun _ => rfl
  | endShutdown => exact compiled_modify rfl fun _ => rfl
  | _ => exact List.prefix_rfl

theorem Steps.compiled {s s' : Session} (h : Steps s s') : s.compiled <+: s'.compiled := by
  induction h with
  | refl => exact List.prefix_rfl
  | tail _ step ih => exact ih.trans step.compiled

/-- A tree that has been added is there in whatever happens later, with all that was loaded for
it. -/
theorem addTree_stays {s : Session} (hs : s.Sited) {tracker : Nat}
    (ht : s.isTracking tracker = true) (catalog : Catalog) (settings : Settings)
    (definition : Json) (actions : List Action) :
    ∃ tree,
      ((s.perform (.addTree catalog settings tracker definition)).after actions).trees[
        s.trees.length]? = some tree ∧
      tree.compiled = .ofDefinition catalog settings s.trees.length definition := by
  have hadded : s.perform (.addTree catalog settings tracker definition) =
      s.addTree catalog settings tracker definition := if_pos ht
  have hlater := (after_steps (addTree_sited hs catalog settings definition ht) actions).compiled
  have hget : (s.addTree catalog settings tracker definition).compiled[s.trees.length]? =
      some (.ofDefinition catalog settings s.trees.length definition) := by
    simp [Session.compiled, Session.addTree]
  have hget' := getElem?_of_extends hlater hget
  rw [Session.compiled, List.getElem?_map, Option.map_eq_some_iff] at hget'
  rwa [hadded]

/-- The transports of a tree are those that its leaves name and the catalog contains, each built
once, in the order in which the leaves name them first.  They stay whatever is done later. -/
theorem addTree_loads (s : Session) (h : s.Reachable) (tracker : Nat)
    (ht : s.isTracking tracker = true) (catalog : Catalog) (settings : Settings)
    (definition : Json) (hdistinct : definition.HasDistinctKeys) :
    ∃ leaves, ListsLeaves definition leaves ∧ ∀ actions,
      let u := (s.perform (.addTree catalog settings tracker definition)).after actions
      ∃ tree, u.trees[s.trees.length]? = some tree ∧
        tree.compiled.loaded.keys =
          ((leaves.filterMap Prod.snd).filter catalog.contains).eraseDups ∧
        tree.compiled.loaded.instances.map (fun i => some i.transport) =
          tree.compiled.loaded.keys.map catalog.find? ∧
        ∀ name, tree.compiled.loaded.built.count name =
          if name ∈ tree.compiled.loaded.keys then 1 else 0 := by
  let c := Compiled.ofDefinition catalog settings s.trees.length definition
  have hbuilt : c.loaded.IsBuiltFrom catalog := Loaded.ofNames_isBuiltFrom catalog _
  have hnodup : c.loaded.keys.Nodup := Compiled.ofDefinition_keys_nodup catalog settings _ _
  refine ⟨c.leaves, Compiled.listsLeaves hdistinct, fun actions => ?_⟩
  obtain ⟨tree, hget, hcompiled⟩ :=
    addTree_stays h.attained.sited ht catalog settings definition actions
  refine ⟨tree, hget, ?_⟩
  rw [hcompiled]
  refine ⟨Compiled.loaded_keys, hbuilt.transports, fun name => ?_⟩
  rw [hbuilt.built, hnodup.count]

/-- A group that names a transport which none of its leaves uses, canned responses, a name outside
the catalog, and names that several leaves have. -/
def severalModules : Json :=
  .object [("asyncModule", .string "aggregator"),
    ("b", .object [("asyncModule", .string "mysql"), ("operationDetails", .object [])]),
    ("a", .object [("asyncModule", .string "http"),
      ("c", .object [("asyncModule", .string "file"), ("mockResponse", .bool true)]),
      ("d", .object [("asyncModule", .string "none"), ("operationDetails", .object [])]),
      ("e", .object [("asyncModule", .string "mysql"), ("operationDetails", .object [])]),
      ("f", .object [("operationDetails", .object [])])])]

theorem addTree_loads_severalModules :
    let s := (initial true {}).after [.addTracker]
    let actions : List Action := [.invoke 0 "a.c" {}, .addDrain 0, .pollDrain 0, .addShutdown 0,
      .pollShutdown 0, .pollShutdown 0]
    let u := (s.perform (.addTree .standard {} 0 severalModules)).after actions
    s.isTracking 0 = true ∧ severalModules.HasDistinctKeys ∧
      (∃ leaves, ListsLeaves severalModules leaves ∧
        ∃ tree, u.trees[0]? = some tree ∧ tree.compiled.loaded.keys =
          ((leaves.filterMap Prod.snd).filter Catalog.standard.contains).eraseDups) ∧
      u.compiled.map (fun c => c.loaded.keys) = [["mysql", "file", "http"]] := by
  intro s actions u
  have hs : s.Reachable := ⟨true, {}, [.addTracker], rfl⟩
  have htracking : s.isTracking 0 = true := by decide +kernel
  have hdistinct : severalModules.HasDistinctKeys := by decide +kernel
  obtain ⟨leaves, hleaves, hloaded⟩ :=
    addTree_loads s hs 0 htracking .standard {} severalModules hdistinct
  obtain ⟨tree, hget, hkeys, -⟩ := hloaded actions
  exact ⟨htracking, hdistinct, ⟨leaves, hleaves, tree, hget, hkeys⟩, by decide +kernel⟩

end Session
end OperationTree
