import OperationTree.Proofs.Tree.Canned

/-! Writing down what is inherited.  `Definition.annotated` writes the module in effect at each node
of a definition into the node itself.  Nothing is inherited any more, and yet the definition means
what it meant: its plan has the same leaves, of nodes that differ in nothing that a transport looks
at, and so the compiled tree has the very same operations. -/

namespace OperationTree
namespace Definition

/-- A node with a module as its own, if there is one. -/
def withModule (node : Members) : Option String → Members
  | none => node
  | some name => node.insert moduleKey (.string name)

mutual

/-- A value with the module in effect written into every node, below a node with some module. -/
def annotate (inherited : Option String) : Json → Json
  | .object node =>
    let module := effectiveModule node inherited
    .object (withModule (annotateMembers module node) module)
  | value => value

def annotateMembers (module : Option String) : List (String × Json) → List (String × Json)
  | [] => []
  | (key, value) :: rest =>
    (key, if isReserved key then value else annotate module value) :: annotateMembers module rest

end

/-- The definition with the module in effect written into every node. -/
def annotated (definition : Json) : Json := annotate none definition

/-- What annotating makes of a node whose module in effect is given. -/
def annotateNode (module : Option String) (node : Members) : Members :=
  withModule (annotateMembers module node) module

mutual

/-- Whether all nodes of a definition pass a test, the definition itself included. -/
def everyNode (test : Members → Bool) : Json → Bool
  | .object node => test node && everyChild test node
  | _ => true

def everyChild (test : Members → Bool) : List (String × Json) → Bool
  | [] => true
  | (key, value) :: rest => (isReserved key || everyNode test value) && everyChild test rest

end

/-- A node has no object where its module would be named. -/
def hasPlainModule (node : Members) : Bool := ((node.get? moduleKey).bind Json.asObject?).isNone

/-- No node has an object where its module would be named. -/
def HasPlainModules (definition : Json) : Prop := everyNode hasPlainModule definition = true

instance (definition : Json) : Decidable (HasPlainModules definition) :=
  inferInstanceAs (Decidable (everyNode hasPlainModule definition = true))

theorem everyNode_child {test : Members → Bool} {members : Members}
    (h : everyChild test members = true) {key : String} (hkey : isReserved key = false)
    {value : Json} (hvalue : members.get? key = some value) : everyNode test value = true := by
  induction members with
  | nil => cases hvalue
  | cons member rest ih =>
    obtain ⟨name, first⟩ := member
    rw [everyChild, Bool.and_eq_true] at h
    rw [Members.get?] at hvalue
    split at hvalue
    · next hname =>
      obtain rfl := Option.some.inj hvalue
      simpa [hname, hkey] using h.1
    · exact ih h.2 hvalue

theorem hasPlainModule_iff {node : Members} :
    hasPlainModule node = true ↔ (node.get? moduleKey).bind Json.asObject? = none :=
  Option.isNone_iff_eq_none

/-- A module that can be named: the empty name names none. -/
def IsNamed (module : Option String) : Prop := ∀ name, module = some name → name ≠ ""

theorem isNamed_none : IsNamed none := by
  intro name h
  cases h

theorem isNamed_effectiveModule (node : Members) {inherited : Option String}
    (h : IsNamed inherited) : IsNamed (effectiveModule node inherited) := by
  intro name hname
  rcases Option.or_eq_some_iff.mp hname with hown | ⟨-, hinherited⟩
  · exact (ownModule_eq_some.mp hown).2
  · exact h name hinherited

/-! ### Looking into an annotated node -/

theorem get?_annotateMembers (module : Option String) (members : Members) (key : String) :
    Members.get? (annotateMembers module members) key =
      (members.get? key).map fun value =>
        if isReserved key then value else annotate module value := by
  induction members with
  | nil => rfl
  | cons member rest ih =>
    obtain ⟨name, value⟩ := member
    rw [annotateMembers, Members.get?, Members.get?]
    by_cases h : name = key
    · rw [if_pos h, if_pos h, h, Option.map_some]
    · rw [if_neg h, if_neg h, ih]

theorem get?_withModule (node : Members) (module : Option String) {key : String}
    (h : key ≠ moduleKey) : (withModule node module).get? key = node.get? key := by
  cases module with
  | none => rfl
  | some name => rw [withModule, Members.get?_insert, if_neg h.symm]

/-- Below a node stand its children, annotated. -/
theorem get?_annotateNode {module : Option String} {node : Members} {key : String}
    (h : key ≠ moduleKey) : (annotateNode module node).get? key =
      (node.get? key).map fun value =>
        if isReserved key then value else annotate module value := by
  rw [annotateNode, get?_withModule _ _ h, get?_annotateMembers]

/-- What configures a node stays as it is. -/
theorem get?_annotateNode_reserved {module : Option String} {node : Members} {key : String}
    (h : isReserved key = true) : (annotateNode module node).get? key = node.get? key := by
  have hne : key ≠ moduleKey := by
    rintro rfl
    exact absurd h (by decide)
  rw [get?_annotateNode hne]
  simp [h]

theorem annotate_object (inherited : Option String) (node : Members) :
    annotate inherited (.object node) =
      .object (annotateNode (effectiveModule node inherited) node) := by
  rw [annotate, annotateNode]

theorem annotate_of_not_object {inherited : Option String} {value : Json}
    (h : value.asObject? = none) : annotate inherited value = value := by
  cases value with
  | object => cases h
  | _ => rfl

theorem asString?_annotate (inherited : Option String) (value : Json) :
    (annotate inherited value).asString? = value.asString? := by
  cases value with
  | object node => rw [annotate_object]; rfl
  | _ => rfl

theorem asObject?_annotateMembers {module : Option String} {members : Members}
    (h : hasPlainModule members = true) :
    (Members.get? (annotateMembers module members) moduleKey).bind Json.asObject? = none := by
  rw [hasPlainModule_iff] at h
  rw [get?_annotateMembers]
  cases hvalue : members.get? moduleKey with
  | none => rfl
  | some value =>
    rw [hvalue, Option.bind_some] at h
    rw [Option.map_some, Option.bind_some, annotate_of_not_object h, ite_self]
    exact h

theorem hasPlainModule_annotateNode {module : Option String} {node : Members}
    (h : hasPlainModule node = true) : hasPlainModule (annotateNode module node) = true := by
  rw [hasPlainModule_iff]
  cases module with
  | none => exact asObject?_annotateMembers h
  | some name => rw [annotateNode, withModule, Members.get?_insert, if_pos rfl]; rfl

section

variable (module : Option String) (node : Members)

theorem ownDetails_annotateNode : ownDetails (annotateNode module node) = ownDetails node := by
  rw [ownDetails, get?_annotateNode_reserved rfl, ownDetails]

theorem hasDefaultResponse_annotateNode :
    hasDefaultResponse (annotateNode module node) = hasDefaultResponse node := by
  rw [hasDefaultResponse, get?_annotateNode_reserved rfl, hasDefaultResponse]

theorem hasResponses_annotateNode :
    hasResponses (annotateNode module node) = hasResponses node := by
  simp only [hasResponses, responseKeys, List.any_cons, List.any_nil, Members.contains,
    Members.contains_keys]
  rw [get?_annotateNode_reserved rfl, get?_annotateNode_reserved rfl,
    get?_annotateNode_reserved rfl]

theorem canned_annotateNode : Canned.ofNode (annotateNode module node) = Canned.ofNode node := by
  rw [Canned.ofNode, get?_annotateNode_reserved rfl, get?_annotateNode_reserved rfl,
    get?_annotateNode_reserved rfl, Canned.ofNode]

end

/-- An annotated node names the module in effect. -/
theorem ownModule_annotateNode {node : Members} {inherited : Option String}
    (h : IsNamed inherited) :
    ownModule (annotateNode (effectiveModule node inherited) node) =
      effectiveModule node inherited := by
  cases hmodule : effectiveModule node inherited with
  | some name =>
    refine ownModule_eq_some.mpr ⟨?_, isNamed_effectiveModule node h name hmodule⟩
    exact (Members.get?_insert ..).trans (if_pos rfl)
  | none =>
    have hown : ownModule node = none := (Option.or_eq_none_iff.mp hmodule).1
    have hget : ((annotateNode none node).get? moduleKey).bind Json.asString? =
        (node.get? moduleKey).bind Json.asString? := by
      rw [annotateNode, withModule, get?_annotateMembers, Option.bind_map]
      simp only [Function.comp_def, show isReserved moduleKey = false by decide,
        asString?_annotate, Bool.false_eq_true, if_false]
    rw [ownModule, hget, ← hown, ownModule]

theorem effectiveModule_annotateNode {node : Members} {inherited : Option String}
    (h : IsNamed inherited) :
    effectiveModule (annotateNode (effectiveModule node inherited) node) inherited =
      effectiveModule node inherited := by
  rw [effectiveModule, ownModule_annotateNode h]
  cases hmodule : effectiveModule node inherited with
  | some name => rfl
  | none => exact (Option.or_eq_none_iff.mp hmodule).2

theorem keys_annotateMembers (module : Option String) (members : Members) :
    Members.keys (annotateMembers module members) = members.keys := by
  induction members with
  | nil => rfl
  | cons member rest ih =>
    obtain ⟨key, value⟩ := member
    rw [annotateMembers]
    exact congrArg (key :: ·) ih

theorem keys_prefix_annotateNode (module : Option String) (node : Members) :
    node.keys <+: (annotateNode module node).keys := by
  rw [annotateNode]
  cases module with
  | none => exact (keys_annotateMembers none node).symm ▸ List.prefix_rfl
  | some name =>
    rw [withModule, Members.keys_insert, keys_annotateMembers]
    split
    · exact List.prefix_rfl
    · exact List.prefix_append _ _

end Definition

open Definition

/-! ### What annotating means -/

/-- A node differs from the node at some keys only in that it names the module in effect there, if
there is one. -/
structure Definition.IsNodeAnnotation (root : Members) (keys : List String) (node node' : Members) :
    Prop where
  names : ∀ name, Names node' name ↔ HasModule root keys name
  /-- The module comes last, if the node had none. -/
  order : node.keys <+: node'.keys
  /-- What is neither a module nor a node stays as it is. -/
  others : ∀ key, key ≠ "asyncModule" ∨ (∀ name, ¬ HasModule root keys name) →
    node'.get? key = node.get? key ∨ key ∉ reservedKeys ∧
      ∃ child child', node.get? key = some (.object child) ∧ node'.get? key = some (.object child')

/-- A root differs from another one only in that every node names the module in effect there. -/
structure Definition.IsAnnotation (root root' : Members) : Prop where
  /-- The same keys lead to nodes. -/
  nodes : ∀ keys, (∀ key ∈ keys, key ∉ reservedKeys) →
    ((∃ node', objectAt? root' keys = some node') ↔ ∃ node, objectAt? root keys = some node)
  node : ∀ keys node node', (∀ key ∈ keys, key ∉ reservedKeys) →
    objectAt? root keys = some node → objectAt? root' keys = some node' →
    IsNodeAnnotation root keys node node'

/-- The keys of some surroundings lead to a node, and in another root to the annotated node. -/
structure AnnotatedAt (root root' : Members) (s : Surroundings) (node : Members) : Prop where
  around : s.Around root node
  annotated : objectAt? root' s.keys = some (annotateNode s.module node)
  effective : ∃ inherited, IsNamed inherited ∧ effectiveModule node inherited = s.module
  plain : everyNode hasPlainModule (.object node) = true

namespace AnnotatedAt

variable {root root' node : Members} {s : Surroundings}

theorem ofRoot (h : everyNode hasPlainModule (.object root) = true) :
    AnnotatedAt root (annotateNode (effectiveModule root none) root) (.ofRoot root) root where
  around := .ofRoot root
  annotated := by
    rw [effectiveModule, Option.or_none]
    rfl
  effective := ⟨none, isNamed_none, Option.or_none ..⟩
  plain := h

variable (h : AnnotatedAt root root' s node)
include h

theorem named : IsNamed s.module := by
  obtain ⟨inherited, hinherited, hmodule⟩ := h.effective
  exact hmodule ▸ isNamed_effectiveModule node hinherited

theorem hasPlainModule : hasPlainModule node = true := (Bool.and_eq_true_iff.mp h.plain).1

/-- A key leads from a node to an annotated one, or to none in both roots. -/
theorem child {key : String} (hkey : key ∉ reservedKeys) :
    (∃ child, AnnotatedAt root root' (s.enter key child) child) ∨
      objectAt? root (s.keys ++ [key]) = none ∧ objectAt? root' (s.keys ++ [key]) = none := by
  have hreserved : isReserved key = false :=
    Bool.eq_false_iff.mpr fun hreserved => hkey (isReserved_iff.mp hreserved)
  have hget' : objectAt? root' (s.keys ++ [key]) =
      ((annotateNode s.module node).get? key).bind Json.asObject? := by
    rw [objectAt?_concat, h.annotated, Option.bind_some]
  by_cases hmodule : key = moduleKey
  · rw [h.around.objectAt?_child, hget', hmodule]
    exact .inr ⟨hasPlainModule_iff.mp h.hasPlainModule,
      hasPlainModule_iff.mp (hasPlainModule_annotateNode h.hasPlainModule)⟩
  · rw [get?_annotateNode hmodule] at hget'
    cases hvalue : node.get? key with
    | none => exact .inr ⟨by rw [h.around.objectAt?_child, hvalue]; rfl, by rw [hget', hvalue]; rfl⟩
    | some value =>
      have hget : objectAt? root (s.keys ++ [key]) = value.asObject? := by
        rw [h.around.objectAt?_child, hvalue]
        rfl
      rw [hvalue, Option.map_some, Option.bind_some, hreserved, if_neg Bool.false_ne_true] at hget'
      cases value with
      | object child =>
        refine .inl ⟨child, h.around.enter hget, ?_, ⟨s.module, h.named, rfl⟩,
          everyNode_child (Bool.and_eq_true_iff.mp h.plain).2 hreserved hvalue⟩
        exact hget'.trans (congrArg Json.asObject? (annotate_object s.module child))
      | _ => exact .inr ⟨hget, hget'⟩

theorem isNodeAnnotation : IsNodeAnnotation root s.keys node (annotateNode s.module node) where
  names name := by
    obtain ⟨inherited, hinherited, hmodule⟩ := h.effective
    rw [← ownModule_eq_some, ← hmodule, ownModule_annotateNode hinherited, hmodule,
      h.around.module]
  order := keys_prefix_annotateNode ..
  others key hkey := by
    have hget : (annotateNode s.module node).get? key = (node.get? key).map fun value =>
        if isReserved key then value else annotate s.module value := by
      rcases hkey with hkey | hnone
      · exact get?_annotateNode hkey
      · have hmodule : s.module = none :=
          Option.eq_none_iff_forall_ne_some.mpr fun name hname =>
            hnone name ((h.around.module name).mp hname)
        rw [hmodule, annotateNode, withModule, get?_annotateMembers]
    rw [hget]
    by_cases hreserved : isReserved key = true
    · simp [hreserved]
    · cases hvalue : node.get? key with
      | none => exact .inl rfl
      | some value =>
        rw [Option.map_some, if_neg hreserved]
        cases value with
        | object child =>
          exact .inr ⟨fun hmem => hreserved (isReserved_iff.mpr hmem), child, _, rfl,
            congrArg some (annotate_object s.module child)⟩
        | _ => exact .inl rfl

end AnnotatedAt

namespace Definition

/-- Keys lead to nodes in a root and in the annotated one, or in neither. -/
theorem annotatedAt_or_none {root : Members}
    (h : everyNode hasPlainModule (.object root) = true) (keys : List String)
    (hkeys : ∀ key ∈ keys, key ∉ reservedKeys) :
    (∃ s node, s.keys = keys ∧
      AnnotatedAt root (annotateNode (effectiveModule root none) root) s node) ∨
    objectAt? root keys = none ∧
      objectAt? (annotateNode (effectiveModule root none) root) keys = none := by
  induction keys using List.reverseRecOn with
  | nil => exact .inl ⟨_, root, rfl, .ofRoot h⟩
  | append_singleton keys key ih =>
    rw [List.forall_mem_append] at hkeys
    rcases ih hkeys.1 with ⟨s, node, rfl, hnode⟩ | ⟨hnone, hnone'⟩
    · rcases hnode.child (hkeys.2 key (List.mem_singleton_self key)) with ⟨child, hchild⟩ | hnone
      · exact .inl ⟨_, child, rfl, hchild⟩
      · exact .inr hnone
    · exact .inr ⟨by rw [objectAt?_concat, hnone]; rfl, by rw [objectAt?_concat, hnone']; rfl⟩

theorem isAnnotation_annotateNode {root : Members}
    (h : everyNode hasPlainModule (.object root) = true) :
    IsAnnotation root (annotateNode (effectiveModule root none) root) where
  nodes keys hkeys := by
    rcases annotatedAt_or_none h keys hkeys with ⟨s, node, rfl, hnode⟩ | ⟨hnone, hnone'⟩
    · exact ⟨fun _ => ⟨node, hnode.around.object⟩, fun _ => ⟨_, hnode.annotated⟩⟩
    · rw [hnone, hnone']
  node keys node node' hkeys hnode hnode' := by
    rcases annotatedAt_or_none h keys hkeys with ⟨s, _, rfl, hat⟩ | ⟨hnone, -⟩
    · obtain rfl := Option.some.inj (hat.around.object.symm.trans hnode)
      obtain rfl := Option.some.inj (hat.annotated.symm.trans hnode')
      exact hat.isNodeAnnotation
    · cases hnone.symm.trans hnode

/-- The annotated definition is what its name says. -/
theorem annotated_isAnnotation {root : Members} (h : HasPlainModules (.object root)) :
    ∃ root', annotated (.object root) = .object root' ∧ IsAnnotation root root' :=
  ⟨_, annotate_object none root, isAnnotation_annotateNode h⟩

end Definition

/-! ### The plan of an annotated definition -/

/-- The leaf of the annotated node. -/
def Leaf.annotated (leaf : Leaf) : Leaf :=
  { leaf with node := annotateNode leaf.module leaf.node }

namespace Surroundings

variable {s : Surroundings}

theorem ofRoot_annotate (root : Members) :
    ofRoot (annotateNode (effectiveModule root none) root) = ofRoot root := by
  have hmodule : ownModule (annotateNode (effectiveModule root none) root) = ownModule root :=
    (ownModule_annotateNode isNamed_none).trans (Option.or_none ..)
  rw [ofRoot, hmodule, ownDetails_annotateNode, ofRoot]

theorem enter_annotate (hs : IsNamed s.module) (key : String) (child : Members) :
    s.enter key (annotateNode (effectiveModule child s.module) child) = s.enter key child := by
  rw [enter, effectiveModule_annotateNode hs, ownDetails_annotateNode, enter]

theorem leaf_annotate (hs : IsNamed s.module) (key : String) (child : Members) :
    s.leaf key (annotateNode (effectiveModule child s.module) child) =
      (s.leaf key child).annotated := by
  rw [leaf, effectiveModule_annotateNode hs, hasResponses_annotateNode, leaf, Leaf.annotated]

end Surroundings

theorem Definition.isLeaf_annotate {inherited : Option String} (h : IsNamed inherited)
    (child : Members) :
    isLeaf (annotateNode (effectiveModule child inherited) child)
        (effectiveModule (annotateNode (effectiveModule child inherited) child) inherited) =
      isLeaf child (effectiveModule child inherited) := by
  rw [isLeaf, effectiveModule_annotateNode h, ownDetails_annotateNode,
    hasDefaultResponse_annotateNode, isLeaf]

namespace Node

/-- The plan of an annotated value under a key. -/
def planAnnotated (s : Surroundings) (key : String) (value : Json) : Node Leaf :=
  planValue s key (if isReserved key then value else annotate s.module value)

/-- A child is a leaf or a group in the plan whether it is annotated or not, and a group hands down
the same. -/
theorem planAnnotated_cases {s : Surroundings} (hs : IsNamed s.module) (key : String)
    (value : Json) :
    (∃ child, planValue s key value = .operation (s.leaf key child) ∧
      planAnnotated s key value = .operation (s.leaf key child).annotated) ∨
    (∃ child, value = .object child ∧ isReserved key = false ∧
      planValue s key value = .group (ownModule child) (planMembers (s.enter key child) child) ∧
      planAnnotated s key value = .group (s.enter key child).module
        (planMembers (s.enter key child) (annotateNode (s.enter key child).module child))) ∨
    ∃ v, planValue s key value = .value value ∧ planAnnotated s key value = .value v := by
  cases hkey : isReserved key with
  | true =>
    refine .inr (.inr ⟨value, ?_⟩)
    rw [planAnnotated, hkey, if_pos rfl]
    cases value <;> simp [planValue, hkey]
  | false =>
    rw [planAnnotated, hkey, if_neg Bool.false_ne_true]
    cases value with
    | object child =>
      rw [annotate_object, planValue, planValue, hkey, if_neg Bool.false_ne_true,
        if_neg Bool.false_ne_true, isLeaf_annotate hs, Surroundings.leaf_annotate hs,
        Surroundings.enter_annotate hs, ownModule_annotateNode hs]
      split
      · exact .inl ⟨child, rfl, rfl⟩
      · exact .inr (.inl ⟨child, rfl, rfl, rfl, rfl⟩)
    | _ => exact .inr (.inr ⟨_, rfl, rfl⟩)

/-- Writing a module into a node without an object there adds no operation and removes none. -/
theorem operationsOf_insert (s : Surroundings) {members : Members} {key : String} (name : String)
    (h : (members.get? key).bind Json.asObject? = none) :
    operationsOf (planMembers s (members.insert key (.string name))) =
      operationsOf (planMembers s members) := by
  induction members with
  | nil => rfl
  | cons member rest ih =>
    obtain ⟨first, value⟩ := member
    rw [Members.get?] at h
    rw [Members.insert]
    split
    · next hfirst =>
      rw [if_pos hfirst, Option.bind_some] at h
      have hvalue : planValue s first value = .value value := by
        rcases planValue_cases s first value with ⟨_, rfl, -⟩ | ⟨_, rfl, -⟩ | ⟨-, hvalue⟩
        · cases h
        · cases h
        · exact hvalue
      rw [planMembers, planMembers, operationsOf, operationsOf, hvalue]
      rfl
    · next hfirst =>
      rw [if_neg hfirst] at h
      rw [planMembers, planMembers, operationsOf, operationsOf, ih h]

theorem operationsOf_annotateNode (s : Surroundings) {module : Option String} {node : Members}
    (h : hasPlainModule node = true) :
    operationsOf (planMembers s (annotateNode module node)) =
      operationsOf (planMembers s (annotateMembers module node)) := by
  cases module with
  | none => rfl
  | some name => exact operationsOf_insert s name (asObject?_annotateMembers h)

mutual

/-- The leaves of an annotated plan are those of the plan, annotated, in the same order. -/
theorem operations_planAnnotated (s : Surroundings) (hs : IsNamed s.module) (key : String) :
    (value : Json) → (isReserved key || everyNode hasPlainModule value) = true →
      (planAnnotated s key value).operations =
        (planValue s key value).operations.map Leaf.annotated
  | .object node, h => by
    rcases planAnnotated_cases hs key (.object node) with ⟨child, hplan, hannotated⟩ |
      ⟨child, heq, hkey, hplan, hannotated⟩ | ⟨v, hplan, hannotated⟩
    · rw [hplan, hannotated]
      rfl
    · obtain rfl := Json.object.inj heq
      rw [hkey, Bool.false_or, everyNode, Bool.and_eq_true] at h
      rw [hplan, hannotated, operations, operations, operationsOf_annotateNode _ h.1]
      exact operationsOf_annotateMembers (s.enter key node) (isNamed_effectiveModule node hs) node
        h.2
    · rw [hplan, hannotated]
      rfl
  | .null, _ | .bool _, _ | .number _, _ | .string _, _ | .array _, _ => by
    rw [planAnnotated, annotate_of_not_object rfl, ite_self]
    rfl

theorem operationsOf_annotateMembers (s : Surroundings) (hs : IsNamed s.module) :
    (members : List (String × Json)) → everyChild hasPlainModule members = true →
      operationsOf (planMembers s (annotateMembers s.module members)) =
        (operationsOf (planMembers s members)).map Leaf.annotated
  | [], _ => rfl
  | (key, v) :: rest, h => by
    rw [everyChild, Bool.and_eq_true] at h
    have hfirst := operations_planAnnotated s hs key v h.1
    rw [planAnnotated] at hfirst
    rw [annotateMembers, planMembers, planMembers, operationsOf, operationsOf, List.map_append,
      hfirst, operationsOf_annotateMembers s hs rest h.2]

end

/-- The operations of the plan of an annotated definition. -/
theorem operations_plan_annotated {definition : Json} (h : HasPlainModules definition) :
    (plan (Definition.annotated definition)).operations =
      (plan definition).operations.map Leaf.annotated := by
  cases definition with
  | object root =>
    rw [HasPlainModules, everyNode, Bool.and_eq_true] at h
    rw [Definition.annotated, annotate_object, plan, plan, Surroundings.ofRoot_annotate,
      operations, operations, operationsOf_annotateNode _ h.1]
    have hmodule : effectiveModule root none = (Surroundings.ofRoot root).module :=
      Option.or_none ..
    rw [hmodule]
    exact operationsOf_annotateMembers (.ofRoot root)
      (hmodule ▸ isNamed_effectiveModule root isNamed_none) root h.2
  | _ => rfl

/-- The operation that keys lead to. -/
def operationBy? {α : Type} (node : Node α) (keys : List String) : Option α :=
  (node.follow? keys).bind operation?

theorem operationBy?_cons {α : Type} (node : Node α) (key : String) (keys : List String) :
    node.operationBy? (key :: keys) =
      (node.child? key).bind fun child => child.operationBy? keys := by
  rw [operationBy?, follow?_cons, Option.bind_assoc]
  rfl

theorem operationBy?_map {α β : Type} (f : α → β) (node : Node α) (keys : List String) :
    (node.map f).operationBy? keys = (node.operationBy? keys).map f := by
  rw [operationBy?, follow?_map, operationBy?]
  cases node.follow? keys with
  | none => rfl
  | some found => cases found <;> rfl

/-- No operation stands below a value. -/
theorem operationBy?_value {α : Type} (v : Json) (keys : List String) :
    (value v : Node α).operationBy? keys = none := by
  cases keys <;> rfl

theorem operationBy?_operation {α : Type} (content : α) (keys : List String) :
    (operation content).operationBy? keys = if keys.isEmpty then some content else none := by
  cases keys <;> rfl

/-- Nothing stands under the key of a module that is no object. -/
theorem operationBy?_moduleKey {s : Surroundings} {m : Option String} {node : Members}
    (h : hasPlainModule node = true) (keys : List String) :
    (group m (planMembers s node)).operationBy? (moduleKey :: keys) = none := by
  rw [operationBy?_cons]
  change ((planMembers s node).lookup moduleKey).bind _ = none
  rw [lookup_planMembers, Option.bind_map, Option.bind_eq_none_iff]
  intro v hv
  rw [hasPlainModule_iff, hv, Option.bind_some] at h
  rcases planValue_cases s moduleKey v with ⟨_, rfl, -⟩ | ⟨_, rfl, -⟩ | ⟨-, hvalue⟩
  · cases h
  · cases h
  · exact (congrArg (·.operationBy? keys) hvalue).trans (operationBy?_value v keys)

/-- Keys lead to the same leaf in a plan and in the annotated one, apart from the annotation. -/
theorem operationBy?_annotateNode (keys : List String) (s : Surroundings) (hs : IsNamed s.module)
    (node : Members) (h : everyNode hasPlainModule (.object node) = true) (m m' : Option String) :
    (group m' (planMembers s (annotateNode s.module node))).operationBy? keys =
      ((group m (planMembers s node)).operationBy? keys).map Leaf.annotated := by
  induction keys generalizing s node m m' with
  | nil => rfl
  | cons key keys ih =>
    rw [everyNode, Bool.and_eq_true] at h
    by_cases hkey : key = moduleKey
    · rw [hkey, operationBy?_moduleKey (hasPlainModule_annotateNode h.1),
        operationBy?_moduleKey h.1]
      rfl
    · rw [operationBy?_cons, operationBy?_cons]
      change ((planMembers s (annotateNode s.module node)).lookup key).bind _ =
        (((planMembers s node).lookup key).bind _).map _
      rw [lookup_planMembers, lookup_planMembers, get?_annotateNode hkey]
      cases hvalue : node.get? key with
      | none => rfl
      | some v =>
        change (planAnnotated s key v).operationBy? keys =
          ((planValue s key v).operationBy? keys).map _
        rcases planAnnotated_cases hs key v with ⟨child, hplan, hannotated⟩ |
          ⟨child, rfl, hreserved, hplan, hannotated⟩ | ⟨v', hplan, hannotated⟩
        · rw [hplan, hannotated, operationBy?_operation, operationBy?_operation]
          split <;> rfl
        · rw [hplan, hannotated]
          exact ih (s.enter key child) (isNamed_effectiveModule child hs) child
            (everyNode_child h.2 hreserved hvalue) _ _
        · rw [hplan, hannotated, operationBy?_value, operationBy?_value]
          rfl

theorem operationBy?_plan_annotated {definition : Json} (h : HasPlainModules definition)
    (keys : List String) : (plan (Definition.annotated definition)).operationBy? keys =
      ((plan definition).operationBy? keys).map Leaf.annotated := by
  cases definition with
  | object root =>
    have hmodule : effectiveModule root none = (Surroundings.ofRoot root).module :=
      Option.or_none ..
    rw [Definition.annotated, annotate_object, plan, plan, Surroundings.ofRoot_annotate, hmodule]
    exact operationBy?_annotateNode keys (.ofRoot root)
      (hmodule ▸ isNamed_effectiveModule root isNamed_none) root h _ _
  | _ => cases keys <;> rfl

end Node

namespace Operation

variable {settings : Settings} {catalog : Catalog} {tree : Nat}

theorem httpCanned_annotateNode (context : Context) (module : Option String) (node : Members) :
    Transport.httpCanned context (annotateNode module node) =
      Transport.httpCanned context node := by
  rw [Transport.httpCanned, ownDetails_annotateNode, canned_annotateNode, Transport.httpCanned]

/-- The function of a canned operation does not depend on the annotation of its node. -/
theorem cannedCall_annotateNode (hcatalog : catalog.CansByHttpOnly) (context : Context)
    (name module : Option String) (node : Members) :
    cannedCall context (name.bind catalog.find?) (annotateNode module node) =
      cannedCall context (name.bind catalog.find?) node := by
  rw [cannedCall, cannedCall, canned_annotateNode]
  congr 1
  cases htransport : name.bind catalog.find? with
  | none => rfl
  | some transport =>
    obtain ⟨key, -, hfind⟩ := Option.bind_eq_some_iff.mp htransport
    rcases hcatalog key transport hfind with ⟨options, rfl⟩ | hnone
    · exact congrArg some (httpCanned_annotateNode context module node)
    · rw [Option.bind_some, Option.bind_some, hnone, hnone]

/-- The operation of an annotated leaf is that of the leaf. -/
theorem ofLeaf_annotated (hcatalog : catalog.CansByHttpOnly) {plan : Node Leaf} {leaf : Leaf}
    (h : leaf ∈ plan.operations) :
    ofLeaf settings (Loaded.ofNames catalog (Compiled.modules plan)) tree leaf.annotated =
      ofLeaf settings (Loaded.ofNames catalog (Compiled.modules plan)) tree leaf := by
  rw [ofLeaf, ofLeaf]
  simp only [Leaf.annotated, Compiled.transport?_leaf h, actionOf, transportCall?,
    ownDetails_annotateNode, cannedCall_annotateNode hcatalog]

end Operation

namespace Compiled

variable {catalog : Catalog}

/-- Two compiled trees offer the same operations, in the same order and by the same paths, and have
loaded the same transports. -/
structure Offers (c c' : Compiled) : Prop where
  operations : c'.root.operations = c.root.operations
  operationAt? : ∀ path, c'.root.operationAt? path = c.root.operationAt? path
  loaded : c'.loaded = c.loaded

theorem Offers.refl (c : Compiled) : c.Offers c := ⟨rfl, fun _ => rfl, rfl⟩

/-- A definition and the annotated one compile to trees that offer the same operations. -/
theorem ofDefinition_annotated (hcatalog : catalog.CansByHttpOnly) (settings : Settings)
    (tree : Nat) {definition : Json} (h : HasPlainModules definition) :
    (ofDefinition catalog settings tree definition).Offers
      (ofDefinition catalog settings tree (Definition.annotated definition)) := by
  have hoperations := Node.operations_plan_annotated h
  have hmodules : modules (Node.plan (Definition.annotated definition)) =
      modules (Node.plan definition) := by
    rw [modules, hoperations, List.filterMap_map, modules]
    rfl
  refine ⟨?_, fun path => ?_, congrArg (Loaded.ofNames catalog) hmodules⟩
  · simp only [ofDefinition, Node.operations_map, hmodules, hoperations, List.map_map]
    exact List.map_congr_left fun leaf hleaf => Operation.ofLeaf_annotated hcatalog hleaf
  · change Node.operationBy? _ (Path.split path) = Node.operationBy? _ (Path.split path)
    simp only [ofDefinition, Node.operationBy?_map, hmodules, Node.operationBy?_plan_annotated h,
      Option.map_map]
    cases hleaf : (Node.plan definition).operationBy? (Path.split path) with
    | none => rfl
    | some leaf =>
      exact congrArg some (Operation.ofLeaf_annotated hcatalog (Node.operationAt?_mem hleaf))

end Compiled
end OperationTree
