import Mathlib.Data.List.Induction
import OperationTree.Proofs.Catalog
import OperationTree.Proofs.Tree.Operations
import OperationTree.Proofs.Tree.Path

/-! What a definition means, said without compiling it.  `objectAt?` follows keys through a
definition, `HasModule` says which module is in effect there, and `IsOperationAt` says where an
operation stands.  `Compiled.operation_iff` says that the compiled tree has its operations there and
nowhere else, each as `Describes` says, and that its groups keep the keys of their objects. -/

namespace OperationTree
namespace Definition

/-- The object that keys lead to, through objects only. -/
def objectAt? (root : Members) (keys : List String) : Option Members :=
  keys.foldlM (fun node key => (node.get? key).bind Json.asObject?) root

/-- A node names a module by a string that is not empty. -/
def Names (node : Members) (name : String) : Prop :=
  node.get? "asyncModule" = some (.string name) ∧ name ≠ ""

/-- The module in effect at keys is named by the deepest node on the way that names one. -/
def HasModule (root : Members) (keys : List String) (name : String) : Prop :=
  ∃ above, above <+: keys ∧ (∃ node, objectAt? root above = some node ∧ Names node name) ∧
    ∀ below, below <+: keys → above.length < below.length →
      ∀ node, objectAt? root below = some node → ∀ other, ¬ Names node other

def HasDetails (node : Members) (details : Json) : Prop :=
  node.get? "operationDetails" = some details ∧ details ≠ .null

/-- A leaf has a module and details, or a truthy default response. -/
def IsLeafAt (root : Members) (keys : List String) : Prop :=
  ∃ node, objectAt? root keys = some node ∧
    ((∃ name, HasModule root keys name) ∧ (∃ details, HasDetails node details) ∨
      ∃ response, node.get? "mockResponse" = some response ∧ response.truthy = true)

/-- The keys under which no node stands. -/
def reservedKeys : List String :=
  ["operationDetails", "mockResponse", "smartMockResponse", "superMockResponse"]

/-- An operation stands at a leaf that is reached without passing another one. -/
structure IsOperationAt (root : Members) (keys : List String) : Prop where
  unreserved : ∀ key ∈ keys, key ∉ reservedKeys
  leaf : IsLeafAt root keys
  inner : ∀ above, above <+: keys → above ≠ [] → above ≠ keys → ¬ IsLeafAt root above

/-- A group stands at an object that is reached without passing or meeting a leaf. -/
structure IsGroupAt (root : Members) (keys : List String) (node : Members) : Prop where
  object : objectAt? root keys = some node
  unreserved : ∀ key ∈ keys, key ∉ reservedKeys
  inner : ∀ above, above <+: keys → above ≠ [] → ¬ IsLeafAt root above

/-! ### What a node says of itself -/

theorem isReserved_iff {key : String} : isReserved key = true ↔ key ∈ reservedKeys := by
  simp [isReserved, reservedKeys, responseKeys, detailsKey, defaultResponseKey, urlResponsesKey,
    signatureResponsesKey]

theorem ownModule_eq_some {node : Members} {name : String} :
    ownModule node = some name ↔ Names node name := by
  rw [ownModule, Option.filter_eq_some_iff, Option.bind_eq_some_iff, Names, moduleKey]
  refine and_congr ⟨?_, fun h => ⟨_, h, rfl⟩⟩ (by simp)
  rintro ⟨value, hvalue, hname⟩
  cases value with
  | string s => rw [hvalue, ← Option.some.inj hname]
  | _ => cases hname

theorem ownDetails_eq_some {node : Members} {details : Json} :
    ownDetails node = some details ↔ HasDetails node details := by
  rw [ownDetails, Option.filter_eq_some_iff, HasDetails, detailsKey]
  refine and_congr_right fun _ => ?_
  cases details <;> simp [Json.isNull]

theorem hasDefaultResponse_iff {node : Members} :
    hasDefaultResponse node = true ↔
      ∃ response, node.get? "mockResponse" = some response ∧ response.truthy = true := by
  rw [hasDefaultResponse, defaultResponseKey]
  cases node.get? "mockResponse" <;> simp

theorem hasResponses_iff {node : Members} :
    hasResponses node = true ↔
      ∃ key ∈ ["mockResponse", "smartMockResponse", "superMockResponse"], key ∈ node.keys := by
  simp [hasResponses, responseKeys, defaultResponseKey, urlResponsesKey, signatureResponsesKey,
    Members.contains]

/-! ### Following keys -/

theorem objectAt?_concat (root : Members) (keys : List String) (key : String) :
    objectAt? root (keys ++ [key]) =
      (objectAt? root keys).bind fun node => (node.get? key).bind Json.asObject? := by
  simp [objectAt?, List.foldlM_append]

theorem hasModule_root {root : Members} {name : String} :
    HasModule root [] name ↔ Names root name := by
  constructor
  · rintro ⟨above, habove, ⟨node, hnode, hname⟩, -⟩
    obtain rfl := List.prefix_nil.mp habove
    obtain rfl : root = node := by simpa [objectAt?] using hnode
    exact hname
  · refine fun h => ⟨[], List.prefix_rfl, ⟨root, rfl, h⟩, fun below hbelow hlt => ?_⟩
    obtain rfl := List.prefix_nil.mp hbelow
    cases hlt

/-- The module below a node is the one it names itself, or else the one in effect above. -/
theorem hasModule_concat {root : Members} {keys : List String} {key : String} {node : Members}
    (hnode : objectAt? root (keys ++ [key]) = some node) {name : String} :
    HasModule root (keys ++ [key]) name ↔
      Names node name ∨ (∀ other, ¬ Names node other) ∧ HasModule root keys name := by
  constructor
  · rintro ⟨above, habove, hnames, hdeepest⟩
    rcases List.prefix_concat_iff.mp habove with rfl | hprefix
    · obtain ⟨node', hnode', hname⟩ := hnames
      obtain rfl := Option.some.inj (hnode.symm.trans hnode')
      exact .inl hname
    · have hlen := hprefix.length_le
      refine .inr ⟨hdeepest _ List.prefix_rfl (by simp; omega) node hnode, above, hprefix, hnames,
        fun below hbelow => hdeepest below (hbelow.trans (List.prefix_append _ _))⟩
  · rintro (hname | ⟨hnone, above, habove, hnames, hdeepest⟩)
    · refine ⟨keys ++ [key], List.prefix_rfl, ⟨node, hnode, hname⟩, fun below hbelow hlt => ?_⟩
      have := hbelow.length_le
      omega
    · refine ⟨above, habove.trans (List.prefix_append _ _), hnames, fun below hbelow hlt => ?_⟩
      rcases List.prefix_concat_iff.mp hbelow with rfl | hprefix
      · intro node' hnode'
        obtain rfl := Option.some.inj (hnode.symm.trans hnode')
        exact hnone
      · exact hdeepest below hprefix hlt

end Definition

open Definition

namespace Surroundings

/-- Surroundings are those of the children of the node at their keys. -/
structure Around (s : Surroundings) (root node : Members) : Prop where
  object : objectAt? root s.keys = some node
  module : ∀ name, s.module = some name ↔ HasModule root s.keys name
  details : ∀ details, s.details = some details ↔ HasDetails node details
  path : s.path = Path.ofKeys s.keys

namespace Around

theorem ofRoot (root : Members) : (Surroundings.ofRoot root).Around root root where
  object := rfl
  module _ := ownModule_eq_some.trans hasModule_root.symm
  details _ := ownDetails_eq_some
  path := rfl

variable {s : Surroundings} {root node child : Members} {key : String} (h : s.Around root node)
include h

theorem objectAt?_child (key : String) :
    objectAt? root (s.keys ++ [key]) = (node.get? key).bind Json.asObject? := by
  rw [objectAt?_concat, h.object]
  rfl

theorem path_child (key : String) : Path.join s.path key = Path.ofKeys (s.keys ++ [key]) := by
  rw [Path.ofKeys_concat, h.path]

variable (hchild : objectAt? root (s.keys ++ [key]) = some child)
include hchild

theorem effectiveModule_child (name : String) :
    effectiveModule child s.module = some name ↔ HasModule root (s.keys ++ [key]) name := by
  rw [effectiveModule, Option.or_eq_some_iff, ownModule_eq_some, h.module,
    Option.eq_none_iff_forall_ne_some, hasModule_concat hchild]
  simp only [ne_eq, ownModule_eq_some]

theorem enter : (s.enter key child).Around root child where
  object := hchild
  module := h.effectiveModule_child hchild
  details _ := ownDetails_eq_some
  path := h.path_child key

theorem isLeaf_child :
    isLeaf child (effectiveModule child s.module) = true ↔ IsLeafAt root (s.keys ++ [key]) := by
  have hmodule : (effectiveModule child s.module).isSome = true ↔
      ∃ name, HasModule root (s.keys ++ [key]) name := by
    simp only [Option.isSome_iff_exists, h.effectiveModule_child hchild]
  have hdetails : (ownDetails child).isSome = true ↔ ∃ details, HasDetails child details := by
    simp only [Option.isSome_iff_exists, ownDetails_eq_some]
  rw [isLeaf, Bool.or_eq_true, Bool.and_eq_true, hmodule, hdetails, hasDefaultResponse_iff]
  refine ⟨fun hleaf => ⟨child, hchild, hleaf⟩, ?_⟩
  rintro ⟨child', hchild', hleaf⟩
  obtain rfl := Option.some.inj (hchild.symm.trans hchild')
  exact hleaf

end Around
end Surroundings

/-! ### The plan of a definition -/

namespace Node

theorem lookup_planMembers (s : Surroundings) (node : Members) (key : String) :
    (planMembers s node).lookup key = (node.get? key).map (planValue s key) := by
  induction node with
  | nil => rfl
  | cons member rest ih =>
    obtain ⟨name, value⟩ := member
    rw [planMembers, List.lookup_cons, Members.get?]
    by_cases h : name = key
    · subst h
      simp
    · simp [h, beq_false_of_ne (Ne.symm h), ih]

theorem keys_planMembers (s : Surroundings) (node : Members) :
    (planMembers s node).map Prod.fst = node.keys := by
  induction node with
  | nil => rfl
  | cons member rest ih =>
    obtain ⟨name, value⟩ := member
    rw [planMembers, List.map_cons, ih]
    rfl

theorem follow?_concat {α : Type} (node : Node α) (keys : List String) (key : String) :
    node.follow? (keys ++ [key]) = (node.follow? keys).bind fun found => found.child? key := by
  simp [follow?, List.foldlM_append]

/-- The plan of a value is an operation for a leaf, a group for any other child, and else the value
itself. -/
theorem planValue_cases (s : Surroundings) (key : String) (value : Json) :
    (∃ child, value = .object child ∧ key ∉ reservedKeys ∧
      isLeaf child (effectiveModule child s.module) = true ∧
      planValue s key value = .operation (s.leaf key child)) ∨
    (∃ child, value = .object child ∧ key ∉ reservedKeys ∧
      ¬ isLeaf child (effectiveModule child s.module) = true ∧
      planValue s key value = .group (ownModule child) (planMembers (s.enter key child) child)) ∨
    ((key ∈ reservedKeys ∨ value.asObject? = none) ∧ planValue s key value = .value value) := by
  cases value with
  | object child =>
    rw [planValue]
    by_cases hkey : key ∈ reservedKeys
    · exact .inr (.inr ⟨.inl hkey, if_pos (isReserved_iff.mpr hkey)⟩)
    · rw [if_neg (mt isReserved_iff.mp hkey)]
      by_cases hleaf : isLeaf child (effectiveModule child s.module) = true
      · exact .inl ⟨child, rfl, hkey, hleaf, if_pos hleaf⟩
      · exact .inr (.inl ⟨child, rfl, hkey, hleaf, if_neg hleaf⟩)
  | _ => exact .inr (.inr ⟨.inr rfl, rfl⟩)

/-- A node of the plan is the group of an object, planned in its surroundings. -/
structure IsGroupOf (root : Members) (keys : List String) (found : Node Leaf) (s : Surroundings)
    (node : Members) : Prop where
  keys_eq : s.keys = keys
  around : s.Around root node
  isGroup : IsGroupAt root keys node
  found_eq : found = .group (ownModule node) (planMembers s node)

namespace IsGroupOf

variable {root : Members} {keys : List String} {found : Node Leaf} {s : Surroundings}
  {node : Members} (h : IsGroupOf root keys found s node)
include h

theorem child? (key : String) : found.child? key = (node.get? key).map (planValue s key) := by
  rw [h.found_eq]
  exact lookup_planMembers s node key

theorem follow?_child (hfound : (plan (.object root)).follow? keys = some found) {key : String}
    {value : Json} (hvalue : node.get? key = some value) :
    (plan (.object root)).follow? (keys ++ [key]) = some (planValue s key value) := by
  rw [follow?_concat, hfound, Option.bind_some, h.child?, hvalue]
  rfl

theorem objectAt?_child (key : String) :
    objectAt? root (keys ++ [key]) = (node.get? key).bind Json.asObject? := by
  rw [← h.keys_eq, h.around.objectAt?_child]

theorem unreserved_child {key : String} (hkey : key ∉ reservedKeys) :
    ∀ k ∈ keys ++ [key], k ∉ reservedKeys := by
  intro k hk
  rcases List.mem_append.mp hk with hk | hk
  · exact h.isGroup.unreserved k hk
  · rwa [List.mem_singleton.mp hk]

/-- Below a group stand operations, groups, and the values that are neither. -/
theorem child_cases {key : String} {value : Json} (hvalue : node.get? key = some value) :
    (∃ child, objectAt? root (keys ++ [key]) = some child ∧ IsOperationAt root (keys ++ [key]) ∧
      planValue s key value = .operation (s.leaf key child)) ∨
    (∃ child, IsGroupOf root (keys ++ [key]) (planValue s key value) (s.enter key child) child) ∨
    ((key ∈ reservedKeys ∨ objectAt? root (keys ++ [key]) = none) ∧
      planValue s key value = .value value) := by
  have hobject := h.objectAt?_child key
  rw [hvalue, Option.bind_some] at hobject
  rcases planValue_cases s key value with ⟨child, rfl, hkey, hleaf, heq⟩ |
    ⟨child, rfl, hkey, hleaf, heq⟩ | ⟨hor, heq⟩
  · replace hobject : objectAt? root (s.keys ++ [key]) = some child := h.keys_eq ▸ hobject
    rw [h.around.isLeaf_child hobject, h.keys_eq] at hleaf
    refine .inl ⟨child, h.keys_eq ▸ hobject, ⟨h.unreserved_child hkey, hleaf, ?_⟩, heq⟩
    intro above habove hne hproper
    exact h.isGroup.inner above ((List.prefix_concat_iff.mp habove).resolve_left hproper) hne
  · replace hobject : objectAt? root (s.keys ++ [key]) = some child := h.keys_eq ▸ hobject
    rw [h.around.isLeaf_child hobject, h.keys_eq] at hleaf
    have hkeys : (s.enter key child).keys = keys ++ [key] := congrArg (· ++ [key]) h.keys_eq
    refine .inr (.inl ⟨child, hkeys, h.around.enter hobject, ?_, heq⟩)
    refine ⟨h.keys_eq ▸ hobject, h.unreserved_child hkey, fun above habove hne => ?_⟩
    rcases List.prefix_concat_iff.mp habove with rfl | hprefix
    · exact hleaf
    · exact h.isGroup.inner above hprefix hne
  · exact .inr (.inr ⟨hor.imp_right hobject.trans, heq⟩)

end IsGroupOf

section Follow

variable {root : Members} {keys : List String}

theorem isGroupOf_of_follow? {m : Option String} {entries : List (String × Node Leaf)}
    (h : (plan (.object root)).follow? keys = some (.group m entries)) :
    ∃ s node, IsGroupOf root keys (.group m entries) s node := by
  induction keys using List.reverseRecOn generalizing m entries with
  | nil =>
    have heq : plan (.object root) = .group m entries := by simpa [follow?] using h
    refine ⟨.ofRoot root, root, rfl, .ofRoot root, ⟨rfl, by simp, ?_⟩, heq.symm⟩
    intro above habove hne
    exact absurd (List.prefix_nil.mp habove) hne
  | append_singleton keys key ih =>
    rw [follow?_concat, Option.bind_eq_some_iff] at h
    obtain ⟨found, hfound, hchild⟩ := h
    cases found with
    | group m' entries' =>
      obtain ⟨s, node, hgroup⟩ := ih hfound
      rw [hgroup.child?, Option.map_eq_some_iff] at hchild
      obtain ⟨value, hvalue, heq⟩ := hchild
      rcases hgroup.child_cases hvalue with ⟨child, -, -, hop⟩ | ⟨child, hchild⟩ | ⟨-, hvalue⟩
      · cases heq.symm.trans hop
      · exact ⟨s.enter key child, child, heq ▸ hchild⟩
      · cases heq.symm.trans hvalue
    | operation | value => cases hchild

/-- Every object that is reached without passing or meeting a leaf is a group of the plan. -/
theorem follow?_of_isGroupAt {node : Members} (h : IsGroupAt root keys node) :
    ∃ found s, (plan (.object root)).follow? keys = some found ∧
      IsGroupOf root keys found s node := by
  induction keys using List.reverseRecOn generalizing node with
  | nil =>
    obtain rfl : root = node := by simpa [objectAt?] using h.object
    exact ⟨_, .ofRoot root, rfl, rfl, .ofRoot root, h, rfl⟩
  | append_singleton keys key ih =>
    have hobject := h.object
    rw [objectAt?_concat, Option.bind_eq_some_iff] at hobject
    obtain ⟨parent, hparent, hvalue⟩ := hobject
    obtain ⟨value, hvalue, -⟩ := Option.bind_eq_some_iff.mp hvalue
    obtain ⟨found, s, hfound, hgroup⟩ := ih ⟨hparent, fun k hk => h.unreserved k (by simp [hk]),
      fun above habove => h.inner above (habove.trans (List.prefix_append _ _))⟩
    have hfollow := hgroup.follow?_child hfound hvalue
    rcases hgroup.child_cases hvalue with ⟨_, -, hop, -⟩ | ⟨child, hchild⟩ | ⟨hnot, -⟩
    · exact absurd hop.leaf (h.inner _ List.prefix_rfl (by simp))
    · obtain rfl := Option.some.inj (hchild.isGroup.object.symm.trans h.object)
      exact ⟨_, _, hfollow, hchild⟩
    · rcases hnot with hkey | hnone
      · exact absurd hkey (h.unreserved key (by simp))
      · cases hnone.symm.trans h.object

/-- What stands below something in the plan is the plan of a value in a group. -/
theorem exists_group_above {above : List String} {key : String} {found : Node Leaf}
    (h : (plan (.object root)).follow? (above ++ [key]) = some found) :
    ∃ parent s node value, IsGroupOf root above parent s node ∧ node.get? key = some value ∧
      planValue s key value = found := by
  rw [follow?_concat, Option.bind_eq_some_iff] at h
  obtain ⟨parent, hparent, hchild⟩ := h
  cases parent with
  | group m entries =>
    obtain ⟨s, node, hgroup⟩ := isGroupOf_of_follow? hparent
    rw [hgroup.child?, Option.map_eq_some_iff] at hchild
    obtain ⟨value, hvalue, heq⟩ := hchild
    exact ⟨_, s, node, value, hgroup, hvalue, heq⟩
  | operation | value => cases hchild

/-- An operation of the plan is the leaf of an object below a group. -/
theorem follow?_operation {leaf : Leaf}
    (h : (plan (.object root)).follow? keys = some (.operation leaf)) :
    ∃ (s : Surroundings) (key : String) (parent node : Members), keys = s.keys ++ [key] ∧
      s.Around root parent ∧ objectAt? root keys = some node ∧ IsOperationAt root keys ∧
      leaf = s.leaf key node := by
  cases keys using List.reverseRecOn with
  | nil => simp [follow?, plan] at h
  | append_singleton above key =>
    obtain ⟨_, s, parent, value, hgroup, hvalue, heq⟩ := exists_group_above h
    rcases hgroup.child_cases hvalue with ⟨node, hnode, hop, hleaf⟩ | ⟨child, hchild⟩ | ⟨-, hv⟩
    · exact ⟨s, key, parent, node, by rw [hgroup.keys_eq], hgroup.around, hnode, hop,
        Node.operation.inj (heq.symm.trans hleaf)⟩
    · cases heq.symm.trans hchild.found_eq
    · cases heq.symm.trans hv

theorem follow?_of_isOperationAt (hne : keys ≠ []) (h : IsOperationAt root keys) :
    ∃ leaf, (plan (.object root)).follow? keys = some (.operation leaf) := by
  cases keys using List.reverseRecOn with
  | nil => exact absurd rfl hne
  | append_singleton above key =>
    obtain ⟨node, hobject, -⟩ := h.leaf
    rw [objectAt?_concat, Option.bind_eq_some_iff] at hobject
    obtain ⟨parent, hparent, hvalue⟩ := hobject
    obtain ⟨value, hvalue, hnode⟩ := Option.bind_eq_some_iff.mp hvalue
    have hparentGroup : IsGroupAt root above parent := by
      refine ⟨hparent, fun k hk => h.unreserved k (by simp [hk]), fun p hp hpne => ?_⟩
      refine h.inner p (hp.trans (List.prefix_append _ _)) hpne ?_
      intro heq
      have := (heq ▸ hp).length_le
      rw [List.length_append, List.length_singleton] at this
      omega
    obtain ⟨found, s, hfound, hgroup⟩ := follow?_of_isGroupAt hparentGroup
    have hfollow := hgroup.follow?_child hfound hvalue
    rcases hgroup.child_cases hvalue with ⟨node, -, -, hleaf⟩ | ⟨child, hchild⟩ | ⟨hnot, -⟩
    · exact ⟨_, hleaf ▸ hfollow⟩
    · exact absurd h.leaf (hchild.isGroup.inner _ List.prefix_rfl (by simp))
    · rcases hnot with hkey | hnone
      · exact absurd hkey (h.unreserved key (by simp))
      · rw [hgroup.objectAt?_child, hvalue, Option.bind_some, hnode] at hnone
        cases hnone

/-- A value of the plan stands below a group as it is written. -/
theorem follow?_value {above : List String} {key : String} {value : Json}
    (h : (plan (.object root)).follow? (above ++ [key]) = some (.value value)) :
    ∃ node, IsGroupAt root above node ∧ node.get? key = some value := by
  obtain ⟨_, s, node, written, hgroup, hwritten, heq⟩ := exists_group_above h
  rcases hgroup.child_cases hwritten with ⟨_, -, -, hleaf⟩ | ⟨_, hchild⟩ | ⟨-, hv⟩
  · cases heq.symm.trans hleaf
  · cases heq.symm.trans hchild.found_eq
  · obtain rfl := Node.value.inj (heq.symm.trans hv)
    exact ⟨node, hgroup.isGroup, hwritten⟩

end Follow

end Node

/-! ### The compiled tree -/

/-- What a catalog makes of details, with the details of the group that the operation stands in. -/
def Catalog.action (catalog : Catalog) (context : Context) (name : String) (details : Json)
    (groupDetails : Option Json) : Action :=
  match catalog.find? name with
  | none => .unavailable none
  | some transport =>
    match transport.call? context details groupDetails with
    | none => .unavailable (some transport.name)
    | some start => .tracked start

/-- What becomes of the operation at some keys of a definition. -/
structure Operation.Describes (o : Operation) (catalog : Catalog) (settings : Settings)
    (tree : Nat) (root : Members) (keys : List String) : Prop where
  site : o.site = { tree, keys }
  path : o.path = Path.ofKeys keys
  module : ∀ name, o.module = some name ↔ HasModule root keys name
  isCanned : o.isCanned = true ↔ ∃ node, objectAt? root keys = some node ∧
    ∃ key ∈ ["mockResponse", "smartMockResponse", "superMockResponse"], key ∈ node.keys
  /-- The transport is given the details of the node and those of the node right above it. -/
  action : o.isCanned = false →
    ∃ node above name details groupDetails, objectAt? root keys = some node ∧
      objectAt? root keys.dropLast = some above ∧ HasModule root keys name ∧
      HasDetails node details ∧ (∀ d, groupDetails = some d ↔ HasDetails above d) ∧
      o.action = catalog.action { settings, site := { tree, keys } } name details groupDetails

namespace Node

theorem mapEntries_eq {α β : Type} (f : α → β) (entries : List (String × Node α)) :
    mapEntries f entries = entries.map fun entry => (entry.1, entry.2.map f) := by
  induction entries with
  | nil => rfl
  | cons entry rest ih => rw [mapEntries, ih, List.map_cons]

theorem lookup_mapEntries {α β : Type} (f : α → β) (entries : List (String × Node α))
    (key : String) : (mapEntries f entries).lookup key = (entries.lookup key).map (Node.map f) := by
  induction entries with
  | nil => rfl
  | cons entry rest ih =>
    rw [mapEntries, List.lookup_cons, List.lookup_cons, ih]
    split <;> rfl

theorem child?_map {α β : Type} (f : α → β) (node : Node α) (key : String) :
    (node.map f).child? key = (node.child? key).map (Node.map f) := by
  cases node with
  | group m entries => exact lookup_mapEntries f entries key
  | operation | value => rfl

theorem follow?_map {α β : Type} (f : α → β) (node : Node α) (keys : List String) :
    (node.map f).follow? keys = (node.follow? keys).map (Node.map f) := by
  induction keys using List.reverseRecOn with
  | nil => rfl
  | append_singleton keys key ih =>
    rw [follow?_concat, follow?_concat, ih]
    cases node.follow? keys with
    | none => rfl
    | some found => exact child?_map f found key

end Node

namespace Compiled

variable {catalog : Catalog} {settings : Settings} {tree : Nat} {definition : Json}
  {root : Members} {keys : List String}

theorem follow?_ofDefinition :
    (ofDefinition catalog settings tree definition).root.follow? keys =
      ((Node.plan definition).follow? keys).map (Node.map
        (Operation.ofLeaf settings
          (Loaded.ofNames catalog (modules (Node.plan definition))) tree)) :=
  Node.follow?_map _ _ keys

/-- The operation of the compiled tree at some keys is made of the leaf of the plan there. -/
theorem follow?_operation {o : Operation} :
    (ofDefinition catalog settings tree definition).root.follow? keys = some (.operation o) ↔
      ∃ leaf, (Node.plan definition).follow? keys = some (.operation leaf) ∧
        Operation.ofLeaf settings (Loaded.ofNames catalog (modules (Node.plan definition))) tree
          leaf = o := by
  rw [follow?_ofDefinition, Option.map_eq_some_iff]
  constructor
  · rintro ⟨found, hfound, heq⟩
    cases found with
    | operation leaf => exact ⟨leaf, hfound, Node.operation.inj heq⟩
    | group | value => cases heq
  · rintro ⟨leaf, hleaf, rfl⟩
    exact ⟨_, hleaf, rfl⟩

theorem follow?_group {m : Option String} {entries : List (String × Node Operation)}
    (h : (ofDefinition catalog settings tree definition).root.follow? keys =
      some (.group m entries)) :
    ∃ planned, (Node.plan definition).follow? keys = some (.group m planned) ∧
      entries.map Prod.fst = planned.map Prod.fst := by
  rw [follow?_ofDefinition, Option.map_eq_some_iff] at h
  obtain ⟨found, hfound, heq⟩ := h
  cases found with
  | group m' planned =>
    obtain ⟨rfl, rfl⟩ := Node.group.inj heq
    exact ⟨planned, hfound, by simp [Node.mapEntries_eq]⟩
  | operation | value => cases heq

theorem follow?_value {value : Json}
    (h : (ofDefinition catalog settings tree definition).root.follow? keys = some (.value value)) :
    (Node.plan definition).follow? keys = some (.value value) := by
  rw [follow?_ofDefinition, Option.map_eq_some_iff] at h
  obtain ⟨found, hfound, heq⟩ := h
  cases found with
  | value v => rwa [← Node.value.inj heq]
  | operation | group => cases heq

theorem module_mem {plan : Node Leaf} {leaf : Leaf} {name : String}
    (h : plan.follow? keys = some (.operation leaf)) (hname : leaf.module = some name) :
    name ∈ modules plan := by
  have hmem : leaf ∈ plan.operations := Node.operations_follow h (by simp [Node.operations])
  exact List.mem_filterMap.mpr ⟨leaf, hmem, hname⟩

/-- A leaf that is not canned is called through the transport of its module. -/
theorem action_ofLeaf {plan : Node Leaf} {leaf : Leaf} {name : String} {details : Json}
    (h : plan.follow? keys = some (.operation leaf)) (hcanned : leaf.isCanned = false)
    (hname : leaf.module = some name) (hdetails : ownDetails leaf.node = some details) :
    (Operation.ofLeaf settings (Loaded.ofNames catalog (modules plan)) tree leaf).action =
      catalog.action { settings, site := { tree, keys := leaf.keys } } name details
        leaf.parentDetails := by
  have htransport := Loaded.ofNames_transport? catalog (module_mem h hname)
  rw [Loaded.transport?] at htransport
  simp only [Operation.ofLeaf, Operation.actionOf, hcanned, hname, Option.bind_some, htransport,
    Operation.transportCall?, hdetails, Catalog.action, Bool.false_eq_true, if_false]
  cases catalog.find? name with
  | none => rfl
  | some transport =>
    simp only [Option.bind_eq_bind, Option.bind_some]
    cases transport.call? _ details leaf.parentDetails <;> rfl

theorem ofLeaf_describes {leaf : Leaf}
    (h : (Node.plan (.object root)).follow? keys = some (.operation leaf)) :
    (Operation.ofLeaf settings
      (Loaded.ofNames catalog (modules (Node.plan (.object root)))) tree leaf).Describes
      catalog settings tree root keys := by
  obtain ⟨s, key, parent, node, rfl, haround, hnode, hop, rfl⟩ := Node.follow?_operation h
  have hmodule := haround.effectiveModule_child hnode
  refine ⟨rfl, haround.path_child key, hmodule, ?_, fun hcanned => ?_⟩
  · refine hasResponses_iff.trans ⟨fun hkeys => ⟨node, hnode, hkeys⟩, ?_⟩
    rintro ⟨node', hnode', hkeys⟩
    obtain rfl := Option.some.inj (hnode.symm.trans hnode')
    exact hkeys
  · obtain ⟨name, details, hname, hdetails⟩ : ∃ name details,
        HasModule root (s.keys ++ [key]) name ∧ HasDetails node details := by
      obtain ⟨node', hnode', hleaf⟩ := hop.leaf
      obtain rfl := Option.some.inj (hnode.symm.trans hnode')
      rcases hleaf with ⟨⟨name, hname⟩, details, hdetails⟩ | ⟨response, hresponse, -⟩
      · exact ⟨name, details, hname, hdetails⟩
      · -- A node with a response is canned.
        have hmem := Members.mem_keys_of_get? hresponse
        have : hasResponses node = true := hasResponses_iff.mpr ⟨_, by simp, hmem⟩
        exact absurd (this.symm.trans hcanned) (by simp)
    refine ⟨node, parent, name, details, s.details, hnode, ?_, hname, hdetails, haround.details, ?_⟩
    · rw [List.dropLast_concat]
      exact haround.object
    · exact action_ofLeaf h hcanned ((hmodule name).mpr hname) (ownDetails_eq_some.mpr hdetails)

/-- The groups of the compiled tree are the objects that are reached without meeting a leaf. -/
theorem follow?_group_iff :
    (∃ m entries, (ofDefinition catalog settings tree (.object root)).root.follow? keys =
      some (.group m entries)) ↔ ∃ node, IsGroupAt root keys node := by
  constructor
  · rintro ⟨m, entries, h⟩
    obtain ⟨planned, hplanned, -⟩ := follow?_group h
    obtain ⟨s, node, hgroup⟩ := Node.isGroupOf_of_follow? hplanned
    exact ⟨node, hgroup.isGroup⟩
  · rintro ⟨node, hnode⟩
    obtain ⟨found, s, hfound, hgroup⟩ := Node.follow?_of_isGroupAt hnode
    rw [follow?_ofDefinition, hfound, hgroup.found_eq]
    exact ⟨_, _, rfl⟩

/-- A group of the compiled tree keeps the keys of its object in order, and the module that the
object names. -/
theorem group_keys {m : Option String} {entries : List (String × Node Operation)}
    (h : (ofDefinition catalog settings tree (.object root)).root.follow? keys =
      some (.group m entries)) {node : Members} (hnode : objectAt? root keys = some node) :
    entries.map Prod.fst = node.keys ∧ ∀ name, m = some name ↔ Names node name := by
  obtain ⟨planned, hplanned, hkeys⟩ := follow?_group h
  obtain ⟨s, node', -, -, hgroup, heq⟩ := Node.isGroupOf_of_follow? hplanned
  obtain rfl := Option.some.inj (hnode.symm.trans hgroup.object)
  obtain ⟨rfl, rfl⟩ := Node.group.inj heq
  exact ⟨hkeys.trans (Node.keys_planMembers s node), fun _ => ownModule_eq_some⟩

/-- The compiled tree of a definition has operations exactly where the definition has them, and each
is what the definition says.  Its groups are the objects that are reached without meeting a leaf;
they have the keys of these objects, and what is neither stands in them as it is written. -/
theorem operation_iff (catalog : Catalog) (settings : Settings) (tree : Nat) (root : Members) :
    let c := ofDefinition catalog settings tree (.object root)
    (∀ keys, keys ≠ [] →
      ((∃ o, c.root.follow? keys = some (.operation o)) ↔ IsOperationAt root keys)) ∧
    (∀ keys o, c.root.follow? keys = some (.operation o) →
      o.Describes catalog settings tree root keys) ∧
    (∀ keys, (∃ m entries, c.root.follow? keys = some (.group m entries)) ↔
      ∃ node, IsGroupAt root keys node) ∧
    (∀ keys m entries node, c.root.follow? keys = some (.group m entries) →
      objectAt? root keys = some node →
      entries.map Prod.fst = node.keys ∧ ∀ name, m = some name ↔ Names node name) ∧
    ∀ above key value, c.root.follow? (above ++ [key]) = some (.value value) →
      ∃ node, IsGroupAt root above node ∧ node.get? key = some value := by
  intro c
  refine ⟨fun keys hne => ⟨?_, fun h => ?_⟩, fun keys o h => ?_, fun keys => follow?_group_iff,
    fun keys m entries node h => group_keys h, fun above key value h => ?_⟩
  · rintro ⟨o, ho⟩
    obtain ⟨leaf, hleaf, -⟩ := follow?_operation.mp ho
    obtain ⟨_, _, _, _, -, -, -, hop, -⟩ := Node.follow?_operation hleaf
    exact hop
  · obtain ⟨leaf, hleaf⟩ := Node.follow?_of_isOperationAt hne h
    exact ⟨_, follow?_operation.mpr ⟨leaf, hleaf, rfl⟩⟩
  · obtain ⟨leaf, hleaf, rfl⟩ := follow?_operation.mp h
    exact ofLeaf_describes hleaf
  · exact Node.follow?_value (follow?_value h)

/-- A group with details of its own, an operation in it and one at the root. -/
def nested : Members :=
  [("operationDetails", .string "r"),
    ("b", .object [("operationDetails", .string "p"),
      ("c", .object [("asyncModule", .string "m"), ("operationDetails", .string "d")])]),
    ("a", .object [("mockResponse", .string "x")])]

theorem operation_iff_nested :
    IsOperationAt nested ["b", "c"] ∧ IsOperationAt nested ["a"] ∧
      ¬ IsOperationAt nested ["b"] ∧ (∃ node, IsGroupAt nested ["b"] node) ∧
      HasModule nested ["b", "c"] "m" := by
  have h := operation_iff {} {} 0 nested
  refine ⟨(h.1 _ (by decide)).mp ⟨_, rfl⟩, (h.1 _ (by decide)).mp ⟨_, rfl⟩, fun hop => ?_,
    (h.2.2.1 _).mp ⟨_, _, rfl⟩, ((h.2.1 _ _ rfl).module "m").mp rfl⟩
  obtain ⟨o, ho⟩ := (h.1 ["b"] (by decide)).mpr hop
  cases ho

end Compiled
end OperationTree
