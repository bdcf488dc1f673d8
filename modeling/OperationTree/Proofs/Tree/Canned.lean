import OperationTree.Proofs.Tree.Aggregates

/-! Canned operations.  `Definition.Responds` says without compiling a definition which response an
operation has for a request, and `Compiled.canned_action` says that each canned operation gives this
response by itself, and that it is truthy. -/

namespace OperationTree
namespace Definition

/-- The first truthy one among responses that may be missing, or else an empty object. -/
def firstTruthy (responses : List (Option Json)) : Json :=
  (responses.findSome? fun response => response.filter Json.truthy).getD (.object [])

theorem firstTruthy_truthy (responses : List (Option Json)) :
    (firstTruthy responses).truthy = true := by
  rw [firstTruthy]
  cases h : responses.findSome? fun response => response.filter Json.truthy with
  | none => rfl
  | some value =>
    obtain ⟨response, -, hresponse⟩ := List.exists_of_findSome?_eq_some h
    exact (Option.filter_eq_some_iff.mp hresponse).2

/-- The response that an object of responses has under a key. -/
def responseIn? (node : Members) (responsesKey key : String) : Option Json :=
  (node.get? responsesKey).bind (·.get? key)

/-- The response that the operation at some keys has for a request.  Through HTTP the responses for
the signature and for the URL of the request come before the default response; for any other
transport, and without one, there is the default response alone. -/
inductive Responds (catalog : Catalog) (settings : Settings) (root : Members) (keys : List String)
    (request : Request) : Json → Prop
  | http {node : Members} {name : String} {options : Http.Options} {o : Outgoing}
    (hnode : objectAt? root keys = some node) (hname : HasModule root keys name)
    (htransport : catalog.find? name = some (.http options))
    (ho : o = (Endpoint.ofDetails (ownDetails node) settings).resolve request) :
    Responds catalog settings root keys request
      (firstTruthy [responseIn? node "superMockResponse" o.signature,
        responseIn? node "smartMockResponse" o.url, node.get? "mockResponse"])
  | default {node : Members} (hnode : objectAt? root keys = some node)
    (hnone : ∀ name options, HasModule root keys name →
      catalog.find? name ≠ some (.http options)) :
    Responds catalog settings root keys request (firstTruthy [node.get? "mockResponse"])

theorem Responds.truthy {catalog : Catalog} {settings : Settings} {root : Members}
    {keys : List String} {request : Request} {value : Json}
    (h : Responds catalog settings root keys request value) : value.truthy = true := by
  cases h <;> exact firstTruthy_truthy _

end Definition

open Definition

namespace Canned

theorem hit_eq (node : Members) (responsesKey key : String) :
    hit ((node.get? responsesKey).bind Json.asObject?) key =
      (responseIn? node responsesKey key).filter Json.truthy := by
  rw [hit, responseIn?, Option.bind_assoc]
  cases node.get? responsesKey with
  | none => rfl
  | some responses => cases responses <;> rfl

theorem defaultResponse_ofNode (node : Members) :
    (ofNode node).defaultResponse = firstTruthy [node.get? "mockResponse"] := by
  simp only [defaultResponse, ofNode, defaultResponseKey, firstTruthy, List.findSome?_cons]
  cases (node.get? "mockResponse").filter Json.truthy <;> rfl

theorem respond_ofNode (node : Members) (o : Outgoing) :
    (ofNode node).respond o =
      firstTruthy [responseIn? node "superMockResponse" o.signature,
        responseIn? node "smartMockResponse" o.url, node.get? "mockResponse"] := by
  rw [respond, defaultResponse_ofNode]
  simp only [ofNode, hit_eq, urlResponsesKey, signatureResponsesKey, firstTruthy,
    List.findSome?_cons]
  cases (responseIn? node "superMockResponse" o.signature).filter Json.truthy <;>
    cases (responseIn? node "smartMockResponse" o.url).filter Json.truthy <;> rfl

end Canned

/-- Of all transports in a catalog only HTTP has canned responses of its own. -/
def Catalog.CansByHttpOnly (catalog : Catalog) : Prop :=
  ∀ name transport, catalog.find? name = some transport →
    (∃ options, transport = .http options) ∨ ∀ context node, transport.canned? context node = none

theorem Catalog.standardWith_cansByHttpOnly (options : Http.Options) :
    (Catalog.standardWith options).CansByHttpOnly :=
  forall_standardWith (.inl ⟨options, rfl⟩) (.inr fun _ _ => rfl) (.inr fun _ _ => rfl)
    (.inr fun _ _ => rfl)

namespace Compiled

variable {catalog : Catalog} {settings : Settings} {tree : Nat} {root : Members}
  {keys : List String} {o : Operation}

variable (settings) in
/-- What a canned node is given for its module is its response. -/
theorem cannedCall_responds (hcatalog : catalog.CansByHttpOnly) {node : Members}
    {module : Option String} (hnode : objectAt? root keys = some node)
    (hmodule : ∀ name, module = some name ↔ HasModule root keys name) (site : Site)
    (request : Request) :
    ∃ value, Operation.cannedCall { settings, site } (module.bind catalog.find?) node request =
        .finished (.ok value) ∧
      Responds catalog settings root keys request value := by
  by_cases hhttp : ∃ name options, HasModule root keys name ∧
      catalog.find? name = some (.http options)
  · obtain ⟨name, options, hname, hfind⟩ := hhttp
    refine ⟨_, ?_, .http hnode hname hfind rfl⟩
    rw [(hmodule name).mpr hname, Option.bind_some, hfind, ← Canned.respond_ofNode]
    rfl
  · -- The transport, if there is one, has no responses of its own.
    have hown : ((module.bind catalog.find?).bind fun t => t.canned? { settings, site } node) =
        none := by
      refine Option.bind_eq_none_iff.mpr fun transport htransport => ?_
      obtain ⟨name, hname, hfind⟩ := Option.bind_eq_some_iff.mp htransport
      rcases hcatalog name transport hfind with ⟨options, rfl⟩ | hnone
      · exact absurd ⟨name, options, (hmodule name).mp hname, hfind⟩ hhttp
      · exact hnone _ node
    refine ⟨_, ?_, .default hnode fun name options hname hfind => ?_⟩
    · rw [Operation.cannedCall, hown, ← Canned.defaultResponse_ofNode]
      rfl
    · exact hhttp ⟨name, options, hname, hfind⟩

/-- A canned operation has its response without any work. -/
theorem canned_action (hcatalog : catalog.CansByHttpOnly)
    (ho : (ofDefinition catalog settings tree (.object root)).root.follow? keys =
      some (.operation o)) (hcanned : o.isCanned = true) (request : Request) :
    ∃ start value, o.action = .tracked start ∧ start request = .finished (.ok value) ∧
      Responds catalog settings root keys request value := by
  obtain ⟨leaf, hleaf, rfl⟩ := follow?_operation.mp ho
  have hmem : leaf ∈ (Node.plan (.object root)).operations :=
    Node.operations_follow hleaf (by simp [Node.operations])
  obtain ⟨s, key, parent, node, rfl, haround, hnode, -, hleafEq⟩ := Node.follow?_operation hleaf
  have hmodule (name : String) : leaf.module = some name ↔ HasModule root (s.keys ++ [key]) name :=
    hleafEq ▸ haround.effectiveModule_child hnode name
  have hown : leaf.node = node := hleafEq ▸ rfl
  obtain ⟨value, hcall, hresponds⟩ := cannedCall_responds settings hcatalog hnode hmodule
    { tree, keys := leaf.keys } request
  rw [Operation.ofLeaf, transport?_leaf hmem]
  exact ⟨_, value, if_pos hcanned, hown ▸ hcall, hresponds⟩

end Compiled

end OperationTree
