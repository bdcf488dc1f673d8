import OperationTree.Proofs.Tree.Listing

/-! Operations that call others.  The standard transport for aggregates gives every operation the
paths that its own details list.  A transport is proper if the aggregates that it makes are those of
the operation it makes them for, and steady if besides they do not depend on the request; then each
operation of a compiled tree has aggregates of its own. -/

namespace OperationTree

/-- Every call of an operation calls the operations with the given paths.
`Operation.Describes.lists` says which nodes of a definition have such operations. -/
def Operation.Lists (o : Operation) (ids : List String) : Prop :=
  ∃ start, o.action = .tracked start ∧ ∀ request, start request = .aggregate o.site ids request

/-- A function for the operation at a site calls others as that operation only. -/
def Site.Owns (site : Site) (start : Request → Job) : Prop :=
  ∀ request site' ids request', start request = .aggregate site' ids request' → site' = site

/-- A function for the operation at a site calls no others, or the same ones at every request. -/
def Site.Keeps (site : Site) (start : Request → Job) : Prop :=
  (∀ request site' ids request', start request ≠ .aggregate site' ids request') ∨
    ∃ ids, ∀ request, start request = .aggregate site ids request

theorem Site.Keeps.owns {site : Site} {start : Request → Job} (h : site.Keeps start) :
    site.Owns start := by
  intro request site' ids request' hstart
  rcases h with hnone | ⟨ids', hall⟩
  · exact absurd hstart (hnone _ _ _ _)
  · exact (Job.aggregate.inj ((hall request).symm.trans hstart)).1.symm

/-- The aggregates that a transport makes are those of the operations it makes them for. -/
structure Transport.IsProper (t : Transport) : Prop where
  call : ∀ context details groupDetails start,
    t.call? context details groupDetails = some start → context.site.Owns start
  canned : ∀ context node start, t.canned? context node = some start → context.site.Owns start

def Catalog.IsProper (catalog : Catalog) : Prop :=
  ∀ name transport, catalog.find? name = some transport → transport.IsProper

/-- The aggregates that a transport makes do not depend on requests. -/
structure Transport.IsSteady (t : Transport) : Prop where
  call : ∀ context details groupDetails start,
    t.call? context details groupDetails = some start → context.site.Keeps start
  canned : ∀ context node start, t.canned? context node = some start → context.site.Keeps start

theorem Transport.IsSteady.isProper {t : Transport} (h : t.IsSteady) : t.IsProper where
  call _ _ _ _ hstart := (h.call _ _ _ _ hstart).owns
  canned _ _ _ hstart := (h.canned _ _ _ hstart).owns

def Catalog.IsSteady (catalog : Catalog) : Prop :=
  ∀ name transport, catalog.find? name = some transport → transport.IsSteady

theorem Catalog.IsSteady.isProper {catalog : Catalog} (h : catalog.IsSteady) : catalog.IsProper :=
  fun name transport hfind => (h name transport hfind).isProper

namespace Transport

theorem keeps_failing (site : Site) (e : CallError) : site.Keeps (Job.failing e) :=
  .inl fun _ _ _ _ => nofun

theorem http_isSteady (options : Http.Options) : (http options).IsSteady where
  call context details _ start h := by
    obtain rfl := Option.some.inj h
    unfold httpCall
    dsimp only
    split
    · exact keeps_failing _ _
    · exact .inl fun _ _ _ _ => nofun
  canned context node start h := by
    obtain rfl := Option.some.inj h
    exact .inl fun _ _ _ _ => nofun

theorem file_isSteady : file.IsSteady where
  call context details _ start h := by
    obtain rfl := Option.some.inj h
    unfold fileCall
    split
    · exact keeps_failing _ _
    · split
      · exact .inl fun _ _ _ _ => nofun
      · split
        · exact keeps_failing _ _
        · exact .inl fun _ _ _ _ => nofun
  canned _ _ _ h := nomatch h

theorem sql_isSteady : sql.IsSteady where
  call context details _ start h := by
    obtain rfl := Option.some.inj h
    unfold sqlCall
    split
    · exact keeps_failing _ _
    · exact .inl fun _ _ _ _ => nofun
  canned _ _ _ h := nomatch h

theorem aggregator_isSteady : aggregator.IsSteady where
  call context details _ start h := by
    obtain rfl := Option.some.inj h
    unfold aggregateCall
    split
    · exact keeps_failing _ _
    · next ids _ => exact .inr ⟨ids, fun _ => rfl⟩
  canned _ _ _ h := nomatch h

end Transport

/-- The standard transports are found and no others. -/
theorem Catalog.forall_standardWith {options : Http.Options} {P : Transport → Prop}
    (http : P (.http options)) (file : P .file) (aggregator : P .aggregator) (sql : P .sql) :
    ∀ name transport, (Catalog.standardWith options).find? name = some transport →
      P transport := by
  intro name transport h
  obtain ⟨before, after, heq, -⟩ := List.lookup_eq_some_iff.mp h
  have hmem : (name, transport) ∈ (Catalog.standardWith options).transports := by simp [heq]
  obtain ⟨found, hfound, hentry⟩ := List.mem_map.mp hmem
  obtain rfl := (Prod.mk.inj hentry).2
  simp only [List.mem_cons, List.not_mem_nil, or_false] at hfound
  rcases hfound with rfl | rfl | rfl | rfl
  · exact http
  · exact file
  · exact aggregator
  · exact sql

theorem Catalog.standardWith_isSteady (options : Http.Options) :
    (Catalog.standardWith options).IsSteady :=
  forall_standardWith (Transport.http_isSteady options) Transport.file_isSteady
    Transport.aggregator_isSteady Transport.sql_isSteady

theorem Catalog.standardWith_isProper (options : Http.Options) :
    (Catalog.standardWith options).IsProper :=
  (standardWith_isSteady options).isProper

/-- Every operation of a tree has a place and aggregates of its own. -/
structure Compiled.IsOrderly (c : Compiled) : Prop where
  sites : ∀ o ∈ c.root.operations, ∀ o' ∈ c.root.operations, o.site = o'.site → o = o'
  owns : ∀ o ∈ c.root.operations, ∀ start, o.action = .tracked start → o.site.Owns start

namespace Compiled

variable {catalog : Catalog} {settings : Settings} {tree : Nat} {definition : Json}

/-- The transport of a leaf is the one that the catalog has for its module. -/
theorem transport?_leaf {plan : Node Leaf} {leaf : Leaf} (h : leaf ∈ plan.operations) :
    (leaf.module.bind (Loaded.ofNames catalog (modules plan)).find?).map Instance.transport =
      leaf.module.bind catalog.find? := by
  cases hname : leaf.module with
  | none => rfl
  | some name =>
    have hmem : name ∈ modules plan := List.mem_filterMap.mpr ⟨leaf, h, hname⟩
    exact Loaded.ofNames_transport? catalog hmem

/-- What holds of the functions that a transport gives holds of those of its operations. -/
theorem forall_actionOf {P : (Request → Job) → Prop} {context : Context}
    {transport : Option Transport} {leaf : Leaf}
    (hfinished : ∀ outcome, P fun _ => .finished outcome)
    (hcall : ∀ t, transport = some t → ∀ details groupDetails start,
      t.call? context details groupDetails = some start → P start)
    (hcanned : ∀ t, transport = some t → ∀ node start,
      t.canned? context node = some start → P start)
    {start : Request → Job} (h : Operation.actionOf context transport leaf = .tracked start) :
    P start := by
  rw [Operation.actionOf] at h
  split at h
  · obtain rfl := Action.tracked.inj h
    rw [Operation.cannedCall]
    cases hown : transport.bind fun t => t.canned? context leaf.node with
    | none => exact hfinished _
    | some start =>
      obtain ⟨t, htransport, hstart⟩ := Option.bind_eq_some_iff.mp hown
      exact hcanned t htransport _ _ hstart
  · split at h
    · next start' hstart =>
      obtain rfl := Action.tracked.inj h
      obtain ⟨t, htransport, hstart⟩ := Option.bind_eq_some_iff.mp hstart
      obtain ⟨details, -, hstart⟩ := Option.bind_eq_some_iff.mp hstart
      exact hcall t htransport _ _ _ hstart
    · cases h

/-- The function of an operation is one that the catalog gives for it, or gives a fixed outcome. -/
theorem forall_operations {P : Site → (Request → Job) → Prop}
    (hfinished : ∀ site outcome, P site fun _ => .finished outcome)
    (hcall : ∀ name t, catalog.find? name = some t → ∀ context details groupDetails start,
      t.call? context details groupDetails = some start → P context.site start)
    (hcanned : ∀ name t, catalog.find? name = some t → ∀ context node start,
      t.canned? context node = some start → P context.site start)
    {o : Operation} (ho : o ∈ (ofDefinition catalog settings tree definition).root.operations)
    {start : Request → Job} (haction : o.action = .tracked start) : P o.site start := by
  rw [ofDefinition, Node.operations_map] at ho
  obtain ⟨leaf, hleaf, rfl⟩ := List.mem_map.mp ho
  rw [Operation.ofLeaf, transport?_leaf hleaf] at haction
  have hfind {t : Transport} (ht : leaf.module.bind catalog.find? = some t) :
      ∃ name, catalog.find? name = some t := by
    obtain ⟨name, -, hname⟩ := Option.bind_eq_some_iff.mp ht
    exact ⟨name, hname⟩
  refine forall_actionOf (hfinished _) (fun t ht => ?_) (fun t ht => ?_) haction
  · obtain ⟨name, hname⟩ := hfind ht
    exact hcall name t hname _
  · obtain ⟨name, hname⟩ := hfind ht
    exact hcanned name t hname _

theorem ofDefinition_isOrderly (settings : Settings) (tree : Nat) (hcatalog : catalog.IsProper)
    (hdistinct : definition.HasDistinctKeys) :
    (ofDefinition catalog settings tree definition).IsOrderly where
  sites o ho o' ho' hsite := by
    have h := follow?_site hdistinct ho
    rw [hsite, follow?_site hdistinct ho'] at h
    exact (Node.operation.inj (Option.some.inj h)).symm
  owns o ho start haction :=
    forall_operations (fun _ _ _ _ _ _ h => nomatch h)
      (fun name t hname => (hcatalog name t hname).call)
      (fun name t hname => (hcatalog name t hname).canned) ho haction

end Compiled

end OperationTree
