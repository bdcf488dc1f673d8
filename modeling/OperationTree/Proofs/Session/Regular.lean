import OperationTree.Proofs.Session.Origin
import OperationTree.Proofs.Session.Spawning
import OperationTree.Proofs.Session.Wiring
import OperationTree.Proofs.Tree.Aggregates

/-! Regular runs.  Definitions are as they are read, transports make aggregates of the operations
that they serve only, and nothing but an operation makes aggregates.  Then every aggregate is that
of an operation of a tree, and what has been found for a site is what its operation lists. -/

namespace OperationTree

/-- An operation calls those with the given paths, at some request. -/
def Operation.CanList (o : Operation) (ids : List String) : Prop :=
  ∃ start request request', o.action = .tracked start ∧
    start request = .aggregate o.site ids request'

theorem Operation.Lists.eq {o : Operation} {ids ids' : List String} (h : o.Lists ids)
    (h' : o.CanList ids') : ids' = ids := by
  obtain ⟨start, haction, hstart⟩ := h
  obtain ⟨start', request, request', haction', hstart'⟩ := h'
  obtain rfl := Action.tracked.inj (haction.symm.trans haction')
  exact (Job.aggregate.inj ((hstart request).symm.trans hstart')).2.1.symm

/-- The operation at a site calls those with the given paths, at some request. -/
def Compiled.Lists (c : Compiled) (site : Site) (ids : List String) : Prop :=
  ∃ o ∈ c.root.operations, o.site = site ∧ o.CanList ids

/-- An operation calls another one of its tree, at some request. -/
def Operation.Calls (root : Node Operation) (o o' : Operation) : Prop :=
  ∃ ids, o.CanList ids ∧ ∃ id ∈ ids, root.operationAt? id = some o'

/-- From an operation to one that it calls, and so on, one comes to an end. -/
def Operation.IsGrounded (root : Node Operation) (o : Operation) : Prop :=
  Acc (fun o' o => o.Calls root o') o

/-- An operation can start a call of another one: at some request it calls operations that are all
found in its tree, and this is one of them. -/
def Operation.CanStart (root : Node Operation) (o o' : Operation) : Prop :=
  ∃ ids operations, o.CanList ids ∧ Session.findAll root ids = .ok operations ∧ o' ∈ operations

/-- What a function of the operation at a site begins as an aggregate, the operation lists. -/
theorem Site.Owns.canList {o : Operation} {start : Request → Job} {request request' : Request}
    {site : Site} {ids : List String} (h : o.site.Owns start) (haction : o.action = .tracked start)
    (hb : (start request).Begins (.aggregate site ids request')) :
    o.site = site ∧ o.CanList ids := by
  generalize hjob : start request = job at hb
  cases hb
  obtain rfl := h _ _ _ _ hjob
  exact ⟨rfl, start, request, request', haction, hjob⟩

namespace Session

theorem findAll_eq_ok {root : Node Operation} {ids : List String} {operations : List Operation} :
    findAll root ids = .ok operations ↔
      List.Forall₂ (fun id o => root.operationAt? id = some o) ids operations := by
  induction ids generalizing operations with
  | nil => simp [findAll, eq_comm]
  | cons id rest ih =>
    rw [findAll]
    cases hid : root.operationAt? id with
    | none =>
      refine ⟨(fun h => by cases h), fun h => ?_⟩
      cases h with
      | cons hfirst => cases hid.symm.trans hfirst
    | some o =>
      dsimp only
      constructor
      · intro h
        cases hrest : findAll root rest with
        | error e => rw [hrest] at h; cases h
        | ok found =>
          rw [hrest] at h
          obtain rfl := Except.ok.inj h
          exact .cons hid (ih.mp hrest)
      · intro h
        cases h with
        | cons hfirst hrest =>
          obtain rfl := Option.some.inj (hid.symm.trans hfirst)
          rw [ih.mpr hrest]
          rfl

def Action.IsRegular : Action → Prop
  | .start _ job => ∀ site ids request, job ≠ .aggregate site ids request
  | .addTree catalog _ _ definition => catalog.IsProper ∧ definition.HasDistinctKeys
  | _ => True

def compiled (s : Session) : List Compiled := s.trees.map TreeState.compiled

theorem compiled_of_tree {s : Session} {n : Nat} {tree : TreeState}
    (htree : s.trees[n]? = some tree) : s.compiled[n]? = some tree.compiled := by
  simp [compiled, htree]

theorem lt_of_compiled {s : Session} {n : Nat} {compiled : Compiled}
    (hget : s.compiled[n]? = some compiled) : n < s.trees.length := by
  simpa [Session.compiled] using (List.getElem?_eq_some_iff.mp hget).1

/-- The operations of a tree that is there can be called. -/
theorem offers_of_compiled {s : Session} {compiled : Compiled} {n : Nat} {o : Operation}
    (hget : s.compiled[n]? = some compiled) (ho : o ∈ compiled.root.operations) : s.Offers o := by
  rw [Session.compiled, List.getElem?_map] at hget
  obtain ⟨tree, htree, rfl⟩ := Option.map_eq_some_iff.mp hget
  exact .inl ⟨tree, List.mem_of_getElem? htree, ho⟩

theorem invoke_deeds {x : Hand × Session} {compiled : Compiled} {o : Operation}
    (hget : x.2.compiled[o.site.tree]? = some compiled) (ho : o ∈ compiled.root.operations)
    (request : Request) : Deeds Action.IsRegular x (x.1, (x.2.invoke o request).2) :=
  .single (.move (.invoke x.1 request (offers_of_compiled hget ho)))

structure Orderly (s : Session) : Prop where
  trees : ∀ (n : Nat) (compiled : Compiled), s.compiled[n]? = some compiled →
    compiled.IsOrderly ∧ ∀ o ∈ compiled.root.operations, o.site.tree = n
  works : ∀ (n : Nat) (c : Call) site ids request, s.calls[n]? = some c →
    c.work = .aggregate site ids request →
    ∃ compiled, s.compiled[site.tree]? = some compiled ∧ compiled.Lists site ids
  found : ∀ site operations, (site, operations) ∈ s.resolved → ∃ compiled ids,
    s.compiled[site.tree]? = some compiled ∧ compiled.Lists site ids ∧
      findAll compiled.root ids = .ok operations

theorem initial_orderly (hasScheduler : Bool) (outside : Outside) :
    (initial hasScheduler outside).Orderly := by
  constructor <;> simp [initial, compiled]

/-- A deed leaves the trees as they are, or adds one. -/
theorem Deed.compiled_cases {x y : Hand × Session} (h : Deed Action.IsRegular x y)
    (hs : x.2.Sited) : y.2.compiled = x.2.compiled ∨
      ∃ catalog settings definition, catalog.IsProper ∧ definition.HasDistinctKeys ∧
        y.2.compiled = x.2.compiled ++
          [.ofDefinition catalog settings x.2.compiled.length definition] := by
  cases h with
  | move h => exact .inl (congrArg (List.map TreeState.compiled) (h.steps hs).trees)
  | arrive | watch => exact .inl rfl
  | start => exact .inl (congrArg (List.map TreeState.compiled) (start_starts ..).trees)
  | aside _ _ ha => exact .inl ha.trees
  | @addTree _ s catalog settings tracker definition ht ha =>
    exact .inr ⟨catalog, settings, definition, ha.1, ha.2, by simp [compiled, Session.addTree]⟩

theorem Deed.compiled_prefix {x y : Hand × Session} (h : Deed Action.IsRegular x y)
    (hs : x.2.Sited) : x.2.compiled <+: y.2.compiled := by
  rcases h.compiled_cases hs with heq | ⟨_, _, _, -, -, heq⟩
  · exact heq ▸ List.prefix_rfl
  · exact heq ▸ List.prefix_append _ _

theorem Deeds.compiled_prefix {x y : Hand × Session} (h : Deeds Action.IsRegular x y)
    (hs : x.2.Sited) : x.2.compiled <+: y.2.compiled := by
  induction h with
  | refl => exact List.prefix_rfl
  | tail deeds deed ih =>
    exact ih.trans (deed.compiled_prefix ((Deeds.steps deeds hs).sited hs))

/-- A deed leaves what has been found as it is, or adds what the aggregate of a call lists. -/
theorem Deed.resolved_cases {x y : Hand × Session} (h : Deed Action.IsRegular x y) :
    y.2.resolved = x.2.resolved ∨ ∃ call c site ids request root operations,
      x.2.unsettled? call = some c ∧ c.work = .aggregate site ids request ∧
        x.2.rootOf? site = some root ∧ findAll root ids = .ok operations ∧
        y.2.resolved = x.2.resolved ++ [(site, operations)] := by
  cases h with
  | arrive | addTree | watch => exact .inl rfl
  | start => exact .inl (start_starts ..).resolved
  | aside _ _ ha => exact .inl ha.resolved
  | move h =>
    cases h with
    | nudge h =>
      cases h with
      | queue | heed | leave => exact .inl rfl
      | push => exact .inl setGathering_eq.2.2
    | pop | take => exact .inl setGathering_eq.2.2
    | ask | finish | release => exact .inl rfl
    | invoke => exact .inl (invoke_invokes ..).resolved
    | fanOut => exact .inl (fanOut_resolved ..)
    | keep _ hc hw hroot hfound => exact .inr ⟨_, _, _, _, _, _, _, hc, hw, hroot, hfound, rfl⟩

namespace Orderly

variable {s : Session} (h : s.Orderly)
include h

/-- What can be called is an operation of a tree. -/
theorem offers {o : Operation} (ho : s.Offers o) :
    ∃ compiled, s.compiled[o.site.tree]? = some compiled ∧ o ∈ compiled.root.operations := by
  rcases ho with ⟨tree, htree, ho⟩ | ⟨⟨site, operations⟩, hentry, ho⟩
  · obtain ⟨n, hn⟩ := List.mem_iff_getElem?.mp htree
    have hget := compiled_of_tree hn
    exact ⟨tree.compiled, (h.trees n _ hget).2 o ho ▸ hget, ho⟩
  · obtain ⟨compiled, ids, hget, -, hfound⟩ := h.found site operations hentry
    have hmem := findAll_mem hfound o ho
    exact ⟨compiled, (h.trees _ _ hget).2 o hmem ▸ hget, hmem⟩

theorem lookup {site : Site} {operations : List Operation} {compiled : Compiled}
    (hfound : s.resolved.lookup site = some operations)
    (hget : s.compiled[site.tree]? = some compiled) :
    ∃ ids, compiled.Lists site ids ∧ findAll compiled.root ids = .ok operations := by
  obtain ⟨before, after, heq, -⟩ := List.lookup_eq_some_iff.mp hfound
  obtain ⟨compiled', ids, hget', hlists, hall⟩ := h.found site operations (by simp [heq])
  obtain rfl := Option.some.inj (hget.symm.trans hget')
  exact ⟨ids, hlists, hall⟩

/-- The operation at a site lists the same paths at all times, if it does so at all requests. -/
theorem lists_eq {compiled : Compiled} {o : Operation} {ids ids' : List String}
    (hget : s.compiled[o.site.tree]? = some compiled) (ho : o ∈ compiled.root.operations)
    (hlists : o.Lists ids) (h' : compiled.Lists o.site ids') : ids' = ids := by
  obtain ⟨o', ho', hsite, hcan⟩ := h'
  obtain rfl := (h.trees _ _ hget).1.sites o' ho' o ho hsite
  exact hlists.eq hcan

/-- What has been found for the site of an operation, the operation can start. -/
theorem canStart_of_lookup {compiled : Compiled} {o o' : Operation} {operations : List Operation}
    (hget : s.compiled[o.site.tree]? = some compiled) (ho : o ∈ compiled.root.operations)
    (hfound : s.resolved.lookup o.site = some operations) (ho' : o' ∈ operations) :
    o.CanStart compiled.root o' ∧ o' ∈ compiled.root.operations ∧ o'.site.tree = o.site.tree := by
  obtain ⟨horderly, hsites⟩ := h.trees _ _ hget
  obtain ⟨ids, ⟨o1, ho1, hsite, hcan⟩, hall⟩ := h.lookup hfound hget
  obtain rfl := horderly.sites o1 ho1 o ho hsite
  have hmem := findAll_mem hall o' ho'
  exact ⟨⟨ids, operations, hcan, hall, ho'⟩, hmem, hsites o' hmem⟩

end Orderly

theorem Deed.orderly {x y : Hand × Session} (h : Deed Action.IsRegular x y) (hs : x.2.Sited)
    (hx : x.2.Orderly) : y.2.Orderly where
  trees n c hc := by
    rcases h.compiled_cases hs with heq | ⟨catalog, settings, definition, hcatalog, hdistinct, heq⟩
    · exact hx.trees n c (heq ▸ hc)
    · rw [heq] at hc
      rcases getElem?_append_eq_some.mp hc with hold | ⟨rfl, rfl⟩
      · exact hx.trees n c hold
      · exact ⟨Compiled.ofDefinition_isOrderly settings _ hcatalog hdistinct,
          fun o ho => Compiled.site_tree ho⟩
  works n c' site ids request hc hw := by
    have hlater : ∀ {c : Call}, x.2.calls[n]? = some c → c'.work = c.work →
        ∃ compiled, y.2.compiled[site.tree]? = some compiled ∧ compiled.Lists site ids := by
      intro c hget hsame
      obtain ⟨compiled, hcompiled, hlists⟩ := hx.works n c site ids request hget (hsame ▸ hw)
      exact ⟨compiled, getElem?_of_extends (h.compiled_prefix hs) hcompiled, hlists⟩
    cases h.origin hc with
    | same hget hsame => exact hlater hget hsame
    | ended hopen hsame => exact hlater (unsettled?_eq_some.mp hopen).1 hsame
    | turned _ ht => exact absurd hw (ht.ne_aggregate site ids request)
    | fanned _ _ _ _ hw' => cases hw.symm.trans hw'
    | started _ _ hb hj =>
      rw [hw] at hb
      rcases hj with ⟨o, start, request', ho, haction, rfl⟩ | ⟨tracker, hregular⟩
      · obtain ⟨compiled, hcompiled, hmem⟩ := hx.offers ho
        have howns := (hx.trees _ _ hcompiled).1.owns o hmem start haction
        obtain ⟨rfl, hcan⟩ := howns.canList haction hb
        exact ⟨compiled, getElem?_of_extends (h.compiled_prefix hs) hcompiled, o, hmem, rfl, hcan⟩
      · cases hb
        exact absurd rfl (hregular _ _ _)
  found site operations hmem := by
    rcases h.resolved_cases with heq | ⟨call, c, site', ids, request, root, found, hopen, hw, hroot,
      hfound, heq⟩
    · obtain ⟨compiled, ids, hget, hlists, hall⟩ := hx.found site operations (heq ▸ hmem)
      exact ⟨compiled, ids, getElem?_of_extends (h.compiled_prefix hs) hget, hlists, hall⟩
    · rw [heq] at hmem
      rcases List.mem_append.mp hmem with hold | hnew
      · obtain ⟨compiled, ids, hget, hlists, hall⟩ := hx.found site operations hold
        exact ⟨compiled, ids, getElem?_of_extends (h.compiled_prefix hs) hget, hlists, hall⟩
      · obtain ⟨rfl, rfl⟩ := Prod.mk.inj (List.mem_singleton.mp hnew)
        obtain ⟨compiled, hget, hlists⟩ :=
          hx.works call c site ids request (unsettled?_eq_some.mp hopen).1 hw
        obtain ⟨tree, htree, rfl⟩ := rootOf?_eq_some hroot
        obtain rfl : tree.compiled = compiled := by
          simpa [Session.compiled, htree] using hget
        exact ⟨_, ids, getElem?_of_extends (h.compiled_prefix hs) hget, hlists, hfound⟩

/-! ### Regular sessions -/

/-- The sessions that regular actions lead to, also those in the middle of an action. -/
def Regular (x : Hand × Session) : Prop :=
  ∃ hasScheduler outside, Deeds Action.IsRegular ([], initial hasScheduler outside) x

namespace Regular

variable {x : Hand × Session}

theorem deeds {y : Hand × Session} (h : Regular x) (hd : Deeds Action.IsRegular x y) :
    Regular y := by
  obtain ⟨hasScheduler, outside, before⟩ := h
  exact ⟨hasScheduler, outside, before.trans hd⟩

theorem initial (hasScheduler : Bool) (outside : Outside) :
    Regular ([], Session.initial hasScheduler outside) :=
  ⟨hasScheduler, outside, .refl⟩

/-- A session with a tree of the standard catalog, in which nothing but regular actions is done. -/
theorem ofStandard {definition : Json} (h : definition.HasDistinctKeys) {actions : List Action}
    (ha : ∀ action ∈ actions, action.IsRegular) :
    Regular ([], (Session.initial true {}).after
      (.addTracker :: .addTree .standard {} 0 definition :: actions)) := by
  refine (Regular.initial true {}).deeds (after_deeds _ [] (initial_sited true {}) ?_)
  exact List.forall_mem_cons.mpr
    ⟨trivial, List.forall_mem_cons.mpr ⟨⟨Catalog.standardWith_isProper {}, h⟩, ha⟩⟩

/-- What holds at first and is kept by every deed holds of every regular session. -/
theorem invariant {P : Hand × Session → Prop} (h0 : ∀ b o, P ([], Session.initial b o))
    (hdeed : ∀ x y, x.2.Sited → Deed Action.IsRegular x y → P x → P y) (h : Regular x) : P x := by
  obtain ⟨hasScheduler, outside, hdeeds⟩ := h
  exact hdeeds.preserves hdeed (initial_sited hasScheduler outside) (h0 _ _)

theorem attained (h : Regular x) : x.2.Attained := by
  obtain ⟨hasScheduler, outside, hdeeds⟩ := h
  exact ⟨hasScheduler, outside, Deeds.steps hdeeds (initial_sited hasScheduler outside)⟩

theorem sited (h : Regular x) : x.2.Sited := h.attained.sited

theorem orderly (h : Regular x) : x.2.Orderly :=
  h.invariant (P := fun x => x.2.Orderly) initial_orderly fun _ _ hs hd => hd.orderly hs

theorem judged (h : Regular x) : x.2.Judged :=
  h.invariant (P := fun x => x.2.Judged) (fun _ _ n c _ _ hc => by simp [Session.initial] at hc)
    fun _ _ hs hd => hd.judged hs

theorem wired (h : Regular x) : Wired x :=
  h.invariant (fun _ _ => Strand.Wired.initial) fun _ _ _ hd => hd.wired

theorem spawned (h : Regular x) : x.2.Spawned :=
  h.invariant (P := fun x => x.2.Spawned) (fun _ _ _ _ hk => absurd hk (Nat.not_lt_zero _))
    fun _ _ hs hd => hd.spawned hs

end Regular

end Session
end OperationTree
