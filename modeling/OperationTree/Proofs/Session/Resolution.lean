import OperationTree.Proofs.Session.Aggregation

/-! How an aggregate finds its targets.  The first poll of each of its calls looks for them.  If the
tree is gone or a path names no operation, the call ends with an error and changes nothing but
itself.  The first call that finds all of them keeps them for all that follow, even when the tree
has gone by then. -/

namespace OperationTree.Session

/-- The first path that names no operation ends the search. -/
theorem findAll_of_find? {root : Node Operation} {ids : List String} {id : String}
    (h : ids.find? (fun id => (root.operationAt? id).isNone) = some id) :
    findAll root ids = .error (.unknownOperation id) := by
  induction ids with
  | nil => cases h
  | cons first rest ih =>
    rw [findAll]
    cases hfirst : root.operationAt? first with
    | none =>
      rw [List.find?_cons_of_pos (by rw [hfirst]; rfl)] at h
      rw [Option.some.inj h]
    | some o =>
      rw [List.find?_cons_of_neg (by simp [hfirst])] at h
      dsimp only
      rw [ih h]
      rfl

/-! ### The first poll of a call -/

/-- What has been found for a site stays. -/
theorem Deed.lookup {x y : Hand × Session} (h : Deed Action.IsRegular x y) {site : Site}
    {operations : List Operation} (hfound : x.2.resolved.lookup site = some operations) :
    y.2.resolved.lookup site = some operations := by
  rcases h.resolved_cases with heq | ⟨_, _, _, _, _, _, _, -, -, -, -, heq⟩
  · rw [heq, hfound]
  · rw [heq, List.lookup_append, hfound]
    rfl

theorem Deeds.lookup {x y : Hand × Session} (h : Deeds Action.IsRegular x y) {site : Site}
    {operations : List Operation} (hfound : x.2.resolved.lookup site = some operations) :
    y.2.resolved.lookup site = some operations := by
  induction h with
  | refl => exact hfound
  | tail _ deed ih => exact deed.lookup ih

/-- A call has called operations in one change, each once and in their order, and gathers them. -/
structure FansOut (x : Hand × Session) (call : Nat) (request : Request)
    (operations : List Operation) (s' : Session) : Prop where
  fans : ∃ futures, x.2.Fans request operations futures (x.2.fanOut call request operations) ∧
    s'.Gathers call futures
  later : Moves (x.1, x.2.fanOut call request operations) (x.1, s')

theorem pollTargets_fansOut {x : Hand × Session} (hs : x.2.Sited) {call : Nat} {c : Call}
    {site : Site} {ids : List String} {request : Request} {operations : List Operation}
    (hc : x.2.unsettled? call = some c) (hw : c.work = .aggregate site ids request)
    (hfound : x.2.resolved.lookup site = some operations) (depth : Nat) :
    FansOut x call request operations
      (pollTargets (pollWithin depth) (x.2.fanOut call request operations) call) := by
  have hs' := (fanOut_steps hs hc hw hfound).sited hs
  have hmoves :=
    pollTargets_moves (pollWithin_moves depth) x.1 hs' call
  exact ⟨⟨_, fanOut_fans (lt_of_unsettled hc) request operations,
    (Moves.steps hmoves hs').gathers (fanOut_gathers request operations hc)⟩, hmoves⟩

/-- What the first poll of a call of an aggregate comes to. -/
structure Resolution (x : Hand × Session) (call : Nat) (site : Site) (ids : List String)
    (request : Request) (root : Node Operation) (s' : Session) : Prop where
  /-- A path names no operation, and is the first one to do so. -/
  unknown : x.2.isAlive site.tree = true → ∀ id,
    ids.find? (fun id => (root.operationAt? id).isNone) = some id →
    x.2.EndsAlone call (.error (.unknownOperation id)) s'
  /-- The tree is gone, and nothing has been found before. -/
  gone : x.2.isAlive site.tree = false → x.2.resolved.lookup site = none →
    x.2.EndsAlone call
      (.error (.transport "aggregator" "compiled tree is no longer available")) s'
  /-- All paths name operations, for the first time. -/
  found : x.2.isAlive site.tree = true → x.2.resolved.lookup site = none →
    ∀ operations, findAll root ids = .ok operations →
    FansOut (x.1, { x.2 with resolved := x.2.resolved ++ [(site, operations)] }) call request
      operations s' ∧ s'.resolved.lookup site = some operations
  /-- The operations have been found before, whether the tree is there or not. -/
  kept : ∀ operations, x.2.resolved.lookup site = some operations →
    FansOut x call request operations s'

section Poll

variable {x : Hand × Session} (hx : Regular x) {compiled : Compiled} {o : Operation}
  {ids : List String} (hget : x.2.compiled[o.site.tree]? = some compiled)
  (ho : o ∈ compiled.root.operations) (hlists : o.Lists ids)
include hx hget ho hlists

theorem Regular.findAll_of_lookup {operations : List Operation}
    (hfound : x.2.resolved.lookup o.site = some operations) :
    findAll compiled.root ids = .ok operations := by
  obtain ⟨ids', hlists', hall⟩ := hx.orderly.lookup hfound hget
  obtain rfl := hx.orderly.lists_eq hget ho hlists hlists'
  exact hall

theorem Regular.poll_resolution {call : Nat} {request : Request}
    (hcall : x.2.IsToCall call o.site ids request) (depth : Nat) :
    Resolution x call o.site ids request compiled.root (pollWithin (depth + 1) x.2 call) := by
  obtain ⟨c, hc, hw⟩ := hcall
  have hpoll : pollWithin (depth + 1) x.2 call =
      advance (pollWithin depth) x.2 call (.aggregate o.site ids request) := by
    rw [pollWithin, hc]
    dsimp only
    rw [hw]
  rw [hpoll, advance]
  refine ⟨fun halive id hid => ?_, fun hgone hnone => ?_,
    fun halive hnone operations hall => ?_, fun operations hfound => ?_⟩
  · have herror := findAll_of_find? hid
    have hnone : x.2.resolved.lookup o.site = none := by
      refine Option.eq_none_iff_forall_ne_some.mpr fun operations hfound => ?_
      cases herror.symm.trans (hx.findAll_of_lookup hget ho hlists hfound)
    rw [resolve, hnone, rootOf?_of_isAlive hget halive]
    dsimp only
    rw [herror]
    exact settle_endsAlone hc _
  · have hroot : x.2.rootOf? o.site = none := by simp [rootOf?, hgone]
    rw [resolve, hnone, hroot]
    exact settle_endsAlone hc _
  · have hs := (CallStep.keep o.site fun o' ho' =>
      (findAll_offers (rootOf?_of_isAlive hget halive) hall ho').site_tree hx.sited).sited hx.sited
    rw [resolve, hnone, rootOf?_of_isAlive hget halive]
    dsimp only
    rw [hall]
    have hkept : (x.2.resolved ++ [(o.site, operations)]).lookup o.site = some operations := by
      simp [List.lookup_append, hnone]
    have hfans := pollTargets_fansOut
      (x := (x.1, { x.2 with resolved := x.2.resolved ++ [(o.site, operations)] })) hs hc hw hkept
      depth
    refine ⟨hfans, Deeds.lookup hfans.later.deeds ?_⟩
    rw [fanOut_resolved]
    exact hkept
  · rw [resolve, hfound]
    exact pollTargets_fansOut hx.sited hc hw hfound depth

end Poll

/-! ### What is kept -/

/-- Operations have been found by a call that was polled when none were known and the tree was
there, and have been kept since. -/
def FoundBefore (x : Hand × Session) (site : Site) (operations : List Operation) : Prop :=
  ∃ y z call ids request, Regular y ∧ Deed Action.IsRegular y z ∧ Deeds Action.IsRegular z x ∧
    y.2.IsToCall call site ids request ∧ y.2.isAlive site.tree = true ∧
    y.2.resolved.lookup site = none ∧ z.2.resolved = y.2.resolved ++ [(site, operations)]

/-- Nothing but a call of the aggregate makes its operations known. -/
theorem Regular.foundBefore {x : Hand × Session} (hx : Regular x) {site : Site}
    {operations : List Operation} (hfound : x.2.resolved.lookup site = some operations) :
    FoundBefore x site operations := by
  obtain ⟨hasScheduler, outside, deeds⟩ := hx
  induction deeds with
  | refl => cases hfound
  | @tail y z before deed ih =>
    cases hy : y.2.resolved.lookup site with
    | some operations' =>
      obtain rfl := Option.some.inj ((deed.lookup hy).symm.trans hfound)
      obtain ⟨u, v, call, ids, request, hu, hdeed, later, hrest⟩ := ih hy
      exact ⟨u, v, call, ids, request, hu, hdeed, later.tail deed, hrest⟩
    | none =>
      -- The deed is the poll that has found them.
      rcases deed.resolved_cases with heq | ⟨call, c, site', ids, request, root, found, hc, hw,
        hroot, -, heq⟩
      · rw [heq, hy] at hfound
        cases hfound
      · rw [heq, List.lookup_append, hy] at hfound
        obtain ⟨rfl, rfl⟩ : site = site' ∧ found = operations := by
          rw [Option.none_or, List.lookup_cons] at hfound
          split at hfound
          · next hsite => exact ⟨eq_of_beq hsite, Option.some.inj hfound⟩
          · cases hfound
        have halive : y.2.isAlive site.tree = true := by
          by_contra hgone
          rw [rootOf?, if_neg hgone] at hroot
          cases hroot
        exact ⟨y, z, call, ids, request, ⟨hasScheduler, outside, before⟩, deed, .refl, ⟨c, hc, hw⟩,
          halive, hy, heq⟩

theorem start_trackers (s : Session) (tracker : Nat) (job : Job) :
    (s.start tracker job).2.trackers = s.trackers.modify tracker (·.insert s.calls.length) := by
  simp only [start, track]
  split <;> cases job <;> rfl

/-- An aggregate has been invoked: one call is registered, and nothing else has happened. -/
structure InvokesAlone (s : Session) (o : Operation) (ids : List String) (request : Request) :
    Prop where
  future : (s.invoke o request).1 = .call s.calls.length
  length : (s.invoke o request).2.calls.length = s.calls.length + 1
  waits : (s.invoke o request).2.IsToCall s.calls.length o.site ids request
  trackers : (s.invoke o request).2.trackers =
    s.trackers.modify (s.trackerOf o.site.tree) (·.insert s.calls.length)
  resolved : (s.invoke o request).2.resolved = s.resolved

theorem invoke_alone (s : Session) {o : Operation} {ids : List String} (hlists : o.Lists ids)
    (request : Request) : s.InvokesAlone o ids request := by
  obtain ⟨start, haction, hstart⟩ := hlists
  have hstarts := start_starts s (s.trackerOf o.site.tree) (start request)
  have hinvoke : s.invoke o request = (.call (s.start (s.trackerOf o.site.tree) (start request)).1,
      (s.start (s.trackerOf o.site.tree) (start request)).2) := by
    rw [invoke, haction]
  rw [start_number] at hinvoke
  have hcalls := hstarts.calls
  refine ⟨congrArg Prod.fst hinvoke, ?_, ?_, ?_, ?_⟩ <;> rw [hinvoke]
  · rw [hcalls, List.length_append]
    rfl
  · refine ⟨_, unsettled?_eq_some.mpr ⟨by rw [hcalls, List.getElem?_concat_length], rfl⟩, ?_⟩
    rw [begun, hstart]
    rfl
  · exact start_trackers s _ _
  · exact hstarts.resolved

/-- An aggregate finds its targets once and for all, or not at all. -/
theorem Regular.resolution {x : Hand × Session} (hx : Regular x) {tree : TreeState}
    {o : Operation} {ids : List String} (htree : x.2.trees[o.site.tree]? = some tree)
    (ho : o ∈ tree.compiled.root.operations) (hlists : o.Lists ids) :
    (∀ request, x.2.InvokesAlone o ids request ∧
      Deeds Action.IsRegular x (x.1, (x.2.invoke o request).2)) ∧
    (∀ call request depth, x.2.IsToCall call o.site ids request →
      Resolution x call o.site ids request tree.compiled.root
        (pollWithin (depth + 1) x.2 call)) ∧
    ∀ operations, x.2.resolved.lookup o.site = some operations →
      findAll tree.compiled.root ids = .ok operations ∧ FoundBefore x o.site operations ∧
        ∀ y, Deeds Action.IsRegular x y → y.2.resolved.lookup o.site = some operations := by
  have hget := compiled_of_tree htree
  refine ⟨fun request => ⟨invoke_alone x.2 hlists request, invoke_deeds hget ho request⟩,
    fun call request depth hcall => hx.poll_resolution hget ho hlists hcall depth,
    fun operations hfound => ?_⟩
  exact ⟨hx.findAll_of_lookup hget ho hlists hfound, hx.foundBefore hfound,
    fun y hy => Deeds.lookup hy hfound⟩

/-- An operation and an aggregate that lists it and something that is not there. -/
def incomplete : Json :=
  .object [
    ("profile", .object [("mockResponse", .object [("name", .string "Ada")])]),
    ("summary", .object [("asyncModule", .string "aggregator"), ("operationDetails",
      .object [("operationIds", .array [.string "profile", .string "nobody"])])])]

def summaryOperation : Operation where
  site := ⟨0, ["summary"]⟩
  path := "summary"
  module := some "aggregator"
  isCanned := false
  action := .tracked fun request => .aggregate ⟨0, ["summary"]⟩ ["profile", "nobody"] request

/-- The aggregate with an unknown target has been invoked. -/
def summaryInvoked : Session :=
  (initial true {}).after
    [.addTracker, .addTree Catalog.standard {} 0 incomplete, .invoke 0 "summary" {}]

/-- The tree is dropped before the aggregate is polled. -/
def dashboardDropped : Session :=
  (initial true {}).after
    [.addTracker, .addTree Catalog.standard {} 0 dashboard, .invoke 0 "dashboard" {}, .dropTree 0]

/-- The tree is dropped between two calls of the aggregate. -/
def dashboardAgain : Session :=
  (initial true {}).after
    [.addTracker, .addTree Catalog.standard {} 0 dashboard, .invoke 0 "dashboard" {}, .poll 0,
      .dropTree 0, .invoke 0 "dashboard" {}]

theorem resolution_summary :
    (summaryInvoked.poll 0).calls.map Call.outcome =
      [some (.error (.unknownOperation "nobody"))] ∧
    (dashboardDropped.poll 0).calls.map Call.outcome =
      [some (.error (.transport "aggregator" "compiled tree is no longer available"))] ∧
    dashboardAgain.isAlive 0 = false ∧
    ∃ futures, (dashboardAgain.poll 3).Gathers 3 futures := by
  have hsummary : (Compiled.ofDefinition Catalog.standard {} 0 incomplete).root.operationAt?
      "summary" = some summaryOperation := rfl
  have hdashboard : (Compiled.ofDefinition Catalog.standard {} 0 dashboard).root.operationAt?
      "dashboard" = some dashboardOperation := rfl
  refine ⟨?_, ?_, rfl, ?_⟩
  · have hx : Regular ([], summaryInvoked) :=
      .ofStandard (by decide +kernel) (by simp [Action.IsRegular])
    obtain ⟨-, hpoll, -⟩ := Regular.resolution hx (o := summaryOperation) rfl
      (Node.operationAt?_mem hsummary) ⟨_, rfl, fun _ => rfl⟩
    exact ((hpoll 0 {} 2 ⟨_, rfl, rfl⟩).unknown rfl "nobody" rfl).outcomes
  · have hx : Regular ([], dashboardDropped) :=
      .ofStandard (by decide +kernel) (by simp [Action.IsRegular])
    obtain ⟨-, hpoll, -⟩ := Regular.resolution hx (o := dashboardOperation) rfl
      (Node.operationAt?_mem hdashboard) ⟨_, rfl, fun _ => rfl⟩
    exact ((hpoll 0 {} 3 ⟨_, rfl, rfl⟩).gone rfl rfl).outcomes
  · have hx : Regular ([], dashboardAgain) :=
      .ofStandard (by decide +kernel) (by simp [Action.IsRegular])
    obtain ⟨-, hpoll, hkept⟩ := Regular.resolution hx (o := dashboardOperation) rfl
      (Node.operationAt?_mem hdashboard) ⟨_, rfl, fun _ => rfl⟩
    obtain ⟨operations, hfound⟩ : ∃ operations,
        dashboardAgain.resolved.lookup ⟨0, ["dashboard"]⟩ = some operations := ⟨_, rfl⟩
    obtain ⟨futures, -, hgathers⟩ := ((hpoll 3 {} 3 ⟨_, rfl, rfl⟩).kept operations hfound).fans
    exact ⟨futures, hgathers⟩

end OperationTree.Session
