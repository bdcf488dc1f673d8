import OperationTree.Proofs.Session.Registry
import OperationTree.Proofs.Session.Run

/-! Calls of aggregates.  Such a call waits, or its tree has gone before it could look for its
operations, or it has called all of them in one change and gathers them from then on.  What it comes
to is settled by the results of these calls alone, and each of them goes on by itself. -/

namespace OperationTree.Session

/-- A call has an entry in its tracker. -/
def IsRegistered (s : Session) (call : Nat) : Prop :=
  ∃ c, s.calls[call]? = some c ∧ call ∈ (s.tracker c.tracker).calls

theorem isRegistered_iff {s : Session} (hs : s.Attained) {call : Nat} {c : Call}
    (hc : s.calls[call]? = some c) (ht : s.isTracking c.tracker = true) :
    s.IsRegistered call ↔ s.outcomeOf call = none := by
  obtain ⟨t, hget, hheld⟩ := isTracking_iff.mp ht
  have htracker : s.tracker c.tracker = t := by simp [tracker, hget]
  have hentry := fun i => hs.sound.held c.tracker t hget hheld i call
  constructor
  · rintro ⟨c', hc', hmem⟩
    obtain rfl := Option.some.inj (hc.symm.trans hc')
    rw [htracker] at hmem
    obtain ⟨⟨i, k⟩, hi, rfl⟩ := List.mem_map.mp hmem
    obtain ⟨c1, hc1, -, -, hopen⟩ := getElem?_marks.mp ((hentry i).mp hi)
    simp [outcomeOf, hc1, hopen]
  · intro ho
    have hopen : c.outcome = none := by simpa [outcomeOf, hc] using ho
    refine ⟨c, hc, ?_⟩
    rw [htracker]
    exact List.mem_map.mpr ⟨(c.id, call),
      (hentry c.id).mpr (getElem?_marks.mpr ⟨c, hc, rfl, rfl, hopen⟩), rfl⟩

/-- The call of an operation is registered for as long as it has not ended. -/
theorem Answers.isRegistered_iff {x y : Hand × Session} (hx : Regular x)
    (h : Deeds Action.IsRegular x y) {request : Request} {o : Operation} {call : Nat}
    (hanswer : x.2.Answers request o (.call call)) (ho : o.site.tree < x.2.trees.length) :
    y.2.IsRegistered call ↔ y.2.outcomeOf call = none := by
  have hy := hx.deeds h
  have hsteps := Deeds.steps h hx.sited
  cases hanswer with
  | @tracked start _ c _ hopen _ ht =>
    obtain ⟨c', hc', hcc⟩ := hsteps.continues call c (unsettled?_eq_some.mp hopen).1
    obtain ⟨hlt, htracker⟩ := hsteps.trackerOf ho
    refine Session.isRegistered_iff hy.attained hc' ?_
    rw [hcc.tracker, ht, ← htracker]
    exact hy.sited.isTracking_trackerOf hlt

/-! ### What a call that gathers others comes to -/

theorem ok_of_results {s : Session} {futures : List Future} {results : List Json}
    (hr : futures.map s.result = results.map fun value => some (.ok value)) {future : Future}
    (hmem : future ∈ futures) : ∃ value, s.result future = some (.ok value) := by
  have hresult : s.result future ∈ futures.map s.result := List.mem_map_of_mem hmem
  rw [hr] at hresult
  obtain ⟨value, -, hvalue⟩ := List.mem_map.mp hresult
  exact ⟨value, hvalue.symm⟩

theorem Concludes.merge {s : Session} {futures : List Future} {outcome : Outcome}
    (h : s.Concludes futures outcome) {results : List Json}
    (hr : futures.map s.result = results.map fun value => some (.ok value)) :
    outcome = Aggregate.merge results := by
  rcases h with ⟨results', hr', rfl⟩ | ⟨e, rfl, future, hmem, he⟩
  · have hinj : Function.Injective fun value : Json => some (Except.ok value : Outcome) :=
      fun _ _ h => Except.ok.inj (Option.some.inj h)
    rw [hinj.list_map (hr'.symm.trans hr)]
  · obtain ⟨value, hvalue⟩ := ok_of_results hr hmem
    cases he.symm.trans hvalue

/-- What holds of a call that gathers futures, or has gathered them. -/
structure Collects (s : Session) (call : Nat) (futures : List Future) : Prop where
  gathers : s.Gathers call futures
  /-- If all succeed, the outcome can only be the merge of the results in their order, and the next
  poll gives it. -/
  merges : ∀ results, futures.map s.result = results.map (fun value => some (.ok value)) →
    (∀ outcome, s.outcomeOf call = some outcome → outcome = Aggregate.merge results) ∧
      (s.poll call).outcomeOf call = some (Aggregate.merge results)
  /-- If one has failed, the call fails as one of them has. -/
  fails : ∀ future ∈ futures, ∀ e, s.result future = some (.error e) →
    ∀ outcome, s.outcomeOf call = some outcome →
      ∃ failed ∈ futures, ∃ e', s.result failed = some (.error e') ∧ outcome = .error e'
  /-- A call that has succeeded has the results of all. -/
  whole : ∀ value, s.outcomeOf call = some (.ok value) → ∃ results,
    futures.map s.result = results.map (fun value => some (.ok value)) ∧
      Aggregate.merge results = .ok value
  ends : (∀ future ∈ futures, (s.result future).isSome = true) →
    ((s.poll call).outcomeOf call).isSome = true

section Gathers

variable {s : Session} (hs : Regular ([], s)) {call : Nat} {futures : List Future}
  (hg : s.Gathers call futures)
include hs hg

theorem Regular.concludes {outcome : Outcome} (ho : s.outcomeOf call = some outcome) :
    s.Concludes futures outcome := by
  obtain ⟨c, g, hc, hw, rfl⟩ := hg
  obtain ⟨c', hc', ho'⟩ := Option.bind_eq_some_iff.mp ho
  obtain rfl := Option.some.inj (hc.symm.trans hc')
  exact hs.judged call c g outcome hc hw ho'

theorem Regular.poll_ends (hall : ∀ future ∈ futures, (s.result future).isSome = true) :
    ((s.poll call).outcomeOf call).isSome = true := by
  obtain ⟨c, g, hc, hw, rfl⟩ := hg
  cases ho : c.outcome with
  | some outcome =>
    have houtcome : s.outcomeOf call = some outcome := by simp [outcomeOf, hc, ho]
    rw [(poll_steps hs.sited call).undisturbed.calls.outcomeOf houtcome]
    rfl
  | none =>
    have hgathering := gathering?_eq_some (unsettled?_eq_some.mpr ⟨hc, ho⟩) hw
    exact hs.wired.poll_settles hs.sited hs.attained.depth_pos hgathering hall

theorem Regular.collects : s.Collects call futures where
  gathers := hg
  merges results hresults := by
    refine ⟨fun outcome ho => (hs.concludes hg ho).merge hresults, ?_⟩
    have hall : ∀ future ∈ futures, (s.result future).isSome = true := by
      intro future hmem
      obtain ⟨value, hvalue⟩ := ok_of_results hresults hmem
      rw [hvalue]
      rfl
    obtain ⟨outcome, ho⟩ := Option.isSome_iff_exists.mp (hs.poll_ends hg hall)
    have hpoll := poll_steps hs.sited call
    have hs' : Regular ([], s.poll call) := hs.deeds (poll_moves [] hs.sited call).deeds
    have htells : (Progress.complete results).Tells s futures := hresults
    rw [ho, (hs'.concludes (hpoll.gathers hg) ho).merge (htells.later hpoll.undisturbed.calls)]
  fails future hmem e he outcome ho := by
    rcases hs.concludes hg ho with ⟨results, hresults, rfl⟩ | ⟨e', rfl, failed, hfailed, he'⟩
    · obtain ⟨value, hvalue⟩ := ok_of_results hresults hmem
      cases he.symm.trans hvalue
    · exact ⟨failed, hfailed, e', he', rfl⟩
  whole value ho := by
    rcases hs.concludes hg ho with ⟨results, hresults, heq⟩ | ⟨e', heq, -⟩
    · exact ⟨results, hresults, heq.symm⟩
    · cases heq
  ends := hs.poll_ends hg

end Gathers

/-! ### The course of a call -/

/-- A call that is to call the operations with some paths. -/
def IsToCall (s : Session) (call : Nat) (site : Site) (ids : List String) (request : Request) :
    Prop :=
  ∃ c, s.unsettled? call = some c ∧ c.work = .aggregate site ids request

/-- Operations are called with a request in one change: each gives its future, in their order, and
the new calls are those of the futures. -/
structure Fans (s : Session) (request : Request) (operations : List Operation)
    (futures : List Future) (s' : Session) : Prop where
  answers : List.Forall₂ (s'.Answers request) operations futures
  numbers : futures.filterMap Future.number? =
    List.range' s.calls.length (s'.calls.length - s.calls.length)

theorem fanOut_fans {s : Session} {call : Nat} (hcall : call < s.calls.length) (request : Request)
    (operations : List Operation) :
    s.Fans request operations (s.invokeAll request operations).1
      (s.fanOut call request operations) where
  answers := fanOut_answers hcall
  numbers := by rw [fanOut_length, (invokeAll_invokes s request operations).numbers]

theorem rootOf?_of_isAlive {s : Session} {site : Site} {compiled : Compiled}
    (hget : s.compiled[site.tree]? = some compiled) (halive : s.isAlive site.tree = true) :
    s.rootOf? site = some compiled.root := by
  rw [Session.compiled, List.getElem?_map] at hget
  obtain ⟨tree, htree, rfl⟩ := Option.map_eq_some_iff.mp hget
  simp [rootOf?, halive, htree]

section Resolve

variable {s : Session} {site : Site} {ids : List String} {operations : List Operation}
  {compiled : Compiled} (hget : s.compiled[site.tree]? = some compiled)
  (hall : findAll compiled.root ids = .ok operations)
include hget hall

end Resolve

section Aggregate

variable {x : Hand × Session} (hx : Regular x) {compiled : Compiled} {o : Operation}
  {ids : List String} (hget : x.2.compiled[o.site.tree]? = some compiled)
  (ho : o ∈ compiled.root.operations) (hlists : o.Lists ids)

variable {operations : List Operation} (hall : findAll compiled.root ids = .ok operations)
include hx hget ho hlists hall

end Aggregate

/-! ### The calls of the targets in a run -/

namespace Run

variable {run : Run}

/-- From some time on a call has an outcome and is not registered. -/
def Leaves (run : Run) (call : Nat) : Prop :=
  ∃ i, ∀ j, i ≤ j → ((run.states j).outcomeOf call).isSome = true ∧
    ¬ (run.states j).IsRegistered call

theorem Has.leaves {compiled : Compiled} {o : Operation} {call : Nat}
    (h : run.Has compiled o call) (hends : run.Ends call) : run.Leaves call := by
  obtain ⟨hx, later, hget, -, hanswer⟩ := h
  rename_i x i request
  obtain ⟨j, hij, hj⟩ := hends.at_later i
  obtain ⟨outcome, ho⟩ := Option.isSome_iff_exists.mp hj
  have hlt := lt_of_compiled hget
  refine ⟨j, fun j' hjj' => ?_⟩
  have ho' := (run.continues hjj').outcomeOf ho
  have hregistered :=
    hanswer.isRegistered_iff hx (later.trans (run.deeds (Nat.le_trans hij hjj'))) hlt
  exact ⟨by rw [ho']; rfl, fun h => by cases ho'.symm.trans (hregistered.mp h)⟩

end Run

section Targets

variable {x : Hand × Session} (hx : Regular x) {compiled : Compiled} {o : Operation}
  {ids : List String} {operations : List Operation}
  (hget : x.2.compiled[o.site.tree]? = some compiled) (ho : o ∈ compiled.root.operations)
  (hlists : o.Lists ids) (hall : findAll compiled.root ids = .ok operations)
include hx hget ho hlists hall

end Targets

def dashboard : Json :=
  .object [
    ("profile", .object [("mockResponse", .object [("name", .string "Ada"), ("id", .string "p")])]),
    ("theme", .object [("mockResponse", .object [("mode", .string "dark"), ("id", .string "t")])]),
    ("dashboard", .object [("asyncModule", .string "aggregator"), ("operationDetails",
      .object [("operationIds", .array [.string "profile", .string "theme"])])])]

def dashboardOperation : Operation where
  site := ⟨0, ["dashboard"]⟩
  path := "dashboard"
  module := some "aggregator"
  isCanned := false
  action := .tracked fun request => .aggregate ⟨0, ["dashboard"]⟩ ["profile", "theme"] request

end OperationTree.Session
