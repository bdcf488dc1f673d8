import OperationTree.Proofs.Session.Descent
import OperationTree.Proofs.Session.Phase

/-! What is outstanding when a shutdown closes modules.  A shutdown awaits the calls that are
registered when it is first polled, so every call of the tree that is there by then has ended.
Calls of targets may come later, as the call of an aggregate may be polled for the first time by
the drain.  An aggregate that succeeds has the results of all of them.  One that fails does not wait
for the others: these, and what they start, are all that can be outstanding. -/

namespace OperationTree.Session

open Relation

/-! ### The calls of a tree -/

def IsCallOf (s : Session) (tree call : Nat) : Prop :=
  ∃ c, s.calls[call]? = some c ∧ tree < s.trees.length ∧ c.tracker = s.trackerOf tree

theorem Answers.isCallOf {s : Session} {request : Request} {o : Operation} {call : Nat}
    (h : s.Answers request o (.call call)) (ho : o.site.tree < s.trees.length) :
    s.IsCallOf o.site.tree call := by
  cases h with
  | tracked _ hc _ ht => exact ⟨_, (unsettled?_eq_some.mp hc).1, ho, ht⟩

section Steps

variable {s s' : Session} (h : Steps s s') {tree call : Nat}
include h

theorem Steps.isCallOf (hs : s.IsCallOf tree call) : s'.IsCallOf tree call := by
  obtain ⟨c, hc, htree, ht⟩ := hs
  obtain ⟨c', hc', hcc⟩ := h.continues call c hc
  obtain ⟨htree', htracker⟩ := h.trackerOf htree
  exact ⟨c', hc', htree', by rw [hcc.tracker, ht, htracker]⟩

/-- A call that is one of a tree has been so from its start on. -/
theorem Steps.isCallOf_earlier (hs' : s'.IsCallOf tree call) (htree : tree < s.trees.length)
    (hcall : call < s.calls.length) : s.IsCallOf tree call := by
  obtain ⟨c', hc', -, ht⟩ := hs'
  have hc : s.calls[call]? = some s.calls[call] := List.getElem?_eq_getElem hcall
  obtain ⟨c1, hc1, hcc⟩ := h.continues call _ hc
  obtain rfl := Option.some.inj (hc'.symm.trans hc1)
  exact ⟨s.calls[call], hc, htree, by rw [← hcc.tracker, ht, (h.trackerOf htree).2]⟩

end Steps

theorem IsCallOf.exists_entry {s : Session} (hs : s.Attained) {tree call : Nat}
    (h : s.IsCallOf tree call) (hopen : s.outcomeOf call = none) :
    ∃ t, s.trees[tree]? = some t ∧ ∃ entry ∈ (s.tracker t.tracker).entries, entry.2 = call := by
  obtain ⟨c, hc, htree, htracker⟩ := h
  have hget : s.trees[tree]? = some s.trees[tree] := List.getElem?_eq_getElem htree
  refine ⟨s.trees[tree], hget, ?_⟩
  have htracking := hs.sited.isTracking_trackerOf htree
  obtain ⟨c', hc', hmem⟩ := (isRegistered_iff hs hc (htracker ▸ htracking)).mpr hopen
  obtain rfl := Option.some.inj (hc.symm.trans hc')
  have heq : s.trackerOf tree = s.trees[tree].tracker := by simp [trackerOf, hget]
  rw [htracker, heq] at hmem
  exact List.mem_map.mp hmem

/-- A call of a tree that has been there when a shutdown was first polled has ended when the
shutdown closes modules. -/
theorem IsCallOf.settled {s : Session} (hs : s.Attained) {n : Nat} {sd : Shutdown}
    (hn : s.heldShutdown? n = some sd) (hf : sd.stage = .fresh) {call : Nat}
    (h : s.IsCallOf sd.tree call) {u : Session} (hu : Steps (s.pollShutdown n) u)
    (hclosed : u.closedBy n ≠ []) : (u.outcomeOf call).isSome = true := by
  have hpoll := pollShutdown_steps hs.sited n
  cases ho : s.outcomeOf call with
  | some outcome =>
    have hsteps : Steps s u := hpoll.trans hu
    rw [hsteps.continues.outcomeOf ho]
    rfl
  | none =>
    obtain ⟨tree, hget, entry, hentry, rfl⟩ := h.exists_entry hs ho
    have hopen : tree.phase ≠ .closed := fun hphase => by
      have hnone := closingsBy_of_closed hs hn hf (by rw [phaseOf, hget]; exact hphase) hu
      rw [← closedBy_docket, hnone] at hclosed
      exact hclosed rfl
    -- A shutdown that drains has closed nothing, so this one is past its drain.
    have hawaits := Steps.awaits (hs.steps hpoll) hu (pollShutdown_awaits hn hf hget hopen hs).1
    rcases hawaits with ⟨sd', drain, hn', -, hd, -⟩ | ⟨-, hall⟩
    · exact absurd (((hs.steps hpoll).steps hu).closedBy_draining hn' hd) hclosed
    · exact hall entry hentry

/-! ### The calls that a call has started -/

/-- A call gathers another one. -/
def HasCalled (s : Session) (call other : Nat) : Prop :=
  ∃ futures, s.Gathers call futures ∧ .call other ∈ futures

/-- A call has not ended, and an aggregate that gathers it has failed as another target has. -/
def IsLeftBy (s : Session) (aggregate call : Nat) : Prop :=
  s.outcomeOf call = none ∧ ∃ futures failed e, s.Gathers aggregate futures ∧
    .call call ∈ futures ∧ failed ∈ futures ∧ s.result failed = some (.error e) ∧
    s.outcomeOf aggregate = some (.error e)

theorem IsLeftBy.hasCalled {s : Session} {aggregate call : Nat} (h : s.IsLeftBy aggregate call) :
    s.HasCalled aggregate call := by
  obtain ⟨-, futures, _, _, hg, hmem, -⟩ := h
  exact ⟨futures, hg, hmem⟩

section Ended

variable {u : Session} (hu : Regular ([], u)) {call m : Nat}
include hu

theorem Regular.started_succeeded (hcall : ∃ value, u.outcomeOf call = some (.ok value))
    (hm : ReflTransGen u.HasCalled call m) : ∃ value, u.outcomeOf m = some (.ok value) := by
  induction hm with
  | refl => exact hcall
  | @tail a m _ hcalled ih =>
    obtain ⟨value, ha⟩ := ih
    obtain ⟨futures, hg, hmem⟩ := hcalled
    obtain ⟨results, hresults, -⟩ := (hu.collects hg).whole value ha
    exact ok_of_results hresults hmem

/-- What a call that has ended has started has ended, or is outstanding below an aggregate that has
failed. -/
theorem Regular.started_ended (hcall : (u.outcomeOf call).isSome = true)
    (hm : ReflTransGen u.HasCalled call m) :
    (u.outcomeOf m).isSome = true ∨
      ∃ a b, ReflTransGen u.HasCalled call a ∧ u.IsLeftBy a b ∧ ReflTransGen u.HasCalled b m := by
  induction hm with
  | refl => exact .inl hcall
  | @tail a m hbefore hcalled ih =>
    rcases ih with ha | ⟨a', b, hreach, hleft, hbelow⟩
    · cases hopen : u.outcomeOf m with
      | some => exact .inl rfl
      | none =>
        obtain ⟨outcome, ha⟩ := Option.isSome_iff_exists.mp ha
        obtain ⟨futures, hg, hmem⟩ := hcalled
        rcases hu.concludes hg ha with ⟨results, hresults, -⟩ | ⟨e, rfl, failed, hfailed, he⟩
        · obtain ⟨value, hvalue⟩ := ok_of_results hresults hmem
          cases hvalue.symm.trans hopen
        · exact .inr ⟨a, m, hbefore, ⟨hopen, futures, failed, e, hg, hmem, hfailed, he, ha⟩, .refl⟩
    · exact .inr ⟨a', b, hreach, hleft, hbelow.tail hcalled⟩

end Ended

namespace Run

/-- The run in which nothing is done. -/
def still (s : Session) (hs : Regular ([], s)) : Run where
  states _ := s
  actions _ := .release s.calls.length
  start := hs
  step _ := by simp [perform, release, List.modify_eq_self]
  isRegular _ := trivial

theorem Has.isCallOf {run : Run} {compiled : Compiled} {o o' : Operation} {call : Nat}
    (h : run.Has compiled o' call) (ho : o ∈ compiled.root.operations) :
    ∃ i, (run.states i).IsCallOf o.site.tree call := by
  obtain ⟨hx, later, hget, -, hanswer⟩ := h
  rename_i i _
  rw [(hx.orderly.trees _ _ hget).2 o ho]
  exact ⟨i, (Deeds.steps later hx.sited).isCallOf (hanswer.isCallOf (lt_of_compiled hget))⟩

end Run

section Invoked

variable {x : Hand × Session} {compiled : Compiled} {o : Operation}
  (hget : x.2.compiled[o.site.tree]? = some compiled) (ho : o ∈ compiled.root.operations)
  {request : Request} (hx : Regular x) {call : Nat}
  (hcall : (x.2.invoke o request).1 = .call call)
include hget ho hx hcall

theorem isCallOf_of_hasCalled {u : Session}
    (later : Deeds Action.IsRegular (x.1, (x.2.invoke o request).2) ([], u)) {m : Nat}
    (hm : ReflTransGen u.HasCalled call m) : u.IsCallOf o.site.tree m := by
  have hu : Regular ([], u) := hx.deeds ((invoke_deeds hget ho request).trans later)
  have hhas : (Run.still u hu).Has compiled o call :=
    .of_invoke hx hget ho hcall (i := 0) later
  have hstarted : m ∈ (Run.still u hu).started call :=
    hm.lift id fun _ _ ⟨futures, hg, hmem⟩ => ⟨0, futures, hg, hmem⟩
  obtain ⟨o', -, hhas'⟩ := hhas.of_started hstarted
  obtain ⟨_, hcallOf⟩ := hhas'.isCallOf ho
  exact hcallOf

variable {s : Session} (before : Deeds Action.IsRegular (x.1, (x.2.invoke o request).2) ([], s))
  {n : Nat} {sd : Shutdown} (hn : s.heldShutdown? n = some sd) (hf : sd.stage = .fresh)
  (hsame : sd.tree = o.site.tree) {u : Session}
  (after : Deeds Action.IsRegular ([], s.pollShutdown n) ([], u)) (hclosed : u.closedBy n ≠ [])
include before hn hf hsame after hclosed

theorem ended_of_closedBy : (u.outcomeOf call).isSome = true := by
  have hs : Regular ([], s) := hx.deeds ((invoke_deeds hget ho request).trans before)
  have hpolled := hs.deeds (pollShutdown_deeds Action.IsRegular [] hs.sited n)
  have hcallOf := isCallOf_of_hasCalled hget ho hx hcall before .refl
  rw [← hsame] at hcallOf
  exact hcallOf.settled hs.attained hn hf (Deeds.steps after hpolled.sited) hclosed

/-- Open calls below the invocation have been started since the shutdown was first polled. -/
theorem length_le_of_closedBy {m : Nat} (hm : ReflTransGen u.HasCalled call m)
    (hopen : u.outcomeOf m = none) : s.calls.length ≤ m := by
  have hinvoked := (invoke_deeds hget ho request).trans before
  have hs : Regular ([], s) := hx.deeds hinvoked
  have hpoll := pollShutdown_deeds Action.IsRegular [] hs.sited n
  have hlt := lt_of_compiled hget
  by_contra hearly
  have hcallOf : s.IsCallOf o.site.tree m := by
    have hlater := isCallOf_of_hasCalled hget ho hx hcall (before.trans (hpoll.trans after)) hm
    exact (Deeds.steps (hpoll.trans after) hs.sited).isCallOf_earlier hlater
      ((Deeds.steps hinvoked hx.sited).trackerOf hlt).1 (Nat.lt_of_not_le hearly)
  rw [← hsame] at hcallOf
  have hended := hcallOf.settled hs.attained hn hf
    (Deeds.steps after (hs.deeds hpoll).sited) hclosed
  rw [hopen] at hended
  cases hended

end Invoked

/-- What an invocation leaves when a shutdown closes modules that has first been polled after it.
It has ended.  If it has succeeded, so has all that it has started.  Otherwise this has ended too,
but for calls that have been started since that poll and that are, or are below, a target that an
aggregate has left when another of its targets failed. -/
theorem Regular.outstanding {x : Hand × Session} (hx : Regular x) {tree : TreeState} {o : Operation}
    (htree : x.2.trees[o.site.tree]? = some tree) (ho : o ∈ tree.compiled.root.operations)
    (request : Request) {s : Session}
    (before : Deeds Action.IsRegular (x.1, (x.2.invoke o request).2) ([], s)) {n : Nat}
    {sd : Shutdown} (hn : s.heldShutdown? n = some sd) (hf : sd.stage = .fresh)
    (hsame : sd.tree = o.site.tree) {u : Session}
    (after : Deeds Action.IsRegular ([], s.pollShutdown n) ([], u)) (hclosed : u.closedBy n ≠ []) :
    (u.result (x.2.invoke o request).1).isSome = true ∧
    ∀ call, (x.2.invoke o request).1 = .call call →
      ((∃ value, u.outcomeOf call = some (.ok value)) →
        ∀ m, ReflTransGen u.HasCalled call m → ∃ value, u.outcomeOf m = some (.ok value)) ∧
      ∀ m, ReflTransGen u.HasCalled call m → (u.outcomeOf m).isSome = true ∨
        s.calls.length ≤ m ∧ ∃ a b, ReflTransGen u.HasCalled call a ∧ u.IsLeftBy a b ∧
          s.calls.length ≤ b ∧ ReflTransGen u.HasCalled b m := by
  have hget := compiled_of_tree htree
  have hs : Regular ([], s) := hx.deeds ((invoke_deeds hget ho request).trans before)
  have hpoll := pollShutdown_deeds Action.IsRegular [] hs.sited n
  have hu : Regular ([], u) := hs.deeds (hpoll.trans after)
  have hended {call : Nat} (hcall : (x.2.invoke o request).1 = .call call) :=
    ended_of_closedBy hget ho hx hcall before hn hf hsame after hclosed
  refine ⟨?_, fun call hcall => ⟨fun hok m hm => hu.started_succeeded hok hm, fun m hm => ?_⟩⟩
  · cases hfuture : (x.2.invoke o request).1 with
    | settled => rfl
    | call call => exact hended hfuture
  · have hlate {m : Nat} (hm : ReflTransGen u.HasCalled call m) (hopen : u.outcomeOf m = none) :=
      length_le_of_closedBy hget ho hx hcall before hn hf hsame after hclosed hm hopen
    rcases hu.started_ended (hended hcall) hm with h | ⟨a, b, ha, hleft, hbelow⟩
    · exact .inl h
    · refine or_iff_not_imp_left.mpr fun hopen => ?_
      refine ⟨hlate hm (by simpa using hopen), a, b, ha, hleft, ?_, hbelow⟩
      exact hlate (ha.tail hleft.hasCalled) hleft.1

/-! ### A shutdown that waits for an aggregate that succeeds -/

/-- The dashboard has been invoked, and a shutdown has been asked for and not been polled. -/
def dashboardLeaving : Session := dashboardReady.after [.invoke 0 "dashboard" {}, .addShutdown 0]

theorem outstanding_dashboard :
    (dashboardLeaving.pollShutdown 0).closedBy 0 = ["aggregator"] ∧
    ∀ m, ReflTransGen (dashboardLeaving.pollShutdown 0).HasCalled 0 m →
      ∃ value, (dashboardLeaving.pollShutdown 0).outcomeOf m = some (.ok value) := by
  have hoperation : (Compiled.ofDefinition Catalog.standard {} 0 dashboard).root.operationAt?
      "dashboard" = some dashboardOperation := rfl
  have hmem := Node.operationAt?_mem hoperation
  have hready : Regular ([], dashboardReady) := .ofStandard (by decide +kernel) (by simp)
  have hinvoked : Regular ([], (dashboardReady.invoke dashboardOperation {}).2) :=
    hready.deeds (invoke_deeds rfl hmem {})
  have before : Deeds Action.IsRegular ([], (dashboardReady.invoke dashboardOperation {}).2)
      ([], (dashboardReady.invoke dashboardOperation {}).2.after [.addShutdown 0]) :=
    after_deeds _ [] hinvoked.sited (by simp [Action.IsRegular])
  have hclosed : (dashboardLeaving.pollShutdown 0).closedBy 0 = ["aggregator"] := by decide +kernel
  obtain ⟨-, h⟩ := Regular.outstanding hready rfl hmem {} before (n := 0) rfl rfl rfl .refl
    (hclosed ▸ List.cons_ne_nil _ _)
  exact ⟨hclosed, (h 0 rfl).1 ⟨_, rfl⟩⟩

/-! ### A shutdown that closes a module of a call that is open -/

/-- Aggregates, calls that fail, and calls that wait for gates. -/
def failingAndGated : Catalog where
  transports :=
    [("aggregator", .aggregator),
      ("f", { name := "f", call? := fun _ _ _ => some (Job.failing .aggregate) }),
      ("g", { name := "g", call? := fun _ _ _ => some fun _ => .gated })]

theorem failingAndGated_isSteady : failingAndGated.IsSteady := by
  intro name transport h
  obtain ⟨before, after, heq, -⟩ := List.lookup_eq_some_iff.mp h
  have hmem : (name, transport) ∈ failingAndGated.transports := by simp [heq]
  simp only [failingAndGated, List.mem_cons, Prod.mk.injEq, List.not_mem_nil, or_false] at hmem
  rcases hmem with ⟨-, rfl⟩ | ⟨-, rfl⟩ | ⟨-, rfl⟩
  · exact Transport.aggregator_isSteady
  · refine ⟨fun context _ _ start h => ?_, fun _ _ _ h => nomatch h⟩
    exact Option.some.inj h ▸ Transport.keeps_failing context.site _
  · refine ⟨fun context _ _ start h => ?_, fun _ _ _ h => nomatch h⟩
    exact Option.some.inj h ▸ .inl fun _ _ _ _ => nofun

def badAndSlow : Json :=
  .object [
    ("all", .object [("asyncModule", .string "aggregator"), ("operationDetails",
      .object [("operationIds", .array [.string "bad", .string "slow"])])]),
    ("bad", .object [("asyncModule", .string "f"), ("operationDetails", .object [])]),
    ("slow", .object [("asyncModule", .string "g"), ("operationDetails", .object [])])]

def badAndSlowReady : Session :=
  (initial true {}).after [.addTracker, .addTree failingAndGated {} 0 badAndSlow]

/-- The aggregate has been invoked, and a shutdown has been asked for and not been polled. -/
def badAndSlowLeaving : Session := badAndSlowReady.after [.invoke 0 "all" {}, .addShutdown 0]

def badAndSlowOperation : Operation where
  site := ⟨0, ["all"]⟩
  path := "all"
  module := some "aggregator"
  isCanned := false
  action := .tracked fun request => .aggregate ⟨0, ["all"]⟩ ["bad", "slow"] request

/-- The drain polls the aggregate, which starts two calls and fails with the first.  Then the module
of the second is closed, and its call is open. -/
theorem not_ended_badAndSlow :
    ¬ ∀ x : Hand × Session, Regular x → ∀ (tree : TreeState) (o : Operation),
      x.2.trees[o.site.tree]? = some tree → o ∈ tree.compiled.root.operations →
      ∀ (request : Request) (call : Nat), (x.2.invoke o request).1 = .call call →
        ∀ s : Session, Deeds Action.IsRegular (x.1, (x.2.invoke o request).2) ([], s) →
          ∀ (n : Nat) (sd : Shutdown), s.heldShutdown? n = some sd → sd.stage = .fresh →
            sd.tree = o.site.tree → ∀ u : Session,
              Deeds Action.IsRegular ([], s.pollShutdown n) ([], u) → u.closedBy n ≠ [] →
                ∀ m, ReflTransGen u.HasCalled call m → (u.outcomeOf m).isSome = true := by
  intro h
  have hoperation : (Compiled.ofDefinition failingAndGated {} 0 badAndSlow).root.operationAt?
      "all" = some badAndSlowOperation := rfl
  have hmem := Node.operationAt?_mem hoperation
  have hready : Regular ([], badAndSlowReady) := by
    refine (Regular.initial true {}).deeds (after_deeds _ [] (initial_sited true {}) ?_)
    simp only [List.mem_cons, List.not_mem_nil, or_false, forall_eq_or_imp, forall_eq]
    exact ⟨trivial, failingAndGated_isSteady.isProper, by decide +kernel⟩
  have hinvoked : Regular ([], (badAndSlowReady.invoke badAndSlowOperation {}).2) :=
    hready.deeds (invoke_deeds rfl hmem {})
  have before : Deeds Action.IsRegular ([], (badAndSlowReady.invoke badAndSlowOperation {}).2)
      ([], (badAndSlowReady.invoke badAndSlowOperation {}).2.after [.addShutdown 0]) :=
    after_deeds _ [] hinvoked.sited (by simp [Action.IsRegular])
  have hclosed : (badAndSlowLeaving.pollShutdown 0).closedBy 0 ≠ [] := by decide +kernel
  have hopen : (badAndSlowLeaving.pollShutdown 0).outcomeOf 2 = none := rfl
  have hcalled : (badAndSlowLeaving.pollShutdown 0).HasCalled 0 2 :=
    ⟨[.call 1, .call 2], ⟨_, _, rfl, rfl, rfl⟩, by simp⟩
  have hended := h _ hready _ _ rfl hmem {} 0 rfl badAndSlowLeaving before 0 _ rfl rfl rfl _ .refl
    hclosed 2 (.single hcalled)
  exact Option.isSome_iff_ne_none.mp hended hopen

end OperationTree.Session
