import OperationTree.Proofs.Session.Evolution
import OperationTree.Proofs.Session.Regular
import OperationTree.Proofs.Session.Settling
import OperationTree.Proofs.Session.Spawning

/-! Endless runs.  When the scheduler keeps polling the calls that it has been given and the world
outside gives what calls wait for, every call ends whose operation does not call others in a circle,
whatever becomes of those who have started it.  That is proved for one call at a time, of which only
what is asked for this call is assumed (`Tends`); a fair run does it for all calls. -/

namespace OperationTree

theorem Operation.CanStart.calls {root : Node Operation} {o o' : Operation}
    (h : o.CanStart root o') : o.Calls root o' := by
  obtain ⟨ids, operations, hcan, hall, ho'⟩ := h
  obtain ⟨id, hid, hat⟩ := exists_of_forall₂ (Session.findAll_eq_ok.mp hall) ho'
  exact ⟨ids, hcan, id, hid, hat⟩

namespace Session

theorem outcomeOf_of_unsettled {s : Session} {call : Nat} {c : Call}
    (hc : s.unsettled? call = some c) : s.outcomeOf call = none := by
  obtain ⟨hget, hopen⟩ := unsettled?_eq_some.mp hc
  simp [outcomeOf, hget, hopen]

theorem poll_found {s : Session} (hd : 1 ≤ s.depth) {call : Nat} {c : Call} {site : Site}
    {ids : List String} {request : Request} {operations : List Operation}
    (hc : s.unsettled? call = some c) (hw : c.work = .aggregate site ids request)
    (hfound : (s.resolve site ids).1 = .ok operations) :
    s.poll call = pollTargets (pollWithin (s.depth - 1))
      ((s.resolve site ids).2.fanOut call request operations) call := by
  have heq : s.resolve site ids = (.ok operations, (s.resolve site ids).2) := by
    rw [← hfound]
  rw [poll_unsettled hd hc, hw, advance, heq]
  rfl

/-- A poll of a call that finds its operations is one after it has called them. -/
theorem poll_fanOut {s : Session} (hd : 1 ≤ s.depth) (hs : s.Sited) {call : Nat} {c : Call}
    {site : Site} {ids : List String} {request : Request} {operations : List Operation}
    (hc : s.unsettled? call = some c) (hw : c.work = .aggregate site ids request)
    (hfound : (s.resolve site ids).1 = .ok operations) :
    ∃ s1, Moves ([], s) ([], s1) ∧ s1.unsettled? call = some c ∧
      s1.resolved.lookup site = some operations ∧
      Moves ([], s1.fanOut call request operations) ([], s.poll call) := by
  obtain ⟨hresolve, hkept⟩ := resolve_moves [] hc hw
  have hcalls := resolve_calls s site ids
  have hopen : (s.resolve site ids).2.unsettled? call = some c := by rwa [unsettled?, hcalls]
  have hs1 := (Moves.steps hresolve hs).sited hs
  have hs2 := (fanOut_steps hs1 hopen hw (hkept operations hfound)).sited hs1
  refine ⟨_, hresolve, hopen, hkept operations hfound, ?_⟩
  rw [poll_found hd hc hw hfound]
  exact pollTargets_moves (pollWithin_moves _) [] hs2 call

/-- After a poll a call has called the others, or has ended. -/
theorem poll_aggregate {s : Session} (hs : s.Sited) (hd : 1 ≤ s.depth) {call : Nat} {c : Call}
    {site : Site} {ids : List String} {request : Request} (hc : s.unsettled? call = some c)
    (hw : c.work = .aggregate site ids request) :
    ((s.poll call).outcomeOf call).isSome = true ∨
      ∃ futures, (s.poll call).Gathers call futures := by
  cases hresolve : (s.resolve site ids).1 with
  | error e =>
    rw [poll_unsettled hd hc, hw, advance, resolve_error hresolve]
    exact .inl (settle_isSome (unsettled?_eq_some.mp hc).1 (.error e))
  | ok operations =>
    obtain ⟨s1, hmoves, hopen, hlookup, hpoll⟩ := poll_fanOut hd hs hc hw hresolve
    have hs1 := (Moves.steps hmoves hs).sited hs
    have hs2 := (fanOut_steps hs1 hopen hw hlookup).sited hs1
    exact .inr ⟨_, (Moves.steps hpoll hs2).gathers (fanOut_gathers request operations hopen)⟩

/-- After a poll something outside has been asked, or has refused. -/
theorem poll_exchange {s : Session} (hd : 1 ≤ s.depth) {call : Nat} {c : Call} {e : Exchange}
    (hc : s.unsettled? call = some c) (hw : c.work = .exchange e) :
    ((s.poll call).outcomeOf call).isSome = true ∨
      ∃ c' outcome, (s.poll call).unsettled? call = some c' ∧ c'.work = .answered outcome := by
  obtain ⟨hget, hopen⟩ := unsettled?_eq_some.mp hc
  rw [poll_unsettled hd hc, hw, advance]
  split
  · exact .inl (settle_isSome hget _)
  · refine .inr ⟨{ c with work := .answered (e.perform s.outside).1 }, _,
      unsettled?_eq_some.mpr ⟨?_, hopen⟩, rfl⟩
    simp [setWork, hget]

/-- An answer that has arrived is there, unless the call has ended. -/
theorem arrive_answered {s : Session} (hs : s.Sited) {call : Nat} {c : Call} {outcome : Outcome}
    (hc : s.unsettled? call = some c) (hw : c.work = .answered outcome) :
    ((s.arrive call).outcomeOf call).isSome = true ∨
      ∃ c', (s.arrive call).unsettled? call = some c' ∧ c'.work = .ready outcome := by
  obtain ⟨hget, hopen⟩ := unsettled?_eq_some.mp hc
  have hanswer : answer? c = some outcome := by rw [answer?, hw]
  have hset : (s.setWork call (.ready outcome)).unsettled? call =
      some { c with work := .ready outcome } :=
    unsettled?_eq_some.mpr ⟨by simp [setWork, hget], hopen⟩
  have hs1 : (s.setWork call (.ready outcome)).Sited := hs.of_trackers rfl rfl fun _ h => h
  have hwake := (wake_nudges [] (s.setWork call (.ready outcome)) (.call call)).moves
  rw [arrive, hc, Option.bind_some, hanswer]
  rcases Moves.evolves hwake hs1 hset with hended | ⟨c', hc', hevolves⟩
  · exact .inl hended
  · exact .inr ⟨c', hc', hevolves.of_ready⟩

/-! ### Runs -/

/-- What is done in a regular session from some time on, for ever. -/
structure Run where
  states : Nat → Session
  actions : Nat → Action
  start : Regular ([], states 0)
  step : ∀ i, states (i + 1) = (states i).perform (actions i)
  isRegular : ∀ i, (actions i).IsRegular

namespace Run

/-- A call is polled, by itself or as the first task that is queued. -/
def Polls (run : Run) (i call : Nat) : Prop :=
  run.actions i = .poll call ∨
    run.actions i = .runNext ∧ ∃ task rest, (run.states i).queue = task :: rest ∧
      (run.states i).tasks[task]? = some (.call call)

/-- There is a scheduler that keeps polling the calls that it has been given, until they end, and
the world outside settles the gates and gives the answers that calls wait for. -/
structure IsFair (run : Run) : Prop where
  hasScheduler : (run.states 0).hasScheduler = true
  polls : ∀ i call, .call call ∈ (run.states i).tasks →
    ∃ j, i ≤ j ∧ (((run.states j).outcomeOf call).isSome = true ∨ run.Polls j call)
  gates : ∀ i call c gate, (run.states i).unsettled? call = some c → c.work = .gate gate →
    ∃ j, i ≤ j ∧ ((run.states j).gateOutcome gate).isSome = true
  answers : ∀ i call c outcome, (run.states i).unsettled? call = some c →
    c.work = .answered outcome → ∃ j, i ≤ j ∧ run.actions j = .arrive call

/-- A call is polled again and again until it ends. -/
def KeepsPolling (run : Run) (call : Nat) : Prop :=
  ∀ i c, (run.states i).unsettled? call = some c →
    ∃ j, i ≤ j ∧ (((run.states j).outcomeOf call).isSome = true ∨ run.Polls j call)

/-- A call is polled until it ends, and the world outside gives it what it waits for. -/
structure Tends (run : Run) (call : Nat) : Prop where
  polls : run.KeepsPolling call
  gates : ∀ i c gate, (run.states i).unsettled? call = some c → c.work = .gate gate →
    ∃ j, i ≤ j ∧ ((run.states j).gateOutcome gate).isSome = true
  answers : ∀ i c outcome, (run.states i).unsettled? call = some c →
    c.work = .answered outcome → ∃ j, i ≤ j ∧ run.actions j = .arrive call

def Ends (run : Run) (call : Nat) : Prop := ∃ i, ((run.states i).outcomeOf call).isSome = true

/-- One call gathers another one. -/
def Gathers (run : Run) (call other : Nat) : Prop :=
  ∃ i futures, (run.states i).Gathers call futures ∧ .call other ∈ futures

/-- A call of an operation of a tree that has been started before some time of a run. -/
inductive Has (run : Run) (compiled : Compiled) (o : Operation) (call : Nat) : Prop
  | intro {x : Hand × Session} {i : Nat} {request : Request} (hx : Regular x)
    (later : Deeds Action.IsRegular x ([], run.states i))
    (hget : x.2.compiled[o.site.tree]? = some compiled) (ho : o ∈ compiled.root.operations)
    (h : x.2.Answers request o (.call call))

variable {run : Run}

theorem regular (run : Run) (i : Nat) : Regular ([], run.states i) := by
  induction i with
  | zero => exact run.start
  | succ i ih =>
    rw [run.step]
    exact ih.deeds (perform_deeds _ [] ih.sited (run.isRegular i))

theorem deeds (run : Run) {i j : Nat} (hij : i ≤ j) :
    Deeds Action.IsRegular ([], run.states i) ([], run.states j) := by
  induction hij with
  | refl => exact .refl
  | @step j _ ih =>
    refine ih.trans ?_
    rw [run.step]
    exact perform_deeds _ [] (run.regular j).sited (run.isRegular j)

theorem continues (run : Run) {i j : Nat} (hij : i ≤ j) :
    (run.states i).CallsContinue (run.states j) :=
  (Deeds.steps (run.deeds hij) (run.regular i).sited).continues

/-- A call that has not ended goes on, or ends. -/
theorem evolves (run : Run) {i j call : Nat} {c : Call} (hij : i ≤ j)
    (hc : (run.states i).unsettled? call = some c) :
    run.Ends call ∨ ∃ c', (run.states j).unsettled? call = some c' ∧ c.work.Evolves c'.work :=
  (Deeds.evolves (run.deeds hij) (run.regular i).sited hc).imp_left fun hended => ⟨j, hended⟩

/-- A poll in a run is one of a session that differs in its queue at most. -/
theorem Polls.poll_eq {i call : Nat} (h : run.Polls i call) :
    ∃ s, Deeds Action.IsRegular ([], run.states i) ([], s) ∧
      run.states (i + 1) = s.poll call := by
  rcases h with haction | ⟨haction, task, rest, hqueue, htask⟩
  · exact ⟨run.states i, .refl, by rw [run.step, haction]; rfl⟩
  · refine ⟨{ run.states i with queue := rest }, .single (.move (.nudge (.queue _ _ _))), ?_⟩
    rw [run.step, haction, perform, runFirst, hqueue]
    simp only [runTask, htask]
    rfl

theorem IsFair.isSpawned (hfair : run.IsFair) (i : Nat) {call : Nat}
    (h : call < (run.states i).calls.length) : .call call ∈ (run.states i).tasks := by
  have hsteps := Deeds.steps (run.deeds (Nat.zero_le i)) (run.regular 0).sited
  refine (run.regular i).spawned ?_ call h
  exact hsteps.tasks.hasScheduler.trans hfair.hasScheduler

theorem IsFair.tends (hfair : run.IsFair) (call : Nat) : run.Tends call where
  polls i _ hc := hfair.polls i call (hfair.isSpawned i (lt_of_unsettled hc))
  gates i := hfair.gates i call
  answers i := hfair.answers i call

section Tends

variable {call : Nat}

/-- A call that goes on is polled some time, unless it ends before. -/
theorem KeepsPolling.exists_poll (hpolls : run.KeepsPolling call) {i : Nat} {c : Call}
    (hc : (run.states i).unsettled? call = some c) :
    run.Ends call ∨ ∃ j s c', i ≤ j ∧ Deeds Action.IsRegular ([], run.states i) ([], s) ∧
      s.unsettled? call = some c' ∧ c.work.Evolves c'.work ∧
      run.states (j + 1) = s.poll call := by
  obtain ⟨j, hij, hended | hpoll⟩ := hpolls i c hc
  · exact .inl ⟨j, hended⟩
  · obtain ⟨s, hs, heq⟩ := hpoll.poll_eq
    have hdeeds := (run.deeds hij).trans hs
    rcases Deeds.evolves hdeeds (run.regular i).sited hc with hended | ⟨c', hc', hevolves⟩
    · have hsited := ((run.regular i).deeds hdeeds).sited
      obtain ⟨outcome, ho⟩ := Option.isSome_iff_exists.mp hended
      refine .inl ⟨j + 1, ?_⟩
      rw [heq, (poll_steps hsited call).undisturbed.calls.outcomeOf ho]
      rfl
    · exact .inr ⟨j, s, c', hij, hdeeds, hc', hevolves, heq⟩

/-- A call ends if a poll of it would end it at any time. -/
theorem KeepsPolling.ends_of_poll (hpolls : run.KeepsPolling call) {i : Nat} {c : Call}
    (hc : (run.states i).unsettled? call = some c)
    (h : ∀ s c', Deeds Action.IsRegular ([], run.states i) ([], s) →
      s.unsettled? call = some c' → c.work.Evolves c'.work →
      ((s.poll call).outcomeOf call).isSome = true) : run.Ends call := by
  rcases hpolls.exists_poll hc with hended | ⟨j, s, c', -, hdeeds, hc', hevolves, heq⟩
  · exact hended
  · exact ⟨j + 1, heq ▸ h s c' hdeeds hc' hevolves⟩

theorem KeepsPolling.ends_of_immediate (hpolls : run.KeepsPolling call) {i : Nat} {c : Call}
    (outcome : Outcome)
    (hc : (run.states i).unsettled? call = some c)
    (h : ∀ s c', Deeds Action.IsRegular ([], run.states i) ([], s) →
      c.work.Evolves c'.work → s.immediate? c' = some outcome) : run.Ends call := by
  refine hpolls.ends_of_poll hc fun s c' hdeeds hc' hevolves => ?_
  rw [poll_immediate ((run.regular i).deeds hdeeds).attained.depth_pos hc' (h s c' hdeeds hevolves)]
  rfl

theorem KeepsPolling.ends_ready (hpolls : run.KeepsPolling call) {i : Nat} {c : Call}
    {outcome : Outcome} (hc : (run.states i).unsettled? call = some c)
    (hw : c.work = .ready outcome) : run.Ends call := by
  refine hpolls.ends_of_immediate outcome hc fun s c' _ hevolves => ?_
  have hwork := (hw ▸ hevolves).of_ready
  rw [immediate?, hwork]

theorem Tends.ends_gate (htends : run.Tends call) {i : Nat} {c : Call} {gate : Nat}
    (hc : (run.states i).unsettled? call = some c) (hw : c.work = .gate gate) :
    run.Ends call := by
  obtain ⟨j, hij, hgate⟩ := htends.gates i c gate hc hw
  obtain ⟨outcome, houtcome⟩ := Option.isSome_iff_exists.mp hgate
  rcases run.evolves hij hc with hended | ⟨c1, hc1, hev⟩
  · exact hended
  · have hw1 := (hw ▸ hev).of_gate
    refine htends.polls.ends_of_immediate outcome hc1 fun s c' hdeeds hevolves => ?_
    have hwork := (hw1 ▸ hevolves).of_gate
    rw [immediate?, hwork]
    exact (Deeds.steps hdeeds (run.regular j).sited).gateOutcome houtcome

theorem Tends.ends_hasAnswer (htends : run.Tends call) {i : Nat} {c : Call} {outcome : Outcome}
    (hc : (run.states i).unsettled? call = some c) (hw : c.work.HasAnswer outcome) :
    run.Ends call := by
  generalize hwork : c.work = work at hw
  cases hw with
  | ready => exact htends.polls.ends_ready hc hwork
  | answered =>
    obtain ⟨j, hij, harrive⟩ := htends.answers i c outcome hc hwork
    rcases run.evolves hij hc with hended | ⟨c1, hc1, hev⟩
    · exact hended
    · have hanswer : c1.work.HasAnswer outcome := hev.hasAnswer (by rw [hwork]; exact .answered)
      generalize hwork1 : c1.work = work1 at hanswer
      cases hanswer with
      | ready => exact htends.polls.ends_ready hc1 hwork1
      | answered =>
        have harrived := arrive_answered (run.regular j).sited hc1 hwork1
        rw [show (run.states j).arrive call = run.states (j + 1) by
          rw [run.step, harrive]; rfl] at harrived
        rcases harrived with hended | ⟨c2, hc2, hw2⟩
        · exact ⟨j + 1, hended⟩
        · exact htends.polls.ends_ready hc2 hw2

theorem Tends.ends_exchange (htends : run.Tends call) {i : Nat} {c : Call} {e : Exchange}
    (hc : (run.states i).unsettled? call = some c) (hw : c.work = .exchange e) :
    run.Ends call := by
  rcases htends.polls.exists_poll hc with hended | ⟨j, s, c1, -, hdeeds, hc1, hev, heq⟩
  · exact hended
  · have hs := (run.regular i).deeds hdeeds
    -- The call may have been polled by others before.
    rcases (hw ▸ hev).of_exchange with hw1 | ⟨outcome, hanswer⟩
    · rcases poll_exchange hs.attained.depth_pos hc1 hw1 with hended | ⟨c2, outcome, hc2, hw2⟩
      · exact ⟨j + 1, heq ▸ hended⟩
      · have hanswer : c2.work.HasAnswer outcome := hw2 ▸ .answered
        exact htends.ends_hasAnswer (heq ▸ hc2) hanswer
    · rcases Moves.evolves (poll_moves [] hs.sited call) hs.sited hc1 with hended | ⟨c2, hc2, hev2⟩
      · exact ⟨j + 1, heq ▸ hended⟩
      · exact htends.ends_hasAnswer (heq ▸ hc2) (hev2.hasAnswer hanswer)

theorem Ends.at_later (h : run.Ends call) (i : Nat) :
    ∃ j, i ≤ j ∧ ((run.states j).outcomeOf call).isSome = true := by
  obtain ⟨j, hj⟩ := h
  obtain ⟨outcome, ho⟩ := Option.isSome_iff_exists.mp hj
  refine ⟨max i j, Nat.le_max_left i j, ?_⟩
  rw [(run.continues (Nat.le_max_right i j)).outcomeOf ho]
  rfl

/-- A call that is to call others does not wait for ever. -/
theorem KeepsPolling.exists_not_aggregate (hpolls : run.KeepsPolling call) (i : Nat) (site : Site)
    (ids : List String) (request : Request) :
    ∃ j, i ≤ j ∧ ∀ c, (run.states j).unsettled? call = some c →
      c.work ≠ .aggregate site ids request := by
  by_cases hwaits : ∃ c, (run.states i).unsettled? call = some c ∧
      c.work = .aggregate site ids request
  · obtain ⟨c, hc, hw⟩ := hwaits
    rcases hpolls.exists_poll hc with hended | ⟨j, s, c1, hij, hdeeds, hc1, -, heq⟩
    · obtain ⟨j, hij, ho⟩ := hended.at_later i
      refine ⟨j, hij, fun c' hc' => ?_⟩
      simp [outcomeOf_of_unsettled hc'] at ho
    · have hs := (run.regular i).deeds hdeeds
      refine ⟨j + 1, Nat.le_succ_of_le hij, fun c' hc' hw' => ?_⟩
      rw [heq] at hc'
      have hnone := outcomeOf_of_unsettled hc'
      rcases Moves.evolves (poll_moves [] hs.sited call) hs.sited hc1 with hended | ⟨c2, hc2, hev⟩
      · simp [hnone] at hended
      · obtain rfl := Option.some.inj (hc'.symm.trans hc2)
        have hw1 := (hw' ▸ hev).to_aggregate
        rcases poll_aggregate hs.sited hs.attained.depth_pos hc1 hw1 with hended | ⟨futures, hg⟩
        · simp [hnone] at hended
        · exact not_gathers_of_aggregate (unsettled?_eq_some.mp hc').1 hw' futures hg
  · exact ⟨i, Nat.le_refl i, fun c hc hw => hwaits ⟨c, hc, hw⟩⟩

theorem exists_results {futures : List Future} (hall : ∀ k, .call k ∈ futures → run.Ends k)
    (i : Nat) : ∃ j, i ≤ j ∧ ∀ future ∈ futures, ((run.states j).result future).isSome = true := by
  induction futures with
  | nil => exact ⟨i, Nat.le_refl i, by simp⟩
  | cons future rest ih =>
    obtain ⟨j, hij, hrest⟩ := ih fun k hk => hall k (List.mem_cons_of_mem _ hk)
    obtain ⟨j', hjj', hfirst⟩ : ∃ j', j ≤ j' ∧ ((run.states j').result future).isSome = true := by
      cases future with
      | settled => exact ⟨j, Nat.le_refl j, rfl⟩
      | call k => exact (hall k (List.mem_cons_self ..)).at_later j
    refine ⟨j', Nat.le_trans hij hjj', List.forall_mem_cons.mpr ⟨hfirst, fun f hf => ?_⟩⟩
    exact (run.continues hjj').isSome (hrest f hf)

/-- A call that gathers futures ends when all of these end. -/
theorem KeepsPolling.ends_gathering (hpolls : run.KeepsPolling call) {i : Nat}
    {futures : List Future} (hg : (run.states i).Gathers call futures)
    (hall : ∀ k, .call k ∈ futures → run.Ends k) : run.Ends call := by
  obtain ⟨j, hij, hresults⟩ := run.exists_results hall i
  have hsteps := Deeds.steps (run.deeds hij) (run.regular i).sited
  obtain ⟨c, g, hget, hw, rfl⟩ := hsteps.gathers hg
  cases ho : c.outcome with
  | some outcome => exact ⟨j, by simp [outcomeOf, hget, ho]⟩
  | none =>
    refine hpolls.ends_of_poll (unsettled?_eq_some.mpr ⟨hget, ho⟩) fun s c' hdeeds hc' hev => ?_
    obtain ⟨g', hw', hf'⟩ := (hw ▸ hev).of_collecting
    have hs := (run.regular j).deeds hdeeds
    have hlater := (Deeds.steps hdeeds (run.regular j).sited).continues
    refine hs.wired.poll_settles hs.sited hs.attained.depth_pos (gathering?_eq_some hc' hw') ?_
    rw [hf']
    exact fun future hf => hlater.isSome (hresults future hf)

/-- What an operation calls in one change are calls of operations of its tree. -/
theorem exists_has {compiled : Compiled} {o : Operation} {y : Hand × Session} {hand : Hand}
    {i m : Nat} {request : Request} {operations : List Operation} (hy : Regular y)
    (hget : y.2.compiled[o.site.tree]? = some compiled) (ho : o ∈ compiled.root.operations)
    (hcall : call < y.2.calls.length) (hfound : y.2.resolved.lookup o.site = some operations)
    (fan : Deeds Action.IsRegular y (hand, y.2.fanOut call request operations))
    (later : Deeds Action.IsRegular (hand, y.2.fanOut call request operations) ([], run.states i))
    (hm : .call m ∈ (y.2.invokeAll request operations).1) :
    ∃ o', o.CanStart compiled.root o' ∧ run.Has compiled o' m := by
  obtain ⟨o', ho', hanswer⟩ := exists_of_forall₂ (fanOut_answers hcall) hm
  obtain ⟨hstarts, hoperation, htree⟩ := hy.orderly.canStart_of_lookup hget ho hfound ho'
  have hgetFan := getElem?_of_extends (fan.compiled_prefix hy.sited) hget
  exact ⟨o', hstarts, .intro (hy.deeds fan) later (htree ▸ hgetFan) hoperation hanswer⟩

/-- A call that is to call others ends, or has called one whose call does not end. -/
theorem KeepsPolling.ends_or_waits (hpolls : run.KeepsPolling call) {compiled : Compiled}
    {o : Operation} {x : Hand × Session} {i : Nat} {c : Call} {ids : List String}
    {request : Request} (hx : Regular x)
    (later : Deeds Action.IsRegular x ([], run.states i))
    (hget : x.2.compiled[o.site.tree]? = some compiled) (ho : o ∈ compiled.root.operations)
    (hc : x.2.unsettled? call = some c) (hw : c.work = .aggregate o.site ids request) :
    run.Ends call ∨ ∃ o' m, o.CanStart compiled.root o' ∧
      run.Has compiled o' m ∧ run.Gathers call m ∧ ¬ run.Ends m := by
  obtain ⟨j, hij, hnot⟩ := hpolls.exists_not_aggregate i o.site ids request
  cases Deeds.fate (later.trans (run.deeds hij)) hx.sited hc hw with
  | waits hc' hw' => exact absurd hw' (hnot _ hc')
  | refused _ _ _ hc' _ ho' => exact .inl ⟨j, by simp [outcomeOf, hc', ho']⟩
  | @fanned y hand c' operations before hc' _ hfound fan after =>
    have hy := hx.deeds before
    have hgathers := (Deeds.steps after (hy.deeds fan).sited).gathers
      (fanOut_gathers request operations hc')
    by_cases hall : ∀ m, .call m ∈ (y.2.invokeAll request operations).1 → run.Ends m
    · exact .inl (hpolls.ends_gathering hgathers hall)
    · obtain ⟨m, hm⟩ := not_forall.mp hall
      obtain ⟨hmem, hends⟩ := Classical.not_imp.mp hm
      have hget' := getElem?_of_extends (before.compiled_prefix hx.sited) hget
      obtain ⟨o', hstarts, hhas⟩ :=
        run.exists_has hy hget' ho (lt_of_unsettled hc') hfound fan after hmem
      exact .inr ⟨o', m, hstarts, hhas, ⟨j, _, hgathers, hmem⟩, hends⟩

/-- A call ends, or its operation has called another one whose call does not end. -/
theorem Tends.ends_or_waits (htends : run.Tends call) {compiled : Compiled} {o : Operation}
    (h : run.Has compiled o call) : run.Ends call ∨ ∃ o' m, o.CanStart compiled.root o' ∧
      run.Has compiled o' m ∧ run.Gathers call m ∧ ¬ run.Ends m := by
  obtain ⟨hx, later, hget, ho, hanswers⟩ := h
  rename_i x i request
  cases hanswers with
  | @tracked start _ c haction hc hb =>
    rcases Deeds.evolves later hx.sited hc with hended | ⟨c1, hc1, hev⟩
    · exact .inl ⟨i, hended⟩
    · generalize hjob : start request = job at hb
      generalize hw : c.work = work at hb hev
      cases hb with
      | finished outcome => exact .inl (htends.polls.ends_ready hc1 hev.of_ready)
      | gated gate => exact .inl (htends.ends_gate hc1 hev.of_gate)
      | exchange e =>
        rcases hev.of_exchange with hw1 | ⟨outcome, hanswer⟩
        · exact .inl (htends.ends_exchange hc1 hw1)
        · exact .inl (htends.ends_hasAnswer hc1 hanswer)
      | aggregate site ids request' =>
        -- The site is that of the operation, so what is found for it is what the operation calls.
        have howns := (hx.orderly.trees _ _ hget).1.owns o ho start haction
        have hbegins : (start request).Begins (.aggregate site ids request') := by
          rw [hjob]
          exact .aggregate site ids request'
        obtain ⟨rfl, -⟩ := howns.canList haction hbegins
        exact htends.polls.ends_or_waits hx later hget ho hc hw

end Tends

theorem IsFair.ends_or_waits (hfair : run.IsFair) {compiled : Compiled} {o : Operation}
    {call : Nat} (h : run.Has compiled o call) : run.Ends call ∨
      ∃ o' m, o.CanStart compiled.root o' ∧ run.Has compiled o' m ∧ run.Gathers call m ∧
        ¬ run.Ends m :=
  (hfair.tends call).ends_or_waits h

/-- A call of a grounded operation ends. -/
theorem IsFair.ends (hfair : run.IsFair) {compiled : Compiled} {o : Operation}
    (hgrounded : o.IsGrounded compiled.root) {call : Nat} (h : run.Has compiled o call) :
    run.Ends call := by
  induction hgrounded generalizing call with
  | intro o _ ih =>
    rcases hfair.ends_or_waits h with hends | ⟨o', m, hstarts, hm, -, hnot⟩
    · exact hends
    · exact absurd (ih o' hstarts.calls hm) hnot

end Run
end Session
end OperationTree
