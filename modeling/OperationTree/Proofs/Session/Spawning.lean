import OperationTree.Proofs.Session.Deed

/-! What polls and actions keep for calls that go on: tasks stay with the scheduler, every call is
given to it when there is one, a gate that has settled stays so, and a tree stays with its tracker.
-/

namespace OperationTree.Session

/-- Tasks are added only, and the scheduler stays. -/
structure KeepsTasks (s s' : Session) : Prop where
  hasScheduler : s'.hasScheduler = s.hasScheduler
  tasks : s.tasks <+: s'.tasks

theorem KeepsTasks.of_eq {s s' : Session} (hs : s'.hasScheduler = s.hasScheduler)
    (ht : s'.tasks = s.tasks) : s.KeepsTasks s' :=
  ⟨hs, ht ▸ List.prefix_rfl⟩

theorem setGathering_tasks (s : Session) (g : Gathering) (waiter : Waiter) :
    s.KeepsTasks (s.setGathering g waiter) := by
  cases waiter <;> exact .of_eq rfl rfl

theorem CallStep.tasks {s s' : Session} (h : CallStep s s') : s.KeepsTasks s' := by
  cases h with
  | spawn => exact ⟨rfl, List.prefix_append _ _⟩
  | regather | collect => exact setGathering_tasks _ _ _
  | _ => exact .of_eq rfl rfl

theorem Step.tasks {s s' : Session} (h : Step s s') : s.KeepsTasks s' := by
  cases h with
  | call h => exact h.tasks
  | spawn => exact ⟨rfl, List.prefix_append _ _⟩
  | beginShutdown =>
    rw [Session.beginShutdown]
    split <;> exact .of_eq rfl rfl
  | _ => exact .of_eq rfl rfl

theorem Steps.tasks {s s' : Session} (h : Steps s s') : s.KeepsTasks s' := by
  induction h with
  | refl => exact .of_eq rfl rfl
  | tail _ step ih =>
    exact ⟨step.tasks.hasScheduler.trans ih.hasScheduler, ih.tasks.trans step.tasks.tasks⟩

/-- If there is a scheduler, it has been given every call. -/
def Spawned (s : Session) : Prop :=
  s.hasScheduler = true → ∀ k < s.calls.length, .call k ∈ s.tasks

theorem Spawned.of_length {s s' : Session} (h : s.Spawned)
    (hlength : s'.calls.length = s.calls.length) (ht : s.KeepsTasks s') : s'.Spawned := by
  intro hs k hk
  exact ht.tasks.subset (h (ht.hasScheduler ▸ hs) k (hlength ▸ hk))

theorem track_spawned {s : Session} (h : s.Spawned) (tracker : Nat) (work : Work) :
    (s.track tracker work).2.Spawned := by
  intro hs k hk
  simp only [track] at hs hk ⊢
  split at hs
  · next hscheduler =>
    rw [if_pos hscheduler] at hk ⊢
    simp only [spawn, register, List.length_append, List.length_singleton] at hk ⊢
    rw [List.mem_append]
    rcases Nat.lt_succ_iff_lt_or_eq.mp hk with hold | rfl
    · exact .inl (h hscheduler k hold)
    · exact .inr (List.mem_singleton.mpr rfl)
  · next hscheduler => exact absurd hs hscheduler

theorem start_spawned {s : Session} (h : s.Spawned) (tracker : Nat) (job : Job) :
    (s.start tracker job).2.Spawned := by
  have hwork : (s.workOf job).2.Spawned := by
    cases job <;> exact h
  exact track_spawned hwork tracker _

theorem invoke_spawned {s : Session} (h : s.Spawned) (o : Operation) (request : Request) :
    (s.invoke o request).2.Spawned := by
  rw [invoke]
  split
  · exact h
  · exact start_spawned h _ _

theorem invokeAll_spawned {s : Session} (h : s.Spawned) (request : Request)
    (operations : List Operation) : (s.invokeAll request operations).2.Spawned := by
  induction operations generalizing s with
  | nil => exact h
  | cons o rest ih => exact ih (invoke_spawned h o request)

theorem setGathering_length (s : Session) (g : Gathering) (waiter : Waiter) :
    (s.setGathering g waiter).calls.length = s.calls.length := by
  cases waiter with
  | call number => exact List.length_modify _ _ _
  | drain | shutdown => rfl

theorem fanOut_spawned {s : Session} (h : s.Spawned) (call : Nat) (request : Request)
    (operations : List Operation) : (s.fanOut call request operations).Spawned := by
  refine (invokeAll_spawned h request operations).of_length (fanOut_length ..) ?_
  have hset := setGathering_tasks (s.invokeAll request operations).2
    { futures := (s.invokeAll request operations).1 } (.call call)
  have hwatch := (gather_watch_steps (s.invokeAll request operations).2 (.call call)
    (s.invokeAll request operations).1).steps.tasks
  exact ⟨hwatch.hasScheduler.trans hset.hasScheduler, hset.tasks.trans hwatch.tasks⟩

theorem Move.spawned {x y : Hand × Session} (h : Move x y) (hs : x.2.Sited)
    (hx : x.2.Spawned) : y.2.Spawned := by
  have ht := (h.steps hs).steps.tasks
  cases h with
  | nudge h =>
    cases h with
    | queue | heed | leave => exact hx
    | push => exact hx.of_length (setGathering_length ..) ht
  | pop | take => exact hx.of_length (setGathering_length ..) ht
  | invoke => exact invoke_spawned hx _ _
  | keep => exact hx
  | fanOut => exact fanOut_spawned hx _ _ _
  | ask => exact hx.of_length (List.length_modify _ _ _) ht
  | finish => exact hx.of_length List.length_set ht
  | release => exact hx.of_length (List.length_modify _ _ _) ht

theorem Deed.spawned {ok : Action → Prop} {x y : Hand × Session} (h : Deed ok x y)
    (hs : x.2.Sited) (hx : x.2.Spawned) : y.2.Spawned := by
  have ht := (h.steps hs).tasks
  cases h with
  | move h => exact h.spawned hs hx
  | arrive | watch => exact hx.of_length (List.length_modify _ _ _) ht
  | start => exact start_spawned hx _ _
  | addTree => exact hx
  | aside _ _ ha => exact hx.of_length (congrArg List.length ha.calls) ht

/-! ### Gates -/

theorem Step.gateOutcome {s s' : Session} (h : Step s s') {gate : Nat} {outcome : Outcome}
    (hg : s.gateOutcome gate = some outcome) : s'.gateOutcome gate = some outcome := by
  have hget := Option.join_eq_some_iff.mp hg
  cases h with
  | call h =>
    exact Option.join_eq_some_iff.mpr (getElem?_of_extends h.undisturbed.gates hget)
  | @settleGate other outcome' hopen =>
    have hne : other ≠ gate := by
      rintro rfl
      simp [isOpen, hget] at hopen
    simpa [Session.gateOutcome, List.getElem?_set_ne hne] using hg
  | beginShutdown =>
    rw [Session.beginShutdown]
    split <;> exact hg
  | _ => exact hg

theorem Steps.gateOutcome {s s' : Session} (h : Steps s s') {gate : Nat} {outcome : Outcome}
    (hg : s.gateOutcome gate = some outcome) : s'.gateOutcome gate = some outcome := by
  induction h with
  | refl => exact hg
  | tail _ step ih => exact step.gateOutcome ih

/-! ### The trackers of trees -/

theorem treeTrackers_modify {s s' : Session} {tree : Nat} {f : TreeState → TreeState}
    (ht : s'.trees = s.trees.modify tree f) (hf : ∀ tree, (f tree).tracker = tree.tracker) :
    s.trees.map TreeState.tracker <+: s'.trees.map TreeState.tracker := by
  have heq : s'.trees.map TreeState.tracker = s.trees.map TreeState.tracker := by
    rw [ht, map_modify_eq hf]
  exact heq ▸ List.prefix_rfl

theorem Step.treeTrackers {s s' : Session} (h : Step s s') :
    s.trees.map TreeState.tracker <+: s'.trees.map TreeState.tracker := by
  cases h with
  | call h => exact h.trees ▸ List.prefix_rfl
  | addTree => simp [Session.addTree]
  | dropTree => exact treeTrackers_modify rfl fun _ => rfl
  | beginShutdown =>
    rw [Session.beginShutdown]
    split
    · exact List.prefix_rfl
    · exact treeTrackers_modify rfl fun _ => rfl
  | endShutdown => exact treeTrackers_modify rfl fun _ => rfl
  | _ => exact List.prefix_rfl

theorem Steps.treeTrackers {s s' : Session} (h : Steps s s') :
    s.trees.map TreeState.tracker <+: s'.trees.map TreeState.tracker := by
  induction h with
  | refl => exact List.prefix_rfl
  | tail _ step ih => exact ih.trans step.treeTrackers

theorem Steps.trackerOf {s s' : Session} (h : Steps s s') {tree : Nat}
    (ht : tree < s.trees.length) :
    tree < s'.trees.length ∧ s'.trackerOf tree = s.trackerOf tree := by
  have hget : (s.trees.map TreeState.tracker)[tree]? = some (s.trackerOf tree) := by
    simp [Session.trackerOf, ht]
  have hget' := getElem?_of_extends h.treeTrackers hget
  have hlt := (List.getElem?_eq_some_iff.mp hget').1
  rw [List.length_map] at hlt
  refine ⟨hlt, ?_⟩
  rw [List.getElem?_map] at hget'
  rw [Session.trackerOf, hget']
  rfl

end OperationTree.Session
