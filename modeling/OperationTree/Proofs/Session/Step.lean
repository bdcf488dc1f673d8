import OperationTree.Proofs.Session.Move
import OperationTree.Session.Schedule

/-! The runs of a session.  An `Action` is what a program, the scheduler or the world outside does
to it at one moment, and actions follow each other in any order: nothing here says that tasks are
polled in turn, or at all.  `Step` lists the single changes that actions make, with their
conditions. -/

namespace OperationTree.Session

open Relation

/-- The operation at a path of a tree. -/
def operationAt? (s : Session) (tree : Nat) (path : String) : Option Operation :=
  s.trees[tree]?.bind fun t => t.compiled.root.operationAt? path

/-- What can happen next.  An action that is not possible does nothing. -/
inductive Action where
  | addTracker
  | discardTracker (tracker : Nat)
  | addTree (catalog : Catalog) (settings : Settings) (tracker : Nat) (definition : Json)
  | dropTree (tree : Nat)
  | start (tracker : Nat) (job : Job)
  | invoke (tree : Nat) (path : String) (request : Request)
  | poll (call : Nat)
  | release (call : Nat)
  | settleGate (gate : Nat) (outcome : Outcome)
  | arrive (call : Nat)
  | addDrain (tracker : Nat)
  | pollDrain (drain : Nat)
  | addShutdown (tree : Nat)
  | pollShutdown (number : Nat)
  | dropShutdown (number : Nat)
  | endClosing (number : Nat)
  /-- The world outside changes. -/
  | change (outside : Outside)
  | spawn (task : Task)
  /-- The scheduler polls the first task that is queued. -/
  | runNext

/-- Adds a tree of one operation `a`, whose calls wait for gates. -/
def Action.addGated (tracker : Nat) : Action :=
  .addTree
    { transports := [("g", { name := "g", call? := fun _ _ _ => some fun _ => .gated })] } {}
    tracker
    (.object [("a", .object [("asyncModule", .string "g"), ("operationDetails", .object [])])])

def perform (s : Session) : Action → Session
  | .addTracker => s.addTracker.2
  | .discardTracker tracker => s.discardTracker tracker
  | .addTree catalog settings tracker definition =>
    if s.isTracking tracker then s.addTree catalog settings tracker definition else s
  | .dropTree tree => s.dropTree tree
  | .start tracker job => if s.isTracking tracker then (s.start tracker job).2 else s
  | .invoke tree path request =>
    match s.operationAt? tree path with
    | none => s
    | some o => (s.invoke o request).2
  | .poll call => s.poll call
  | .release call => s.release call
  | .settleGate gate outcome => s.settleGate gate outcome
  | .arrive call => s.arrive call
  | .addDrain tracker => (s.addDrain tracker).2
  | .pollDrain drain => s.pollDrain drain
  | .addShutdown tree => if tree < s.trees.length then (s.addShutdown tree).2 else s
  | .pollShutdown number => s.pollShutdown number
  | .dropShutdown number => s.dropShutdown number
  | .endClosing number => s.endClosing number
  | .change outside => { s with outside }
  | .spawn task => (s.spawn task).2
  | .runNext => s.runFirst 1

/-- The session after some actions. -/
def after (s : Session) (actions : List Action) : Session := actions.foldl perform s

/-- A session in which nothing has happened yet. -/
def initial (hasScheduler : Bool) (outside : Outside) : Session := { hasScheduler, outside }

/-- The sessions that actions lead to. -/
def Reachable (s : Session) : Prop :=
  ∃ hasScheduler outside actions, s = (initial hasScheduler outside).after actions

/-- One change that an action can make. -/
inductive Step : Session → Session → Prop
  | call {s s' : Session} (h : CallStep s s') : Step s s'
  | spawn (s : Session) (task : Task) : Step s (s.spawn task).2
  | change (s : Session) (outside : Outside) : Step s { s with outside }
  | settleGate {s : Session} {gate : Nat} (outcome : Outcome) (hg : s.isOpen gate = true) :
    Step s { s with gates := s.gates.set gate (some outcome) }
  | arrive {s : Session} {call : Nat} {c : Call} {outcome : Outcome}
    (hc : s.unsettled? call = some c) (hw : c.work = .answered outcome) :
    Step s (s.setWork call (.ready outcome))
  | addTracker (s : Session) : Step s s.addTracker.2
  | discardTracker {s : Session} {tracker : Nat} (hu : s.usesTracker tracker = false) :
    Step s { s with trackers := s.trackers.modify tracker Tracker.discard }
  | addTree {s : Session} (catalog : Catalog) (settings : Settings) {tracker : Nat}
    (definition : Json) (ht : s.isTracking tracker = true) :
    Step s (s.addTree catalog settings tracker definition)
  | dropTree (s : Session) (tree : Nat) : Step s (s.dropTree tree)
  | addDrain (s : Session) (tracker : Nat) : Step s (s.addDrain tracker).2
  /-- A drain takes the calls that are registered. -/
  | beginDrain {s : Session} {drain tracker : Nat} (hd : s.drains[drain]? = some (.fresh tracker)) :
    Step s (s.setGathering { futures := (s.tracker tracker).calls.map .call } (.drain drain))
  | endDrain {s : Session} {drain : Nat} {g : Gathering}
    (hd : s.drains[drain]? = some (.waiting g))
    (hall : ∀ future ∈ g.futures, (s.result future).isSome = true) :
    Step s (s.setDrain drain (.finished (g.futures.findSome? s.failureOf)))
  | addShutdown {s : Session} {tree : Nat} (ht : tree < s.trees.length) :
    Step s (s.addShutdown tree).2
  | dropShutdown (s : Session) (number : Nat) : Step s (s.dropShutdown number)
  | beginShutdown {s : Session} {number : Nat} {shutdown : Shutdown}
    (hn : s.heldShutdown? number = some shutdown) (hf : shutdown.stage = .fresh) :
    Step s (s.beginShutdown number shutdown.tree)
  | closeAll {s : Session} {number drain : Nat} {shutdown : Shutdown}
    (hn : s.heldShutdown? number = some shutdown) (hd : shutdown.stage = .draining drain)
    (he : (s.drainEnd? drain).isSome = true) : Step s (s.closeAll number shutdown.tree)
  | endShutdown {s : Session} {number : Nat} {shutdown : Shutdown}
    (hn : s.heldShutdown? number = some shutdown) (hc : shutdown.stage = .closing)
    (hall : s.hasClosed number = true) : Step s (s.endShutdown number shutdown.tree)
  | endClosing {s : Session} {number : Nat} {c : Closing} (hc : s.closings[number]? = some c) :
    Step s { s with closings := s.closings.set number { c with isDone := true } }

abbrev Steps : Session → Session → Prop := ReflTransGen Step

theorem CallSteps.steps {s s' : Session} (h : CallSteps s s') : Steps s s' :=
  ReflTransGen.mono (fun _ _ h => .call h) _ _ h

/-! ### What every step keeps -/

theorem Step.continues {s s' : Session} (h : Step s s') : s.CallsContinue s' := by
  cases h with
  | call h => exact h.undisturbed.calls
  | arrive hc _ => exact setWork_continues _ hc
  | beginShutdown =>
    refine .of_eq ?_
    rw [Session.beginShutdown]
    split <;> rfl
  | _ => exact .refl _

theorem Steps.continues {s s' : Session} (h : Steps s s') : s.CallsContinue s' := by
  induction h with
  | refl => exact .refl s
  | tail _ step ih => exact ih.trans step.continues

theorem Step.depth_le {s s' : Session} (h : Step s s') : s.depth ≤ s'.depth := by
  cases h with
  | call h => exact Nat.le_of_eq h.undisturbed.depth.symm
  | addTree => exact Nat.le_max_left _ _
  | beginShutdown =>
    rw [Session.beginShutdown]
    split <;> exact Nat.le_refl _
  | _ => exact Nat.le_refl _

/-! ### Trees and their trackers -/

theorem usesTracker_eq_false {s : Session} {tracker : Nat} (hu : s.usesTracker tracker = false) :
    (∀ tree ∈ s.trees, tree.tracker ≠ tracker) ∧ ∀ d ∈ s.drains, d ≠ .fresh tracker := by
  simp only [usesTracker, Bool.or_eq_false_iff, List.any_eq_false] at hu
  refine ⟨fun tree h => by simpa using hu.1 tree h, fun d h heq => hu.2 d h ?_⟩
  simp [heq, Drain.isFreshOn]

theorem isTracking_addTracker {s : Session} {n : Nat} (h : s.isTracking n = true) :
    s.addTracker.2.isTracking n = true := by
  obtain ⟨t, ht, hheld⟩ := isTracking_iff.mp h
  exact isTracking_iff.mpr ⟨t, getElem?_of_extends (List.prefix_append _ _) ht, hheld⟩

/-- Changing trees in ways that keep what they are made of. -/
theorem Sited.modify_tree {s s' : Session} (hs : s.Sited) {n : Nat} (f : TreeState → TreeState)
    (ht : s'.trees = s.trees.modify n f) (hk : s'.trackers = s.trackers)
    (hr : s'.resolved = s.resolved) (hf : ∀ tree, (f tree).tracker = tree.tracker)
    (hc : ∀ tree, (f tree).compiled = tree.compiled) : s'.Sited where
  tracking tree h := by
    rw [isTracking_congr hk]
    rw [ht] at h
    obtain ⟨m, hm, rfl⟩ := List.mem_iff_getElem.mp h
    rw [List.getElem_modify]
    split
    · rw [hf]; exact hs.tracking _ (List.getElem_mem _)
    · exact hs.tracking _ (List.getElem_mem _)
  operations m tree h o ho := by
    rw [ht] at h
    obtain ⟨old, hold, heq⟩ := exists_unmodified
      (R := fun t t' : TreeState => t'.compiled = t.compiled) (fun _ => rfl) (fun t _ => hc t) h
    exact hs.operations m old hold o (heq ▸ ho)
  resolved := by rw [hr, ht, List.length_modify]; exact hs.resolved

theorem setDrain_sited {s : Session} (hs : s.Sited) (n : Nat) (d : Drain) :
    (s.setDrain n d).Sited :=
  hs.of_trackers rfl rfl fun _ h => h

theorem setStage_sited {s : Session} (hs : s.Sited) (n : Nat) (stage : Stage) :
    (s.setStage n stage).Sited :=
  hs.of_trackers rfl rfl fun _ h => h

theorem setPhase_sited {s : Session} (hs : s.Sited) (tree : Nat) (phase : Phase) :
    (s.setPhase tree phase).Sited :=
  hs.modify_tree _ rfl rfl rfl (fun _ => rfl) fun _ => rfl

theorem beginShutdown_sited {s : Session} (hs : s.Sited) (number tree : Nat) :
    (s.beginShutdown number tree).Sited := by
  rw [beginShutdown]
  split
  · exact setStage_sited hs _ _
  · exact (setPhase_sited hs tree .draining).of_trackers rfl rfl fun _ h => h

/-- A tracker can be let go because no tree registers calls in it. -/
theorem discard_sited {s : Session} (hs : s.Sited) {tracker : Nat}
    (hu : s.usesTracker tracker = false) :
    Sited { s with trackers := s.trackers.modify tracker Tracker.discard } where
  tracking tree h := by
    obtain ⟨t, ht, hheld⟩ := isTracking_iff.mp (hs.tracking tree h)
    refine isTracking_iff.mpr ⟨t, ?_, hheld⟩
    simp [Ne.symm ((usesTracker_eq_false hu).1 tree h), ht]
  operations := hs.operations
  resolved := hs.resolved

theorem addTree_sited {s : Session} (hs : s.Sited) (catalog : Catalog) (settings : Settings)
    {tracker : Nat} (definition : Json) (ht : s.isTracking tracker = true) :
    (s.addTree catalog settings tracker definition).Sited where
  tracking tree h := by
    rcases List.mem_append.mp h with hold | hnew
    · exact hs.tracking tree hold
    · obtain rfl := List.mem_singleton.mp hnew
      exact ht
  operations n tree h o ho := by
    rcases getElem?_append_eq_some.mp h with hold | ⟨rfl, rfl⟩
    · exact hs.operations n tree hold o ho
    · exact Compiled.site_tree ho
  resolved entry h o ho := by
    have := hs.resolved entry h o ho
    simp only [addTree, List.length_append, List.length_singleton]
    omega

theorem Step.sited {s s' : Session} (h : Step s s') (hs : s.Sited) : s'.Sited := by
  cases h with
  | call h => exact h.sited hs
  | spawn | change | settleGate | arrive | addDrain | addShutdown | dropShutdown | closeAll
  | endClosing => exact hs.of_trackers rfl rfl fun _ h => h
  | addTracker => exact hs.of_trackers rfl rfl fun _ h => isTracking_addTracker h
  | discardTracker hu => exact discard_sited hs hu
  | addTree _ _ _ ht => exact addTree_sited hs _ _ _ ht
  | dropTree tree => exact hs.modify_tree _ rfl rfl rfl (fun _ => rfl) fun _ => rfl
  | beginDrain | endDrain => exact setDrain_sited hs _ _
  | beginShutdown => exact beginShutdown_sited hs _ _
  | endShutdown => exact setStage_sited (setPhase_sited hs _ _) _ _

theorem Steps.sited {s s' : Session} (h : Steps s s') (hs : s.Sited) : s'.Sited := by
  induction h with
  | refl => exact hs
  | tail _ step ih => exact step.sited ih

/-- What every step keeps is kept by a sequence of steps. -/
theorem Steps.preserves {P : Session → Prop}
    (hstep : ∀ s s', s.Sited → Step s s' → P s → P s') {s s' : Session} (h : Steps s s')
    (hs : s.Sited) (hp : P s) : P s' := by
  induction h with
  | refl => exact hp
  | tail steps step ih => exact hstep _ _ (Steps.sited steps hs) step ih

theorem initial_sited (hasScheduler : Bool) (outside : Outside) :
    (initial hasScheduler outside).Sited := by
  constructor <;> simp [initial]

/-- The sessions that single steps lead to, also those in the middle of an action. -/
def Attained (s : Session) : Prop :=
  ∃ hasScheduler outside, Steps (initial hasScheduler outside) s

theorem Attained.sited {s : Session} (h : s.Attained) : s.Sited := by
  obtain ⟨hasScheduler, outside, steps⟩ := h
  exact steps.sited (initial_sited hasScheduler outside)

theorem Attained.steps {s s' : Session} (h : s.Attained) (steps : Steps s s') : s'.Attained := by
  obtain ⟨hasScheduler, outside, before⟩ := h
  exact ⟨hasScheduler, outside, before.trans steps⟩

/-- What holds at first and is kept by every step holds of every session that is attained. -/
theorem Attained.invariant {P : Session → Prop} (h0 : ∀ b o, P (initial b o))
    (hstep : ∀ s s', s.Sited → Step s s' → P s → P s') {s : Session} (h : s.Attained) : P s := by
  obtain ⟨hasScheduler, outside, steps⟩ := h
  exact steps.preserves hstep (initial_sited hasScheduler outside) (h0 _ _)

theorem Attained.depth_pos {s : Session} (h : s.Attained) : 1 ≤ s.depth :=
  h.invariant (P := fun s => 1 ≤ s.depth) (fun _ _ => Nat.le_refl 1)
    fun _ _ _ step hs => Nat.le_trans hs step.depth_le

end OperationTree.Session
