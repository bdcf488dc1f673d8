import Mathlib.Logic.Relation
import OperationTree.Proofs.Tree.Operations
import OperationTree.Session.Poll

/-! What can happen to a session while calls are polled and woken.  `CallStep` lists the single
changes with their conditions; starting calls and gathering them are sequences of such changes, in a
session whose operations belong to trees that register their calls (`Sited`).  What is said of polls
elsewhere is said of a single change and follows from this. -/

namespace OperationTree.Session

open Relation

/-- Every tree registers its calls in a tracker that takes them, and the operations that can be
called stand in trees that are there. -/
structure Sited (s : Session) : Prop where
  tracking : ∀ tree ∈ s.trees, s.isTracking tree.tracker = true
  operations : ∀ (t : Nat) (tree : TreeState), s.trees[t]? = some tree →
    ∀ o ∈ tree.compiled.root.operations, o.site.tree = t
  resolved : ∀ entry ∈ s.resolved, ∀ o ∈ entry.2, o.site.tree < s.trees.length

/-- One change that polling and waking calls can make. -/
inductive CallStep : Session → Session → Prop
  | queue (s : Session) (queue : List Nat) : CallStep s { s with queue }
  | spawn (s : Session) (call : Nat) : CallStep s (s.spawn (.call call)).2
  | openGate (s : Session) : CallStep s s.openGate.2
  | register {s : Session} {tracker : Nat} (work : Work) (ht : s.isTracking tracker = true) :
    CallStep s (s.register tracker work)
  | keep {s : Session} (site : Site) {operations : List Operation}
    (ho : ∀ o ∈ operations, o.site.tree < s.trees.length) :
    CallStep s { s with resolved := s.resolved ++ [(site, operations)] }
  | addWaiter (s : Session) (call : Nat) (waiter : Waiter × Nat) :
    CallStep s (s.addWaiter call waiter)
  /-- What is due or taken among futures that are gathered changes, and the futures do not. -/
  | regather {s : Session} {waiter : Waiter} {g : Gathering} (g' : Gathering)
    (hg : s.gathering? waiter = some g) (hf : g'.futures = g.futures) :
    CallStep s (s.setGathering g' waiter)
  | collect {s : Session} {call : Nat} {c : Call} {site : Site} {ids : List String}
    {request : Request} (targets : List Future) (hc : s.unsettled? call = some c)
    (hw : c.work = .aggregate site ids request) :
    CallStep s (s.setGathering { futures := targets } (.call call))
  | ask {s : Session} {call : Nat} {c : Call} {e : Exchange} (hc : s.unsettled? call = some c)
    (hw : c.work = .exchange e) (hr : e.refusal? = none) :
    CallStep s ({ s with outside := (e.perform s.outside).2 }.setWork call
      (.answered (e.perform s.outside).1))
  | finish {s : Session} {call : Nat} {c : Call} (outcome : Outcome)
    (hc : s.unsettled? call = some c) : CallStep s (s.finish call c outcome)
  | release (s : Session) (call : Nat) : CallStep s (s.release call)

abbrev CallSteps : Session → Session → Prop := ReflTransGen CallStep

/-! ### Lists that become longer or change at a place -/

theorem getElem?_of_extends {α : Type} {xs ys : List α} (h : xs <+: ys) {n : Nat} {x : α}
    (hn : xs[n]? = some x) : ys[n]? = some x := by
  obtain ⟨more, rfl⟩ := h
  rw [List.getElem?_append_left (List.getElem?_eq_some_iff.mp hn).1, hn]

theorem getElem?_append_eq_some {α : Type} {xs : List α} {x y : α} {n : Nat} :
    (xs ++ [x])[n]? = some y ↔ xs[n]? = some y ∨ (n = xs.length ∧ x = y) := by
  rw [List.getElem?_append]
  split
  · next hn => exact ⟨.inl, fun h => h.resolve_right fun hlast => by omega⟩
  · next hn =>
    rw [List.getElem?_singleton, List.getElem?_eq_none (Nat.le_of_not_lt hn)]
    simp only [reduceCtorEq, false_or, Option.ite_none_right_eq_some, Option.some.injEq]
    exact and_congr_left fun _ => by omega

/-- Lists that are the same in one respect have the same length and are so at every place. -/
theorem getElem?_cases {α β : Type} {f : α → β} {xs ys : List α} (h : ys.map f = xs.map f)
    (n : Nat) : (xs[n]? = none ∧ ys[n]? = none) ∨
      ∃ x y, xs[n]? = some x ∧ ys[n]? = some y ∧ f y = f x := by
  have hget := congrArg (·[n]?) h
  simp only [List.getElem?_map] at hget
  cases hx : xs[n]? with
  | none => exact .inl ⟨rfl, by simpa [hx] using hget⟩
  | some x =>
    rw [hx, Option.map_some, Option.map_eq_some_iff] at hget
    obtain ⟨y, hy, hfy⟩ := hget
    exact .inr ⟨x, y, rfl, hy, hfy⟩

theorem map_modify {α β : Type} {f : α → α} {f' : β → β} {g : α → β}
    (h : ∀ x, g (f x) = f' (g x)) (xs : List α) (n : Nat) :
    (xs.modify n f).map g = (xs.map g).modify n f' := by
  refine List.ext_getElem? fun m => ?_
  rw [List.getElem?_map, List.getElem?_modify, List.getElem?_modify, List.getElem?_map]
  cases xs[m]? with
  | none => rfl
  | some x => by_cases hm : n = m <;> simp [hm, h]

theorem map_modify_eq {α β : Type} {f : α → α} {g : α → β} (h : ∀ x, g (f x) = g x) (xs : List α)
    (n : Nat) : (xs.modify n f).map g = xs.map g := by
  have hid : ∀ x, g (f x) = id (g x) := h
  rw [map_modify hid, List.modify_id]

theorem map_set_eq {α β : Type} {g : α → β} {xs : List α} {n : Nat} {x y : α}
    (hn : xs[n]? = some x) (h : g y = g x) : (xs.set n y).map g = xs.map g := by
  obtain ⟨hlt, rfl⟩ := List.getElem?_eq_some_iff.mp hn
  rw [List.map_set, h, ← List.map_set, List.set_getElem_self]

theorem getElem?_modify_eq_some {α : Type} {xs : List α} {n m : Nat} {f : α → α} {y : α}
    (h : (xs.modify n f)[m]? = some y) :
    (m = n ∧ ∃ x, xs[n]? = some x ∧ y = f x) ∨ (m ≠ n ∧ xs[m]? = some y) := by
  rw [List.getElem?_modify] at h
  obtain ⟨x, hx, rfl⟩ := Option.map_eq_some_iff.mp h
  by_cases hm : m = n
  · subst hm
    exact .inl ⟨rfl, x, hx, if_pos rfl⟩
  · exact .inr ⟨hm, by rw [hx, if_neg (Ne.symm hm)]⟩

/-- What the change of one entry keeps, and the other entries keep anyway, holds of every entry. -/
theorem exists_modified {α : Type} {R : α → α → Prop} {xs : List α} {n : Nat} {f : α → α}
    (hrefl : ∀ x, R x x) (hf : ∀ x, xs[n]? = some x → R x (f x)) {m : Nat} {x : α}
    (hm : xs[m]? = some x) : ∃ y, (xs.modify n f)[m]? = some y ∧ R x y := by
  rw [List.getElem?_modify, hm]
  by_cases hn : n = m
  · subst hn
    exact ⟨f x, by simp, hf x hm⟩
  · exact ⟨x, by simp [hn], hrefl x⟩

theorem exists_replaced {α : Type} {R : α → α → Prop} {xs : List α} {n : Nat} {a b : α}
    (hrefl : ∀ x, R x x) (hn : xs[n]? = some a) (hab : R a b) {m : Nat} {x : α}
    (hm : xs[m]? = some x) : ∃ y, (xs.set n b)[m]? = some y ∧ R x y := by
  by_cases hne : n = m
  · subst hne
    obtain rfl := Option.some.inj (hn.symm.trans hm)
    exact ⟨b, List.getElem?_set_self (List.getElem?_eq_some_iff.mp hn).1, hab⟩
  · exact ⟨x, (List.getElem?_set_ne hne).trans hm, hrefl x⟩

theorem exists_unmodified {α : Type} {R : α → α → Prop} {xs : List α} {n : Nat} {f : α → α}
    (hrefl : ∀ x, R x x) (hf : ∀ x, xs[n]? = some x → R x (f x)) {m : Nat} {y : α}
    (hm : (xs.modify n f)[m]? = some y) : ∃ x, xs[m]? = some x ∧ R x y := by
  rcases getElem?_modify_eq_some hm with ⟨rfl, x, hx, rfl⟩ | ⟨-, hold⟩
  · exact ⟨x, hx, hf x hx⟩
  · exact ⟨y, hold, hrefl y⟩

/-! ### Calls and trackers -/

theorem unsettled?_eq_some {s : Session} {call : Nat} {c : Call} :
    s.unsettled? call = some c ↔ s.calls[call]? = some c ∧ c.outcome = none := by
  simp [unsettled?, Option.filter_eq_some_iff]

theorem lt_of_unsettled {s : Session} {call : Nat} {c : Call} (hc : s.unsettled? call = some c) :
    call < s.calls.length :=
  (List.getElem?_eq_some_iff.mp (unsettled?_eq_some.mp hc).1).1

theorem poll_unsettled {s : Session} (hd : 1 ≤ s.depth) {call : Nat} {c : Call}
    (hc : s.unsettled? call = some c) :
    s.poll call = advance (pollWithin (s.depth - 1)) s call c.work := by
  rw [poll, ← Nat.sub_add_cancel hd, pollWithin, hc, Nat.add_sub_cancel]

theorem isTracking_iff {s : Session} {tracker : Nat} :
    s.isTracking tracker = true ↔ ∃ t, s.trackers[tracker]? = some t ∧ t.isHeld = true := by
  cases h : s.trackers[tracker]? <;> simp [isTracking, h]

namespace Sited

theorem isTracking_trackerOf {s : Session} (hs : s.Sited) {tree : Nat} (h : tree < s.trees.length) :
    s.isTracking (s.trackerOf tree) = true := by
  have hmem := hs.tracking _ (List.getElem_mem h)
  rwa [trackerOf, List.getElem?_eq_getElem h]

/-- Trackers may change as long as they go on taking calls. -/
theorem of_trackers {s s' : Session} (hs : s.Sited) (ht : s'.trees = s.trees)
    (hr : s'.resolved = s.resolved)
    (hk : ∀ n, s.isTracking n = true → s'.isTracking n = true) : s'.Sited where
  tracking tree h := hk _ (hs.tracking tree (ht ▸ h))
  operations := ht ▸ hs.operations
  resolved := by rw [hr, ht]; exact hs.resolved

end Sited

theorem isTracking_modify {s s' : Session} {n : Nat} (f : Tracker → Tracker)
    (ht : s'.trackers = s.trackers.modify n f) (hf : ∀ t, (f t).isHeld = t.isHeld) (m : Nat) :
    s'.isTracking m = s.isTracking m := by
  rw [isTracking, isTracking, ht, ← List.getElem?_map, map_modify_eq hf, List.getElem?_map]

@[simp] theorem isTracking_register (s : Session) (tracker : Nat) (work : Work) (n : Nat) :
    (s.register tracker work).isTracking n = s.isTracking n :=
  isTracking_modify (·.insert s.calls.length) rfl (fun _ => rfl) n

@[simp] theorem isTracking_finish (s : Session) (call : Nat) (c : Call) (outcome : Outcome)
    (n : Nat) : (s.finish call c outcome).isTracking n = s.isTracking n :=
  isTracking_modify (·.erase c.id) rfl (fun _ => rfl) n

theorem isTracking_congr {s s' : Session} (ht : s'.trackers = s.trackers) (m : Nat) :
    s'.isTracking m = s.isTracking m := by
  rw [isTracking, isTracking, ht]

theorem setGathering_eq {s : Session} {waiter : Waiter} {g : Gathering} :
    (s.setGathering g waiter).trackers = s.trackers ∧ (s.setGathering g waiter).trees = s.trees ∧
      (s.setGathering g waiter).resolved = s.resolved := by
  cases waiter <;> exact ⟨rfl, rfl, rfl⟩

theorem CallStep.sited {s s' : Session} (h : CallStep s s') (hs : s.Sited) : s'.Sited := by
  cases h with
  | queue | spawn | openGate | addWaiter | ask | release =>
    exact hs.of_trackers rfl rfl fun _ h => h
  | regather | collect =>
    obtain ⟨htrackers, htrees, hresolved⟩ := setGathering_eq (s := s)
    exact hs.of_trackers htrees hresolved fun n h => (isTracking_congr htrackers n).trans h
  | register => exact hs.of_trackers rfl rfl fun n h => (isTracking_register ..).trans h
  | finish => exact hs.of_trackers rfl rfl fun n h => (isTracking_finish ..).trans h
  | keep _ ho =>
    refine ⟨hs.tracking, hs.operations, fun entry hentry => ?_⟩
    rcases List.mem_append.mp hentry with hold | hnew
    · exact hs.resolved entry hold
    · obtain rfl := List.mem_singleton.mp hnew
      exact ho

theorem CallStep.trees {s s' : Session} (h : CallStep s s') : s'.trees = s.trees := by
  cases h with
  | regather | collect => exact setGathering_eq.2.1
  | _ => rfl

theorem CallSteps.trees {s s' : Session} (h : CallSteps s s') : s'.trees = s.trees := by
  induction h with
  | refl => rfl
  | tail _ step ih => exact step.trees.trans ih

theorem CallSteps.sited {s s' : Session} (h : CallSteps s s') (hs : s.Sited) : s'.Sited := by
  induction h with
  | refl => exact hs
  | tail _ step ih => exact step.sited ih

/-! ### Starting calls -/

theorem track_steps {s : Session} {tracker : Nat} (work : Work)
    (ht : s.isTracking tracker = true) : CallSteps s (s.track tracker work).2 := by
  rw [track]
  split
  · exact .head (.register work ht) (.single (.spawn _ _))
  · exact .single (.register work ht)

theorem workOf_steps (s : Session) (job : Job) : CallSteps s (s.workOf job).2 := by
  cases job with
  | gated => exact .single (.openGate s)
  | finished | exchange | aggregate => exact .refl

@[simp] theorem workOf_trackers (s : Session) (job : Job) :
    (s.workOf job).2.trackers = s.trackers := by
  cases job <;> rfl

theorem start_steps {s : Session} {tracker : Nat} (job : Job)
    (ht : s.isTracking tracker = true) : CallSteps s (s.start tracker job).2 :=
  (workOf_steps s job).trans (track_steps _ (by rwa [isTracking_congr (workOf_trackers s job)]))

theorem invoke_steps {s : Session} (hs : s.Sited) {o : Operation} (request : Request)
    (ho : o.site.tree < s.trees.length) : CallSteps s (s.invoke o request).2 := by
  rw [invoke]
  split
  · exact .refl
  · exact start_steps _ (hs.isTracking_trackerOf ho)

/-- A started call is put behind the calls that are there. -/
theorem start_calls (s : Session) (tracker : Nat) (job : Job) :
    s.calls <+: (s.start tracker job).2.calls := by
  have hwork : (s.workOf job).2.calls = s.calls := by cases job <;> rfl
  simp only [start, track]
  split <;> simp [spawn, register, hwork]

theorem invoke_calls (s : Session) (o : Operation) (request : Request) :
    s.calls <+: (s.invoke o request).2.calls := by
  rw [invoke]
  split
  · exact List.prefix_rfl
  · exact start_calls s _ _

theorem invokeAll_calls (s : Session) (request : Request) (operations : List Operation) :
    s.calls <+: (s.invokeAll request operations).2.calls := by
  induction operations generalizing s with
  | nil => exact List.prefix_rfl
  | cons o rest ih => exact (invoke_calls s o request).trans (ih _)

theorem invokeAll_steps {s : Session} (hs : s.Sited) (request : Request)
    {operations : List Operation} (ho : ∀ o ∈ operations, o.site.tree < s.trees.length) :
    CallSteps s (s.invokeAll request operations).2 := by
  induction operations generalizing s with
  | nil => exact .refl
  | cons o rest ih =>
    have hfirst := invoke_steps hs request (ho o (by simp))
    refine hfirst.trans (ih (hfirst.sited hs) fun o' ho' => ?_)
    rw [hfirst.trees]
    exact ho o' (by simp [ho'])

/-! ### Gathering -/

theorem findAll_mem {root : Node Operation} {ids : List String} {operations : List Operation}
    (h : findAll root ids = .ok operations) : ∀ o ∈ operations, o ∈ root.operations := by
  induction ids generalizing operations with
  | nil =>
    obtain rfl : [] = operations := by simpa [findAll] using h
    simp
  | cons id rest ih =>
    rw [findAll] at h
    split at h
    · cases h
    · next o ho =>
      obtain ⟨found, hfound, rfl⟩ : ∃ found, findAll root rest = .ok found ∧
          o :: found = operations := by
        cases hrest : findAll root rest with
        | error e => rw [hrest] at h; cases h
        | ok found => rw [hrest] at h; exact ⟨found, rfl, Except.ok.inj h⟩
      intro o' ho'
      rcases List.mem_cons.mp ho' with rfl | hmem
      · exact Node.operationAt?_mem ho
      · exact ih hfound o' hmem

theorem rootOf?_eq_some {s : Session} {site : Site} {root : Node Operation}
    (h : s.rootOf? site = some root) :
    ∃ tree, s.trees[site.tree]? = some tree ∧ tree.compiled.root = root := by
  rw [rootOf?] at h
  split at h
  · exact Option.map_eq_some_iff.mp h
  · cases h

theorem unsettled?_of_extends {s s' : Session} (h : s.calls <+: s'.calls) {call : Nat} {c : Call}
    (hc : s.unsettled? call = some c) : s'.unsettled? call = some c := by
  obtain ⟨hget, hopen⟩ := unsettled?_eq_some.mp hc
  exact unsettled?_eq_some.mpr ⟨getElem?_of_extends h hget, hopen⟩

theorem resolve_calls (s : Session) (site : Site) (ids : List String) :
    (s.resolve site ids).2.calls = s.calls := by
  rw [resolve]
  split
  · rfl
  · split
    · rfl
    · split <;> rfl

theorem watch_steps (waiter : Waiter) (place : Nat) (s : Session) (futures : List Future) :
    CallSteps s (watch waiter place s futures) := by
  induction futures generalizing place s with
  | nil => exact .refl
  | cons future rest ih =>
    cases future with
    | settled => exact ih _ s
    | call number => exact .head (.addWaiter s number _) (ih _ _)

theorem gather_watch_steps (s : Session) (waiter : Waiter) (futures : List Future) :
    CallSteps (s.setGathering { futures } waiter) (s.gather waiter futures) :=
  watch_steps _ _ _ _

theorem gather_steps {s : Session} {call : Nat} {c : Call} {site : Site} {ids : List String}
    {request : Request} (targets : List Future) (hc : s.unsettled? call = some c)
    (hw : c.work = .aggregate site ids request) : CallSteps s (s.gather (.call call) targets) :=
  .head (.collect targets hc hw) (gather_watch_steps _ _ _)

end OperationTree.Session
