import OperationTree.Proofs.Session.Step

/-! What actions do, one change at a time.  A `Deed` is a move of a poll, the start of a job, a new
tree, or something that calls have nothing to do with, and every action is a sequence of deeds that
leaves no place in hand.  It follows that actions are sequences of steps. -/

namespace OperationTree.Session

open Relation

/-- What is none of the business of calls: they do not change, nor what can be called, nor what
drains have taken. -/
structure Aside (s s' : Session) : Prop where
  calls : s'.calls = s.calls
  resolved : s'.resolved = s.resolved
  trees : s'.trees.map TreeState.compiled = s.trees.map TreeState.compiled
  /-- A drain begins to wait, or has waited before. -/
  waiting : ∀ drain g, s'.gathering? (.drain drain) = some g →
    g.taken = [] ∨ s.gathering? (.drain drain) = some g

theorem gathering?_append_fresh {s t : Session} {tracker drain : Nat} {g : Gathering}
    (h : t.drains = s.drains ++ [.fresh tracker])
    (hg : t.gathering? (.drain drain) = some g) : s.gathering? (.drain drain) = some g := by
  rw [gathering?_drain, h, getElem?_append_eq_some] at hg
  rcases hg with hold | ⟨-, hnew⟩
  · exact gathering?_drain.mpr hold
  · cases hnew

namespace Aside

variable {s s' : Session}

theorem of_drains (hc : s'.calls = s.calls) (hr : s'.resolved = s.resolved)
    (ht : s'.trees.map TreeState.compiled = s.trees.map TreeState.compiled)
    (hd : s'.drains = s.drains) : s.Aside s' :=
  ⟨hc, hr, ht, fun drain g hg => .inr (by rwa [gathering?, hd] at hg)⟩

theorem of_fresh {tracker : Nat} (hc : s'.calls = s.calls) (hr : s'.resolved = s.resolved)
    (ht : s'.trees.map TreeState.compiled = s.trees.map TreeState.compiled)
    (hd : s'.drains = s.drains ++ [.fresh tracker]) : s.Aside s' :=
  ⟨hc, hr, ht, fun _ _ hg => .inr (gathering?_append_fresh hd hg)⟩

theorem of_setDrain {drain : Nat} {d : Drain} (h : ∀ g, d = .waiting g → g.taken = []) :
    s.Aside (s.setDrain drain d) := by
  refine ⟨rfl, rfl, rfl, fun other g hg => ?_⟩
  rw [gathering?_drain, setDrain, List.getElem?_set] at hg
  split at hg
  · split at hg
    · exact .inl (h g (Option.some.inj hg))
    · cases hg
  · exact .inr (gathering?_drain.mpr hg)

theorem modify_tree {tree : Nat} {f : TreeState → TreeState} (hc : s'.calls = s.calls)
    (hr : s'.resolved = s.resolved) (ht : s'.trees = s.trees.modify tree f)
    (hf : ∀ tree, (f tree).compiled = tree.compiled) (hd : s'.drains = s.drains) : s.Aside s' :=
  .of_drains hc hr (by rw [ht, map_modify_eq hf]) hd

end Aside

/-- One change that actions make when `ok` holds of those that start jobs and add trees. -/
inductive Deed (ok : Action → Prop) : Hand × Session → Hand × Session → Prop
  | move {x y : Hand × Session} (h : Move x y) : Deed ok x y
  | arrive (hand : Hand) {s : Session} {call : Nat} {c : Call} {outcome : Outcome}
    (hc : s.unsettled? call = some c) (hw : c.work = .answered outcome) :
    Deed ok (hand, s) (hand, s.setWork call (.ready outcome))
  | start (hand : Hand) {s : Session} {tracker : Nat} {job : Job}
    (ht : s.isTracking tracker = true) (ha : ok (.start tracker job)) :
    Deed ok (hand, s) (hand, (s.start tracker job).2)
  | addTree (hand : Hand) {s : Session} {catalog : Catalog} {settings : Settings} {tracker : Nat}
    {definition : Json} (ht : s.isTracking tracker = true)
    (ha : ok (.addTree catalog settings tracker definition)) :
    Deed ok (hand, s) (hand, s.addTree catalog settings tracker definition)
  /-- A drain makes itself known to a call. -/
  | watch (hand : Hand) (s : Session) (call drain place : Nat) :
    Deed ok (hand, s) (hand, s.addWaiter call (.drain drain, place))
  | aside (hand : Hand) {s s' : Session} (h : Step s s') (ha : s.Aside s') :
    Deed ok (hand, s) (hand, s')

abbrev Deeds (ok : Action → Prop) : Hand × Session → Hand × Session → Prop :=
  ReflTransGen (Deed ok)

theorem Moves.deeds {ok : Action → Prop} {x y : Hand × Session} (h : Moves x y) : Deeds ok x y :=
  ReflTransGen.mono (fun _ _ h => .move h) _ _ h

theorem Deed.steps {ok : Action → Prop} {x y : Hand × Session} (h : Deed ok x y)
    (hs : x.2.Sited) : Steps x.2 y.2 := by
  cases h with
  | move h => exact (h.steps hs).steps
  | arrive _ hc hw => exact .single (.arrive hc hw)
  | start _ ht => exact (start_steps _ ht).steps
  | addTree _ ht => exact .single (.addTree _ _ _ ht)
  | watch => exact .single (.call (.addWaiter _ _ _))
  | aside _ h => exact .single h

theorem Deeds.steps {ok : Action → Prop} {x y : Hand × Session} (h : Deeds ok x y)
    (hs : x.2.Sited) : Steps x.2 y.2 := by
  induction h with
  | refl => exact .refl
  | tail _ step ih => exact ih.trans (step.steps (ih.sited hs))

/-- What every deed keeps is kept by a sequence of deeds. -/
theorem Deeds.preserves {ok : Action → Prop} {P : Hand × Session → Prop}
    (hdeed : ∀ x y, x.2.Sited → Deed ok x y → P x → P y) {x y : Hand × Session}
    (h : Deeds ok x y) (hs : x.2.Sited) (hp : P x) : P y := by
  induction h with
  | refl => exact hp
  | tail deeds deed ih => exact hdeed _ _ ((Deeds.steps deeds hs).sited hs) deed ih

section Deeds

variable (ok : Action → Prop)

/-- Invoking an operation that there is starts a call of its tree. -/
theorem perform_invoke_moves (hand : Hand) (s : Session) (tree : Nat) (path : String)
    (request : Request) : Moves (hand, s) (hand, s.perform (.invoke tree path request)) := by
  rw [perform]
  split
  · exact .refl
  · next o ho =>
    obtain ⟨t, ht, hpath⟩ := Option.bind_eq_some_iff.mp ho
    exact .single (.invoke hand request
      (.inl ⟨t, List.mem_of_getElem? ht, Node.operationAt?_mem hpath⟩))

theorem settleGate_deeds (hand : Hand) (s : Session) (gate : Nat) (outcome : Outcome) :
    Deeds ok (hand, s) (hand, s.settleGate gate outcome) := by
  rw [settleGate]
  split
  · next hg =>
    refine .head (.aside hand (.settleGate outcome hg) (.of_drains rfl rfl rfl rfl)) ?_
    dsimp only
    cases s.calls.findIdx? (waitsAt gate) with
    | none => exact .refl
    | some call => exact (wake_nudges hand _ _).moves.deeds
  · exact .refl

theorem arrive_deeds (hand : Hand) (s : Session) (call : Nat) :
    Deeds ok (hand, s) (hand, s.arrive call) := by
  rw [arrive]
  split
  · exact .refl
  · next outcome h =>
    obtain ⟨c, hc, hw⟩ := Option.bind_eq_some_iff.mp h
    have hwork : c.work = .answered outcome := by
      rw [answer?] at hw
      split at hw
      · next heq => rw [heq, Option.some.inj hw]
      · cases hw
    exact .head (.arrive hand hc hwork) (wake_nudges hand _ _).moves.deeds

theorem endClosing_deeds (hand : Hand) (s : Session) (number : Nat) :
    Deeds ok (hand, s) (hand, s.endClosing number) := by
  rw [endClosing]
  split
  · exact .refl
  · next hc =>
    exact .head (.aside hand (.endClosing hc) (.of_drains rfl rfl rfl rfl))
      (wake_nudges hand _ _).moves.deeds

theorem pollCalls_moves (hand : Hand) {s : Session} (hs : s.Sited) (drain : Nat)
    (g : Gathering) : Moves (hand, s) (hand, s.pollCalls drain g) := by
  rw [pollCalls]
  split
  · exact pollDue_moves poll_moves _ _ _ _ _ hand hs
  · exact foldl_pollFuture_moves hand hs g.futures

theorem pollCalls_steps {s : Session} (hs : s.Sited) (drain : Nat) (g : Gathering) :
    CallSteps s (s.pollCalls drain g) :=
  (pollCalls_moves [] hs drain g).steps hs

theorem endDrain_deeds (hand : Hand) {s : Session} {drain : Nat} {g : Gathering}
    (hd : s.drains[drain]? = some (.waiting g)) :
    Deeds ok (hand, s) (hand, s.endDrain drain g.futures) := by
  rw [endDrain]
  split
  · next hall =>
    exact .single (.aside hand (.endDrain hd (List.all_eq_true.mp hall)) (.of_setDrain nofun))
  · exact .refl

theorem pollGathered_deeds (hand : Hand) {s : Session} (hs : s.Sited) (drain : Nat) :
    Deeds ok (hand, s) (hand, s.pollGathered drain) := by
  rw [pollGathered]
  split
  · exact .refl
  · next g hg =>
    have hpoll := pollCalls_moves hand hs drain g
    obtain ⟨g', hg', hf⟩ := (hpoll.steps hs).undisturbed.waiting (gathering?_drain.mp hg)
    rw [← hf]
    exact hpoll.deeds.trans (endDrain_deeds ok hand hg')

theorem watch_deeds (hand : Hand) (drain place : Nat) (s : Session) (futures : List Future) :
    Deeds ok (hand, s) (hand, watch (.drain drain) place s futures) := by
  induction futures generalizing place s with
  | nil => exact .refl
  | cons future rest ih =>
    cases future with
    | settled => exact ih _ s
    | call number => exact .head (.watch hand s number drain place) (ih _ _)

theorem beginDrain_deeds (hand : Hand) {s : Session} {drain tracker : Nat}
    (hd : s.drains[drain]? = some (.fresh tracker)) :
    Deeds ok (hand, s) (hand, s.gather (.drain drain) ((s.tracker tracker).calls.map .call)) :=
  .head (.aside hand (.beginDrain hd) (.of_setDrain fun _ hg => Drain.waiting.inj hg ▸ rfl))
    (watch_deeds ok hand drain 0 _ _)

theorem pollDrain_deeds (hand : Hand) {s : Session} (hs : s.Sited) (drain : Nat) :
    Deeds ok (hand, s) (hand, s.pollDrain drain) := by
  rw [pollDrain]
  split
  · next tracker hd =>
    have hbegin := beginDrain_deeds ok hand hd
    exact hbegin.trans (pollGathered_deeds ok hand ((hbegin.steps hs).sited hs) drain)
  · exact pollGathered_deeds ok hand hs drain
  · exact .refl

/-- What polls of drains leave as it is. -/
structure Lasting (s s' : Session) : Prop where
  trees : s'.trees = s.trees
  shutdowns : s'.shutdowns = s.shutdowns
  closings : s'.closings = s.closings

theorem Lasting.trans {s s1 s2 : Session} (h1 : s.Lasting s1) (h2 : s1.Lasting s2) :
    s.Lasting s2 :=
  ⟨h2.trees.trans h1.trees, h2.shutdowns.trans h1.shutdowns, h2.closings.trans h1.closings⟩

theorem CallSteps.lasting {s s' : Session} (h : CallSteps s s') : s.Lasting s' :=
  ⟨h.undisturbed.trees, h.undisturbed.shutdowns, h.undisturbed.closings⟩

theorem pollGathered_lasting {s : Session} (hs : s.Sited) (drain : Nat) :
    s.Lasting (s.pollGathered drain) := by
  rw [pollGathered]
  split
  · exact ⟨rfl, rfl, rfl⟩
  · next g _ =>
    refine (pollCalls_steps hs drain g).lasting.trans ?_
    rw [endDrain]
    split <;> exact ⟨rfl, rfl, rfl⟩

theorem pollDrain_lasting {s : Session} (hs : s.Sited) (drain : Nat) :
    s.Lasting (s.pollDrain drain) := by
  rw [pollDrain]
  split
  · next tracker hd =>
    have hs' := (Step.beginDrain hd).sited hs
    have hwatch := gather_watch_steps s (.drain drain) ((s.tracker tracker).calls.map .call)
    have hbegin : s.Lasting (s.setGathering
        { futures := (s.tracker tracker).calls.map .call } (.drain drain)) := ⟨rfl, rfl, rfl⟩
    exact (hbegin.trans hwatch.lasting).trans (pollGathered_lasting (hwatch.sited hs') drain)
  · exact pollGathered_lasting hs drain
  · exact ⟨rfl, rfl, rfl⟩

theorem heldShutdown?_eq_some {s : Session} {number : Nat} {shutdown : Shutdown} :
    s.heldShutdown? number = some shutdown ↔
      s.shutdowns[number]? = some shutdown ∧ shutdown.isHeld = true := by
  simp [heldShutdown?, Option.filter_eq_some_iff]

theorem beginShutdown_aside (s : Session) (number tree : Nat) :
    s.Aside (s.beginShutdown number tree) := by
  rw [beginShutdown]
  split
  · exact .of_drains rfl rfl rfl rfl
  · have htrees := map_modify_eq (f := fun t : TreeState => { t with phase := .draining })
      (g := TreeState.compiled) (fun _ => rfl) s.trees tree
    exact .of_fresh rfl rfl htrees rfl

/-- A step that is none of the business of calls, or none at all. -/
def StepsAside (s s' : Session) : Prop := s' = s ∨ (Step s s' ∧ s.Aside s')

variable {ok} in
theorem StepsAside.deeds {s s' : Session} (h : s.StepsAside s') (hand : Hand) :
    Deeds ok (hand, s) (hand, s') := by
  rcases h with rfl | ⟨h, ha⟩
  · exact .refl
  · exact .single (.aside hand h ha)

theorem StepsAside.steps {s s' : Session} (h : s.StepsAside s') : Steps s s' := by
  rcases h with rfl | ⟨h, -⟩
  · exact .refl
  · exact .single h

theorem pollFresh_aside (s : Session) (number : Nat) : s.StepsAside (s.pollFresh number) := by
  rw [pollFresh]
  split
  · next hn => exact .inr ⟨.beginShutdown hn rfl, beginShutdown_aside s _ _⟩
  · exact .inl rfl

theorem pollClosing_aside (s : Session) (number : Nat) : s.StepsAside (s.pollClosing number) := by
  rw [pollClosing]
  split
  · next hn =>
    split
    · next hall =>
      exact .inr ⟨.endShutdown hn rfl hall, .modify_tree rfl rfl rfl (fun _ => rfl) rfl⟩
    · exact .inl rfl
  · exact .inl rfl

/-- Everything is asked to close when the drain of a shutdown has ended. -/
theorem closeAll_deed (hand : Hand) {s : Session} (hs : s.Sited) {number drain : Nat}
    {sd : Shutdown} (hn : s.heldShutdown? number = some sd) (hd : sd.stage = .draining drain)
    (he : ((s.pollDrain drain).drainEnd? drain).isSome = true) :
    Deed ok (hand, s.pollDrain drain) (hand, (s.pollDrain drain).closeAll number sd.tree) := by
  have hn' : (s.pollDrain drain).heldShutdown? number = s.heldShutdown? number := by
    rw [heldShutdown?, heldShutdown?, (pollDrain_lasting hs drain).shutdowns]
  exact .aside hand (.closeAll (hn'.trans hn) hd he) (.of_drains rfl rfl rfl rfl)

theorem pollDraining_deeds (hand : Hand) {s : Session} (hs : s.Sited) (number : Nat) :
    Deeds ok (hand, s) (hand, s.pollDraining number) := by
  rw [pollDraining]
  split
  · next tree drain isHeld hn =>
    refine (pollDrain_deeds ok hand hs drain).trans ?_
    dsimp only
    split
    · next he => exact .single (closeAll_deed ok hand hs hn rfl he)
    · exact .refl
  · exact .refl

theorem pollShutdown_deeds (hand : Hand) {s : Session} (hs : s.Sited) (number : Nat) :
    Deeds ok (hand, s) (hand, s.pollShutdown number) := by
  have hfresh := pollFresh_aside s number
  have hdraining := pollDraining_deeds ok hand (hfresh.steps.sited hs) number
  exact ((hfresh.deeds hand).trans hdraining).trans ((pollClosing_aside _ number).deeds hand)

theorem runTask_deeds (hand : Hand) {s : Session} (hs : s.Sited) (number : Nat) :
    Deeds ok (hand, s) (hand, s.runTask number) := by
  rw [runTask]
  split
  · exact .refl
  · exact (poll_moves hand hs _).deeds
  · exact pollDrain_deeds ok hand hs _
  · exact pollShutdown_deeds ok hand hs _

theorem runFirst_deeds (count : Nat) (hand : Hand) {s : Session} (hs : s.Sited) :
    Deeds ok (hand, s) (hand, s.runFirst count) := by
  induction count generalizing s with
  | zero => exact .refl
  | succ count ih =>
    rw [runFirst]
    split
    · exact .refl
    · next task queue _ =>
      have hqueue : Deed ok (hand, s) (hand, { s with queue }) :=
        .move (.nudge (.queue hand s queue))
      have hs1 := (hqueue.steps hs).sited hs
      have htask := runTask_deeds ok hand hs1 task
      exact .head hqueue (htask.trans (ih ((htask.steps hs1).sited hs1)))

/-- Every action is a sequence of deeds. -/
theorem perform_deeds (hand : Hand) {s : Session} (hs : s.Sited) {action : Action}
    (ha : ok action) : Deeds ok (hand, s) (hand, s.perform action) := by
  cases action with
  | addTracker => exact .single (.aside hand (.addTracker s) (.of_drains rfl rfl rfl rfl))
  | discardTracker tracker =>
    rw [perform, discardTracker]
    split
    · exact .refl
    · next hu =>
      exact .single (.aside hand (.discardTracker (by simpa using hu)) (.of_drains rfl rfl rfl rfl))
  | addTree catalog settings tracker definition =>
    rw [perform]
    split
    · next ht => exact .single (.addTree hand ht ha)
    · exact .refl
  | dropTree tree =>
    exact .single (.aside hand (.dropTree s tree) (.modify_tree rfl rfl rfl (fun _ => rfl) rfl))
  | start tracker job =>
    rw [perform]
    split
    · next ht => exact .single (.start hand ht ha)
    · exact .refl
  | invoke tree path request => exact (perform_invoke_moves hand s tree path request).deeds
  | poll call => exact (poll_moves hand hs call).deeds
  | release call => exact .single (.move (.release hand s call))
  | settleGate gate outcome => exact settleGate_deeds ok hand s gate outcome
  | arrive call => exact arrive_deeds ok hand s call
  | addDrain tracker =>
    exact .single (.aside hand (.addDrain s tracker) (.of_fresh rfl rfl rfl rfl))
  | pollDrain drain => exact pollDrain_deeds ok hand hs drain
  | addShutdown tree =>
    rw [perform]
    split
    · next ht => exact .single (.aside hand (.addShutdown ht) (.of_drains rfl rfl rfl rfl))
    · exact .refl
  | pollShutdown number => exact pollShutdown_deeds ok hand hs number
  | dropShutdown number =>
    exact .single (.aside hand (.dropShutdown s number) (.of_drains rfl rfl rfl rfl))
  | endClosing number => exact endClosing_deeds ok hand s number
  | change outside => exact .single (.aside hand (.change s outside) (.of_drains rfl rfl rfl rfl))
  | spawn task => exact .single (.aside hand (.spawn s task) (.of_drains rfl rfl rfl rfl))
  | runNext => exact runFirst_deeds ok 1 hand hs

theorem after_append (s : Session) (before later : List Action) :
    s.after (before ++ later) = (s.after before).after later :=
  List.foldl_append

theorem after_deeds (hand : Hand) {s : Session} (hs : s.Sited) {actions : List Action}
    (ha : ∀ action ∈ actions, ok action) : Deeds ok (hand, s) (hand, s.after actions) := by
  induction actions generalizing s with
  | nil => exact .refl
  | cons action rest ih =>
    obtain ⟨hfirst, hrest⟩ := List.forall_mem_cons.mp ha
    have hdeeds := perform_deeds ok hand hs hfirst
    exact hdeeds.trans (ih ((hdeeds.steps hs).sited hs) hrest)

end Deeds

/-! ### Whatever is in hand -/

/-- One session becomes another by deeds that leave in hand what is there. -/
abbrev AnyDeeds (s t : Session) : Prop :=
  ∀ hand, Deeds (fun _ => True) (hand, s) (hand, t)

namespace AnyDeeds

variable {s t u : Session}

theorem of_moves (h : ∀ hand, Moves (hand, s) (hand, t)) : s.AnyDeeds t :=
  fun hand => (h hand).deeds

theorem trans (h : s.AnyDeeds t) (h' : t.AnyDeeds u) : s.AnyDeeds u :=
  fun hand => (h hand).trans (h' hand)

theorem steps (h : s.AnyDeeds t) (hs : s.Sited) : Steps s t := Deeds.steps (h []) hs

theorem sited (h : s.AnyDeeds t) (hs : s.Sited) : t.Sited := (h.steps hs).sited hs

theorem ended (h : s.AnyDeeds t) (hs : s.Sited) {call : Nat}
    (ho : (s.outcomeOf call).isSome = true) : (t.outcomeOf call).isSome = true :=
  (h.steps hs).continues.ended ho

end AnyDeeds

theorem after_anyDeeds {s : Session} (hs : s.Sited) (actions : List Action) :
    s.AnyDeeds (s.after actions) :=
  fun hand => after_deeds _ hand hs fun _ _ => trivial

/-! ### Actions as steps -/

theorem pollFresh_steps (s : Session) (number : Nat) : Steps s (s.pollFresh number) :=
  (pollFresh_aside s number).steps

theorem pollClosing_steps (s : Session) (number : Nat) : Steps s (s.pollClosing number) :=
  (pollClosing_aside s number).steps

section Steps

variable {s : Session} (hs : s.Sited)
include hs

theorem perform_invoke_steps (tree : Nat) (path : String) (request : Request) :
    CallSteps s (s.perform (.invoke tree path request)) :=
  (perform_invoke_moves [] s tree path request).steps hs

theorem pollGathered_steps (drain : Nat) : Steps s (s.pollGathered drain) :=
  (pollGathered_deeds (fun _ => True) [] hs drain).steps hs

theorem pollDrain_steps (drain : Nat) : Steps s (s.pollDrain drain) :=
  (pollDrain_deeds (fun _ => True) [] hs drain).steps hs

theorem pollDraining_steps (number : Nat) : Steps s (s.pollDraining number) :=
  (pollDraining_deeds (fun _ => True) [] hs number).steps hs

theorem pollShutdown_steps (number : Nat) : Steps s (s.pollShutdown number) :=
  (pollShutdown_deeds (fun _ => True) [] hs number).steps hs

theorem after_steps (actions : List Action) : Steps s (s.after actions) :=
  (after_anyDeeds hs actions).steps hs

end Steps

theorem Reachable.attained {s : Session} (h : s.Reachable) : s.Attained := by
  obtain ⟨hasScheduler, outside, actions, rfl⟩ := h
  exact ⟨hasScheduler, outside, after_steps (initial_sited hasScheduler outside) actions⟩

theorem Reachable.after {s : Session} (h : s.Reachable) (actions : List Action) :
    (s.after actions).Reachable := by
  obtain ⟨hasScheduler, outside, before, rfl⟩ := h
  exact ⟨hasScheduler, outside, before ++ actions, (List.foldl_append ..).symm⟩

end OperationTree.Session
