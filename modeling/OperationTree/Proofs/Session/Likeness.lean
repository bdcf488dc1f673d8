import OperationTree.Proofs.Session.Step
import OperationTree.Proofs.Tree.Annotation

/-! Sessions that go on alike.  A session looks into its compiled trees at three moments only: when
a path is looked up, when an aggregate looks for the operations that it lists, and when a shutdown
closes what the tree has loaded; and nothing that it does depends on who keeps the future of a call.
So a session `Mirrors` another one if its trees have been compiled to what offers the same, and if
its calls are the same, be it up to who keeps their futures; and whatever happens to the two, the
one goes on mirroring the other. -/

namespace OperationTree

/-- The tree with the given number, compiled to something else. -/
def TreeState.replace (f : Nat → Compiled → Compiled) (number : Nat) (tree : TreeState) :
    TreeState :=
  { tree with compiled := f number tree.compiled }

/-- A call, with who keeps its future if that is to count. -/
def Call.seen (keeping : Bool) (c : Call) : Call := { c with isHeld := keeping && c.isHeld }

section Seen

variable {keeping : Bool} {c c' : Call} (h : c'.seen keeping = c.seen keeping)
include h

theorem Call.tracker_of_seen : c'.tracker = c.tracker :=
  (congrArg Call.tracker h : (c'.seen keeping).tracker = (c.seen keeping).tracker)

theorem Call.id_of_seen : c'.id = c.id :=
  (congrArg Call.id h : (c'.seen keeping).id = (c.seen keeping).id)

theorem Call.work_of_seen : c'.work = c.work :=
  (congrArg Call.work h : (c'.seen keeping).work = (c.seen keeping).work)

theorem Call.outcome_of_seen : c'.outcome = c.outcome :=
  (congrArg Call.outcome h : (c'.seen keeping).outcome = (c.seen keeping).outcome)

theorem Call.waiters_of_seen : c'.waiters = c.waiters :=
  (congrArg Call.waiters h : (c'.seen keeping).waiters = (c.seen keeping).waiters)

end Seen

namespace Session

/-- `t` is `s` with other compiled trees in place of its own, and, unless that counts, with futures
kept by others. -/
def Mirrors (keeping : Bool) (f : Nat → Compiled → Compiled) (s t : Session) : Prop :=
  ∃ calls : List Call, calls.map (Call.seen keeping) = s.calls.map (Call.seen keeping) ∧
    t = { s with calls, trees := s.trees.mapIdx (TreeState.replace f) }

namespace Mirrors

variable {keeping : Bool} {f : Nat → Compiled → Compiled} {s t : Session}

/-! ### What stays aside -/

section Aside

variable (h : Mirrors keeping f s t)
include h

/-- What depends on neither calls nor trees is the same. -/
theorem aside {α : Type} (p : Session → α)
    (hp : ∀ calls trees, p { s with calls, trees } = p s) : p t = p s := by
  obtain ⟨calls, -, rfl⟩ := h
  exact hp _ _

/-- What is neither a call nor a tree may change alike. -/
theorem update (g : Session → Session) (hcalls : (g s).calls = s.calls)
    (hg : ∀ calls, g { s with calls, trees := s.trees.mapIdx (TreeState.replace f) } =
      { g s with calls, trees := (g s).trees.mapIdx (TreeState.replace f) }) :
    Mirrors keeping f (g s) (g t) := by
  obtain ⟨calls, hseen, rfl⟩ := h
  exact ⟨calls, hcalls ▸ hseen, hg calls⟩

theorem queue_eq : t.queue = s.queue := h.aside Session.queue fun _ _ => rfl

theorem tasks_eq : t.tasks = s.tasks := h.aside Session.tasks fun _ _ => rfl

theorem drains_eq : t.drains = s.drains := h.aside Session.drains fun _ _ => rfl

theorem depth_eq : t.depth = s.depth := h.aside Session.depth fun _ _ => rfl

theorem hasScheduler_eq : t.hasScheduler = s.hasScheduler :=
  h.aside Session.hasScheduler fun _ _ => rfl

theorem drainEnd? (drain : Nat) : t.drainEnd? drain = s.drainEnd? drain :=
  h.aside (·.drainEnd? drain) fun _ _ => rfl

theorem heldShutdown? (number : Nat) : t.heldShutdown? number = s.heldShutdown? number :=
  h.aside (·.heldShutdown? number) fun _ _ => rfl

theorem enqueue (waiter : Waiter) : Mirrors keeping f (s.enqueue waiter) (t.enqueue waiter) :=
  h.update (·.enqueue waiter) rfl fun _ => rfl

theorem spawn (task : Task) : Mirrors keeping f (s.spawn task).2 (t.spawn task).2 :=
  h.update (fun s => (s.spawn task).2) rfl fun _ => rfl

theorem addDrain (tracker : Nat) :
    Mirrors keeping f (s.addDrain tracker).2 (t.addDrain tracker).2 :=
  h.update (fun s => (s.addDrain tracker).2) rfl fun _ => rfl

theorem setDrain (number : Nat) (drain : Drain) :
    Mirrors keeping f (s.setDrain number drain) (t.setDrain number drain) :=
  h.update (·.setDrain number drain) rfl fun _ => rfl

theorem setStage (number : Nat) (stage : Stage) :
    Mirrors keeping f (s.setStage number stage) (t.setStage number stage) :=
  h.update (·.setStage number stage) rfl fun _ => rfl

end Aside

/-! ### Calls -/

section Calls

variable (h : Mirrors keeping f s t)
include h

theorem calls_seen : t.calls.map (Call.seen keeping) = s.calls.map (Call.seen keeping) := by
  obtain ⟨calls, hcalls, rfl⟩ := h
  exact hcalls

theorem length_calls : t.calls.length = s.calls.length := by
  simpa using congrArg List.length h.calls_seen

/-- A number is that of a call in both sessions or in neither. -/
theorem calls_cases (n : Nat) : (s.calls[n]? = none ∧ t.calls[n]? = none) ∨
    ∃ c c', s.calls[n]? = some c ∧ t.calls[n]? = some c' ∧ c'.seen keeping = c.seen keeping :=
  getElem?_cases h.calls_seen n

theorem unsettled?_cases (n : Nat) : (s.unsettled? n = none ∧ t.unsettled? n = none) ∨
    ∃ c c', s.unsettled? n = some c ∧ t.unsettled? n = some c' ∧
      c'.seen keeping = c.seen keeping := by
  rw [unsettled?, unsettled?]
  rcases h.calls_cases n with ⟨hs, ht⟩ | ⟨c, c', hs, ht, hseen⟩
  · exact .inl (by rw [hs, ht]; exact ⟨rfl, rfl⟩)
  · rw [hs, ht, Option.filter_some, Option.filter_some, Call.outcome_of_seen hseen]
    split
    · exact .inr ⟨c, c', rfl, rfl, hseen⟩
    · exact .inl ⟨rfl, rfl⟩

theorem outcomeOf (n : Nat) : t.outcomeOf n = s.outcomeOf n := by
  rw [Session.outcomeOf, Session.outcomeOf]
  rcases h.calls_cases n with ⟨hs, ht⟩ | ⟨c, c', hs, ht, hseen⟩
  · rw [hs, ht]
  · rw [hs, ht]
    exact Call.outcome_of_seen hseen

theorem result (future : Future) : t.result future = s.result future := by
  cases future with
  | settled => rfl
  | call n => exact h.outcomeOf n

theorem gathering? (waiter : Waiter) : t.gathering? waiter = s.gathering? waiter := by
  cases waiter with
  | call n =>
    rcases h.unsettled?_cases n with ⟨hs, ht⟩ | ⟨c, c', hs, ht, hseen⟩
    · rw [Session.gathering?, Session.gathering?, hs, ht]
    · have hwork := Call.work_of_seen hseen
      refine Option.ext fun g => ⟨fun hg => ?_, fun hg => ?_⟩
      · obtain ⟨c1, hc1, hw⟩ := gathering?_call hg
        obtain rfl := Option.some.inj (ht.symm.trans hc1)
        exact gathering?_eq_some hs (hwork.symm.trans hw)
      · obtain ⟨c1, hc1, hw⟩ := gathering?_call hg
        obtain rfl := Option.some.inj (hs.symm.trans hc1)
        exact gathering?_eq_some ht (hwork.trans hw)
  | drain | shutdown => exact h.aside (Session.gathering? · _) fun _ _ => rfl

/-- Calls change alike in ways that have nothing to do with who keeps their futures. -/
theorem modify (n : Nat) {g : Call → Call}
    (hg : ∀ c c', c'.seen keeping = c.seen keeping → (g c').seen keeping = (g c).seen keeping) :
    Mirrors keeping f { s with calls := s.calls.modify n g }
      { t with calls := t.calls.modify n g } := by
  have hseen : (t.calls.modify n g).map (Call.seen keeping) =
      (s.calls.modify n g).map (Call.seen keeping) := by
    refine List.ext_getElem? fun m => ?_
    simp only [List.getElem?_map, List.getElem?_modify]
    rcases h.calls_cases m with ⟨hs, ht⟩ | ⟨c, c', hs, ht, hseen⟩
    · rw [hs, ht]
    · rw [hs, ht]
      refine congrArg some ?_
      split
      · exact hg c c' hseen
      · exact hseen
  obtain ⟨calls, -, rfl⟩ := h
  exact ⟨_, hseen, rfl⟩

theorem setWork (n : Nat) (work : Work) : Mirrors keeping f (s.setWork n work) (t.setWork n work) :=
  h.modify n fun _ _ hseen => congrArg (fun c => { c with work }) hseen

theorem addWaiter (n : Nat) (waiter : Waiter × Nat) :
    Mirrors keeping f (s.addWaiter n waiter) (t.addWaiter n waiter) :=
  h.modify n fun _ _ hseen => congrArg (fun c => { c with waiters := c.waiters ++ [waiter] }) hseen

theorem release (n : Nat) : Mirrors keeping f (s.release n) (t.release n) :=
  h.modify n fun _ _ hseen => congrArg (fun c => { c with isHeld := keeping && false }) hseen

theorem drop (future : Future) : Mirrors keeping f (s.drop future) (t.drop future) := by
  cases future with
  | settled => exact h
  | call n => exact h.release n

theorem setGathering (g : Gathering) (waiter : Waiter) :
    Mirrors keeping f (s.setGathering g waiter) (t.setGathering g waiter) := by
  cases waiter with
  | call n => exact h.setWork n _
  | drain n => exact h.setDrain n _
  | shutdown => exact h

end Calls

/-! ### Waking -/

theorem notify {wake : Session → Waiter → Session}
    (hwake : ∀ {s t}, Mirrors keeping f s t → ∀ waiter,
      Mirrors keeping f (wake s waiter) (wake t waiter))
    (h : Mirrors keeping f s t) (waiter : Waiter) (place : Nat) :
    Mirrors keeping f (notify wake s waiter place) (notify wake t waiter place) := by
  rw [Session.notify, Session.notify, h.gathering?]
  split
  · exact h
  · split
    · exact hwake h waiter
    · split
      · exact hwake (h.setGathering _ waiter) waiter
      · exact h

theorem waiters (h : Mirrors keeping f s t) (n : Nat) :
    t.calls[n]?.elim [] Call.waiters = s.calls[n]?.elim [] Call.waiters := by
  rcases h.calls_cases n with ⟨hs, ht⟩ | ⟨c, c', hs, ht, hseen⟩
  · rw [hs, ht]
  · rw [hs, ht]
    exact Call.waiters_of_seen hseen

theorem wakeWithin (h : Mirrors keeping f s t) (depth : Nat) (waiter : Waiter) :
    Mirrors keeping f (wakeWithin depth s waiter) (wakeWithin depth t waiter) := by
  induction depth generalizing s t waiter with
  | zero => exact h
  | succ depth ih =>
    cases waiter with
    | call n =>
      rw [Session.wakeWithin, Session.wakeWithin]
      dsimp only
      rw [(h.enqueue (.call n)).waiters]
      exact List.foldl_rel (h.enqueue (.call n)) fun entry _ _ _ h =>
        notify (fun h waiter => ih h waiter) h entry.1 entry.2
    | drain | shutdown => exact h.enqueue _

theorem wake (h : Mirrors keeping f s t) (waiter : Waiter) :
    Mirrors keeping f (s.wake waiter) (t.wake waiter) := by
  rw [Session.wake, Session.wake, h.length_calls]
  exact h.wakeWithin _ waiter

theorem findIdx?_waitsAt (h : Mirrors keeping f s t) (gate : Nat) :
    t.calls.findIdx? (waitsAt gate) = s.calls.findIdx? (waitsAt gate) := by
  have hseen (calls : List Call) : calls.findIdx? (waitsAt gate) =
      (calls.map (Call.seen keeping)).findIdx? (waitsAt gate) := by
    rw [List.findIdx?_map]
    refine congrArg (List.findIdx? · calls) (funext fun c => ?_)
    obtain ⟨_, _, work, outcome, _, _⟩ := c
    cases outcome <;> cases work <;> rfl
  rw [hseen, h.calls_seen, ← hseen]

theorem settleGate (h : Mirrors keeping f s t) (gate : Nat) (outcome : Outcome) :
    Mirrors keeping f (s.settleGate gate outcome) (t.settleGate gate outcome) := by
  have hset := h.update (fun s => { s with gates := s.gates.set gate (some outcome) }) rfl
    fun _ => rfl
  have hopen := h.aside (·.isOpen gate) fun _ _ => rfl
  rw [Session.settleGate, Session.settleGate, hopen]
  split
  · dsimp only
    rw [h.findIdx?_waitsAt gate]
    cases s.calls.findIdx? (waitsAt gate) with
    | none => exact hset
    | some call => exact hset.wake (.call call)
  · exact h

theorem finish (h : Mirrors keeping f s t) (call : Nat) {c c' : Call}
    (hseen : c'.seen keeping = c.seen keeping) (outcome : Outcome) :
    Mirrors keeping f (s.finish call c outcome) (t.finish call c' outcome) := by
  have hcalls : (t.calls.set call { c' with outcome := some outcome }).map (Call.seen keeping) =
      (s.calls.set call { c with outcome := some outcome }).map (Call.seen keeping) := by
    rw [List.map_set, List.map_set, h.calls_seen]
    exact congrArg _ (congrArg (fun c => { c with outcome := some outcome }) hseen)
  obtain ⟨calls, -, rfl⟩ := h
  refine ⟨_, hcalls, ?_⟩
  rw [Session.finish, Call.tracker_of_seen hseen, Call.id_of_seen hseen]
  rfl

theorem settle (h : Mirrors keeping f s t) (call : Nat) (outcome : Outcome) :
    Mirrors keeping f (s.settle call outcome) (t.settle call outcome) := by
  rw [Session.settle, Session.settle]
  rcases h.unsettled?_cases call with ⟨hs, ht⟩ | ⟨c, c', hs, ht, hseen⟩
  · rw [hs, ht]
    exact h
  · rw [hs, ht]
    exact (h.finish call hseen outcome).wake (.call call)

theorem arrive (h : Mirrors keeping f s t) (call : Nat) :
    Mirrors keeping f (s.arrive call) (t.arrive call) := by
  have hanswer : (t.unsettled? call).bind answer? = (s.unsettled? call).bind answer? := by
    rcases h.unsettled?_cases call with ⟨hs, ht⟩ | ⟨c, c', hs, ht, hseen⟩
    · rw [hs, ht]
    · rw [hs, ht]
      rw [Option.bind_some, Option.bind_some, answer?, Call.work_of_seen hseen, answer?]
  rw [Session.arrive, Session.arrive, hanswer]
  split
  · exact h
  · exact (h.setWork call _).wake (.call call)

theorem endClosing (h : Mirrors keeping f s t) (number : Nat) :
    Mirrors keeping f (s.endClosing number) (t.endClosing number) := by
  have hset (closings : List Closing) := h.update (fun s => { s with closings }) rfl fun _ => rfl
  rw [Session.endClosing, Session.endClosing, h.aside Session.closings fun _ _ => rfl]
  split
  · exact h
  · exact (hset _).wake _

/-! ### Starting calls and gathering them -/

theorem watch (h : Mirrors keeping f s t) (waiter : Waiter) (place : Nat)
    (futures : List Future) :
    Mirrors keeping f (watch waiter place s futures) (watch waiter place t futures) := by
  induction futures generalizing s t place with
  | nil => exact h
  | cons future rest ih =>
    cases future with
    | settled => exact ih h (place + 1)
    | call n => exact ih (h.addWaiter n (waiter, place)) (place + 1)

theorem gather (h : Mirrors keeping f s t) (waiter : Waiter) (futures : List Future) :
    Mirrors keeping f (s.gather waiter futures) (t.gather waiter futures) :=
  (h.setGathering _ waiter).watch waiter 0 futures

theorem register (h : Mirrors keeping f s t) (tracker : Nat) (work : Work) :
    Mirrors keeping f (s.register tracker work) (t.register tracker work) := by
  have hlength := h.length_calls
  obtain ⟨calls, hcalls, rfl⟩ := h
  dsimp only at hlength
  refine ⟨_, ?_, by rw [Session.register, hlength]; rfl⟩
  rw [List.map_append, hcalls]
  exact List.map_append.symm

theorem track (h : Mirrors keeping f s t) (tracker : Nat) (work : Work) :
    (t.track tracker work).1 = (s.track tracker work).1 ∧
      Mirrors keeping f (s.track tracker work).2 (t.track tracker work).2 := by
  simp only [Session.track]
  refine ⟨h.length_calls, ?_⟩
  rw [(h.register tracker work).hasScheduler_eq, h.length_calls]
  split
  · exact (h.register tracker work).spawn _
  · exact h.register tracker work

theorem workOf (h : Mirrors keeping f s t) (job : Job) :
    (t.workOf job).1 = (s.workOf job).1 ∧
      Mirrors keeping f (s.workOf job).2 (t.workOf job).2 := by
  cases job with
  | gated =>
    exact ⟨h.aside (fun s => (s.workOf .gated).1) fun _ _ => rfl,
      h.update (fun s => (s.workOf .gated).2) rfl fun _ => rfl⟩
  | finished | exchange | aggregate => exact ⟨rfl, h⟩

theorem start (h : Mirrors keeping f s t) (tracker : Nat) (job : Job) :
    (t.start tracker job).1 = (s.start tracker job).1 ∧
      Mirrors keeping f (s.start tracker job).2 (t.start tracker job).2 := by
  obtain ⟨hwork, hsession⟩ := h.workOf job
  simp only [Session.start, hwork]
  exact hsession.track tracker _

/-! ### Polling -/

theorem progressFrom (h : Mirrors keeping f s t) (taken : List Nat) (place : Nat)
    (futures : List Future) :
    t.progressFrom taken place futures = s.progressFrom taken place futures := by
  induction futures generalizing place with
  | nil => rfl
  | cons future rest ih => rw [Session.progressFrom, Session.progressFrom, h.result, ih]

theorem hasFailed (h : Mirrors keeping f s t) (g : Gathering) : t.hasFailed g = s.hasFailed g := by
  rw [Session.hasFailed, Session.hasFailed, h.progressFrom]

theorem conclude (h : Mirrors keeping f s t) (call : Nat) (targets : List Future)
    (progress : Progress) :
    Mirrors keeping f (s.conclude call targets progress) (t.conclude call targets progress) := by
  have hdrop : Mirrors keeping f (targets.foldl Session.drop s) (targets.foldl Session.drop t) :=
    List.foldl_rel h fun future _ _ _ h => h.drop future
  cases progress with
  | waiting => exact h
  | failed | complete => exact hdrop.settle call _

theorem endDrain (h : Mirrors keeping f s t) (drain : Nat) (futures : List Future) :
    Mirrors keeping f (s.endDrain drain futures) (t.endDrain drain futures) := by
  have hfailure : t.failureOf = s.failureOf := funext fun future => by
    rw [failureOf, failureOf, h.result]
  simp only [Session.endDrain, h.result, hfailure]
  split
  · exact h.setDrain drain _
  · exact h

section Polling

variable {pollCall : Session → Nat → Session}
  (hpoll : ∀ {s t}, Mirrors keeping f s t → ∀ call,
    Mirrors keeping f (pollCall s call) (pollCall t call))
include hpoll

theorem pollFuture (h : Mirrors keeping f s t) (future : Future) :
    Mirrors keeping f (pollFuture pollCall s future) (pollFuture pollCall t future) := by
  cases future with
  | settled => exact h
  | call n => exact hpoll h n

theorem collect (h : Mirrors keeping f s t) (futures : List Future) :
    (collect pollCall t futures).1 = (collect pollCall s futures).1 ∧
      Mirrors keeping f (collect pollCall s futures).2 (collect pollCall t futures).2 := by
  induction futures generalizing s t with
  | nil => exact ⟨rfl, h⟩
  | cons future rest ih =>
    have hfirst := pollFuture hpoll h future
    obtain ⟨hprogress, hrest⟩ := ih hfirst
    simp only [Session.collect, hfirst.result]
    split
    · exact ⟨rfl, hfirst⟩
    · exact ⟨congrArg (Progress.cons _) hprogress, hrest⟩
    · exact ⟨congrArg Progress.wait hprogress, hrest⟩

theorem pollDue {isOver : Session → Gathering → Bool}
    (hover : ∀ {s t}, Mirrors keeping f s t → ∀ g, isOver t g = isOver s g) (waiter : Waiter)
    (fuel polled yielded : Nat) (h : Mirrors keeping f s t) :
    Mirrors keeping f (pollDue pollCall isOver waiter fuel polled yielded s)
      (pollDue pollCall isOver waiter fuel polled yielded t) := by
  induction fuel generalizing polled yielded s t with
  | zero => exact h.wake waiter
  | succ fuel ih =>
    rw [Session.pollDue, Session.pollDue, h.gathering?]
    -- Both sessions are asked the same at every turn, so they take the same branches.
    split
    · exact h
    · next g _ =>
      split
      · exact h
      · next place due _ =>
        have hpopped := h.setGathering { g with due } waiter
        dsimp only
        split
        · exact ih _ _ hpopped
        · next future _ =>
          have hpolled := pollFuture hpoll hpopped future
          split
          · exact ih _ _ hpopped
          · rw [hpolled.gathering?]
            split
            · exact hpolled
            · next g' _ =>
              have htaken := hpolled.setGathering (g'.take place) waiter
              rw [hpolled.result, hover htaken]
              split
              · split
                · exact htaken
                · exact ih _ _ htaken
              · split
                · exact hpolled.wake waiter
                · exact ih _ _ hpolled

theorem pollTargets (h : Mirrors keeping f s t) (call : Nat) :
    Mirrors keeping f (pollTargets pollCall s call) (pollTargets pollCall t call) := by
  rw [Session.pollTargets, Session.pollTargets, h.gathering?]
  split
  · exact h
  · next g _ =>
    dsimp only
    split
    · have hdue := pollDue hpoll (fun h g => h.hasFailed g) (.call call) g.pollBound 0 0 h
      rw [hdue.gathering?, hdue.progressFrom]
      exact hdue.conclude call g.futures _
    · obtain ⟨hprogress, hcollect⟩ := collect hpoll h g.futures
      rw [hprogress]
      exact hcollect.conclude call g.futures _

end Polling

/-! ### What looks into trees -/

theorem getElem?_trees (h : Mirrors keeping f s t) (number : Nat) :
    t.trees[number]? = s.trees[number]?.map (TreeState.replace f number) := by
  obtain ⟨calls, -, rfl⟩ := h
  exact List.getElem?_mapIdx

theorem length_trees (h : Mirrors keeping f s t) : t.trees.length = s.trees.length := by
  obtain ⟨calls, -, rfl⟩ := h
  exact List.length_mapIdx

theorem trackerOf (h : Mirrors keeping f s t) (tree : Nat) :
    t.trackerOf tree = s.trackerOf tree := by
  rw [Session.trackerOf, h.getElem?_trees, Option.map_map]
  rfl

theorem phaseOf (h : Mirrors keeping f s t) (tree : Nat) : t.phaseOf tree = s.phaseOf tree := by
  rw [Session.phaseOf, h.getElem?_trees, Option.map_map]
  rfl

theorem isAlive (h : Mirrors keeping f s t) (tree : Nat) : t.isAlive tree = s.isAlive tree := by
  have hkeeps := h.aside (fun s => s.tasks.filterMap s.keeps?) fun _ _ => rfl
  rw [Session.isAlive, hkeeps, h.getElem?_trees, Option.map_map]
  rfl

theorem usesTracker (h : Mirrors keeping f s t) (tracker : Nat) :
    t.usesTracker tracker = s.usesTracker tracker := by
  have htrackers : t.trees.map TreeState.tracker = s.trees.map TreeState.tracker := by
    refine List.ext_getElem? fun n => ?_
    rw [List.getElem?_map, List.getElem?_map, h.getElem?_trees, Option.map_map]
    rfl
  have hany (trees : List TreeState) : trees.any (fun tree => tree.tracker == tracker) =
      (trees.map TreeState.tracker).any (· == tracker) := by
    rw [List.any_map]
    rfl
  rw [Session.usesTracker, hany, htrackers, ← hany, h.drains_eq]
  rfl

theorem discardTracker (h : Mirrors keeping f s t) (tracker : Nat) :
    Mirrors keeping f (s.discardTracker tracker) (t.discardTracker tracker) := by
  rw [Session.discardTracker, Session.discardTracker, h.usesTracker]
  split
  · exact h
  · exact h.update (fun s => { s with trackers := s.trackers.modify tracker Tracker.discard }) rfl
      fun _ => rfl

/-- Trees change alike in ways that have nothing to do with what they were compiled to. -/
theorem modify_tree (h : Mirrors keeping f s t) {g : TreeState → TreeState}
    (hg : ∀ number tree, g (TreeState.replace f number tree) = TreeState.replace f number (g tree))
    (tree : Nat) :
    Mirrors keeping f { s with trees := s.trees.modify tree g }
      { t with trees := t.trees.modify tree g } := by
  have htrees : (s.trees.mapIdx (TreeState.replace f)).modify tree g =
      (s.trees.modify tree g).mapIdx (TreeState.replace f) := by
    refine List.ext_getElem? fun n => ?_
    rw [List.getElem?_modify, List.getElem?_mapIdx, List.getElem?_mapIdx, List.getElem?_modify]
    cases s.trees[n]? with
    | none => rfl
    | some other =>
      refine congrArg some ?_
      split
      · exact hg n other
      · rfl
  obtain ⟨calls, hcalls, rfl⟩ := h
  exact ⟨calls, hcalls, congrArg (fun trees => { s with calls, trees }) htrees⟩

theorem dropTree (h : Mirrors keeping f s t) (tree : Nat) :
    Mirrors keeping f (s.dropTree tree) (t.dropTree tree) :=
  h.modify_tree (fun _ _ => rfl) tree

theorem setPhase (h : Mirrors keeping f s t) (tree : Nat) (phase : Phase) :
    Mirrors keeping f (s.setPhase tree phase) (t.setPhase tree phase) :=
  h.modify_tree (fun _ _ => rfl) tree

theorem invoke (h : Mirrors keeping f s t) (operation : Operation) (request : Request) :
    (t.invoke operation request).1 = (s.invoke operation request).1 ∧
      Mirrors keeping f (s.invoke operation request).2 (t.invoke operation request).2 := by
  rw [Session.invoke, Session.invoke, h.trackerOf]
  split
  · exact ⟨rfl, h⟩
  · obtain ⟨hnumber, hstart⟩ := h.start (s.trackerOf operation.site.tree) _
    exact ⟨congrArg Future.call hnumber, hstart⟩

theorem invokeAll (h : Mirrors keeping f s t) (request : Request) (operations : List Operation) :
    (t.invokeAll request operations).1 = (s.invokeAll request operations).1 ∧
      Mirrors keeping f (s.invokeAll request operations).2 (t.invokeAll request operations).2 := by
  induction operations generalizing s t with
  | nil => exact ⟨rfl, h⟩
  | cons operation rest ih =>
    obtain ⟨hfirst, hsession⟩ := h.invoke operation request
    obtain ⟨hrest, hsession⟩ := ih hsession
    simp only [Session.invokeAll]
    exact ⟨by rw [hfirst, hrest], hsession⟩

theorem findAll_congr {root root' : Node Operation}
    (h : ∀ path, root'.operationAt? path = root.operationAt? path) (ids : List String) :
    findAll root' ids = findAll root ids := by
  induction ids with
  | nil => rfl
  | cons id rest ih => rw [findAll, findAll, h, ih]

theorem beginShutdown (h : Mirrors keeping f s t) (number tree : Nat) :
    Mirrors keeping f (s.beginShutdown number tree) (t.beginShutdown number tree) := by
  rw [Session.beginShutdown, Session.beginShutdown, h.phaseOf, h.trackerOf]
  split
  · exact h.setStage number _
  · have hphase := h.setPhase tree .draining
    have hdrain := hphase.addDrain (s.trackerOf tree)
    simp only [Session.addDrain] at hdrain ⊢
    rw [hphase.drains_eq] at hdrain ⊢
    exact hdrain.setStage number _

theorem pollFresh (h : Mirrors keeping f s t) (number : Nat) :
    Mirrors keeping f (s.pollFresh number) (t.pollFresh number) := by
  rw [Session.pollFresh, Session.pollFresh, h.heldShutdown?]
  split
  · exact h.beginShutdown number _
  · exact h

section Offering

variable (hf : ∀ number compiled, Compiled.Offers compiled (f number compiled))
include hf

theorem rootOf? (h : Mirrors keeping f s t) (site : Site) :
    (s.rootOf? site = none ∧ t.rootOf? site = none) ∨
    ∃ root root', s.rootOf? site = some root ∧ t.rootOf? site = some root' ∧
      ∀ path, root'.operationAt? path = root.operationAt? path := by
  rw [Session.rootOf?, Session.rootOf?, h.isAlive, h.getElem?_trees]
  split
  · cases s.trees[site.tree]? with
    | none => exact .inl ⟨rfl, rfl⟩
    | some tree => exact .inr ⟨_, _, rfl, rfl, (hf site.tree tree.compiled).operationAt?⟩
  · exact .inl ⟨rfl, rfl⟩

theorem resolve (h : Mirrors keeping f s t) (site : Site) (ids : List String) :
    (t.resolve site ids).1 = (s.resolve site ids).1 ∧
      Mirrors keeping f (s.resolve site ids).2 (t.resolve site ids).2 := by
  have hkeep (resolved : List (Site × List Operation)) :=
    h.update (fun s => { s with resolved }) rfl fun _ => rfl
  rw [Session.resolve, Session.resolve, h.aside Session.resolved fun _ _ => rfl]
  split
  · exact ⟨rfl, h⟩
  · rcases h.rootOf? hf site with ⟨hnone, hnone'⟩ | ⟨root, root', hroot, hroot', hat⟩
    · rw [hnone, hnone']
      exact ⟨rfl, h⟩
    · rw [hroot, hroot']
      dsimp only
      rw [findAll_congr hat]
      split
      · exact ⟨rfl, h⟩
      · exact ⟨rfl, hkeep _⟩

theorem instancesOf (h : Mirrors keeping f s t) (tree : Nat) :
    t.instancesOf tree = s.instancesOf tree := by
  rw [Session.instancesOf, h.getElem?_trees, Session.instancesOf, Option.map_map]
  simp only [Function.comp_def, TreeState.replace, (hf _ _).loaded]

theorem operationAt? (h : Mirrors keeping f s t) (tree : Nat) (path : String) :
    t.operationAt? tree path = s.operationAt? tree path := by
  rw [Session.operationAt?, h.getElem?_trees, Session.operationAt?, Option.bind_map]
  simp only [Function.comp_def, TreeState.replace, (hf _ _).operationAt?]

theorem advance {pollCall : Session → Nat → Session}
    (hpoll : ∀ {s t}, Mirrors keeping f s t → ∀ call,
      Mirrors keeping f (pollCall s call) (pollCall t call))
    (h : Mirrors keeping f s t) (call : Nat) (work : Work) :
    Mirrors keeping f (advance pollCall s call work) (advance pollCall t call work) := by
  cases work with
  | ready outcome => exact h.settle call outcome
  | gate gate =>
    rw [Session.advance, Session.advance, h.aside (·.gateOutcome gate) fun _ _ => rfl]
    split
    · exact h
    · exact h.settle call _
  | exchange e =>
    have hask (outside : Outside) := h.update (fun s => { s with outside }) rfl fun _ => rfl
    rw [Session.advance, Session.advance, h.aside Session.outside fun _ _ => rfl]
    split
    · exact h.settle call _
    · exact (hask _).setWork call _
  | answered => exact h
  | aggregate site ids request =>
    obtain ⟨hfound, hresolve⟩ := h.resolve hf site ids
    rw [Session.advance, Session.advance]
    generalize t.resolve site ids = y at hfound hresolve
    obtain ⟨found, t1⟩ := y
    obtain rfl := hfound
    generalize s.resolve site ids = x at hresolve
    obtain ⟨found, s1⟩ := x
    cases found with
    | error e => exact hresolve.settle call (.error e)
    | ok operations =>
      obtain ⟨hfutures, hinvoke⟩ := hresolve.invokeAll request operations
      dsimp only at hfutures hinvoke ⊢
      rw [hfutures]
      exact pollTargets hpoll (hinvoke.gather (.call call) _) call
  | collecting => exact pollTargets hpoll h call

theorem pollWithin (h : Mirrors keeping f s t) (depth call : Nat) :
    Mirrors keeping f (pollWithin depth s call) (pollWithin depth t call) := by
  induction depth generalizing s t call with
  | zero => exact h
  | succ depth ih =>
    rw [Session.pollWithin, Session.pollWithin]
    rcases h.unsettled?_cases call with ⟨hs, ht⟩ | ⟨c, c', hs, ht, hseen⟩
    · rw [hs, ht]
      exact h
    · rw [hs, ht]
      dsimp only
      rw [Call.work_of_seen hseen]
      exact advance hf (fun h call => ih h call) h call c.work

theorem poll (h : Mirrors keeping f s t) (call : Nat) :
    Mirrors keeping f (s.poll call) (t.poll call) := by
  rw [Session.poll, Session.poll, h.depth_eq]
  exact h.pollWithin hf _ call

theorem pollCalls (h : Mirrors keeping f s t) (drain : Nat) (g : Gathering) :
    Mirrors keeping f (s.pollCalls drain g) (t.pollCalls drain g) := by
  rw [Session.pollCalls, Session.pollCalls]
  split
  · exact pollDue (fun h call => h.poll hf call) (fun _ _ => rfl) _ _ _ _ h
  · exact List.foldl_rel h fun future _ _ _ h => pollFuture (fun h call => h.poll hf call) h future

theorem pollGathered (h : Mirrors keeping f s t) (drain : Nat) :
    Mirrors keeping f (s.pollGathered drain) (t.pollGathered drain) := by
  rw [Session.pollGathered, Session.pollGathered, h.gathering?]
  split
  · exact h
  · exact (h.pollCalls hf drain _).endDrain drain _

theorem pollDrain (h : Mirrors keeping f s t) (drain : Nat) :
    Mirrors keeping f (s.pollDrain drain) (t.pollDrain drain) := by
  rw [Session.pollDrain, Session.pollDrain, h.drains_eq, h.aside Session.tracker fun _ _ => rfl]
  split
  · exact (h.gather (.drain drain) _).pollGathered hf drain
  · exact h.pollGathered hf drain
  · exact h

theorem closeAll (h : Mirrors keeping f s t) (number tree : Nat) :
    Mirrors keeping f (s.closeAll number tree) (t.closeAll number tree) := by
  rw [Session.closeAll, Session.closeAll, h.instancesOf hf]
  exact (h.update (fun u => { u with
    closings := u.closings ++ (s.instancesOf tree).map (closing number tree) }) rfl
      fun _ => rfl).setStage number .closing

theorem pollDraining (h : Mirrors keeping f s t) (number : Nat) :
    Mirrors keeping f (s.pollDraining number) (t.pollDraining number) := by
  rw [Session.pollDraining, Session.pollDraining, h.heldShutdown?]
  split
  · next tree drain _ _ =>
    have hdrain := h.pollDrain hf drain
    dsimp only
    rw [hdrain.drainEnd?]
    split
    · exact hdrain.closeAll hf number tree
    · exact hdrain
  · exact h

theorem pollClosing (h : Mirrors keeping f s t) (number : Nat) :
    Mirrors keeping f (s.pollClosing number) (t.pollClosing number) := by
  rw [Session.pollClosing, Session.pollClosing, h.heldShutdown?,
    h.aside (·.hasClosed number) fun _ _ => rfl]
  split
  · next tree _ _ =>
    split
    · rw [endShutdown, endShutdown, h.instancesOf hf]
      exact (h.setPhase tree .closed).setStage number _
    · exact h
  · exact h

theorem pollShutdown (h : Mirrors keeping f s t) (number : Nat) :
    Mirrors keeping f (s.pollShutdown number) (t.pollShutdown number) :=
  ((h.pollFresh number).pollDraining hf number).pollClosing hf number

theorem runTask (h : Mirrors keeping f s t) (number : Nat) :
    Mirrors keeping f (s.runTask number) (t.runTask number) := by
  rw [Session.runTask, Session.runTask, h.tasks_eq]
  split
  · exact h
  · exact h.poll hf _
  · exact h.pollDrain hf _
  · exact h.pollShutdown hf _

theorem runFirst (h : Mirrors keeping f s t) (count : Nat) :
    Mirrors keeping f (s.runFirst count) (t.runFirst count) := by
  induction count generalizing s t with
  | zero => exact h
  | succ count ih =>
    rw [Session.runFirst, Session.runFirst, h.queue_eq]
    split
    · exact h
    · next task queue _ =>
      have hpopped := h.update (fun s => { s with queue }) rfl fun _ => rfl
      exact ih (hpopped.runTask hf task)

/-! ### Ticks and waiting -/

theorem rounds (h : Mirrors keeping f s t) (count : Nat) :
    Mirrors keeping f (s.rounds count) (t.rounds count) := by
  induction count generalizing s t with
  | zero => exact h
  | succ count ih =>
    rw [Session.rounds, Session.rounds, h.queue_eq]
    exact ih (h.runFirst hf _)

theorem run (h : Mirrors keeping f s t) : Mirrors keeping f s.run t.run := by
  rw [Session.run, Session.run, h.depth_eq]
  exact h.rounds hf _

omit hf in
theorem deliver (h : Mirrors keeping f s t) : Mirrors keeping f s.deliver t.deliver := by
  have harrive : Mirrors keeping f ((List.range s.calls.length).foldl Session.arrive s)
      ((List.range t.calls.length).foldl Session.arrive t) := by
    rw [h.length_calls]
    exact List.foldl_rel h fun call _ _ _ h => h.arrive call
  simp only [Session.deliver, harrive.aside openClosings fun _ _ => rfl]
  exact List.foldl_rel harrive fun number _ _ _ h => h.endClosing number

theorem tick (h : Mirrors keeping f s t) : Mirrors keeping f s.tick t.tick := by
  rw [Session.tick, Session.tick, h.hasScheduler_eq]
  split
  · exact ((h.run hf).deliver).run hf
  · exact h

theorem waitFor {α : Type} {pollOnce : Session → Session} {finished? : Session → Option α}
    (hpoll : ∀ {s t}, Mirrors keeping f s t → Mirrors keeping f (pollOnce s) (pollOnce t))
    (hfinished : ∀ {s t}, Mirrors keeping f s t → finished? t = finished? s)
    (h : Mirrors keeping f s t) :
    (t.waitFor pollOnce finished?).1 = (s.waitFor pollOnce finished?).1 ∧
      Mirrors keeping f (s.waitFor pollOnce finished?).2 (t.waitFor pollOnce finished?).2 := by
  have hfirst := hpoll h
  have hsecond := hpoll (hfirst.tick hf)
  rw [Session.waitFor, Session.waitFor, hfinished hfirst]
  cases finished? (pollOnce s) with
  | some result => exact ⟨rfl, hfirst⟩
  | none => exact ⟨hfinished hsecond, hsecond⟩

theorem await (h : Mirrors keeping f s t) (future : Future) :
    (t.await future).1 = (s.await future).1 ∧
      Mirrors keeping f (s.await future).2 (t.await future).2 :=
  h.waitFor hf (fun h => pollFuture (fun h call => h.poll hf call) h future)
    fun h => h.result future

theorem awaitDrain (h : Mirrors keeping f s t) (tracker : Nat) :
    (t.awaitDrain tracker).1 = (s.awaitDrain tracker).1 ∧
      Mirrors keeping f (s.awaitDrain tracker).2 (t.awaitDrain tracker).2 := by
  have hadded := h.addDrain tracker
  simp only [Session.awaitDrain, Session.addDrain, h.drains_eq] at hadded ⊢
  exact hadded.waitFor hf (fun h => h.pollDrain hf _) fun h => h.drainEnd? _

end Offering

end Mirrors

theorem mapIdx_replace_self {f : Nat → Compiled → Compiled}
    (hf : ∀ number compiled, compiled = f number compiled) (trees : List TreeState) :
    trees.mapIdx (TreeState.replace f) = trees := by
  refine List.ext_getElem? fun number => ?_
  rw [List.getElem?_mapIdx]
  cases trees[number]? with
  | none => rfl
  | some tree => rw [Option.map_some, TreeState.replace, ← hf]

/-! ### Runs -/

/-- `t` mirrors `s`, with trees whose compilations are related to those of `s` by `R`. -/
def Resembles (keeping : Bool) (R : Compiled → Compiled → Prop) (s t : Session) : Prop :=
  ∃ f, (∀ number compiled, R compiled (f number compiled)) ∧ Mirrors keeping f s t

namespace Resembles

variable {keeping : Bool} {R : Compiled → Compiled → Prop} {s t : Session}

/-- The tree that comes next is compiled to something else, too. -/
theorem addTree (hrefl : ∀ compiled, R compiled compiled) (h : Resembles keeping R s t)
    {catalog : Catalog} {settings : Settings} {definition definition' : Json} {c c' : Compiled}
    (hc : Compiled.ofDefinition catalog settings s.trees.length definition = c)
    (hc' : Compiled.ofDefinition catalog settings s.trees.length definition' = c')
    (hR : R c c') (hoperations : c'.root.operations = c.root.operations) (tracker : Nat) :
    Resembles keeping R (s.addTree catalog settings tracker definition)
      (t.addTree catalog settings tracker definition') := by
  classical
  obtain ⟨f, hf, h⟩ := h
  -- Under the new number `f` is asked for the new tree only, and answers all others as they are.
  let g (number : Nat) (compiled : Compiled) : Compiled :=
    if number = s.trees.length then if compiled = c then c' else compiled else f number compiled
  have hold (number : Nat) (hlt : number < s.trees.length) : g number = f number :=
    funext fun _ => if_neg (Nat.ne_of_lt hlt)
  have hnew : g s.trees.length c = c' := (if_pos rfl).trans (if_pos rfl)
  refine ⟨g, fun number compiled => ?_, ?_⟩
  · change R compiled (ite _ _ _)
    split
    · split
      · next hcompiled => exact hcompiled ▸ hR
      · exact hrefl compiled
    · exact hf number compiled
  · have hlength := h.length_trees
    obtain ⟨calls, hcalls, rfl⟩ := h
    have htrees : s.trees.mapIdx (TreeState.replace f) ++ [{ compiled := c', tracker }] =
        (s.trees ++ [({ compiled := c, tracker } : TreeState)]).mapIdx (TreeState.replace g) := by
      rw [List.mapIdx_concat, TreeState.replace, hnew]
      congr 1
      refine List.ext_getElem? fun number => ?_
      rw [List.getElem?_mapIdx, List.getElem?_mapIdx]
      refine Option.map_congr fun tree htree => ?_
      have hlt := (List.getElem?_eq_some_iff.mp htree).1
      rw [TreeState.replace, TreeState.replace, hold number hlt]
    refine ⟨calls, hcalls, ?_⟩
    rw [Session.addTree, Session.addTree, hlength, hc, hc', hoperations]
    exact congrArg (fun trees =>
      { s with calls, trees, depth := max s.depth (c.root.operations.length + 1) }) htrees

section Actions

variable (hrefl : ∀ compiled, R compiled compiled)
  (hoffers : ∀ {compiled compiled'}, R compiled compiled' → compiled.Offers compiled')
include hrefl hoffers

/-- Whatever is done to both of two sessions that resemble each other, they go on doing so. -/
theorem perform (h : Resembles keeping R s t) (action : Action) :
    Resembles keeping R (s.perform action) (t.perform action) := by
  obtain ⟨f, hR, hm⟩ := id h
  have hf (number : Nat) (compiled : Compiled) := hoffers (hR number compiled)
  have htracking (tracker : Nat) := hm.aside (·.isTracking tracker) fun _ _ => rfl
  cases action with
  | addTree catalog settings tracker definition =>
    rw [Session.perform, Session.perform, htracking]
    split
    · exact h.addTree hrefl rfl rfl (hrefl _) rfl tracker
    · exact h
  | discardTracker tracker => exact ⟨f, hR, hm.discardTracker tracker⟩
  | dropTree tree => exact ⟨f, hR, hm.dropTree tree⟩
  | start tracker job =>
    rw [Session.perform, Session.perform, htracking]
    split
    · exact ⟨f, hR, (hm.start tracker job).2⟩
    · exact h
  | invoke tree path request =>
    rw [Session.perform, Session.perform, hm.operationAt? hf]
    split
    · exact h
    · exact ⟨f, hR, (hm.invoke _ request).2⟩
  | poll call => exact ⟨f, hR, hm.poll hf call⟩
  | release call => exact ⟨f, hR, hm.release call⟩
  | settleGate gate outcome => exact ⟨f, hR, hm.settleGate gate outcome⟩
  | arrive call => exact ⟨f, hR, hm.arrive call⟩
  | pollDrain drain => exact ⟨f, hR, hm.pollDrain hf drain⟩
  | addShutdown tree =>
    rw [Session.perform, Session.perform, hm.length_trees]
    split
    · exact ⟨f, hR, hm.update (fun s => (s.addShutdown tree).2) rfl fun _ => rfl⟩
    · exact h
  | pollShutdown number => exact ⟨f, hR, hm.pollShutdown hf number⟩
  | endClosing number => exact ⟨f, hR, hm.endClosing number⟩
  | runNext => exact ⟨f, hR, hm.runFirst hf 1⟩
  | addDrain tracker => exact ⟨f, hR, hm.addDrain tracker⟩
  | spawn task => exact ⟨f, hR, hm.spawn task⟩
  | addTracker | dropShutdown | change =>
    exact ⟨f, hR, hm.update (Session.perform · _) rfl fun _ => rfl⟩

theorem after (h : Resembles keeping R s t) (actions : List Action) :
    Resembles keeping R (s.after actions) (t.after actions) := by
  induction actions generalizing s t with
  | nil => exact h
  | cons action rest ih => exact ih (h.perform hrefl hoffers action)

end Actions

end Resembles
end Session
end OperationTree
