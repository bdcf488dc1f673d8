import OperationTree.Proofs.Session.Due
import OperationTree.Proofs.Session.FanOut
import OperationTree.Proofs.Session.Strand

/-! What polls do, one place at a time.  A poll of a wide gathering takes a place from those that
are due before it knows whether the future there has settled, and a call that has ended still has to
tell those who gather it.  Until that is done the places are in somebody's hand; `Move` says how
sessions and hands change together, and with which outcomes calls end (`Allows`).  `poll_moves` says
that a poll is a sequence of moves that puts down again all that it takes. -/

namespace OperationTree
namespace Session

open Relation

/-- The places that are dealt with at the moment, each with the one who gathers there. -/
abbrev Hand := List (Waiter × Nat)

/-- Futures that are gathered by a call come to an outcome: the merge of all results, or the error
of one of them. -/
def Concludes (s : Session) (futures : List Future) (outcome : Outcome) : Prop :=
  (∃ results, futures.map s.result = results.map (fun value => some (.ok value)) ∧
    outcome = Aggregate.merge results) ∨
  ∃ e, outcome = .error e ∧ ∃ future ∈ futures, s.result future = some (.error e)

/-- A call with some work can end with an outcome. -/
def Allows (s : Session) : Work → Outcome → Prop
  | .ready found, outcome => outcome = found
  | .gate gate, outcome => s.gateOutcome gate = some outcome
  | .exchange e, outcome => ∃ fault, e.refusal? = some fault ∧ outcome = .error fault
  | .answered _, _ => False
  | .aggregate site ids _, outcome => ∃ e, s.resolve site ids = (.error e, s) ∧ outcome = .error e
  | .collecting g, outcome => s.Concludes g.futures outcome

/-- An operation of a tree, or one that an aggregate has found. -/
def Offers (s : Session) (o : Operation) : Prop :=
  (∃ tree ∈ s.trees, o ∈ tree.compiled.root.operations) ∨ ∃ entry ∈ s.resolved, o ∈ entry.2

/-- A place can be put down: the call that gathers there knows of it, or has nothing to know yet. -/
def CanLeave (s : Session) (waiter : Waiter) (place : Nat) : Prop :=
  ∀ call g, waiter = .call call → s.gathering? waiter = some g → g.isWide = true →
    g.accepts place = true → ∀ future, g.futures[place]? = some future → s.result future = none

/-- One change that waking makes. -/
inductive Nudge : Hand × Session → Hand × Session → Prop
  | queue (hand : Hand) (s : Session) (queue : List Nat) : Nudge (hand, s) (hand, { s with queue })
  /-- All who gather a call are to be told. -/
  | heed (hand : Hand) {s : Session} {call : Nat} {c : Call} (hc : s.calls[call]? = some c) :
    Nudge (hand, s) (c.waiters ++ hand, s)
  | push {hand : Hand} {s : Session} {waiter : Waiter} {place : Nat} {g : Gathering}
    (hg : s.gathering? waiter = some g) (ha : g.accepts place = true) :
    Nudge ((waiter, place) :: hand, s) (hand, s.setGathering (g.push place) waiter)
  | leave {hand : Hand} {s : Session} {waiter : Waiter} {place : Nat}
    (h : s.CanLeave waiter place) : Nudge ((waiter, place) :: hand, s) (hand, s)

/-- One change that polls make. -/
inductive Move : Hand × Session → Hand × Session → Prop
  | nudge {x y : Hand × Session} (h : Nudge x y) : Move x y
  | pop {hand : Hand} {s : Session} {waiter : Waiter} {g : Gathering} {place : Nat}
    {due : List Nat} (hg : s.gathering? waiter = some g) (hd : g.due = place :: due) :
    Move (hand, s) ((waiter, place) :: hand, s.setGathering { g with due } waiter)
  | take {hand : Hand} {s : Session} {waiter : Waiter} {g : Gathering} (place : Nat)
    (hg : s.gathering? waiter = some g)
    (hr : ∀ future, g.futures[place]? = some future → (s.result future).isSome = true) :
    Move (hand, s) (hand, s.setGathering (g.take place) waiter)
  | invoke (hand : Hand) {s : Session} {o : Operation} (request : Request) (ho : s.Offers o) :
    Move (hand, s) (hand, (s.invoke o request).2)
  | keep (hand : Hand) {s : Session} {call : Nat} {c : Call} {site : Site} {ids : List String}
    {request : Request} {root : Node Operation} {operations : List Operation}
    (hc : s.unsettled? call = some c) (hw : c.work = .aggregate site ids request)
    (hroot : s.rootOf? site = some root) (hfound : findAll root ids = .ok operations) :
    Move (hand, s) (hand, { s with resolved := s.resolved ++ [(site, operations)] })
  | fanOut (hand : Hand) {s : Session} {call : Nat} {c : Call} {site : Site} {ids : List String}
    {request : Request} {operations : List Operation} (hc : s.unsettled? call = some c)
    (hw : c.work = .aggregate site ids request)
    (hfound : s.resolved.lookup site = some operations) :
    Move (hand, s) (hand, s.fanOut call request operations)
  | ask (hand : Hand) {s : Session} {call : Nat} {c : Call} {e : Exchange}
    (hc : s.unsettled? call = some c) (hw : c.work = .exchange e) (hr : e.refusal? = none) :
    Move (hand, s) (hand, { s with outside := (e.perform s.outside).2 }.setWork call
      (.answered (e.perform s.outside).1))
  | finish (hand : Hand) {s : Session} {call : Nat} {c : Call} {outcome : Outcome}
    (hc : s.unsettled? call = some c) (ho : s.Allows c.work outcome) :
    Move (hand, s) (c.waiters ++ hand, s.finish call c outcome)
  | release (hand : Hand) (s : Session) (call : Nat) : Move (hand, s) (hand, s.release call)

abbrev Nudges : Hand × Session → Hand × Session → Prop := ReflTransGen Nudge

abbrev Moves : Hand × Session → Hand × Session → Prop := ReflTransGen Move

theorem Nudges.moves {x y : Hand × Session} (h : Nudges x y) : Moves x y :=
  ReflTransGen.mono (fun _ _ h => .nudge h) _ _ h

/-! ### Moves as steps of calls -/

theorem Nudge.steps {x y : Hand × Session} (h : Nudge x y) : CallSteps x.2 y.2 := by
  cases h with
  | queue => exact .single (.queue _ _)
  | heed | leave => exact .refl
  | push hg => exact .single (.regather _ hg rfl)

theorem Nudges.steps {x y : Hand × Session} (h : Nudges x y) : CallSteps x.2 y.2 := by
  induction h with
  | refl => exact .refl
  | tail _ step ih => exact ih.trans step.steps

theorem Offers.site_tree {s : Session} (hs : s.Sited) {o : Operation} (ho : s.Offers o) :
    o.site.tree < s.trees.length := by
  rcases ho with ⟨tree, htree, ho⟩ | ⟨entry, hentry, ho⟩
  · obtain ⟨t, ht⟩ := List.mem_iff_getElem?.mp htree
    rw [hs.operations t tree ht o ho]
    exact (List.getElem?_eq_some_iff.mp ht).1
  · exact hs.resolved entry hentry o ho

theorem findAll_offers {s : Session} {site : Site} {root : Node Operation} {ids : List String}
    {operations : List Operation} (hroot : s.rootOf? site = some root)
    (hfound : findAll root ids = .ok operations) {o : Operation} (ho : o ∈ operations) :
    s.Offers o := by
  obtain ⟨tree, htree, rfl⟩ := rootOf?_eq_some hroot
  exact .inl ⟨tree, List.mem_of_getElem? htree, findAll_mem hfound o ho⟩

theorem offers_of_lookup {s : Session} {site : Site} {operations : List Operation}
    (h : s.resolved.lookup site = some operations) {o : Operation} (ho : o ∈ operations) :
    s.Offers o := by
  obtain ⟨before, after, heq, -⟩ := List.lookup_eq_some_iff.mp h
  exact .inr ⟨(site, operations), by simp [heq], ho⟩

theorem fanOut_steps {s : Session} (hs : s.Sited) {call : Nat} {c : Call} {site : Site}
    {ids : List String} {request : Request} {operations : List Operation}
    (hc : s.unsettled? call = some c) (hw : c.work = .aggregate site ids request)
    (hfound : s.resolved.lookup site = some operations) :
    CallSteps s (s.fanOut call request operations) := by
  have hopen := unsettled?_of_extends (invokeAll_calls s request operations) hc
  refine (invokeAll_steps hs request fun o ho => ?_).trans (gather_steps _ hopen hw)
  exact (offers_of_lookup hfound ho).site_tree hs

theorem Move.steps {x y : Hand × Session} (h : Move x y) (hs : x.2.Sited) :
    CallSteps x.2 y.2 := by
  cases h with
  | nudge h => exact h.steps
  | pop hg | take _ hg _ => exact .single (.regather _ hg rfl)
  | invoke _ request ho => exact invoke_steps hs request (ho.site_tree hs)
  | keep _ _ _ hroot hfound =>
    exact .single (.keep _ fun o ho => (findAll_offers hroot hfound ho).site_tree hs)
  | fanOut _ hc hw hfound => exact fanOut_steps hs hc hw hfound
  | ask _ hc hw hr => exact .single (.ask hc hw hr)
  | finish _ hc => exact .single (.finish _ hc)
  | release => exact .single (.release _ _)

theorem Moves.steps {x y : Hand × Session} (h : Moves x y) (hs : x.2.Sited) :
    CallSteps x.2 y.2 := by
  induction h with
  | refl => exact .refl
  | tail _ step ih => exact ih.trans (step.steps (ih.sited hs))

theorem Moves.continues {x y : Hand × Session} (h : Moves x y) (hs : x.2.Sited) :
    x.2.CallsContinue y.2 :=
  (h.steps hs).undisturbed.calls

/-! ### What is gathered -/

/-- A call gathers some futures, or has ended and gathered them. -/
def Gathers (s : Session) (call : Nat) (futures : List Future) : Prop :=
  ∃ c g, s.calls[call]? = some c ∧ c.work = .collecting g ∧ g.futures = futures

theorem gathers_of_gathering? {s : Session} {call : Nat} {g : Gathering}
    (hg : s.gathering? (.call call) = some g) : s.Gathers call g.futures := by
  obtain ⟨c, hc, hw⟩ := gathering?_call hg
  exact ⟨c, g, (unsettled?_eq_some.mp hc).1, hw, rfl⟩

theorem not_gathers_of_aggregate {s : Session} {call : Nat} {c : Call} {site : Site}
    {ids : List String} {request : Request} (hc : s.calls[call]? = some c)
    (hw : c.work = .aggregate site ids request) (futures : List Future) :
    ¬ s.Gathers call futures := by
  rintro ⟨c', g, hc', hw', -⟩
  obtain rfl := Option.some.inj (hc.symm.trans hc')
  cases hw.symm.trans hw'

theorem fanOut_gathers {s : Session} {call : Nat} {c : Call} (request : Request)
    (operations : List Operation) (hc : s.unsettled? call = some c) :
    (s.fanOut call request operations).Gathers call (s.invokeAll request operations).1 := by
  obtain ⟨c', hc', hw⟩ := fanOut_self request operations hc
  exact ⟨c', _, (unsettled?_eq_some.mp hc').1, hw, rfl⟩

/-- A change of one call that keeps what it gathers. -/
theorem Gathers.of_modify {s s' : Session} {call k : Nat} {futures : List Future} {f : Call → Call}
    (h : s.Gathers call futures) (hm : s'.calls = s.calls.modify k f)
    (hf : ∀ c g, s.calls[k]? = some c → c.work = .collecting g →
      ∃ g', (f c).work = .collecting g' ∧ g'.futures = g.futures) : s'.Gathers call futures := by
  obtain ⟨c, g, hget, hw, rfl⟩ := h
  rw [Gathers, hm]
  by_cases hk : k = call
  · subst hk
    obtain ⟨g', hw', hg'⟩ := hf c g hget hw
    exact ⟨f c, g', by simp [hget], hw', hg'⟩
  · exact ⟨c, g, by simp [hk, hget], hw, rfl⟩

/-- The work of a call that does not gather may change. -/
theorem Gathers.of_work {s s' : Session} {call k : Nat} {futures : List Future} {c : Call}
    {work : Work} (h : s.Gathers call futures) (hc : s.unsettled? k = some c)
    (hm : s'.calls = s.calls.modify k fun c => { c with work })
    (hw : ∀ g, c.work ≠ .collecting g) : s'.Gathers call futures := by
  refine h.of_modify hm fun c' g hget hwork => ?_
  obtain rfl := Option.some.inj ((unsettled?_eq_some.mp hc).1.symm.trans hget)
  exact absurd hwork (hw g)

theorem CallStep.gathers {s s' : Session} (h : CallStep s s') {call : Nat} {futures : List Future}
    (hg : s.Gathers call futures) : s'.Gathers call futures := by
  cases h with
  | queue | spawn | openGate | keep => exact hg
  | register =>
    obtain ⟨c, g, hget, hw⟩ := hg
    exact ⟨c, g, getElem?_of_extends (List.prefix_append _ _) hget, hw⟩
  | addWaiter other waiter =>
    exact hg.of_modify (f := fun c => { c with waiters := c.waiters ++ [waiter] }) rfl
      fun c g _ hw => ⟨g, hw, rfl⟩
  | release other =>
    exact hg.of_modify (f := fun c => { c with isHeld := false }) rfl fun c g _ hw => ⟨g, hw, rfl⟩
  | @regather waiter g0 g' hgather hf =>
    cases waiter with
    | call other =>
      obtain ⟨c0, hc0, hw0⟩ := gathering?_call hgather
      refine hg.of_modify (f := fun c => { c with work := .collecting g' }) rfl
        fun c g hget hw => ?_
      obtain rfl := Option.some.inj ((unsettled?_eq_some.mp hc0).1.symm.trans hget)
      obtain rfl := Work.collecting.inj (hw0.symm.trans hw)
      exact ⟨g', rfl, hf⟩
    | drain => exact hg
    | shutdown => cases hgather
  | collect _ hc hw => exact hg.of_work hc rfl (by simp [hw])
  | ask hc hw => exact hg.of_work hc rfl (by simp [hw])
  | @finish other c outcome hc =>
    obtain ⟨c', g, hget, hw⟩ := hg
    obtain ⟨c'', hget', hsame⟩ := exists_replaced (R := fun c c' : Call => c'.work = c.work)
      (b := { c with outcome := some outcome }) (fun _ => rfl) (unsettled?_eq_some.mp hc).1 rfl
      hget
    exact ⟨c'', g, hget', hsame ▸ hw⟩

theorem CallSteps.gathers {s s' : Session} (h : CallSteps s s') {call : Nat}
    {futures : List Future} (hg : s.Gathers call futures) : s'.Gathers call futures := by
  induction h with
  | refl => exact hg
  | tail _ step ih => exact step.gathers ih

theorem Gathers.unique {s : Session} {call : Nat} {futures futures' : List Future}
    (h : s.Gathers call futures) (h' : s.Gathers call futures') : futures = futures' := by
  obtain ⟨c, g, hget, hw, rfl⟩ := h
  obtain ⟨c', g', hget', hw', rfl⟩ := h'
  obtain rfl := Option.some.inj (hget.symm.trans hget')
  rw [Work.collecting.inj (hw.symm.trans hw')]

/-! ### Waking -/

theorem notify_nudges {wake : Session → Waiter → Session}
    (hw : ∀ hand s waiter, Nudges (hand, s) (hand, wake s waiter)) (hand : Hand) (s : Session)
    (waiter : Waiter) (place : Nat) :
    Nudges ((waiter, place) :: hand, s) (hand, notify wake s waiter place) := by
  rw [notify]
  split
  · next hnone => exact .single (.leave fun _ g _ hg => by cases hnone.symm.trans hg)
  · next g hg =>
    have hleave : ∀ {g'}, s.gathering? waiter = some g' → g = g' := fun h =>
      Option.some.inj (hg.symm.trans h)
    split
    · next hnarrow =>
      refine .head (.leave fun _ g' _ hg' hwide => ?_) (hw _ _ _)
      obtain rfl := hleave hg'
      simp [hwide] at hnarrow
    · split
      · next ha => exact .head (.push hg ha) (hw _ _ _)
      · next ha =>
        refine .single (.leave fun _ g' _ hg' _ ha' => ?_)
        obtain rfl := hleave hg'
        exact absurd ha' ha

/-- Telling all who gather a call puts their places down. -/
theorem notifyAll_nudges {wake : Session → Waiter → Session}
    (hw : ∀ hand s waiter, Nudges (hand, s) (hand, wake s waiter)) (waiters hand : Hand)
    (s : Session) :
    Nudges (waiters ++ hand, s)
      (hand, waiters.foldl (fun s (waiter, place) => notify wake s waiter place) s) := by
  induction waiters generalizing s with
  | nil => exact .refl
  | cons entry rest ih => exact (notify_nudges hw _ s entry.1 entry.2).trans (ih _)

theorem wakeWithin_nudges (depth : Nat) (hand : Hand) (s : Session) (waiter : Waiter) :
    Nudges (hand, s) (hand, wakeWithin depth s waiter) := by
  induction depth generalizing hand s waiter with
  | zero => exact .refl
  | succ depth ih =>
    have hqueue : Nudges (hand, s) (hand, s.enqueue waiter) := .single (.queue hand s _)
    cases waiter with
    | drain | shutdown => exact hqueue
    | call number =>
      refine hqueue.trans ?_
      rw [wakeWithin]
      dsimp only
      cases hc : (s.enqueue (.call number)).calls[number]? with
      | none => exact .refl
      | some c => exact .head (.heed hand hc) (notifyAll_nudges ih c.waiters hand _)

theorem wake_nudges (hand : Hand) (s : Session) (waiter : Waiter) :
    Nudges (hand, s) (hand, s.wake waiter) :=
  wakeWithin_nudges _ hand s waiter

/-! ### Ending calls -/

/-- What one who gathers makes of the futures agrees with their results. -/
def Progress.Tells (s : Session) (futures : List Future) : Progress → Prop
  | .waiting => True
  | .failed e => ∃ future ∈ futures, s.result future = some (.error e)
  | .complete results => futures.map s.result = results.map fun value => some (.ok value)

theorem Progress.Tells.later {s s' : Session} (h : s.CallsContinue s') {futures : List Future}
    {progress : Progress} (hp : progress.Tells s futures) : progress.Tells s' futures := by
  cases progress with
  | waiting => exact hp
  | failed e =>
    obtain ⟨future, hmem, he⟩ := hp
    exact ⟨future, hmem, h.result he⟩
  | complete results =>
    rw [Progress.Tells] at hp ⊢
    rw [← hp]
    refine List.map_congr_left fun future hmem => ?_
    obtain ⟨value, -, hvalue⟩ := List.mem_map.mp (hp ▸ List.mem_map_of_mem hmem)
    rw [h.result hvalue.symm, ← hvalue]

theorem Progress.Tells.cons {s : Session} {future : Future} {rest : List Future} {value : Json}
    (hvalue : s.result future = some (.ok value)) {progress : Progress}
    (hp : progress.Tells s rest) : (progress.cons value).Tells s (future :: rest) := by
  cases progress with
  | waiting => trivial
  | failed e =>
    obtain ⟨failed, hmem, he⟩ := hp
    exact ⟨failed, List.mem_cons_of_mem _ hmem, he⟩
  | complete results =>
    rw [Progress.Tells] at hp
    simp [Progress.cons, Progress.Tells, hvalue, hp]

theorem Progress.Tells.wait {s : Session} (future : Future) {rest : List Future}
    {progress : Progress} (hp : progress.Tells s rest) :
    progress.wait.Tells s (future :: rest) := by
  cases progress with
  | failed e =>
    obtain ⟨failed, hmem, he⟩ := hp
    exact ⟨failed, List.mem_cons_of_mem _ hmem, he⟩
  | waiting | complete => trivial

theorem settle_moves (hand : Hand) {s : Session} {call : Nat} {outcome : Outcome}
    (ho : ∀ c, s.unsettled? call = some c → s.Allows c.work outcome) :
    Moves (hand, s) (hand, s.settle call outcome) := by
  rw [settle]
  split
  · exact .refl
  · next c hc =>
    have hset : ((s.finish call c outcome).enqueue (.call call)).calls[call]? =
        some { c with outcome := some outcome } := by
      simp [finish, enqueue, lt_of_unsettled hc]
    have hqueue : Nudges (c.waiters ++ hand, s.finish call c outcome)
        (c.waiters ++ hand, (s.finish call c outcome).enqueue (.call call)) :=
      .single (.queue _ _ _)
    refine .head (.finish hand hc (ho c hc)) (Nudges.moves (hqueue.trans ?_))
    rw [wake, wakeWithin]
    dsimp only
    rw [hset]
    exact notifyAll_nudges (wakeWithin_nudges _) c.waiters hand _

theorem drop_moves (hand : Hand) (futures : List Future) (s : Session) :
    Moves (hand, s) (hand, futures.foldl drop s) := by
  induction futures generalizing s with
  | nil => exact .refl
  | cons future rest ih =>
    cases future with
    | settled => exact ih s
    | call number => exact .head (.release hand s number) (ih _)

theorem conclude_moves (hand : Hand) {s : Session} (hs : s.Sited) {call : Nat}
    {futures : List Future} {progress : Progress} (hg : s.Gathers call futures)
    (hp : progress.Tells s futures) : Moves (hand, s) (hand, s.conclude call futures progress) := by
  have hdrop := drop_moves hand futures s
  have hlater := hp.later (hdrop.continues hs)
  -- The futures are still those that the call gathers after they have been let go of.
  have hallows : ∀ outcome, Concludes (futures.foldl drop s) futures outcome →
      ∀ c, (futures.foldl drop s).unsettled? call = some c →
        (futures.foldl drop s).Allows c.work outcome := by
    intro outcome ho c hc
    obtain ⟨c', g, hget, hw, rfl⟩ := (hdrop.steps hs).gathers hg
    obtain rfl := Option.some.inj ((unsettled?_eq_some.mp hc).1.symm.trans hget)
    rw [hw]
    exact ho
  cases progress with
  | waiting => exact .refl
  | failed e => exact hdrop.trans (settle_moves hand (hallows _ (.inr ⟨e, rfl, hlater⟩)))
  | complete results =>
    exact hdrop.trans (settle_moves hand (hallows _ (.inl ⟨results, hlater, rfl⟩)))

/-! ### Resolving -/

theorem resolve_error {s : Session} {site : Site} {ids : List String} {e : CallError}
    (h : (s.resolve site ids).1 = .error e) : s.resolve site ids = (.error e, s) := by
  rw [resolve] at h ⊢
  split at h
  · cases h
  · split at h
    · rw [← Except.error.inj h]
    · split at h
      · rw [← Except.error.inj h]
      · cases h

theorem resolve_moves (hand : Hand) {s : Session} {call : Nat} {c : Call} {site : Site}
    {ids : List String} {request : Request} (hc : s.unsettled? call = some c)
    (hw : c.work = .aggregate site ids request) :
    Moves (hand, s) (hand, (s.resolve site ids).2) ∧
      ∀ operations, (s.resolve site ids).1 = .ok operations →
        (s.resolve site ids).2.resolved.lookup site = some operations := by
  rw [resolve]
  split
  · next operations hlookup =>
    refine ⟨.refl, fun _ h => ?_⟩
    rw [← Except.ok.inj h]
    exact hlookup
  · next hlookup =>
    split
    · exact ⟨.refl, fun _ h => by cases h⟩
    · next root hroot =>
      split
      · exact ⟨.refl, fun _ h => by cases h⟩
      · next operations hfound =>
        refine ⟨.single (.keep hand hc hw hroot hfound), fun _ h => ?_⟩
        rw [← Except.ok.inj h]
        simp [List.lookup_append, hlookup]

/-! ### Polling -/

/-- The futures of one who gathers stay the same. -/
theorem CallSteps.futures {s s' : Session} (h : CallSteps s s') {waiter : Waiter}
    {g g' : Gathering} (hg : s.gathering? waiter = some g)
    (hg' : s'.gathering? waiter = some g') : g'.futures = g.futures := by
  cases waiter with
  | call number =>
    exact (gathers_of_gathering? hg').unique (h.gathers (gathers_of_gathering? hg))
  | drain number =>
    obtain ⟨g1, hd, hf⟩ := h.undisturbed.waiting (gathering?_drain.mp hg)
    rwa [← Drain.waiting.inj (Option.some.inj (hd.symm.trans (gathering?_drain.mp hg')))]
  | shutdown => cases hg

/-- A result that is there after some steps can be taken. -/
theorem CallSteps.take {s t : Session} (h : CallSteps s t) (hand : Hand) {waiter : Waiter}
    {g g' : Gathering} {place : Nat} {future : Future} (hg : s.gathering? waiter = some g)
    (hg' : t.gathering? waiter = some g') (hf : g.futures[place]? = some future)
    (hr : (t.result future).isSome = true) :
    Move (hand, t) (hand, t.setGathering (g'.take place) waiter) := by
  refine .take place hg' fun f hf' => ?_
  rw [h.futures hg hg', hf] at hf'
  exact Option.some.inj hf' ▸ hr

theorem progressFrom_tells (s : Session) (taken : List Nat) (place : Nat)
    (futures : List Future) : (s.progressFrom taken place futures).Tells s futures := by
  induction futures generalizing place with
  | nil => rfl
  | cons future rest ih =>
    rw [progressFrom]
    split
    · split
      · next e he => exact ⟨future, by simp, he⟩
      · next value hvalue => exact (ih (place + 1)).cons hvalue
      · trivial
    · trivial

section Poll

variable {pollCall : Session → Nat → Session}
  (hp : ∀ (hand : Hand) {s : Session}, s.Sited → ∀ n, Moves (hand, s) (hand, pollCall s n))
include hp

theorem pollFuture_moves (hand : Hand) {s : Session} (hs : s.Sited) (future : Future) :
    Moves (hand, s) (hand, pollFuture pollCall s future) := by
  cases future with
  | settled => exact .refl
  | call number => exact hp hand hs number

theorem collect_moves (hand : Hand) {s : Session} (hs : s.Sited) (futures : List Future) :
    Moves (hand, s) (hand, (collect pollCall s futures).2) := by
  induction futures generalizing s with
  | nil => exact .refl
  | cons future rest ih =>
    have hfirst := pollFuture_moves hp hand hs future
    have hrest := hfirst.trans (ih ((hfirst.steps hs).sited hs))
    rw [collect]
    split
    · exact hfirst
    · exact hrest
    · exact hrest

theorem collect_tells {s : Session} (hs : s.Sited) (futures : List Future) :
    (collect pollCall s futures).1.Tells (collect pollCall s futures).2 futures := by
  induction futures generalizing s with
  | nil => rfl
  | cons future rest ih =>
    have hs1 := ((pollFuture_moves hp [] hs future).steps hs).sited hs
    have hcalls := (collect_moves hp [] hs1 rest).continues hs1
    rw [collect]
    dsimp only
    split
    · next e he => exact ⟨future, by simp, he⟩
    · next value hvalue => exact (ih hs1).cons (hcalls.result hvalue)
    · exact (ih hs1).wait future

theorem DueRun.moves {isOver : Session → Gathering → Bool} {waiter : Waiter} {n : Nat}
    {s t : Session} (h : DueRun pollCall isOver waiter n s t) (hand : Hand) (hs : s.Sited) :
    Moves (hand, s) (hand, t) := by
  induction h with
  | idle | stop => exact .refl
  | yield s => exact (wake_nudges hand s waiter).moves
  | @pass _ s _ g place due hg hdue hvoid _ ih =>
    have hpop : Move (hand, s) ((waiter, place) :: hand, _) := .pop hg hdue
    refine .head hpop (.head (.nudge (.leave fun _ g' _ hg' _ ha f hf => ?_))
      (ih ((hpop.steps hs).sited hs)))
    obtain rfl := Option.some.inj ((gathering?_setGathering _ hg).symm.trans hg')
    exact absurd (hvoid f hf) (Gathering.accepts_iff.mp ha).2
  | @poll _ s s1 _ g place due future hg hdue hfuture _ hpoll hopen _ ih =>
    have hpop : Move (hand, s) ((waiter, place) :: hand, _) := .pop hg hdue
    have hs1 := (hpop.steps hs).sited hs
    have hmoves := hpoll ▸ pollFuture_moves hp ((waiter, place) :: hand) hs1 future
    have hsteps := hmoves.steps hs1
    refine .head hpop (hmoves.trans (.head (.nudge (.leave fun _ g' _ hg' _ _ f hf => ?_))
      (ih (hsteps.sited hs1))))
    rw [hsteps.futures (gathering?_setGathering _ hg) hg'] at hf
    exact Option.some.inj (hfuture.symm.trans hf) ▸ hopen g' hg'
  | @take _ s s1 _ g g' place due future hg hdue hfuture _ hpoll hg' hresult _ ih =>
    have hpop : Move (hand, s) ((waiter, place) :: hand, _) := .pop hg hdue
    have hs1 := (hpop.steps hs).sited hs
    have hmoves := hpoll ▸ pollFuture_moves hp ((waiter, place) :: hand) hs1 future
    have hsteps := hmoves.steps hs1
    have htake := hsteps.take ((waiter, place) :: hand) (gathering?_setGathering _ hg) hg' hfuture
      hresult
    refine .head hpop (hmoves.trans (.head htake
      (.head (.nudge (.leave fun _ g2 _ hg2 _ ha => ?_))
        (ih ((htake.steps (hsteps.sited hs1)).sited (hsteps.sited hs1))))))
    obtain rfl := Option.some.inj ((gathering?_setGathering _ hg').symm.trans hg2)
    exact absurd (List.mem_cons_self ..) (Gathering.accepts_iff.mp ha).2

theorem pollDue_moves (isOver : Session → Gathering → Bool) (waiter : Waiter)
    (fuel polled yielded : Nat) (hand : Hand) {s : Session} (hs : s.Sited) :
    Moves (hand, s) (hand, pollDue pollCall isOver waiter fuel polled yielded s) := by
  obtain ⟨n, hrun⟩ := pollDue_run pollCall isOver waiter fuel polled yielded s
  exact hrun.moves hp hand hs

theorem pollTargets_moves (hand : Hand) {s : Session} (hs : s.Sited) (call : Nat) :
    Moves (hand, s) (hand, pollTargets pollCall s call) := by
  rw [pollTargets]
  split
  · exact .refl
  · next g hg =>
    have hgathers := gathers_of_gathering? hg
    split
    · have hdue := pollDue_moves hp hasFailed (.call call) g.pollBound 0 0 hand hs
      have hsteps := hdue.steps hs
      exact hdue.trans (conclude_moves hand (hsteps.sited hs) (hsteps.gathers hgathers)
        (progressFrom_tells _ _ _ _))
    · have hcollect := collect_moves hp hand hs g.futures
      have hsteps := hcollect.steps hs
      exact hcollect.trans (conclude_moves hand (hsteps.sited hs) (hsteps.gathers hgathers)
        (collect_tells hp hs g.futures))

theorem advance_moves (hand : Hand) {s : Session} (hs : s.Sited) {call : Nat} {c : Call}
    (hc : s.unsettled? call = some c) :
    Moves (hand, s) (hand, advance pollCall s call c.work) := by
  have hsettle : ∀ outcome, s.Allows c.work outcome →
      Moves (hand, s) (hand, s.settle call outcome) := by
    intro outcome ho
    refine settle_moves hand fun c' hc' => ?_
    rwa [← Option.some.inj (hc.symm.trans hc')]
  cases hw : c.work with
  | ready outcome => exact hsettle outcome (by rw [hw]; rfl)
  | answered => exact .refl
  | collecting => exact pollTargets_moves hp hand hs call
  | gate gate =>
    rw [advance]
    split
    · exact .refl
    · next outcome ho => exact hsettle outcome (by rw [hw]; exact ho)
  | exchange e =>
    rw [advance]
    split
    · next fault hfault => exact hsettle _ (by rw [hw]; exact ⟨fault, hfault, rfl⟩)
    · next hr => exact .single (.ask hand hc hw hr)
  | aggregate site ids request =>
    obtain ⟨hresolve, hkept⟩ := resolve_moves hand hc hw
    have hcalls := resolve_calls s site ids
    rw [advance]
    split
    · next e s1 heq =>
      have herror := resolve_error (congrArg Prod.fst heq)
      obtain rfl : s1 = s := (Prod.mk.inj (heq.symm.trans herror)).2
      exact hsettle _ (by rw [hw]; exact ⟨e, herror, rfl⟩)
    · next operations s1 heq =>
      rw [heq] at hresolve hkept hcalls
      have hopen : s1.unsettled? call = some c := by rwa [unsettled?, hcalls]
      have hfan : Moves (hand, s) (hand, s1.fanOut call request operations) :=
        hresolve.tail (.fanOut hand hopen hw (hkept operations rfl))
      exact hfan.trans (pollTargets_moves hp hand ((Moves.steps hfan hs).sited hs) call)

end Poll

theorem pollWithin_moves (depth : Nat) (hand : Hand) {s : Session} (hs : s.Sited) (call : Nat) :
    Moves (hand, s) (hand, pollWithin depth s call) := by
  induction depth generalizing hand s call with
  | zero => exact .refl
  | succ depth ih =>
    rw [pollWithin]
    split
    · exact .refl
    · next hc => exact advance_moves ih hand hs hc

theorem poll_moves (hand : Hand) {s : Session} (hs : s.Sited) (call : Nat) :
    Moves (hand, s) (hand, s.poll call) :=
  pollWithin_moves _ hand hs call

theorem foldl_pollFuture_moves (hand : Hand) {s : Session} (hs : s.Sited)
    (futures : List Future) : Moves (hand, s) (hand, futures.foldl (pollFuture poll) s) := by
  induction futures generalizing s with
  | nil => exact .refl
  | cons future rest ih =>
    have hfirst := pollFuture_moves poll_moves hand hs future
    exact hfirst.trans (ih ((hfirst.steps hs).sited hs))

theorem wake_steps (s : Session) (waiter : Waiter) : CallSteps s (s.wake waiter) :=
  (wake_nudges [] s waiter).steps

theorem poll_steps {s : Session} (hs : s.Sited) (call : Nat) : CallSteps s (s.poll call) :=
  (poll_moves [] hs call).steps hs

theorem pollFuture_steps {s : Session} (hs : s.Sited) (future : Future) :
    CallSteps s (pollFuture poll s future) :=
  (pollFuture_moves poll_moves [] hs future).steps hs

theorem foldl_pollFuture_steps {s : Session} (hs : s.Sited) (futures : List Future) :
    CallSteps s (futures.foldl (pollFuture poll) s) :=
  (foldl_pollFuture_moves [] hs futures).steps hs

end Session
end OperationTree
