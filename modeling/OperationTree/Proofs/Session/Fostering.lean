import OperationTree.Proofs.Session.Levels
import OperationTree.Proofs.Session.Outstanding

/-! Who starts calls.  Polls, drains, shutdowns and ticks invoke nothing: whatever calls they add,
a call that gathers has called them.  So all calls of a session in which one operation has been
invoked come from the call of that operation. -/

namespace OperationTree.Session

open Relation

theorem HasCalled.later {s t : Session} (h : Steps s t) {call other : Nat}
    (hc : s.HasCalled call other) : t.HasCalled call other :=
  hc.imp fun _ hc => ⟨h.gathers hc.1, hc.2⟩

/-- Earlier calls have called all calls that have been added. -/
structure Fosters (s t : Session) : Prop where
  steps : Steps s t
  called : ∀ m, s.calls.length ≤ m → m < t.calls.length → ∃ a < m, t.HasCalled a m

namespace Fosters

variable {s t u : Session}

theorem of_length (h : Steps s t) (hlength : t.calls.length = s.calls.length) : s.Fosters t :=
  ⟨h, fun _ hle hlt => absurd hle (Nat.not_le_of_lt (hlength ▸ hlt))⟩

theorem refl (s : Session) : s.Fosters s := .of_length .refl rfl

theorem trans (h : s.Fosters t) (h' : t.Fosters u) : s.Fosters u where
  steps := h.steps.trans h'.steps
  called m hle hlt := by
    by_cases hm : m < t.calls.length
    · obtain ⟨a, ha, hcalled⟩ := h.called m hle hm
      exact ⟨a, ha, hcalled.later h'.steps⟩
    · exact h'.called m (Nat.le_of_not_lt hm) hlt

theorem sited (h : s.Fosters t) (hs : s.Sited) : t.Sited := h.steps.sited hs

/-- No call is lost. -/
theorem lt (h : s.Fosters t) {call : Nat} (hlt : call < s.calls.length) :
    call < t.calls.length := by
  obtain ⟨_, hget, -⟩ := h.steps.continues call _ (List.getElem?_eq_getElem hlt)
  exact (List.getElem?_eq_some_iff.mp hget).1

/-- What is no call may change. -/
theorem of_calls (h : s.Fosters t) (hu : Steps s u) (hcalls : u.calls = t.calls) :
    s.Fosters u := by
  refine ⟨hu, fun m hle hlt => ?_⟩
  obtain ⟨a, ha, futures, ⟨c, g, hc, hgathers⟩, hmem⟩ := h.called m hle (hcalls ▸ hlt)
  exact ⟨a, ha, futures, ⟨c, g, hcalls ▸ hc, hgathers⟩, hmem⟩

end Fosters

theorem foldl_fosters {α : Type} {f : Session → α → Session}
    (hf : ∀ {s : Session}, s.Sited → ∀ a, s.Fosters (f s a)) (xs : List α) {s : Session}
    (hs : s.Sited) : s.Fosters (xs.foldl f s) := by
  induction xs generalizing s with
  | nil => exact .refl s
  | cons a rest ih =>
    have hfirst := hf hs a
    exact hfirst.trans (ih (hfirst.sited hs))

/-! ### Polls of calls -/

theorem wake_length (s : Session) (waiter : Waiter) :
    (s.wake waiter).calls.length = s.calls.length := by
  simpa using congrArg List.length (wake_nudges [] s waiter).woken.outcomes

theorem wake_fosters (s : Session) (waiter : Waiter) : s.Fosters (s.wake waiter) :=
  .of_length (wake_steps s waiter).steps (wake_length s waiter)

theorem setGathering_fosters {s : Session} {waiter : Waiter} {g g' : Gathering}
    (hg : s.gathering? waiter = some g) (hf : g'.futures = g.futures) :
    s.Fosters (s.setGathering g' waiter) :=
  .of_length (.single (.call (.regather g' hg hf))) (setGathering_length s g' waiter)

theorem settle_fosters (s : Session) (call : Nat) (outcome : Outcome) :
    s.Fosters (s.settle call outcome) := by
  cases hc : s.unsettled? call with
  | none =>
    rw [settle, hc]
    exact .refl s
  | some c =>
    refine .of_length ?_ (settle_endsAlone hc outcome).length
    rw [settle, hc]
    exact .head (.call (.finish outcome hc)) (wake_steps _ _).steps

theorem drop_fosters (s : Session) (future : Future) : s.Fosters (s.drop future) := by
  cases future with
  | settled => exact .refl s
  | call number => exact .of_length (.single (.call (.release s number))) (List.length_modify ..)

theorem conclude_fosters {s : Session} (hs : s.Sited) (call : Nat) (targets : List Future)
    (progress : Progress) : s.Fosters (s.conclude call targets progress) := by
  have hdrop := foldl_fosters (fun {s} _ => drop_fosters s) targets hs
  cases progress with
  | waiting => exact .refl s
  | failed | complete => exact hdrop.trans (settle_fosters _ _ _)

/-- The calls that an aggregate calls at once are those that it gathers from then on. -/
theorem fanOut_fosters {s : Session} (hs : s.Sited) {call : Nat} {c : Call} {site : Site}
    {ids : List String} {request : Request} {operations : List Operation}
    (hc : s.unsettled? call = some c) (hw : c.work = .aggregate site ids request)
    (hfound : s.resolved.lookup site = some operations) :
    s.Fosters (s.fanOut call request operations) where
  steps := (fanOut_steps hs hc hw hfound).steps
  called m hle hlt := by
    rw [fanOut_length] at hlt
    refine ⟨call, Nat.lt_of_lt_of_le (lt_of_unsettled hc) hle, _,
      fanOut_gathers request operations hc, ?_⟩
    exact ((invokeAll_invokes s request operations).mem_iff m).mpr ⟨hle, hlt⟩

section Poll

variable {pollCall : Session → Nat → Session}
  (hp : ∀ {s : Session}, s.Sited → ∀ n, s.Fosters (pollCall s n))
include hp

theorem pollFuture_fosters {s : Session} (hs : s.Sited) (future : Future) :
    s.Fosters (pollFuture pollCall s future) := by
  cases future with
  | settled => exact .refl s
  | call number => exact hp hs number

theorem collect_fosters {s : Session} (hs : s.Sited) (futures : List Future) :
    s.Fosters (collect pollCall s futures).2 := by
  induction futures generalizing s with
  | nil => exact .refl s
  | cons future rest ih =>
    have hfirst := pollFuture_fosters hp hs future
    have hrest := hfirst.trans (ih (hfirst.sited hs))
    rw [collect]
    split
    · exact hfirst
    · exact hrest
    · exact hrest

theorem DueRun.fosters {isOver : Session → Gathering → Bool} {waiter : Waiter} {n : Nat}
    {s t : Session} (h : DueRun pollCall isOver waiter n s t) (hs : s.Sited) : s.Fosters t := by
  -- Before each poll its place is no longer due.
  have hpop {s : Session} {g : Gathering} (due : List Nat) (hg : s.gathering? waiter = some g) :
      s.Fosters (s.setGathering { g with due } waiter) := setGathering_fosters hg rfl
  have hpolled {s : Session} {g : Gathering} (due : List Nat) (future : Future) (hs : s.Sited)
      (hg : s.gathering? waiter = some g) :
      s.Fosters (pollFuture pollCall (s.setGathering { g with due } waiter) future) :=
    (hpop due hg).trans (pollFuture_fosters hp ((hpop due hg).sited hs) future)
  induction h with
  | idle | stop => exact .refl _
  | yield s => exact wake_fosters s waiter
  | pass hg _ _ _ ih => exact (hpop _ hg).trans (ih ((hpop _ hg).sited hs))
  | poll hg _ _ _ hpoll _ _ ih =>
    have hfuture := hpoll ▸ hpolled _ _ hs hg
    exact hfuture.trans (ih (hfuture.sited hs))
  | @take _ _ _ _ _ g' place _ _ hg _ _ _ hpoll hg' _ _ ih =>
    have htake := (hpoll ▸ hpolled _ _ hs hg).trans
      (setGathering_fosters hg' (show (g'.take place).futures = g'.futures from rfl))
    exact htake.trans (ih (htake.sited hs))

theorem pollDue_fosters (isOver : Session → Gathering → Bool) (waiter : Waiter)
    (fuel polled yielded : Nat) {s : Session} (hs : s.Sited) :
    s.Fosters (pollDue pollCall isOver waiter fuel polled yielded s) := by
  obtain ⟨n, hrun⟩ := pollDue_run pollCall isOver waiter fuel polled yielded s
  exact hrun.fosters hp hs

theorem pollTargets_fosters {s : Session} (hs : s.Sited) (call : Nat) :
    s.Fosters (pollTargets pollCall s call) := by
  rw [pollTargets]
  split
  · exact .refl s
  · next g _ =>
    split
    · have hdue := pollDue_fosters hp hasFailed (.call call) g.pollBound 0 0 hs
      exact hdue.trans (conclude_fosters (hdue.sited hs) _ _ _)
    · have hcollect := collect_fosters hp hs g.futures
      exact hcollect.trans (conclude_fosters (hcollect.sited hs) _ _ _)

theorem advance_fosters {s : Session} (hs : s.Sited) {call : Nat} {c : Call}
    (hc : s.unsettled? call = some c) : s.Fosters (advance pollCall s call c.work) := by
  cases hw : c.work with
  | ready => exact settle_fosters s call _
  | answered => exact .refl s
  | collecting => exact pollTargets_fosters hp hs call
  | gate =>
    rw [advance]
    split
    · exact .refl s
    · exact settle_fosters s call _
  | exchange =>
    rw [advance]
    split
    · exact settle_fosters s call _
    · next hr => exact .of_length (.single (.call (.ask hc hw hr))) (List.length_modify ..)
  | aggregate site ids request =>
    obtain ⟨hmoves, hkept⟩ := resolve_moves [] hc hw
    have hcalls := resolve_calls s site ids
    have hresolve : s.Fosters (s.resolve site ids).2 :=
      .of_length (Moves.steps hmoves hs).steps (by rw [hcalls])
    rw [advance]
    split
    · next heq =>
      rw [heq] at hresolve
      exact hresolve.trans (settle_fosters _ _ _)
    · next operations s1 heq =>
      rw [heq] at hresolve hkept hcalls
      have hopen : s1.unsettled? call = some c := by rwa [unsettled?, hcalls]
      have hfan := hresolve.trans
        (fanOut_fosters (hresolve.sited hs) hopen hw (hkept operations rfl))
      exact hfan.trans (pollTargets_fosters hp (hfan.sited hs) call)

end Poll

theorem pollWithin_fosters (depth : Nat) {s : Session} (hs : s.Sited) (call : Nat) :
    s.Fosters (pollWithin depth s call) := by
  induction depth generalizing s call with
  | zero => exact .refl s
  | succ depth ih =>
    rw [pollWithin]
    split
    · exact .refl s
    · next hc => exact advance_fosters ih hs hc

theorem poll_fosters {s : Session} (hs : s.Sited) (call : Nat) : s.Fosters (s.poll call) :=
  pollWithin_fosters s.depth hs call

/-! ### Polls of drains and shutdowns -/

theorem pollCalls_fosters {s : Session} (hs : s.Sited) (drain : Nat) (g : Gathering) :
    s.Fosters (s.pollCalls drain g) := by
  rw [pollCalls]
  split
  · exact pollDue_fosters poll_fosters _ _ _ _ _ hs
  · exact foldl_fosters (pollFuture_fosters poll_fosters) g.futures hs

theorem pollGathered_fosters {s : Session} (hs : s.Sited) (drain : Nat) :
    s.Fosters (s.pollGathered drain) := by
  have hsteps := pollGathered_steps hs drain
  rw [pollGathered] at hsteps ⊢
  split
  · exact .refl s
  · next g hg =>
    rw [hg] at hsteps
    refine (pollCalls_fosters hs drain g).of_calls hsteps ?_
    rw [endDrain]
    split <;> rfl

theorem watch_length (waiter : Waiter) (place : Nat) (s : Session) (futures : List Future) :
    (watch waiter place s futures).calls.length = s.calls.length := by
  simpa using congrArg List.length (watch_watchedFrom waiter place s futures).calls

theorem pollDrain_fosters {s : Session} (hs : s.Sited) (drain : Nat) :
    s.Fosters (s.pollDrain drain) := by
  rw [pollDrain]
  split
  · next tracker hd =>
    have hgather : s.Fosters (s.gather (.drain drain) ((s.tracker tracker).calls.map .call)) := by
      refine .of_length ((beginDrain_deeds (fun _ => True) [] hd).steps hs) ?_
      exact watch_length (.drain drain) 0 _ _
    exact hgather.trans (pollGathered_fosters (hgather.sited hs) drain)
  · exact pollGathered_fosters hs drain
  · exact .refl s

theorem pollFresh_fosters (s : Session) (number : Nat) : s.Fosters (s.pollFresh number) := by
  refine (Fosters.refl s).of_calls (pollFresh_steps s number) ?_
  rw [pollFresh]
  split
  · rw [beginShutdown]
    split <;> rfl
  · rfl

theorem pollDraining_fosters {s : Session} (hs : s.Sited) (number : Nat) :
    s.Fosters (s.pollDraining number) := by
  have hsteps := pollDraining_steps hs number
  rw [pollDraining] at hsteps ⊢
  split
  · next drain _ hn =>
    rw [hn] at hsteps
    refine (pollDrain_fosters hs drain).of_calls hsteps ?_
    dsimp only
    split <;> rfl
  · exact .refl s

theorem pollShutdown_fosters {s : Session} (hs : s.Sited) (number : Nat) :
    s.Fosters (s.pollShutdown number) := by
  have hfresh := pollFresh_fosters s number
  have hdraining := hfresh.trans (pollDraining_fosters (hfresh.sited hs) number)
  exact hdraining.of_calls (pollShutdown_steps hs number) (pollClosing_calls _ number)

/-! ### Ticks -/

theorem runTask_fosters {s : Session} (hs : s.Sited) (number : Nat) :
    s.Fosters (s.runTask number) := by
  rw [runTask]
  split
  · exact .refl s
  · exact poll_fosters hs _
  · exact pollDrain_fosters hs _
  · exact pollShutdown_fosters hs _

theorem runFirst_fosters (count : Nat) {s : Session} (hs : s.Sited) :
    s.Fosters (s.runFirst count) := by
  induction count generalizing s with
  | zero => exact .refl s
  | succ count ih =>
    rw [runFirst]
    split
    · exact .refl s
    · next task queue _ =>
      have hqueue : s.Fosters { s with queue } := .of_length (.single (.call (.queue s queue))) rfl
      have htask := hqueue.trans (runTask_fosters (hqueue.sited hs) task)
      exact htask.trans (ih (htask.sited hs))

theorem rounds_fosters (n : Nat) {s : Session} (hs : s.Sited) : s.Fosters (s.rounds n) := by
  induction n generalizing s with
  | zero => exact .refl s
  | succ n ih =>
    have hround := runFirst_fosters s.queue.length hs
    exact hround.trans (ih (hround.sited hs))

theorem arrive_fosters {s : Session} (hs : s.Sited) (call : Nat) : s.Fosters (s.arrive call) := by
  refine .of_length ((arrive_deeds (fun _ => True) [] s call).steps hs) ?_
  rw [arrive]
  split
  · rfl
  · exact (wake_length _ _).trans (List.length_modify ..)

theorem endClosing_fosters {s : Session} (hs : s.Sited) (number : Nat) :
    s.Fosters (s.endClosing number) := by
  refine .of_length ((endClosing_deeds (fun _ => True) [] s number).steps hs) ?_
  rw [endClosing]
  split
  · rfl
  · exact wake_length _ _

theorem deliver_fosters {s : Session} (hs : s.Sited) : s.Fosters s.deliver := by
  have harrive := foldl_fosters arrive_fosters (List.range s.calls.length) hs
  exact harrive.trans (foldl_fosters endClosing_fosters _ (harrive.sited hs))

theorem tick_fosters {s : Session} (hs : s.Sited) : s.Fosters s.tick := by
  rw [tick]
  split
  · have hrun := rounds_fosters (4 * (s.depth + 1)) hs
    have hdeliver := hrun.trans (deliver_fosters (hrun.sited hs))
    exact hdeliver.trans (rounds_fosters _ (hdeliver.sited hs))
  · exact .refl s

end OperationTree.Session
