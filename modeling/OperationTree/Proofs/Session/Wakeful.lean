import OperationTree.Proofs.Session.Onward
import OperationTree.Proofs.Session.Run

/-! Polls leave no call asleep.  Every function that polls are made of goes onward, from the start
of a call to its end; and a call that has been polled can go on again only if it has been roused. -/

namespace OperationTree.Session

/-! ### Starting calls -/

theorem outcomeOf_append {s t : Session} {c : Call} (h : t.calls = s.calls ++ [c])
    (hc : c.outcome = none) (n : Nat) : t.outcomeOf n = s.outcomeOf n := by
  rw [outcomeOf, outcomeOf, h, List.getElem?_append]
  split
  · rfl
  · next hn =>
    rw [List.getElem?_singleton, List.getElem?_eq_none (Nat.le_of_not_lt hn)]
    split
    · exact hc
    · rfl

theorem openGate_onward (s : Session) : s.Onward s.openGate.2 := by
  refine .of_canGoOn (.single (.openGate s)) List.prefix_rfl (.of_eq rfl) fun call hgo => .inl ?_
  refine canGoOn_gist (s := s) (t := s.openGate.2) rfl (fun gate => ?_) hgo
  rw [gateOutcome, gateOutcome, openGate, List.getElem?_append]
  split
  · rfl
  · next hn =>
    rw [List.getElem?_singleton, List.getElem?_eq_none (Nat.le_of_not_lt hn)]
    split <;> rfl

theorem track_drains (s : Session) (tracker : Nat) (work : Work) :
    (s.track tracker work).2.drains = s.drains := by
  rw [track]
  dsimp only
  split <;> rfl

/-- A new call is queued if there is a scheduler, and no drain waits for it yet. -/
theorem track_onward {s : Session} (ha : s.Announced) {tracker : Nat} (work : Work)
    (ht : s.isTracking tracker = true) : s.Onward (s.track tracker work).2 := by
  obtain ⟨c, hcalls, hc⟩ : ∃ c, (s.track tracker work).2.calls = s.calls ++ [c] ∧
      c.outcome = none := by
    rw [track]
    dsimp only
    split <;> exact ⟨_, rfl, rfl⟩
  have hgates : (s.track tracker work).2.gates = s.gates := by
    rw [track]
    dsimp only
    split <;> rfl
  have hdrains := track_drains s tracker work
  have hqueue : s.queue <+: (s.track tracker work).2.queue := by
    rw [track]
    dsimp only
    split
    · exact List.prefix_append _ _
    · exact List.prefix_rfl
  have hqueued : (s.track tracker work).2.hasScheduler = true →
      (s.track tracker work).2.IsQueued s.calls.length := by
    rw [track]
    dsimp only
    split
    · exact fun _ => ⟨s.tasks.length, by simp [spawn, register], by simp [spawn, register]⟩
    · next hnone => exact fun hsome => absurd hsome hnone
  refine .of_canGoOn (track_steps work ht) hqueue (.of_eq hdrains) fun call hgo => ?_
  by_cases hnew : call = s.calls.length
  · subst hnew
    refine .inr ⟨hqueued, fun drain g place hg _ hp => ?_⟩
    have hold : s.gathering? (.drain drain) = some g :=
      gathering?_drain.mpr (hdrains ▸ gathering?_drain.mp hg)
    obtain ⟨c', hc', -⟩ := ha drain g place _ hold hp
    exact absurd (List.getElem?_eq_some_iff.mp hc').1 (Nat.lt_irrefl _)
  · obtain ⟨c', hopen, hgo⟩ := hgo
    obtain ⟨hget, hnone⟩ := unsettled?_eq_some.mp hopen
    rw [hcalls, getElem?_append_eq_some] at hget
    have hget := hget.resolve_right fun hlast => hnew hlast.1
    have hsame := goesOn_congr (s := s) (fun gate => by rw [gateOutcome, gateOutcome, hgates])
      (result_of_outcomeOf (outcomeOf_append hcalls hc)) c'.work
    exact .inl ⟨c', unsettled?_eq_some.mpr ⟨hget, hnone⟩, hsame.mp hgo⟩

theorem start_onward {s : Session} (ha : s.Announced) {tracker : Nat} (job : Job)
    (ht : s.isTracking tracker = true) : s.Onward (s.start tracker job).2 := by
  cases job with
  | gated => exact (openGate_onward s).trans (track_onward (s := s.openGate.2) ha _ ht)
  | finished | exchange | aggregate => exact track_onward ha _ ht

theorem invoke_onward {s : Session} (hs : s.Sited) (ha : s.Announced) {o : Operation}
    (request : Request) (ho : o.site.tree < s.trees.length) : s.Onward (s.invoke o request).2 := by
  rw [invoke]
  split
  · exact .refl s
  · exact start_onward ha _ (hs.isTracking_trackerOf ho)

theorem invokeAll_onward {s : Session} (hs : s.Sited) (ha : s.Announced) (request : Request)
    {operations : List Operation} (ho : ∀ o ∈ operations, o.site.tree < s.trees.length) :
    s.Onward (s.invokeAll request operations).2 := by
  induction operations generalizing s with
  | nil => exact .refl s
  | cons o rest ih =>
    have hfirst := invoke_onward hs ha request (ho o (by simp))
    refine hfirst.trans (ih (hfirst.steps.sited hs) (hfirst.steps.announced ha) fun o' ho' => ?_)
    rw [hfirst.steps.trees]
    exact ho o' (by simp [ho'])

/-! ### Gathering -/

theorem addWaiter_onward (s : Session) (call : Nat) (waiter : Waiter × Nat) :
    s.Onward (s.addWaiter call waiter) := by
  refine .of_canGoOn (.single (.addWaiter s call waiter)) List.prefix_rfl (.of_eq rfl)
    fun other hgo =>
      .inl (canGoOn_gist (s := s) (t := s.addWaiter call waiter) ?_ (fun _ => rfl) hgo)
  exact map_modify_eq (f := fun c => { c with waiters := c.waiters ++ [waiter] })
    (g := Call.gist) (fun _ => rfl) _ _

theorem watch_onward (waiter : Waiter) (place : Nat) (s : Session) (futures : List Future) :
    s.Onward (watch waiter place s futures) := by
  induction futures generalizing place s with
  | nil => exact .refl s
  | cons future rest ih =>
    cases future with
    | settled => exact ih _ s
    | call n => exact (addWaiter_onward s n _).trans (ih _ _)

theorem gather_onward {s : Session} {call : Nat} {c : Call} {site : Site} {ids : List String}
    {request : Request} (targets : List Future) (hc : s.unsettled? call = some c)
    (hw : c.work = .aggregate site ids request) :
    s.Onward (s.gather (.call call) targets) := by
  have hcollect : s.Onward (s.setGathering { futures := targets } (.call call)) :=
    .of_canGoOn (.single (.collect targets hc hw)) List.prefix_rfl (.of_eq rfl) fun _ hgo =>
      .inl (canGoOn_setWork hc (fun _ => hw ▸ trivial) hgo)
  exact hcollect.trans (watch_onward _ _ _ _)

theorem resolve_onward {s : Session} (hs : s.Sited) {call : Nat} {c : Call} {site : Site}
    {ids : List String} {request : Request} (hc : s.unsettled? call = some c)
    (hw : c.work = .aggregate site ids request) : s.Onward (s.resolve site ids).2 := by
  have hsteps := Moves.steps (resolve_moves [] hc hw).1 hs
  have hsame : ∃ resolved, (s.resolve site ids).2 = { s with resolved } := by
    rw [resolve]
    split
    · exact ⟨s.resolved, rfl⟩
    · split
      · exact ⟨s.resolved, rfl⟩
      · split
        · exact ⟨s.resolved, rfl⟩
        · exact ⟨_, rfl⟩
  obtain ⟨resolved, heq⟩ := hsame
  rw [heq] at hsteps ⊢
  exact .of_canGoOn hsteps List.prefix_rfl (.of_eq rfl) fun _ hgo =>
    .inl (canGoOn_of_calls (s := s) (t := { s with resolved }) rfl rfl hgo)

theorem resolve_fanOut_inOrder {s : Session} (h : s.InOrder) {call : Nat} {c : Call} {site : Site}
    {ids : List String} {request : Request} {operations : List Operation}
    (hc : s.unsettled? call = some c) (hw : c.work = .aggregate site ids request)
    (hfound : (s.resolve site ids).1 = .ok operations) :
    ((s.resolve site ids).2.fanOut call request operations).InOrder := by
  refine h.moves fun hand => ⟨hand, ?_⟩
  obtain ⟨hmoves, hkept⟩ := resolve_moves hand hc hw
  have hopen : (s.resolve site ids).2.unsettled? call = some c := by
    rwa [unsettled?, resolve_calls]
  exact hmoves.tail (.fanOut hand hopen hw (hkept operations hfound))

/-! ### Ending with what has been gathered -/

theorem release_onward (s : Session) (call : Nat) : s.Onward (s.release call) := by
  refine .of_canGoOn (.single (.release s call)) List.prefix_rfl (.of_eq rfl)
    fun other hgo => .inl (canGoOn_gist (s := s) (t := s.release call) ?_ (fun _ => rfl) hgo)
  exact map_modify_eq (f := fun c => { c with isHeld := false }) (g := Call.gist)
    (fun _ => rfl) _ _

theorem drop_onward (futures : List Future) (s : Session) : s.Onward (futures.foldl drop s) := by
  induction futures generalizing s with
  | nil => exact .refl s
  | cons future rest ih =>
    cases future with
    | settled => exact ih s
    | call n => exact (release_onward s n).trans (ih _)

theorem conclude_onward {s : Session} (h : s.InOrder) (call : Nat) (futures : List Future)
    (progress : Progress) : s.Onward (s.conclude call futures progress) := by
  have hdrop := drop_onward futures s
  have hs := h.moves fun hand => ⟨hand, drop_moves hand futures s⟩
  cases progress with
  | waiting => exact .refl s
  | failed | complete => exact hdrop.trans (settle_onward hs call _)

/-! ### Polling -/

theorem pop_inOrder {s : Session} (h : s.InOrder) {waiter : Waiter} {g : Gathering} {place : Nat}
    {due : List Nat} (hg : s.gathering? waiter = some g) (hdue : g.due = place :: due) :
    (s.setGathering { g with due } waiter).InOrder :=
  h.moves fun hand => ⟨(waiter, place) :: hand, .single (.pop hg hdue)⟩

theorem take_inOrder {s s1 : Session} (h : s1.InOrder) (hsteps : CallSteps s s1) {waiter : Waiter}
    {g g' : Gathering} {place : Nat} {future : Future} (hg : s.gathering? waiter = some g)
    (hg' : s1.gathering? waiter = some g') (hf : g.futures[place]? = some future)
    (hr : (s1.result future).isSome = true) :
    (s1.setGathering (g'.take place) waiter).InOrder :=
  h.moves fun hand => ⟨hand, .single (hsteps.take hand hg hg' hf hr)⟩

/-- The progress of a call, as far as it has taken results. -/
def progressOf (s : Session) (call : Nat) (futures : List Future) : Progress :=
  s.progressFrom ((s.gathering? (.call call)).elim [] Gathering.taken) 0 futures

theorem pollTargets_wide {pollCall : Session → Nat → Session} {s : Session} {call : Nat}
    {g : Gathering} (hg : s.gathering? (.call call) = some g) (hw : g.isWide = true) :
    pollTargets pollCall s call =
      (pollDue pollCall hasFailed (.call call) g.pollBound 0 0 s).conclude call g.futures
        ((pollDue pollCall hasFailed (.call call) g.pollBound 0 0 s).progressOf call
          g.futures) := by
  rw [pollTargets, hg]
  dsimp only
  rw [if_pos hw]
  rfl

section Polling

variable {pollCall : Session → Nat → Session}
  (hm : ∀ (hand : Hand) {s : Session}, s.Sited → ∀ n, Moves (hand, s) (hand, pollCall s n))
include hm

theorem pollFuture_inOrder {s : Session} (h : s.InOrder) (future : Future) :
    (pollFuture pollCall s future).InOrder :=
  h.moves fun hand => ⟨hand, pollFuture_moves hm hand h.sited future⟩

/-- Polling calls in turn meets a failure that is there. -/
theorem collect_failed {s : Session} (hs : s.Sited) {futures : List Future} {future : Future}
    (hmem : future ∈ futures) {e : CallError} (he : s.result future = some (.error e)) :
    ∃ e', (collect pollCall s futures).1 = .failed e' := by
  induction futures generalizing s with
  | nil => cases hmem
  | cons first rest ih =>
    have hmoves := pollFuture_moves hm [] hs first
    have he' := (hmoves.continues hs).result he
    rw [collect]
    dsimp only
    have hrest (hne : future ≠ first) : ∃ e',
        (collect pollCall (pollFuture pollCall s first) rest).1 = .failed e' :=
      ih ((hmoves.steps hs).sited hs) ((List.mem_cons.mp hmem).resolve_left hne) he'
    split
    · exact ⟨_, rfl⟩
    · next value hvalue =>
      obtain ⟨e', hfailed⟩ := hrest fun heq => by rw [heq, hvalue] at he'; cases he'
      exact ⟨e', by rw [hfailed]; rfl⟩
    · next hnone =>
      obtain ⟨e', hfailed⟩ := hrest fun heq => by rw [heq, hnone] at he'; cases he'
      exact ⟨e', by rw [hfailed]; rfl⟩

variable (hp : ∀ {s : Session}, s.InOrder → ∀ n, s.Onward (pollCall s n))
include hp

omit hm in
theorem pollFuture_onward {s : Session} (h : s.InOrder) (future : Future) :
    s.Onward (pollFuture pollCall s future) := by
  cases future with
  | settled => exact .refl s
  | call n => exact hp h n

theorem collect_onward {s : Session} (h : s.InOrder) (futures : List Future) :
    s.Onward (collect pollCall s futures).2 := by
  induction futures generalizing s with
  | nil => exact .refl s
  | cons future rest ih =>
    have hfirst := pollFuture_onward hp h future
    have hrest := hfirst.trans (ih (pollFuture_inOrder hm h future))
    rw [collect]
    split
    · exact hfirst
    · exact hrest
    · exact hrest

omit hp in
theorem InOrder.polled {s s1 : Session} (h : s.InOrder) {waiter : Waiter} {g : Gathering}
    {place : Nat} {due : List Nat} {future : Future} (hg : s.gathering? waiter = some g)
    (hdue : g.due = place :: due)
    (hpoll : s1 = pollFuture pollCall (s.setGathering { g with due } waiter) future) :
    s1.InOrder :=
  hpoll ▸ pollFuture_inOrder hm (pop_inOrder h hg hdue) future

omit hp in
theorem InOrder.took {s s1 : Session} (h : s.InOrder) {waiter : Waiter} {g g' : Gathering}
    {place : Nat} {due : List Nat} {future : Future} (hg : s.gathering? waiter = some g)
    (hdue : g.due = place :: due) (hfuture : g.futures[place]? = some future)
    (hpoll : s1 = pollFuture pollCall (s.setGathering { g with due } waiter) future)
    (hg' : s1.gathering? waiter = some g') (hresult : (s1.result future).isSome = true) :
    (s1.setGathering (g'.take place) waiter).InOrder := by
  have h1 := pop_inOrder h hg hdue
  have hsteps := hpoll ▸ (pollFuture_moves hm [] h1.sited future).steps h1.sited
  exact take_inOrder (h.polled hm hg hdue hpoll) hsteps (gathering?_setGathering _ hg) hg' hfuture
    hresult

/-- Polling the places that are due may leave the one who gathers behind, but nobody else. -/
theorem DueRun.onwardBut {isOver : Session → Gathering → Bool} {call n : Nat} {s t : Session}
    (h : DueRun pollCall isOver (.call call) n s t) (hs : s.InOrder) : OnwardBut call s t := by
  induction h with
  | idle | stop => exact (Onward.refl _).but call
  | yield s => exact (wake_onward hs.linked _).but call
  | @pass _ _ _ g _ due hg hdue _ _ ih =>
    exact (setGathering_onwardBut { g with due } hg rfl).trans (ih (pop_inOrder hs hg hdue))
  | @poll _ _ _ _ g _ due future hg hdue _ _ hpoll _ _ ih =>
    have hpop := setGathering_onwardBut { g with due } hg rfl
    have honward := hpoll ▸ pollFuture_onward hp (pop_inOrder hs hg hdue) future
    exact (hpop.trans (honward.but call)).trans (ih (hs.polled hm hg hdue hpoll))
  | @take _ _ _ _ g g' place due future hg hdue hfuture _ hpoll hg' hresult _ ih =>
    have hpop := setGathering_onwardBut { g with due } hg rfl
    have honward := hpoll ▸ pollFuture_onward hp (pop_inOrder hs hg hdue) future
    have htake := setGathering_onwardBut (g'.take place) hg' rfl
    exact ((hpop.trans (honward.but call)).trans htake).trans
      (ih (hs.took hm hg hdue hfuture hpoll hg' hresult))

omit hp in
/-- Polling the places that are due goes on until none is, or gathering is over, or the one who
gathers has woken himself. -/
theorem DueRun.stops {isOver : Session → Gathering → Bool} {call n : Nat} {s t : Session}
    (h : DueRun pollCall isOver (.call call) n s t) (hs : s.InOrder) {g' : Gathering}
    (hg' : t.gathering? (.call call) = some g') :
    g'.due = [] ∨ isOver t g' = true ∨ t.Roused call := by
  induction h with
  | idle hidle => exact .inl (hidle g' hg')
  | stop hg ho =>
    obtain rfl := Option.some.inj (hg.symm.trans hg')
    exact .inr (.inl ho)
  | yield s =>
    obtain ⟨c, hc, -⟩ := gathering?_call hg'
    exact .inr (.inr (wake_roused hs.linked
      ((wake_rouses s _).length_calls ▸ lt_of_unsettled hc)))
  | pass hg hdue _ _ ih => exact ih (pop_inOrder hs hg hdue) hg'
  | poll hg hdue _ _ hpoll _ _ ih => exact ih (hs.polled hm hg hdue hpoll) hg'
  | take hg hdue hfuture _ hpoll hgot hresult _ ih =>
    exact ih (hs.took hm hg hdue hfuture hpoll hgot hresult) hg'

omit hp in
/-- A call that gathers many has ended after a poll, or waits for them. -/
theorem pollTargets_wide_not_oversleeps {s : Session} (h : s.InOrder) {call : Nat} {g : Gathering}
    (hg : s.gathering? (.call call) = some g) (hw : g.isWide = true) :
    ¬ (pollTargets pollCall s call).Oversleeps call := by
  rw [pollTargets_wide hg hw]
  obtain ⟨n, hrun⟩ := pollDue_run pollCall hasFailed (.call call) g.pollBound 0 0 s
  revert hrun
  generalize pollDue pollCall hasFailed (.call call) g.pollBound 0 0 s = t
  intro hrun
  have hmoves := hrun.moves hm [] h.sited
  have hsteps := hmoves.steps h.sited
  obtain ⟨c, hopen, -⟩ := gathering?_call hg
  obtain ⟨c1, hget, -⟩ := hmoves.continues h.sited call c (unsettled?_eq_some.mp hopen).1
  rintro ⟨⟨c', hc', hgo⟩, hsleeps⟩
  cases hprogress : t.progressOf call g.futures with
  | failed | complete =>
    have hends : ((t.conclude call g.futures (t.progressOf call g.futures)).outcomeOf
        call).isSome = true :=
      conclude_isSome (hsteps.sited h.sited) hget (by rw [hprogress]; rintro ⟨⟩)
    rw [outcomeOf_of_unsettled hc'] at hends
    cases hends
  | waiting =>
    rw [hprogress, conclude] at hc' hgo hsleeps
    obtain ⟨c2, g2, hget2, hw2, hf2⟩ := hsteps.gathers (gathers_of_gathering? hg)
    obtain rfl := Option.some.inj ((unsettled?_eq_some.mp hc').1.symm.trans hget2)
    have hg2 := gathering?_eq_some hc' hw2
    have hwide2 : g2.isWide = true := by rwa [Gathering.isWide, hf2]
    rw [progressOf, hg2, Option.elim_some, ← hf2] at hprogress
    rw [hw2, GoesOn, if_pos hwide2] at hgo
    rcases hrun.stops hm h hg2 with hdue | hfailed | hroused
    · exact (hgo.resolve_left fun hne => hne hdue) hprogress
    · rw [hasFailed, hprogress] at hfailed
      cases hfailed
    · exact hsleeps hroused

theorem pollTargets_onward {s : Session} (h : s.InOrder) (call : Nat) :
    s.Onward (pollTargets pollCall s call) := by
  cases hg : s.gathering? (.call call) with
  | none =>
    rw [pollTargets, hg]
    exact .refl s
  | some g =>
    cases hw : g.isWide with
    | true =>
      have hself := pollTargets_wide_not_oversleeps hm h hg hw
      rw [pollTargets_wide hg hw] at hself ⊢
      obtain ⟨n, hrun⟩ := pollDue_run pollCall hasFailed (.call call) g.pollBound 0 0 s
      have hdue := hrun.onwardBut hm hp h
      have hs := h.moves fun hand =>
        ⟨hand, pollDue_moves hm hasFailed (.call call) g.pollBound 0 0 hand h.sited⟩
      have hall := hdue.trans ((conclude_onward hs call g.futures
        ((pollDue pollCall hasFailed (.call call) g.pollBound 0 0 s).progressOf call
          g.futures)).but call)
      refine ⟨hall.steps, hall.queue, hall.drains, fun other hover => ?_⟩
      by_cases hother : other = call
      · exact absurd (hother ▸ hover) hself
      · exact hall.oversleeps other hother hover
    | false =>
      rw [pollTargets, hg]
      dsimp only
      rw [if_neg (by simp [hw])]
      have hcollect := collect_onward hm hp h g.futures
      have hs := h.moves fun hand => ⟨hand, collect_moves hm hand h.sited g.futures⟩
      exact hcollect.trans (conclude_onward hs _ _ _)

omit hp in
/-- A call ends when its few targets are polled after they have come to something. -/
theorem pollTargets_decided
    (hsettled : ∀ s n, (outcomeOf s n).isSome = true → pollCall s n = s) {s : Session}
    (hs : s.Sited) {call : Nat} {g : Gathering} (hg : s.gathering? (.call call) = some g)
    (hw : g.isWide = false) (hdecided : s.IsDecided g.futures) :
    ((pollTargets pollCall s call).outcomeOf call).isSome = true := by
  have hprogress : (collect pollCall s g.futures).1 ≠ .waiting := by
    rcases hdecided with hall | ⟨future, hmem, e, he⟩
    · exact (collect_settled hsettled hall).2
    · obtain ⟨e', hfailed⟩ := collect_failed hm hs hmem he
      rw [hfailed]
      rintro ⟨⟩
  obtain ⟨c, hc, -⟩ := gathering?_call hg
  have hmoves := collect_moves hm [] hs g.futures
  obtain ⟨c', hget, -⟩ := hmoves.continues hs call c (unsettled?_eq_some.mp hc).1
  rw [pollTargets, hg]
  dsimp only
  rw [if_neg (by simp [hw])]
  exact conclude_isSome ((hmoves.steps hs).sited hs) hget hprogress

/-- A call whose targets have been polled has ended, or waits for them. -/
theorem pollTargets_not_oversleeps
    (hsettled : ∀ s n, (outcomeOf s n).isSome = true → pollCall s n = s) {s : Session}
    (h : s.InOrder) {call : Nat} {c : Call} {g : Gathering} (hc : s.unsettled? call = some c)
    (hw : c.work = .collecting g) : ¬ (pollTargets pollCall s call).Oversleeps call := by
  have hg := gathering?_eq_some hc hw
  cases hwide : g.isWide with
  | true => exact pollTargets_wide_not_oversleeps hm h hg hwide
  | false =>
    intro hover
    obtain ⟨⟨c', hc', hgo⟩, -⟩ := (pollTargets_onward hm hp h call).oversleeps call hover
    obtain rfl := Option.some.inj (hc.symm.trans hc')
    rw [hw, GoesOn, if_neg (by simp [hwide])] at hgo
    have hends := pollTargets_decided hm hsettled h.sited hg hwide hgo
    obtain ⟨c2, hopen, -⟩ := hover.1
    rw [outcomeOf_of_unsettled hopen] at hends
    cases hends

theorem advance_onward {s : Session} (h : s.InOrder) {call : Nat} {c : Call}
    (hc : s.unsettled? call = some c) : s.Onward (advance pollCall s call c.work) := by
  cases hw : c.work with
  | ready outcome => exact settle_onward h call outcome
  | answered => exact .refl s
  | collecting => exact pollTargets_onward hm hp h call
  | gate gate =>
    rw [advance]
    split
    · exact .refl s
    · exact settle_onward h call _
  | exchange e =>
    rw [advance]
    split
    · exact settle_onward h call _
    · next hr =>
      refine .of_canGoOn (.single (.ask hc hw hr)) List.prefix_rfl (.of_eq rfl) fun other hgo =>
        .inl ?_
      rcases canGoOn_setWork_cases (s := { s with outside := (e.perform s.outside).2 }) hgo with
        ⟨-, hnot⟩ | hold
      · cases hnot
      · exact canGoOn_of_calls (s := s) (t := { s with outside := (e.perform s.outside).2 }) rfl rfl
          hold
  | aggregate site ids request =>
    have hresolve := resolve_onward h.sited hc hw
    obtain ⟨hmoves, hkept⟩ := resolve_moves [] hc hw
    have hcalls := resolve_calls s site ids
    rw [advance]
    split
    · next e s1 heq =>
      obtain rfl : s1 = s :=
        (Prod.mk.inj (heq.symm.trans (resolve_error (congrArg Prod.fst heq)))).2
      exact settle_onward h call _
    · next operations s1 heq =>
      rw [heq] at hresolve hmoves hkept hcalls
      have hs1 := hresolve.steps.sited h.sited
      have hopen : s1.unsettled? call = some c := by rwa [unsettled?, hcalls]
      have hoffers : ∀ o ∈ operations, o.site.tree < s1.trees.length := fun o ho =>
        (offers_of_lookup (hkept operations rfl) ho).site_tree hs1
      have hinvoke := invokeAll_onward hs1 (hresolve.steps.announced h.announced) request hoffers
      have hgather := gather_onward (s1.invokeAll request operations).1
        (unsettled?_of_extends (invokeAll_calls s1 request operations) hopen) hw
      have hfan := resolve_fanOut_inOrder h hc hw (congrArg Prod.fst heq)
      rw [heq] at hfan
      exact ((hresolve.trans hinvoke).trans hgather).trans (pollTargets_onward hm hp hfan call)

end Polling

theorem pollWithin_onward (depth : Nat) {s : Session} (h : s.InOrder) (call : Nat) :
    s.Onward (pollWithin depth s call) := by
  induction depth generalizing s call with
  | zero => exact .refl s
  | succ depth ih =>
    rw [pollWithin]
    split
    · exact .refl s
    · next c hc =>
      exact advance_onward (pollWithin_moves depth) ih h hc

theorem poll_onward {s : Session} (h : s.InOrder) (call : Nat) : s.Onward (s.poll call) :=
  pollWithin_onward _ h call

theorem poll_inOrder {s : Session} (h : s.InOrder) (call : Nat) : (s.poll call).InOrder :=
  h.moves fun hand => ⟨hand, poll_moves hand h.sited call⟩

theorem not_canGoOn_of_isSome {s : Session} {call : Nat}
    (h : (s.outcomeOf call).isSome = true) : ¬ s.CanGoOn call := by
  rintro ⟨c, hc, -⟩
  rw [outcomeOf_of_unsettled hc] at h
  cases h

/-- A call that has been polled does not oversleep. -/
theorem poll_not_oversleeps {s : Session} (h : s.InOrder) (hd : 1 ≤ s.depth) (call : Nat) :
    ¬ (s.poll call).Oversleeps call := by
  intro hover
  obtain ⟨⟨c, hc, hgo⟩, -⟩ := (poll_onward h call).oversleeps call hover
  have hends (outcome : Outcome) (himm : s.immediate? c = some outcome) : False :=
    not_canGoOn_of_isSome (by rw [poll_immediate hd hc himm]; rfl) hover.1
  cases hw : c.work with
  | ready outcome => exact hends outcome (by rw [immediate?, hw])
  | gate gate =>
    rw [hw] at hgo
    obtain ⟨outcome, ho⟩ := Option.isSome_iff_exists.mp hgo
    exact hends outcome (by rw [immediate?, hw]; exact ho)
  | exchange e =>
    rcases poll_exchange hd hc hw with hended | ⟨c', outcome, hc', hw'⟩
    · exact not_canGoOn_of_isSome hended hover.1
    · obtain ⟨c1, hc1, hgo1⟩ := hover.1
      obtain rfl := Option.some.inj (hc'.symm.trans hc1)
      rw [hw'] at hgo1
      exact hgo1
  | answered => rw [hw] at hgo; exact hgo
  | collecting g =>
    rw [poll_unsettled hd hc, hw] at hover
    exact pollTargets_not_oversleeps
      (pollWithin_moves (s.depth - 1))
      (pollWithin_onward _) (fun _ _ => pollWithin_settled _) h hc hw hover
  | aggregate site ids request =>
    cases hresolve : (s.resolve site ids).1 with
    | error e =>
      rw [poll_unsettled hd hc, hw, advance, resolve_error hresolve] at hover
      exact not_canGoOn_of_isSome (settle_isSome (unsettled?_eq_some.mp hc).1 _) hover.1
    | ok operations =>
      have hfan := resolve_fanOut_inOrder h hc hw hresolve
      have hopen : (s.resolve site ids).2.unsettled? call = some c := by
        rwa [unsettled?, resolve_calls]
      obtain ⟨c', hc', hw'⟩ := fanOut_self request operations hopen
      rw [poll_found hd hc hw hresolve] at hover
      exact pollTargets_not_oversleeps
        (pollWithin_moves (s.depth - 1))
        (pollWithin_onward _) (fun _ _ => pollWithin_settled _) hfan hc' hw' hover

end OperationTree.Session
