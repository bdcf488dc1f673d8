import OperationTree.Proofs.Session.Gates
import OperationTree.Proofs.Session.Wakeful

/-! Sessions in which no call oversleeps.  Whatever is done to a session, every call that can go on
has been roused: its task is queued if there is a scheduler, and its place is due in every drain of
many calls.  Polls of calls keep that; what is left are the polls of drains, which take places from
those that are due, the scheduler, which takes tasks from its queue, and the world outside, which
settles gates and gives answers. -/

namespace OperationTree.Session

open Relation

/-- Every call that can go on has been roused. -/
structure Alert (s : Session) : Prop where
  inOrder : s.InOrder
  wired : Wired ([], s)
  gated : s.Gated
  awake : ∀ call, ¬ s.Oversleeps call

theorem initial_alert (hasScheduler : Bool) (outside : Outside) :
    (initial hasScheduler outside).Alert where
  inOrder :=
    { sited := initial_sited hasScheduler outside
      spawned := fun _ _ hk => absurd hk (Nat.not_lt_zero _)
      announced := fun drain g _ _ hg => by simp [gathering?, initial] at hg
      wired := ⟨[], Strand.Wired.initial⟩ }
  wired := Strand.Wired.initial
  gated := initial_gated hasScheduler outside
  awake call := by
    rintro ⟨⟨c, hc, -⟩, -⟩
    simp [unsettled?, initial] at hc

namespace Alert

variable {s t : Session}

theorem roused (h : s.Alert) {call : Nat} (hgo : s.CanGoOn call) : s.Roused call := by
  by_contra hsleeps
  exact h.awake call ⟨hgo, hsleeps⟩

theorem of_deeds (h : s.Alert) (hd : s.AnyDeeds t) (ha : t.Announced)
    (hawake : ∀ call, ¬ t.Oversleeps call) : t.Alert := by
  have hkept : t.Spawned ∧ Wired ([], t) ∧ t.Gated := by
    refine Deeds.preserves (P := fun x => x.2.Spawned ∧ Wired x ∧ x.2.Gated)
      (fun x y hs deed hx => ?_) (hd []) h.inOrder.sited ⟨h.inOrder.spawned, h.wired, h.gated⟩
    exact ⟨deed.spawned hs hx.1, deed.wired hx.2.1, hx.2.2.deed deed hs⟩
  exact ⟨⟨hd.sited h.inOrder.sited, hkept.1, ha, [], hkept.2.1⟩, hkept.2.1, hkept.2.2, hawake⟩

theorem of_roused (h : s.Alert) (hd : s.AnyDeeds t) (ha : t.Announced)
    (hr : ∀ call, t.CanGoOn call → t.Roused call) : t.Alert :=
  h.of_deeds hd ha fun call hover => hover.2 (hr call hover.1)

theorem of_onward (h : s.Alert) (hd : s.AnyDeeds t) (ho : s.Onward t) : t.Alert :=
  h.of_deeds hd (ho.steps.announced h.inOrder.announced) fun call hc =>
    h.awake call (ho.oversleeps call hc)

/-- Calls do not change, more may be queued, and drains may cease to wait. -/
theorem of_aside (h : s.Alert) (hd : s.AnyDeeds t) (hcalls : t.calls = s.calls)
    (hgates : t.gates = s.gates) (htasks : s.KeepsTasks t) (hqueue : s.queue <+: t.queue)
    (hdrains : ∀ drain g, t.gathering? (.drain drain) = some g →
      s.gathering? (.drain drain) = some g) : t.Alert := by
  refine h.of_roused hd (fun drain g place call hg hp => ?_) fun call hgo => ?_
  · obtain ⟨c, hc, hmem⟩ := h.inOrder.announced drain g place call (hdrains drain g hg) hp
    exact ⟨c, hcalls ▸ hc, hmem⟩
  · have hr := h.roused (canGoOn_of_calls hcalls hgates hgo)
    exact ⟨fun hs => (hr.queued (htasks.hasScheduler ▸ hs)).later htasks hqueue,
      fun drain g place hg => hr.due drain g place (hdrains drain g hg)⟩

end Alert

/-! ### The world outside -/

theorem gateOf?_of_waitsAt {s : Session} {call gate : Nat} {c : Call}
    (hc : s.calls[call]? = some c) (hw : waitsAt gate c = true) : s.gateOf? call = some gate := by
  rw [gateOf?, hc, Option.bind_some, Call.gate?]
  unfold waitsAt at hw
  split at hw
  · simpa using hw
  · cases hw

/-- What can go on when a gate has settled could do so before, or waits for the gate. -/
theorem canGoOn_settled {s : Session} {gate : Nat} {outcome : Outcome} {call : Nat}
    (h : CanGoOn { s with gates := s.gates.set gate (some outcome) } call) :
    s.CanGoOn call ∨ ∃ c, s.calls[call]? = some c ∧ waitsAt gate c = true := by
  obtain ⟨c, hc, hgo⟩ := h
  obtain ⟨hget, hopen⟩ := unsettled?_eq_some.mp hc
  cases hw : c.work with
  | gate other =>
    by_cases hother : other = gate
    · refine .inr ⟨c, hget, ?_⟩
      obtain ⟨_, _, _, _, _, _⟩ := c
      obtain rfl := hw
      obtain rfl := hopen
      simpa [waitsAt] using hother
    · refine .inl ⟨c, hc, ?_⟩
      rw [hw] at hgo ⊢
      simpa [GoesOn, gateOutcome, List.getElem?_set_ne (Ne.symm hother)] using hgo
  | collecting g =>
    refine .inl ⟨c, hc, ?_⟩
    have hsame : progressFrom { s with gates := s.gates.set gate (some outcome) } g.taken 0
        g.futures = s.progressFrom g.taken 0 g.futures :=
      progressFrom_congr fun _ _ _ _ => rfl
    rw [hw, GoesOn, HasNews, hsame] at hgo
    rwa [hw]
  | _ => rw [hw] at hgo; exact .inl ⟨c, hc, by rw [hw]; exact hgo⟩

/-- The call that is woken when a gate has settled is the one that waits for it. -/
theorem settleGate_alert {s : Session} (h : s.Alert) (gate : Nat) (outcome : Outcome) :
    (s.settleGate gate outcome).Alert := by
  have hdeeds : s.AnyDeeds (s.settleGate gate outcome) := fun hand =>
    settleGate_deeds _ hand s gate outcome
  revert hdeeds
  rw [settleGate]
  split
  · intro hdeeds
    dsimp only at hdeeds ⊢
    have hold (call : Nat) (hgo : s.CanGoOn call) :
        Roused { s with gates := s.gates.set gate (some outcome) } call :=
      ⟨(h.roused hgo).queued, (h.roused hgo).due⟩
    cases hfind : s.calls.findIdx? (waitsAt gate) with
    | none =>
      rw [hfind] at hdeeds
      refine h.of_roused hdeeds h.inOrder.announced fun call hgo => ?_
      rcases canGoOn_settled hgo with hgo | ⟨c, hget, hwaits⟩
      · exact hold call hgo
      · have hnone := List.findIdx?_eq_none_iff.mp hfind c (List.mem_of_getElem? hget)
        rw [hnone] at hwaits
        cases hwaits
    | some first =>
      rw [hfind] at hdeeds
      have hwake := wake_rouses { s with gates := s.gates.set gate (some outcome) } (.call first)
      obtain ⟨hlt, hfirst, -⟩ := List.findIdx?_eq_some_iff_getElem.mp hfind
      have hlinked : Linked { s with gates := s.gates.set gate (some outcome) } :=
        ⟨h.inOrder.spawned, h.inOrder.announced, h.inOrder.linked.ordered⟩
      refine h.of_roused hdeeds (hwake.announced h.inOrder.announced) fun call hgo => ?_
      rcases wake_canGoOn hlinked hgo with hgo | hr
      · rcases canGoOn_settled hgo with hgo | ⟨c, hget, hwaits⟩
        · exact hwake.roused (hold call hgo)
        · obtain rfl := h.gated.single call first gate (gateOf?_of_waitsAt hget hwaits)
            (gateOf?_of_waitsAt (List.getElem?_eq_getElem hlt) hfirst)
          exact wake_roused hlinked hlt
      · exact hr
  · exact fun _ => h

theorem work_of_answer? {c : Call} {outcome : Outcome} (h : answer? c = some outcome) :
    c.work = .answered outcome := by
  rw [answer?] at h
  split at h
  · next heq => rw [heq, Option.some.inj h]
  · cases h

theorem arrive_alert {s : Session} (h : s.Alert) (call : Nat) : (s.arrive call).Alert := by
  have hdeeds : s.AnyDeeds (s.arrive call) := fun hand => arrive_deeds _ hand s call
  revert hdeeds
  rw [arrive]
  split
  · exact fun _ => h
  · next outcome hanswer =>
    intro hdeeds
    obtain ⟨c, hc, hanswer⟩ := Option.bind_eq_some_iff.mp hanswer
    have hwake := wake_rouses (s.setWork call (.ready outcome)) (.call call)
    have hlength : (s.setWork call (.ready outcome)).calls.length = s.calls.length :=
      List.length_modify _ _ _
    have hspawned : (s.setWork call (.ready outcome)).Spawned :=
      h.inOrder.spawned.of_length hlength (.of_eq rfl rfl)
    have hannounced : (s.setWork call (.ready outcome)).Announced :=
      h.inOrder.announced.of_waiters
        (.of_modify (f := fun c => { c with work := .ready outcome }) rfl
          fun _ => List.Subset.refl _) fun _ g hg => ⟨g, hg, rfl⟩
    have hwork := work_of_answer? hanswer
    have hlinked : (s.setWork call (.ready outcome)).Linked := by
      refine ⟨hspawned, hannounced, ordered_of_strand fun k other place hmem => ?_⟩
      rw [strand_setWork hc rfl (by rw [hwork]; rfl)] at hmem
      exact h.wired.ordered k other place hmem
    refine h.of_roused hdeeds (hwake.announced hannounced) fun other hgo => ?_
    rcases wake_canGoOn hlinked hgo with hgo | hr
    · rcases canGoOn_setWork_cases hgo with ⟨rfl, -⟩ | hold
      · exact wake_roused hlinked (hlength ▸ lt_of_unsettled hc)
      · exact hwake.roused ((h.roused hold).mono (.of_eq rfl rfl) List.prefix_rfl (.of_eq rfl))
    · exact hr

/-! ### Drains -/

theorem Attained.entry_lt {s : Session} (h : s.Attained) {n : Nat} {entry : Nat × Nat}
    (hmem : entry ∈ (s.tracker n).entries) : entry.2 < s.calls.length := by
  have hbounded : s.ledger.IsBounded :=
    h.invariant (P := fun s => s.ledger.IsBounded) (fun _ _ t ht => by cases ht)
      fun _ _ _ step hb => step.ledger.elim (fun heq => heq ▸ hb) fun hl => hl.isBounded hb
  rw [Session.tracker, List.getD_eq_getElem?_getD] at hmem
  cases ht : s.trackers[n]? with
  | none => simp [ht] at hmem
  | some t =>
    rw [ht] at hmem
    simpa [Session.ledger] using hbounded t (List.mem_of_getElem? ht) entry hmem

theorem watch_tells (waiter : Waiter) (place : Nat) (s : Session) {futures : List Future}
    {i call : Nat} (hi : futures[i]? = some (.call call)) (hcall : call < s.calls.length) :
    ∃ c : Call, (watch waiter place s futures).calls[call]? = some c ∧
      (waiter, place + i) ∈ c.waiters := by
  induction futures generalizing place s i with
  | nil => cases hi
  | cons future rest ih =>
    cases i with
    | zero =>
      obtain rfl := Option.some.inj hi
      obtain ⟨c, hc, hsub⟩ := (watch_steps waiter (place + 1)
        (s.addWaiter call (waiter, place)) rest).keepsWaiters call
          { s.calls[call] with waiters := s.calls[call].waiters ++ [(waiter, place)] }
          (by simp [addWaiter, hcall])
      exact ⟨c, hc, hsub (List.mem_append_right _ (List.mem_singleton.mpr rfl))⟩
    | succ i =>
      have hplace : place + (i + 1) = place + 1 + i := by omega
      rw [hplace]
      cases future with
      | settled => exact ih (place + 1) s hi hcall
      | call n =>
        exact ih (place + 1) (s.addWaiter n (waiter, place)) hi (by simpa [addWaiter] using hcall)

/-- A drain that begins to wait tells all its calls, and at first all of them are due. -/
theorem beginDrain_alert {s : Session} (h : s.Alert) (hatt : s.Attained) {drain n : Nat}
    (hd : s.drains[drain]? = some (.fresh n)) :
    (s.gather (.drain drain) ((s.tracker n).calls.map .call)).Alert := by
  have hlt := (List.getElem?_eq_some_iff.mp hd).1
  let futures : List Future := (s.tracker n).calls.map .call
  have hwatch := watch_onward (.drain drain) 0 (s.setGathering { futures } (.drain drain)) futures
  have hset : (s.setGathering { futures } (.drain drain)).gathering? (.drain drain) =
      some { futures } :=
    gathering?_drain.mpr (List.getElem?_set_self hlt)
  have hdrains (other : Nat) (g : Gathering)
      (hg : (s.gather (.drain drain) futures).gathering? (.drain other) = some g) :
      (other = drain ∧ ∃ more, g = { futures, due := List.range futures.length ++ more }) ∨
        (other ≠ drain ∧ ∃ g0 more, s.gathering? (.drain other) = some g0 ∧
          g = { g0 with due := g0.due ++ more }) := by
    obtain ⟨g0, more, hg0, rfl⟩ := hwatch.drains.back hg
    by_cases hother : other = drain
    · subst hother
      obtain rfl := Option.some.inj (hset.symm.trans hg0)
      exact .inl ⟨rfl, more, rfl⟩
    · rw [gathering?_setGathering_ne (Ne.symm hother)] at hg0
      exact .inr ⟨hother, g0, more, hg0, rfl⟩
  refine h.of_deeds (fun hand => beginDrain_deeds _ hand hd) (fun other g place call hg hp => ?_)
    fun call hover => ?_
  · rcases hdrains other g hg with ⟨rfl, more, rfl⟩ | ⟨-, g0, more, hg0, rfl⟩
    · have hmem := List.mem_of_getElem? hp
      simp only [futures, Tracker.calls, List.map_map, List.mem_map] at hmem
      obtain ⟨entry, hentry, heq⟩ := hmem
      obtain rfl : entry.2 = call := Future.call.inj heq
      have htold := watch_tells (.drain other) 0 (s.setGathering { futures } (.drain other)) hp
        (hatt.entry_lt hentry)
      rwa [Nat.zero_add] at htold
    · obtain ⟨c, hc, hmem⟩ := h.inOrder.announced other g0 place call hg0 hp
      obtain ⟨c', hc', hsub⟩ := hwatch.steps.keepsWaiters call c hc
      exact ⟨c', hc', hsub hmem⟩
  · have hr := h.roused (canGoOn_of_calls (s := s) (t := s.setGathering { futures } (.drain drain))
      rfl rfl (hwatch.oversleeps call hover).1)
    have hkept := hwatch.steps.steps.tasks
    have htasks : s.KeepsTasks (s.gather (.drain drain) futures) :=
      ⟨hkept.hasScheduler, hkept.tasks⟩
    refine hover.2 ⟨fun hs => (hr.queued (htasks.hasScheduler ▸ hs)).later htasks hwatch.queue,
      fun other g place hg hw hp => ?_⟩
    rcases hdrains other g hg with ⟨rfl, more, rfl⟩ | ⟨-, g0, more, hg0, rfl⟩
    · refine accepts_eq_false.mpr (.inl (List.mem_append_left _ (List.mem_range.mpr ?_)))
      exact (List.getElem?_eq_some_iff.mp hp).1
    · exact accepts_extend (hr.due other g0 place hg0 hw hp) more

/-- A drain may take places of other calls from those that are due. -/
theorem regather_oversleeps {s : Session} {drain : Nat} {g : Gathering} (g' : Gathering)
    (hg : s.gathering? (.drain drain) = some g) (hf : g'.futures = g.futures) {call : Nat}
    (hkeep : ∀ place : Nat, g.futures[place]? = some (.call call) → g.accepts place = false →
      g'.accepts place = false)
    (h : (s.setGathering g' (.drain drain)).Oversleeps call) : s.Oversleeps call := by
  obtain ⟨hgo, hnot⟩ := h
  have hgo' := canGoOn_of_calls (s := s) (t := s.setGathering g' (.drain drain)) rfl rfl hgo
  refine ⟨hgo', fun hr => hnot ⟨hr.queued, fun other g1 place hg1 hw hp => ?_⟩⟩
  by_cases hother : drain = other
  · subst hother
    obtain rfl := Option.some.inj ((gathering?_setGathering g' hg).symm.trans hg1)
    rw [hf] at hp
    exact hkeep place hp (hr.due drain g place hg (by rwa [Gathering.isWide, ← hf]) hp)
  · rw [gathering?_setGathering_ne hother] at hg1
    exact hr.due other g1 place hg1 hw hp

theorem take_watchful {s : Session} {drain : Nat} {g : Gathering} (place : Nat)
    (hg : s.gathering? (.drain drain) = some g) :
    s.Watchful (s.setGathering (g.take place) (.drain drain)) :=
  ⟨List.prefix_rfl, fun _ => regather_oversleeps (g.take place) hg rfl fun _ _ ha =>
    accepts_eq_false.mpr ((accepts_eq_false.mp ha).imp_right (List.mem_cons_of_mem _))⟩

/-- What is popped may be the place of nobody, or one that has been taken. -/
theorem pop_oversleeps {s : Session} {drain place : Nat} {g : Gathering} {due : List Nat}
    (hg : s.gathering? (.drain drain) = some g) (hdue : g.due = place :: due) {call : Nat}
    (hvoid : g.futures[place]? = some (.call call) → place ∈ g.taken)
    (h : (s.setGathering { g with due } (.drain drain)).Oversleeps call) : s.Oversleeps call := by
  refine regather_oversleeps { g with due } hg rfl (fun p hp ha => accepts_eq_false.mpr ?_) h
  rw [accepts_eq_false, hdue, List.mem_cons] at ha
  by_cases heq : p = place
  · exact .inr (heq ▸ hvoid (heq ▸ hp))
  · exact ha.imp_left fun hor => hor.resolve_left heq

theorem polled_depth {s s1 : Session} (h : s.InOrder) {waiter : Waiter} {g : Gathering}
    {place : Nat} {due : List Nat} {future : Future} (hg : s.gathering? waiter = some g)
    (hdue : g.due = place :: due)
    (hpoll : s1 = pollFuture poll (s.setGathering { g with due } waiter) future) :
    s1.depth = (s.setGathering { g with due } waiter).depth :=
  hpoll ▸ (pollFuture_steps (pop_inOrder h hg hdue).sited future).undisturbed.depth

/-- The call of a place that is popped does not oversleep when it has been polled. -/
theorem polled_watchful {s s1 : Session} (h : s.InOrder) (hd : 1 ≤ s.depth) {drain place : Nat}
    {g : Gathering} {due : List Nat} {future : Future} (hg : s.gathering? (.drain drain) = some g)
    (hdue : g.due = place :: due) (hfuture : g.futures[place]? = some future)
    (hpoll : s1 = pollFuture poll (s.setGathering { g with due } (.drain drain)) future) :
    s.Watchful s1 := by
  subst hpoll
  have h1 := pop_inOrder h hg hdue
  have honward := pollFuture_onward poll_onward h1 future
  refine ⟨honward.queue, fun call hover => ?_⟩
  refine pop_oversleeps hg hdue (fun hp => ?_) (honward.oversleeps call hover)
  obtain rfl := Option.some.inj (hfuture.symm.trans hp)
  exact absurd hover (poll_not_oversleeps h1 hd call)

/-- A drain of many calls polls those whose places it takes. -/
theorem DueRun.watchful {isOver : Session → Gathering → Bool} {drain n : Nat} {s t : Session}
    (h : DueRun Session.poll isOver (.drain drain) n s t) (hs : s.InOrder) (hd : 1 ≤ s.depth) :
    s.Watchful t := by
  induction h with
  | idle | stop => exact (Onward.refl _).watchful
  | yield s => exact (wake_onward hs.linked _).watchful
  | @pass _ s _ g _ due hg hdue hvoid _ ih =>
    have hpass : s.Watchful (s.setGathering { g with due } (.drain drain)) :=
      ⟨List.prefix_rfl, fun _ => pop_oversleeps hg hdue (hvoid _)⟩
    exact hpass.trans (ih (pop_inOrder hs hg hdue) hd)
  | poll hg hdue hfuture _ hpoll _ _ ih =>
    have hpolled := polled_watchful hs hd hg hdue hfuture hpoll
    have hdepth := polled_depth hs hg hdue hpoll
    exact hpolled.trans (ih (hs.polled poll_moves hg hdue hpoll) (hdepth ▸ hd))
  | take hg hdue hfuture _ hpoll hg' hresult _ ih =>
    have hpolled := polled_watchful hs hd hg hdue hfuture hpoll
    have hdepth := polled_depth hs hg hdue hpoll
    exact (hpolled.trans (take_watchful _ hg')).trans
      (ih (hs.took poll_moves hg hdue hfuture hpoll hg' hresult) (hdepth ▸ hd))

theorem foldl_pollFuture_onward {s : Session} (h : s.InOrder) (futures : List Future) :
    s.Onward (futures.foldl (pollFuture poll) s) := by
  induction futures generalizing s with
  | nil => exact .refl s
  | cons future rest ih =>
    exact (pollFuture_onward poll_onward h future).trans
      (ih (pollFuture_inOrder poll_moves h future))

theorem pollCalls_watchful {s : Session} (h : s.InOrder) (hd : 1 ≤ s.depth) (drain : Nat)
    (g : Gathering) : s.Watchful (s.pollCalls drain g) := by
  rw [pollCalls]
  split
  · obtain ⟨n, hrun⟩ := pollDue_run poll (fun _ _ => false) (.drain drain) g.pollBound 0 0 s
    exact hrun.watchful h hd
  · exact (foldl_pollFuture_onward h g.futures).watchful

theorem pollCalls_anyDeeds {s : Session} (hs : s.Sited) (drain : Nat) (g : Gathering) :
    s.AnyDeeds (s.pollCalls drain g) :=
  .of_moves fun hand => pollCalls_moves hand hs drain g

theorem endDrain_anyDeeds {s : Session} (hs : s.Sited) {drain : Nat} {g : Gathering}
    (hg : s.gathering? (.drain drain) = some g) :
    (s.pollCalls drain g).AnyDeeds ((s.pollCalls drain g).endDrain drain g.futures) := by
  obtain ⟨g', hg', hf⟩ := (pollCalls_steps hs drain g).undisturbed.waiting (gathering?_drain.mp hg)
  exact fun hand => hf ▸ endDrain_deeds _ hand hg'

theorem pollCalls_alert {s : Session} (h : s.Alert) (hd : 1 ≤ s.depth) (drain : Nat)
    (g : Gathering) : (s.pollCalls drain g).Alert :=
  h.of_deeds (pollCalls_anyDeeds h.inOrder.sited drain g)
    ((pollCalls_steps h.inOrder.sited drain g).announced h.inOrder.announced) fun call hover =>
      h.awake call ((pollCalls_watchful h.inOrder hd drain g).oversleeps call hover)

theorem gathering?_setDrain_finished {s : Session} {drain other : Nat}
    {failure : Option CallError} {g : Gathering}
    (hg : (s.setDrain drain (.finished failure)).gathering? (.drain other) = some g) :
    s.gathering? (.drain other) = some g := by
  rw [gathering?_drain, setDrain, List.getElem?_set] at hg
  split at hg
  · split at hg
    · cases hg
    · cases hg
  · exact gathering?_drain.mpr hg

theorem pollGathered_alert {s : Session} (h : s.Alert) (hd : 1 ≤ s.depth) (drain : Nat) :
    (s.pollGathered drain).Alert := by
  rw [pollGathered]
  split
  · exact h
  · next g hg =>
    have hcalls := pollCalls_alert h hd drain g
    have hend := endDrain_anyDeeds h.inOrder.sited hg
    rw [endDrain] at hend ⊢
    split
    · next hall =>
      rw [if_pos hall] at hend
      exact hcalls.of_aside hend rfl rfl (.of_eq rfl rfl) List.prefix_rfl
        fun _ _ => gathering?_setDrain_finished
    · exact hcalls

theorem pollDrain_alert {s : Session} (h : s.Alert) (hatt : s.Attained) (drain : Nat) :
    (s.pollDrain drain).Alert := by
  rw [pollDrain]
  split
  · next n hd =>
    have hgather := gather_watch_steps s (.drain drain) ((s.tracker n).calls.map .call)
    exact pollGathered_alert (beginDrain_alert h hatt hd)
      (hgather.undisturbed.depth ▸ hatt.depth_pos) drain
  · exact pollGathered_alert h hatt.depth_pos drain
  · exact h

/-! ### Shutdowns -/

theorem pollFresh_alert {s : Session} (h : s.Alert) (number : Nat) :
    (s.pollFresh number).Alert := by
  have hdeeds : s.AnyDeeds (s.pollFresh number) := (pollFresh_aside s number).deeds
  revert hdeeds
  rw [pollFresh]
  split
  · rw [beginShutdown]
    split
    · exact fun hdeeds =>
        h.of_aside hdeeds rfl rfl (.of_eq rfl rfl) List.prefix_rfl fun _ _ hg => hg
    · exact fun hdeeds => h.of_aside hdeeds rfl rfl (.of_eq rfl rfl) List.prefix_rfl
        fun _ _ hg => gathering?_append_fresh rfl hg
  · exact fun _ => h

theorem pollDraining_alert {s : Session} (h : s.Alert) (hatt : s.Attained) (number : Nat) :
    (s.pollDraining number).Alert := by
  rw [pollDraining]
  split
  · next drain _ hn =>
    have hdrain := pollDrain_alert h hatt drain
    dsimp only
    split
    · next he =>
      refine hdrain.of_aside (s := s.pollDrain drain) (fun hand => ?_) rfl rfl (.of_eq rfl rfl)
        List.prefix_rfl fun _ _ hg => hg
      exact .single (closeAll_deed _ hand h.inOrder.sited hn rfl he)
    · exact hdrain
  · exact h

theorem pollClosing_alert {s : Session} (h : s.Alert) (number : Nat) :
    (s.pollClosing number).Alert := by
  have hdeeds : s.AnyDeeds (s.pollClosing number) := (pollClosing_aside s number).deeds
  revert hdeeds
  rw [pollClosing]
  split
  · split
    · exact fun hdeeds =>
        h.of_aside hdeeds rfl rfl (.of_eq rfl rfl) List.prefix_rfl fun _ _ hg => hg
    · exact fun _ => h
  · exact fun _ => h

theorem pollShutdown_alert {s : Session} (h : s.Alert) (hatt : s.Attained) (number : Nat) :
    (s.pollShutdown number).Alert := by
  have hfresh := pollFresh_alert h number
  have hatt' := hatt.steps (pollFresh_steps s number)
  exact pollClosing_alert (pollDraining_alert hfresh hatt' number) number

/-! ### The scheduler -/

/-- When a task has been taken from the queue, only the call that it polls may oversleep. -/
theorem dequeue_oversleeps {s : Session} (h : s.Alert) {task : Nat} {queue : List Nat}
    (hq : s.queue = task :: queue) {call : Nat} (hover : Oversleeps { s with queue } call) :
    s.tasks[task]? = some (.call call) := by
  obtain ⟨hgo, hnot⟩ := hover
  have hr := h.roused (canGoOn_of_calls (s := s) (t := { s with queue }) rfl rfl hgo)
  by_contra hother
  refine hnot ⟨fun hscheduler => ?_, hr.due⟩
  obtain ⟨other, hmem, htask⟩ := hr.queued hscheduler
  rw [hq, List.mem_cons] at hmem
  rcases hmem with rfl | hmem
  · exact absurd htask hother
  · exact ⟨other, hmem, htask⟩

theorem dequeue_inOrder {s : Session} (h : s.InOrder) (queue : List Nat) :
    InOrder { s with queue } :=
  h.moves fun hand => ⟨hand, .single (.nudge (.queue hand s queue))⟩

/-- Unless the task that has been taken polls a call, no call oversleeps. -/
theorem dequeue_alert {s : Session} (h : s.Alert) {task : Nat} {queue : List Nat}
    (hq : s.queue = task :: queue) (hnone : ∀ call, s.tasks[task]? ≠ some (.call call)) :
    Alert { s with queue } :=
  h.of_deeds (fun hand => .single (.move (.nudge (.queue hand s queue)))) h.inOrder.announced
    fun call hover => hnone call (dequeue_oversleeps h hq hover)

theorem dequeue_attained {s : Session} (h : s.Attained) (queue : List Nat) :
    Attained { s with queue } :=
  h.steps (.single (.call (.queue s queue)))

theorem runNext_alert {s : Session} (h : s.Alert) (hatt : s.Attained) : (s.runFirst 1).Alert := by
  rw [runFirst]
  split
  · exact h
  · next task queue hq =>
    have hatt' := dequeue_attained hatt queue
    rw [runFirst, runTask]
    dsimp only
    split
    · next htask => exact dequeue_alert h hq fun call hc => by cases htask.symm.trans hc
    · next call htask =>
      have hinOrder := dequeue_inOrder h.inOrder queue
      refine h.of_deeds (fun hand => .head (.move (.nudge (.queue hand s queue)))
        (poll_moves hand hatt'.sited call).deeds) (poll_inOrder hinOrder call).announced
        fun other hover => ?_
      have hpolls := dequeue_oversleeps h hq ((poll_onward hinOrder call).oversleeps other hover)
      obtain rfl := Task.call.inj (Option.some.inj (htask.symm.trans hpolls))
      exact poll_not_oversleeps hinOrder hatt'.depth_pos call hover
    · next htask =>
      exact pollDrain_alert (dequeue_alert h hq fun call hc => by cases htask.symm.trans hc) hatt' _
    · next htask =>
      exact pollShutdown_alert (dequeue_alert h hq fun call hc => by cases htask.symm.trans hc)
        hatt' _

/-! ### Actions -/

theorem perform_alert {s : Session} (h : s.Alert) (hatt : s.Attained) (action : Action) :
    (s.perform action).Alert := by
  have hdeeds : s.AnyDeeds (s.perform action) := fun hand =>
    perform_deeds _ hand h.inOrder.sited trivial
  cases action with
  | addTracker | dropTree | change | dropShutdown =>
    exact h.of_aside hdeeds rfl rfl (.of_eq rfl rfl) List.prefix_rfl fun _ _ hg => hg
  | discardTracker tracker =>
    rw [perform, discardTracker] at hdeeds ⊢
    split
    · exact h
    · next hu =>
      rw [if_neg hu] at hdeeds
      exact h.of_aside hdeeds rfl rfl (.of_eq rfl rfl) List.prefix_rfl fun _ _ hg => hg
  | addTree | addShutdown =>
    rw [perform] at hdeeds ⊢
    split
    · next hp =>
      rw [if_pos hp] at hdeeds
      exact h.of_aside hdeeds rfl rfl (.of_eq rfl rfl) List.prefix_rfl fun _ _ hg => hg
    · exact h
  | addDrain =>
    exact h.of_aside hdeeds rfl rfl (.of_eq rfl rfl) List.prefix_rfl
      fun _ _ hg => gathering?_append_fresh rfl hg
  | spawn task =>
    exact h.of_aside hdeeds rfl rfl ⟨rfl, List.prefix_append _ _⟩ (List.prefix_append _ _)
      fun _ _ hg => hg
  | endClosing number =>
    rw [perform, endClosing] at hdeeds ⊢
    split
    · exact h
    · next hc =>
      rw [hc] at hdeeds
      exact h.of_aside hdeeds rfl rfl (.of_eq rfl rfl) (List.prefix_append _ _) fun _ _ hg => hg
  | start tracker job =>
    rw [perform] at hdeeds ⊢
    split
    · next ht =>
      rw [if_pos ht] at hdeeds
      exact h.of_onward hdeeds (start_onward h.inOrder.announced job ht)
    · exact h
  | invoke tree path request =>
    rw [perform] at hdeeds ⊢
    split
    · exact h
    · next o ho =>
      rw [ho] at hdeeds
      obtain ⟨t, ht, hpath⟩ := Option.bind_eq_some_iff.mp ho
      have hoffers : s.Offers o := .inl ⟨t, List.mem_of_getElem? ht, Node.operationAt?_mem hpath⟩
      exact h.of_onward hdeeds (invoke_onward h.inOrder.sited h.inOrder.announced request
        (hoffers.site_tree h.inOrder.sited))
  | poll call => exact h.of_onward hdeeds (poll_onward h.inOrder call)
  | release call => exact h.of_onward hdeeds (release_onward s call)
  | settleGate gate outcome => exact settleGate_alert h gate outcome
  | arrive call => exact arrive_alert h call
  | pollDrain drain => exact pollDrain_alert h hatt drain
  | pollShutdown number => exact pollShutdown_alert h hatt number
  | runNext => exact runNext_alert h hatt

/-- Whatever is done, every call that can go on has been roused. -/
theorem Reachable.alert {s : Session} (h : s.Reachable) : s.Alert := by
  obtain ⟨hasScheduler, outside, actions, rfl⟩ := h
  have hstart : (initial hasScheduler outside).Attained := ⟨hasScheduler, outside, .refl⟩
  induction actions using List.reverseRecOn with
  | nil => exact initial_alert hasScheduler outside
  | append_singleton before action ih =>
    rw [after_append]
    exact perform_alert ih (hstart.steps (after_steps hstart.sited before)) action

end OperationTree.Session
