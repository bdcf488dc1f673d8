import OperationTree.Proofs.Session.Evolution
import OperationTree.Proofs.Session.Rousing
import OperationTree.Proofs.Session.Settling

/-! No call oversleeps.  Whatever a poll makes possible it also announces: a call that can go on
after a poll has been roused, unless it could go on before without anybody knowing.  And the call
that is polled itself has gone on as far as it can. -/

namespace OperationTree

/-- What is left of a call for those who ask whether it can go on. -/
def Call.gist (c : Call) : Work × Option Outcome := (c.work, c.outcome)

namespace Session

open Relation

/-! ### Sessions in order -/

/-- The waiters of calls become more. -/
def KeepsWaiters (s s' : Session) : Prop :=
  ∀ (n : Nat) (c : Call), s.calls[n]? = some c →
    ∃ c', s'.calls[n]? = some c' ∧ c.waiters ⊆ c'.waiters

theorem KeepsWaiters.of_modify {s s' : Session} {n : Nat} {f : Call → Call}
    (h : s'.calls = s.calls.modify n f) (hf : ∀ c, c.waiters ⊆ (f c).waiters) :
    s.KeepsWaiters s' := by
  intro m c hc
  rw [h]
  exact exists_modified (R := fun c c' : Call => c.waiters ⊆ c'.waiters)
    (fun _ => List.Subset.refl _) (fun c _ => hf c) hc

theorem KeepsWaiters.of_extends {s s' : Session} (h : s.calls <+: s'.calls) :
    s.KeepsWaiters s' :=
  fun _ c hc => ⟨c, getElem?_of_extends h hc, List.Subset.refl _⟩

theorem CallStep.keepsWaiters {s s' : Session} (h : CallStep s s') : s.KeepsWaiters s' := by
  cases h with
  | queue | spawn | openGate | keep => exact .of_extends List.prefix_rfl
  | register => exact .of_extends (List.prefix_append _ _)
  | addWaiter call waiter =>
    exact .of_modify (f := fun c => { c with waiters := c.waiters ++ [waiter] }) rfl
      fun _ => List.subset_append_left _ _
  | release call =>
    exact .of_modify (f := fun c => { c with isHeld := false }) rfl fun _ => List.Subset.refl _
  | @regather waiter g g' hg =>
    cases waiter with
    | call n =>
      exact .of_modify (f := fun c => { c with work := .collecting g' }) rfl
        fun _ => List.Subset.refl _
    | drain => exact .of_extends List.prefix_rfl
    | shutdown => cases hg
  | collect targets =>
    exact .of_modify (f := fun c => { c with work := .collecting { futures := targets } }) rfl
      fun _ => List.Subset.refl _
  | @ask _ _ e =>
    exact .of_modify (f := fun c => { c with work := .answered (e.perform s.outside).1 }) rfl
      fun _ => List.Subset.refl _
  | @finish call c outcome hc =>
    obtain ⟨hget, -⟩ := unsettled?_eq_some.mp hc
    exact fun _ _ hc' => exists_replaced (R := fun c c' : Call => c.waiters ⊆ c'.waiters)
      (b := { c with outcome := some outcome }) (fun _ => List.Subset.refl _) hget
      (List.Subset.refl _) hc'

theorem CallSteps.keepsWaiters {s s' : Session} (h : CallSteps s s') : s.KeepsWaiters s' := by
  induction h with
  | refl => exact .of_extends List.prefix_rfl
  | tail _ step ih =>
    intro n c hc
    obtain ⟨c1, hc1, hsub⟩ := ih n c hc
    obtain ⟨c2, hc2, hsub'⟩ := step.keepsWaiters n c1 hc1
    exact ⟨c2, hc2, List.Subset.trans hsub hsub'⟩

theorem Undisturbed.waiting_back {s s' : Session} (h : s.Undisturbed s') {drain : Nat}
    {g' : Gathering} (hg : s'.gathering? (.drain drain) = some g') :
    ∃ g, s.gathering? (.drain drain) = some g ∧ g.futures = g'.futures := by
  rcases getElem?_cases h.drains drain with ⟨-, hnone⟩ | ⟨d, d', hd, hd', ho⟩
  · rw [gathering?_drain, hnone] at hg
    cases hg
  · obtain rfl := Option.some.inj (hd'.symm.trans (gathering?_drain.mp hg))
    obtain ⟨g, rfl, hf⟩ := Drain.eq_waiting ho.symm
    exact ⟨g, gathering?_drain.mpr hd, hf⟩

/-- Calls may hear of more who wait for them, as long as no drain waits for more calls. -/
theorem Announced.of_waiters {s s' : Session} (h : s.Announced) (hw : s.KeepsWaiters s')
    (hd : ∀ drain g', s'.gathering? (.drain drain) = some g' →
      ∃ g, s.gathering? (.drain drain) = some g ∧ g.futures = g'.futures) : s'.Announced := by
  intro drain g' place call hg hp
  obtain ⟨g, hold, hf⟩ := hd drain g' hg
  obtain ⟨c, hc, hmem⟩ := h drain g place call hold (hf ▸ hp)
  obtain ⟨c', hc', hsub⟩ := hw call c hc
  exact ⟨c', hc', hsub hmem⟩

theorem CallStep.announced {s s' : Session} (h : CallStep s s') (hs : s.Announced) :
    s'.Announced :=
  hs.of_waiters h.keepsWaiters fun _ _ hg => h.undisturbed.waiting_back hg

theorem CallSteps.announced {s s' : Session} (h : CallSteps s s') (hs : s.Announced) :
    s'.Announced := by
  induction h with
  | refl => exact hs
  | tail _ step ih => exact step.announced ih

/-- A session whose calls, tasks and drains know of each other. -/
structure InOrder (s : Session) : Prop where
  sited : s.Sited
  spawned : s.Spawned
  announced : s.Announced
  wired : ∃ hand, Wired (hand, s)

theorem ordered_of_strand {s : Session}
    (h : ∀ k other place, (other, place) ∈ (s.strand k).waiters → other < k)
    (k other place : Nat) (c : Call) (hc : s.calls[k]? = some c)
    (hmem : (.call other, place) ∈ c.waiters) : other < k := by
  refine h k other place ?_
  rw [strand_eq hc]
  exact List.mem_filterMap.mpr ⟨_, hmem, rfl⟩

theorem InOrder.linked {s : Session} (h : s.InOrder) : s.Linked := by
  obtain ⟨hand, hw⟩ := h.wired
  exact ⟨h.spawned, h.announced, ordered_of_strand hw.ordered⟩

/-- Moves keep a session in order, whatever they put into hands. -/
theorem InOrder.moves {s t : Session} (h : s.InOrder)
    (hm : ∀ hand, ∃ hand', Moves (hand, s) (hand', t)) : t.InOrder := by
  obtain ⟨hand, hw⟩ := h.wired
  obtain ⟨hand', hmoves⟩ := hm hand
  have hsteps := Moves.steps hmoves h.sited
  have hkept : t.Spawned ∧ Wired (hand', t) := by
    have hdeeds : Deeds (fun _ => True) (hand, s) (hand', t) := hmoves.deeds
    refine hdeeds.preserves (P := fun x => x.2.Spawned ∧ Wired x) (fun x y hs deed hx => ?_) h.sited
      ⟨h.spawned, hw⟩
    exact ⟨deed.spawned hs hx.1, deed.wired hx.2⟩
  exact ⟨hsteps.sited h.sited, hkept.1, hsteps.announced h.announced, hand', hkept.2⟩

/-! ### Going on and being roused -/

/-- A call could go on, and not everybody knows. -/
def Oversleeps (s : Session) (call : Nat) : Prop := s.CanGoOn call ∧ ¬ s.Roused call

/-- What polls do: the queue grows at its end, more becomes due, and no call begins to
oversleep. -/
structure Onward (s t : Session) : Prop where
  steps : CallSteps s t
  queue : s.queue <+: t.queue
  drains : s.DrainsExtend t
  oversleeps : ∀ call, t.Oversleeps call → s.Oversleeps call

namespace Onward

variable {s t u : Session}

theorem refl (s : Session) : s.Onward s :=
  ⟨.refl, List.prefix_rfl, .of_eq rfl, fun _ h => h⟩

theorem trans (h : s.Onward t) (h' : t.Onward u) : s.Onward u :=
  ⟨h.steps.trans h'.steps, h.queue.trans h'.queue, h.drains.trans h'.drains,
    fun call hc => h.oversleeps call (h'.oversleeps call hc)⟩

/-- What can go on could do so before, or has been roused. -/
theorem of_canGoOn (hsteps : CallSteps s t) (hq : s.queue <+: t.queue) (hd : s.DrainsExtend t)
    (hgo : ∀ call, t.CanGoOn call → s.CanGoOn call ∨ t.Roused call) : s.Onward t := by
  refine ⟨hsteps, hq, hd, fun call hover => ?_⟩
  refine ⟨(hgo call hover.1).resolve_right hover.2, fun hr => hover.2 ?_⟩
  exact hr.mono hsteps.steps.tasks hq hd

end Onward

/-- The queue grows at its end, and no call begins to oversleep. -/
structure Watchful (s t : Session) : Prop where
  queue : s.queue <+: t.queue
  oversleeps : ∀ call, t.Oversleeps call → s.Oversleeps call

theorem Onward.watchful {s t : Session} (h : s.Onward t) : s.Watchful t := ⟨h.queue, h.oversleeps⟩

theorem Watchful.trans {s t u : Session} (h : s.Watchful t) (h' : t.Watchful u) : s.Watchful u :=
  ⟨h.queue.trans h'.queue, fun call hc => h.oversleeps call (h'.oversleeps call hc)⟩

/-- What a poll of a call does as long as it lasts: of the call itself nothing is said. -/
structure OnwardBut (call : Nat) (s t : Session) : Prop where
  steps : CallSteps s t
  queue : s.queue <+: t.queue
  drains : s.DrainsExtend t
  oversleeps : ∀ other, other ≠ call → t.Oversleeps other → s.Oversleeps other

theorem Onward.but {s t : Session} (h : s.Onward t) (call : Nat) : OnwardBut call s t :=
  ⟨h.steps, h.queue, h.drains, fun other _ => h.oversleeps other⟩

theorem OnwardBut.trans {s t u : Session} {call : Nat} (h : OnwardBut call s t)
    (h' : OnwardBut call t u) : OnwardBut call s u :=
  ⟨h.steps.trans h'.steps, h.queue.trans h'.queue, h.drains.trans h'.drains,
    fun other hne ho => h.oversleeps other hne (h'.oversleeps other hne ho)⟩

theorem wake_onward {s : Session} (hs : s.Linked) (waiter : Waiter) :
    s.Onward (s.wake waiter) :=
  .of_canGoOn (wake_steps s waiter) (wake_rouses s waiter).queue (wake_rouses s waiter).drains
    fun _ => wake_canGoOn hs

section Gist

variable {s t : Session}

theorem outcomeOf_gist (h : t.calls.map Call.gist = s.calls.map Call.gist) (n : Nat) :
    t.outcomeOf n = s.outcomeOf n := by
  rw [outcomeOf, outcomeOf]
  rcases getElem?_cases h n with ⟨hs, ht⟩ | ⟨c, c', hs, ht, hgist⟩
  · rw [hs, ht]
  · rw [hs, ht]
    exact (Prod.mk.inj hgist).2

theorem result_of_outcomeOf (h : ∀ n, t.outcomeOf n = s.outcomeOf n) (future : Future) :
    t.result future = s.result future := by
  cases future with
  | settled => rfl
  | call n => exact h n

theorem canGoOn_gist (h : t.calls.map Call.gist = s.calls.map Call.gist)
    (hg : ∀ gate, t.gateOutcome gate = s.gateOutcome gate) {call : Nat} (hc : t.CanGoOn call) :
    s.CanGoOn call := by
  obtain ⟨c', hopen, hgo⟩ := hc
  obtain ⟨hget, hnone⟩ := unsettled?_eq_some.mp hopen
  rcases getElem?_cases h call with ⟨-, ht⟩ | ⟨c, c1, hs, ht, hgist⟩
  · cases ht.symm.trans hget
  · obtain rfl := Option.some.inj (ht.symm.trans hget)
    obtain ⟨hwork, houtcome⟩ := Prod.mk.inj hgist
    refine ⟨c, unsettled?_eq_some.mpr ⟨hs, houtcome.symm.trans hnone⟩, ?_⟩
    rw [← hwork]
    exact (goesOn_congr hg (result_of_outcomeOf (outcomeOf_gist h)) _).mp hgo

theorem canGoOn_of_calls (hc : t.calls = s.calls) (hg : t.gates = s.gates) {call : Nat}
    (h : t.CanGoOn call) : s.CanGoOn call :=
  canGoOn_gist (congrArg (List.map Call.gist) hc)
    (fun gate => by rw [gateOutcome, gateOutcome, hg]) h

end Gist

/-- When the work of a call changes, that call may go on with it, and others as before. -/
theorem canGoOn_setWork_cases {s : Session} {n : Nat} {work : Work} {call : Nat}
    (h : (s.setWork n work).CanGoOn call) : (call = n ∧ s.GoesOn work) ∨ s.CanGoOn call := by
  obtain ⟨c', hopen, hgo⟩ := h
  obtain ⟨hget, hnone⟩ := unsettled?_eq_some.mp hopen
  have houtcome (m : Nat) : (s.setWork n work).outcomeOf m = s.outcomeOf m := by
    rw [outcomeOf, outcomeOf, setWork, List.getElem?_modify]
    cases s.calls[m]? with
    | none => rfl
    | some c => by_cases hm : n = m <;> simp [hm]
  have hgates (gate : Nat) : (s.setWork n work).gateOutcome gate = s.gateOutcome gate := rfl
  replace hgo := (goesOn_congr hgates (result_of_outcomeOf houtcome) c'.work).mp hgo
  rcases getElem?_modify_eq_some hget with ⟨hn, old, -, rfl⟩ | ⟨-, hold⟩
  · exact .inl ⟨hn, hgo⟩
  · exact .inr ⟨c', unsettled?_eq_some.mpr ⟨hold, hnone⟩, hgo⟩

/-- The work of a call changes to work that goes on only if the old work did. -/
theorem canGoOn_setWork {s : Session} {n : Nat} {c : Call} {work : Work}
    (hc : s.unsettled? n = some c) (hwork : s.GoesOn work → s.GoesOn c.work) {call : Nat}
    (h : (s.setWork n work).CanGoOn call) : s.CanGoOn call := by
  rcases canGoOn_setWork_cases h with ⟨rfl, hgo⟩ | hold
  · exact ⟨c, hc, hwork hgo⟩
  · exact hold

/-- What becomes of the places of one call makes no other call go on. -/
theorem setGathering_onwardBut {s : Session} {call : Nat} {g : Gathering} (g' : Gathering)
    (hg : s.gathering? (.call call) = some g) (hf : g'.futures = g.futures) :
    OnwardBut call s (s.setGathering g' (.call call)) where
  steps := .single (.regather g' hg hf)
  queue := List.prefix_rfl
  drains := .of_eq rfl
  oversleeps _ hne hover :=
    ⟨(canGoOn_setWork_cases hover.1).resolve_left fun heq => hne heq.1,
      fun hr => hover.2 ⟨hr.queued, hr.due⟩⟩

/-! ### Ending calls -/

theorem finish_linked {s : Session} (h : s.InOrder) {call : Nat} {c : Call} (outcome : Outcome)
    (hc : s.unsettled? call = some c) : (s.finish call c outcome).Linked where
  spawned := h.spawned.of_length List.length_set (.of_eq rfl rfl)
  announced := (CallStep.finish outcome hc).announced h.announced
  ordered := by
    obtain ⟨hand, hw⟩ := h.wired
    refine ordered_of_strand fun k other place hmem => hw.ordered k other place ?_
    rwa [strand_finish hc outcome, Strand.ended_waiters] at hmem

theorem finish_unsettled? {s : Session} {call other : Nat} {c c' : Call} {outcome : Outcome}
    (hc : s.unsettled? call = some c)
    (h : (s.finish call c outcome).unsettled? other = some c') : s.unsettled? other = some c' := by
  obtain ⟨hget, hopen⟩ := unsettled?_eq_some.mp h
  have hne : other ≠ call := by
    rintro rfl
    have hended := Strand.ended_self s.strand other outcome
    rw [← strand_finish hc outcome, strand_eq hget] at hended
    cases hopen.symm.trans hended
  refine unsettled?_eq_some.mpr ⟨?_, hopen⟩
  rwa [finish, List.getElem?_set_ne hne.symm] at hget

theorem finish_result {s : Session} {call : Nat} {c : Call} {outcome : Outcome}
    (hc : s.unsettled? call = some c) {future : Future} (hf : future ≠ .call call) :
    (s.finish call c outcome).result future = s.result future := by
  rw [← strand_result, ← strand_result, strand_finish hc outcome]
  cases future with
  | settled => rfl
  | call n =>
    have hn : n ≠ call := fun heq => hf (congrArg Future.call heq)
    rw [Strand.result, Strand.result, Strand.ended_of_ne _ _ _ _ hn]

/-- The end of a call is no news to those who gather many: the results that have been taken were
there before. -/
theorem Wired.finish_hasNews {hand : Hand} {s : Session} (h : Wired (hand, s)) {call other : Nat}
    {c : Call} {outcome : Outcome} (hc : s.unsettled? call = some c) {g : Gathering}
    (hg : s.gathering? (.call other) = some g) :
    (s.finish call c outcome).HasNews g ↔ s.HasNews g := by
  have hsame : (s.finish call c outcome).progressFrom g.taken 0 g.futures =
      s.progressFrom g.taken 0 g.futures := by
    refine progressFrom_congr fun place future hf hp => ?_
    rw [Nat.zero_add] at hp
    have htaken := h.taken other g place future (gathering?_iff.mp hg).1 hp hf
    obtain ⟨found, hfound⟩ := Option.isSome_iff_exists.mp
      (strand_result (s := s) future ▸ htaken)
    rw [hfound]
    exact (CallStep.finish outcome hc).undisturbed.calls.result hfound
  rw [HasNews, HasNews, hsame]

/-- A call knows of those who gather it. -/
theorem Wired.exists_waiter {hand : Hand} {s : Session} (h : Wired (hand, s)) {call other : Nat}
    {c : Call} (hc : s.calls[call]? = some c) {g : Gathering}
    (hg : s.gathering? (.call other) = some g) (hmem : .call call ∈ g.futures) :
    ∃ place, (.call other, place) ∈ c.waiters := by
  obtain ⟨place, hplace⟩ := List.mem_iff_getElem?.mp hmem
  have hheard := h.heard other g place call (gathering?_iff.mp hg).1 hplace
  rw [strand_eq hc] at hheard
  obtain ⟨⟨waiter, place'⟩, hentry, heq⟩ := List.mem_filterMap.mp hheard
  cases waiter with
  | call n =>
    obtain ⟨rfl, rfl⟩ := Prod.mk.inj (Option.some.inj heq)
    exact ⟨place', hentry⟩
  | drain | shutdown => cases heq

/-- When a call has ended, those that gather it among few can go on, and nobody else. -/
theorem finish_canGoOn {s : Session} (hw : ∃ hand, Wired (hand, s)) {call : Nat} {c : Call}
    {outcome : Outcome} (hc : s.unsettled? call = some c) {other : Nat}
    (h : (s.finish call c outcome).CanGoOn other) :
    s.CanGoOn other ∨ ∃ g place, (s.finish call c outcome).gathering? (.call other) = some g ∧
      g.isWide = false ∧ (.call other, place) ∈ c.waiters := by
  obtain ⟨hand, hwired⟩ := hw
  obtain ⟨c', hopen, hgo⟩ := h
  have hopen' := finish_unsettled? hc hopen
  cases hwork : c'.work with
  | collecting g =>
    have hg := gathering?_eq_some hopen' hwork
    rw [hwork, GoesOn] at hgo
    cases hwide : g.isWide with
    | true =>
      rw [if_pos hwide, hwired.finish_hasNews hc hg] at hgo
      refine .inl ⟨c', hopen', ?_⟩
      rwa [hwork, GoesOn, if_pos hwide]
    | false =>
      have hfew : ¬ g.isWide = true := by simp [hwide]
      by_cases hmem : .call call ∈ g.futures
      · obtain ⟨place, hentry⟩ := hwired.exists_waiter (unsettled?_eq_some.mp hc).1 hg hmem
        exact .inr ⟨g, place, gathering?_eq_some hopen hwork, hwide, hentry⟩
      · have hsame (future : Future) (hf : future ∈ g.futures) :
            (s.finish call c outcome).result future = s.result future :=
          finish_result hc fun heq => hmem (heq ▸ hf)
        rw [if_neg hfew, isDecided_congr hsame] at hgo
        refine .inl ⟨c', hopen', ?_⟩
        rwa [hwork, GoesOn, if_neg hfew]
  | _ => rw [hwork] at hgo; exact .inl ⟨c', hopen', by rw [hwork]; exact hgo⟩

theorem settle_onward {s : Session} (h : s.InOrder) (call : Nat) (outcome : Outcome) :
    s.Onward (s.settle call outcome) := by
  rw [settle]
  split
  · exact .refl s
  · next c hc =>
    obtain ⟨hget, -⟩ := unsettled?_eq_some.mp hc
    have hlinked := finish_linked h outcome hc
    have hwake := wake_rouses (s.finish call c outcome) (.call call)
    have hsteps : CallSteps s ((s.finish call c outcome).wake (.call call)) :=
      .head (.finish outcome hc) (wake_steps _ _)
    have hdrains : s.DrainsExtend (s.finish call c outcome) := .of_eq rfl
    refine .of_canGoOn hsteps hwake.queue (hdrains.trans hwake.drains) fun other hgo => ?_
    rcases wake_canGoOn hlinked hgo with hgo | hr
    · rcases finish_canGoOn h.wired hc hgo with hold | ⟨g, place, hg, hw, hmem⟩
      · exact .inl hold
      · have hcall : (s.finish call c outcome).calls[call]? =
            some { c with outcome := some outcome } := by
          simp [finish, (List.getElem?_eq_some_iff.mp hget).1]
        exact .inr (wake_roused_gatherer hlinked hcall hmem hg hw)
    · exact .inr hr

end Session
end OperationTree
