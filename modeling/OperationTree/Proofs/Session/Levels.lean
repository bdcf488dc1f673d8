import OperationTree.Proofs.Session.Ticking

/-! What a tick brings to an end.  A call gathers others, and these gather others in turn.  After
some rounds everything has begun that many levels down: it waits for a gate, or has asked something
outside, or gathers.  Then the answers arrive, and from there on some levels end with some rounds,
the lowest first.  So a tick ends every call from which nothing leads down to an open gate, unless
there are more levels than it has rounds. -/

namespace OperationTree

/-- Work of which a part has been done: nothing is still to be asked or called. -/
def Work.HasBegun : Work → Prop
  | .exchange _ | .aggregate .. => False
  | _ => True

theorem Work.Evolves.hasBegun {work work' : Work} (h : work.Evolves work') (hw : work.HasBegun) :
    work'.HasBegun := by
  induction h with
  | refl => exact hw
  | turn _ ht => cases ht <;> trivial
  | fan => trivial

namespace Session

open Relation

/-! ### Beginning -/

/-- A call has ended, or its work has begun. -/
def HasBegun (s : Session) (call : Nat) : Prop :=
  (s.outcomeOf call).isSome = true ∨ ∃ c, s.unsettled? call = some c ∧ c.work.HasBegun

theorem HasBegun.later {s t : Session} (hs : s.Sited) (h : s.AnyDeeds t) {call : Nat}
    (hb : s.HasBegun call) : t.HasBegun call := by
  rcases hb with hended | ⟨c, hc, hbegun⟩
  · exact .inl (h.ended hs hended)
  · exact (h.evolves hs hc).imp_right fun ⟨c', hc', hevolves⟩ =>
      ⟨c', hc', hevolves.hasBegun hbegun⟩

/-- The first poll of a call begins its work. -/
theorem poll_hasBegun {s : Session} (hs : s.Sited) (hd : 1 ≤ s.depth) {call : Nat} {c : Call}
    (hc : s.unsettled? call = some c) : (s.poll call).HasBegun call := by
  rcases Moves.evolves (poll_moves [] hs call) hs hc with hended | ⟨c', hc', hevolves⟩
  · exact .inl hended
  · cases hw : c.work with
    | exchange e =>
      refine (poll_exchange hd hc hw).imp_right fun ⟨c2, outcome, hc2, hw2⟩ => ⟨c2, hc2, ?_⟩
      rw [hw2]
      trivial
    | aggregate =>
      refine (poll_aggregate hs hd hc hw).imp_right fun ⟨futures, c2, g, hc2, hw2, _⟩ =>
        ⟨c2, ?_, by rw [hw2]; trivial⟩
      rwa [← Option.some.inj ((unsettled?_eq_some.mp hc').1.symm.trans hc2)]
    | _ => exact .inr ⟨c', hc', hevolves.hasBegun (hw ▸ trivial)⟩

/-- A round begins the work of every call that is there. -/
theorem Reachable.round_hasBegun {s : Session} (h : s.Reachable) (hs : s.hasScheduler = true)
    {call : Nat} (hlt : call < s.calls.length) :
    (s.runFirst s.queue.length).HasBegun call := by
  have hsited := h.attained.sited
  have hlater := runFirst_anyDeeds hsited s.queue.length
  by_cases hb : s.HasBegun call
  · exact hb.later hsited hlater
  · obtain ⟨hopen, hnot⟩ := not_or.mp hb
    have hc : s.unsettled? call = some s.calls[call] := by
      refine unsettled?_eq_some.mpr ⟨List.getElem?_eq_getElem hlt, ?_⟩
      simpa [outcomeOf, List.getElem?_eq_getElem hlt] using hopen
    have hgo : s.CanGoOn call := by
      refine ⟨_, hc, ?_⟩
      cases hw : s.calls[call].work with
      | exchange | aggregate => trivial
      | _ => exact absurd ⟨_, hc, hw ▸ trivial⟩ hnot
    obtain ⟨u, hu, hpolled⟩ := h.round_polls hs hgo
    have hatt := h.attained.steps (hu.steps hsited)
    have hpoll := poll_steps hatt.sited call
    have hbegun : (u.poll call).HasBegun call := by
      rcases hu.evolves hsited hc with hended | ⟨c', hc', -⟩
      · exact .inl (hpoll.undisturbed.calls.ended hended)
      · exact poll_hasBegun hatt.sited hatt.depth_pos hc'
    exact hbegun.later (hpoll.sited hatt.sited) hpolled

/-! ### Levels of gatherings -/

/-- What stands at the end when one follows what is gathered from a call down has a property, unless
there are more than some levels. -/
inductive Spans (s : Session) (P : Nat → Prop) : Nat → Nat → Prop
  | deep (call : Nat) : Spans s P 0 call
  | alone {n call : Nat} (h : P call) : Spans s P n call
  | gathers {n call : Nat} {futures : List Future} (hg : s.Gathers call futures)
    (h : ∀ other, .call other ∈ futures → Spans s P n other) : Spans s P (n + 1) call

theorem Spans.later {s t : Session} (h : Steps s t) {P Q : Nat → Prop}
    (hpq : ∀ call, P call → Q call) {n call : Nat} (hs : s.Spans P n call) : t.Spans Q n call := by
  induction hs with
  | deep call => exact .deep call
  | alone hp => exact .alone (hpq _ hp)
  | gathers hg _ ih => exact .gathers (h.gathers hg) ih

/-- A call waits for a gate that has not been settled. -/
def WaitsAtGate (s : Session) (call : Nat) : Prop :=
  ∃ gate, s.gateOf? call = some gate ∧ s.isOpen gate = true

/-- Following what is gathered from a call down one comes to a call that waits for an open gate, or
sees more than some levels. -/
inductive IsHeldUp (s : Session) : Nat → Nat → Prop
  | deep (call : Nat) : IsHeldUp s 0 call
  | alone {n call : Nat} (h : s.WaitsAtGate call) : IsHeldUp s n call
  | gathers {n call other : Nat} {futures : List Future} (hg : s.Gathers call futures)
    (hmem : .call other ∈ futures) (h : IsHeldUp s n other) : IsHeldUp s (n + 1) call

theorem gateOf?_later {s t : Session} (hs : s.Sited) (h : s.AnyDeeds t) {call gate : Nat}
    (hg : s.gateOf? call = some gate) : t.gateOf? call = some gate := by
  refine Deeds.preserves (P := fun x => x.2.gateOf? call = some gate) (fun x y hx deed hc => ?_)
    (h []) hs hg
  obtain ⟨c, hget, hgate⟩ := Option.bind_eq_some_iff.mp hc
  have hw := Call.gate?_eq_some.mp hgate
  obtain ⟨c', hget', ⟨hsame, -⟩ | ht | ⟨_, _, _, haggregate⟩⟩ := deed.continued hx hget
  · exact Option.bind_eq_some_iff.mpr ⟨c', hget', Call.gate?_eq_some.mpr (hsame.trans hw)⟩
  · rw [hw] at ht
    nomatch ht
  · cases hw.symm.trans haggregate

theorem isOpen_of_extends {s t : Session} (h : s.gates <+: t.gates) {gate : Nat}
    (ho : s.isOpen gate = true) : t.isOpen gate = true := by
  cases hg : s.gates[gate]? with
  | none => simp [isOpen, hg] at ho
  | some outcome => rwa [isOpen, getElem?_of_extends h hg, ← hg]

theorem IsHeldUp.later {s t : Session} (hs : s.Sited) (h : s.AnyDeeds t)
    (hgates : s.gates <+: t.gates) {n call : Nat} (hh : s.IsHeldUp n call) :
    t.IsHeldUp n call := by
  induction hh with
  | deep call => exact .deep call
  | alone hw =>
    obtain ⟨gate, hof, ho⟩ := hw
    exact .alone ⟨gate, gateOf?_later hs h hof, isOpen_of_extends hgates ho⟩
  | gathers hg hmem _ ih => exact .gathers ((h.steps hs).gathers hg) hmem ih

/-! ### From the top down -/

/-- A call has ended, or waits for a gate, or has asked something outside. -/
def HasReachedOut (s : Session) (call : Nat) : Prop :=
  (s.outcomeOf call).isSome = true ∨ (s.gateOf? call).isSome = true ∨
    ∃ c outcome, s.unsettled? call = some c ∧ c.work.HasAnswer outcome

theorem HasReachedOut.later {s t : Session} (hs : s.Sited) (h : s.AnyDeeds t) {call : Nat}
    (ha : s.HasReachedOut call) : t.HasReachedOut call := by
  rcases ha with hended | hgate | ⟨c, outcome, hc, hanswer⟩
  · exact .inl (h.ended hs hended)
  · obtain ⟨gate, hof⟩ := Option.isSome_iff_exists.mp hgate
    exact .inr (.inl (Option.isSome_iff_exists.mpr ⟨gate, gateOf?_later hs h hof⟩))
  · exact (h.evolves hs hc).imp_right fun ⟨c', hc', hevolves⟩ =>
      .inr ⟨c', outcome, hc', hevolves.hasAnswer hanswer⟩

/-- What has begun gathers, if it has not asked. -/
theorem HasBegun.cases {s : Session} {call : Nat} (hb : s.HasBegun call) :
    s.HasReachedOut call ∨ ∃ g, s.gathering? (.call call) = some g := by
  rcases hb with hended | ⟨c, hc, hbegun⟩
  · exact .inl (.inl hended)
  · cases hw : c.work with
    | ready outcome => exact .inl (.inr (.inr ⟨c, outcome, hc, hw ▸ .ready⟩))
    | answered outcome => exact .inl (.inr (.inr ⟨c, outcome, hc, hw ▸ .answered⟩))
    | gate gate =>
      refine .inl (.inr (.inl ?_))
      rw [gateOf?, (unsettled?_eq_some.mp hc).1, Option.bind_some, Call.gate?, hw]
      rfl
    | collecting g => exact .inr ⟨g, gathering?_eq_some hc hw⟩
    | exchange | aggregate => rw [hw] at hbegun; exact hbegun.elim

theorem Wired.lt_of_gathered {s : Session} (h : Wired ([], s)) {call other : Nat} {g : Gathering}
    (hg : s.gathering? (.call call) = some g) (hmem : .call other ∈ g.futures) :
    other < s.calls.length := by
  obtain ⟨place, hplace⟩ := List.mem_iff_getElem?.mp hmem
  have hwaits := h.heard call g place other (gathering?_iff.mp hg).1 hplace
  by_contra hlt
  rw [strand, List.getElem?_eq_none (Nat.le_of_not_lt hlt)] at hwaits
  cases hwaits

/-- After some rounds that many levels have begun. -/
theorem Reachable.rounds_spans {s : Session} (h : s.Reachable) (hs : s.hasScheduler = true)
    {call : Nat} (hlt : call < s.calls.length) (n : Nat) :
    (s.rounds n).Spans (s.rounds n).HasReachedOut n call := by
  induction n generalizing s call with
  | zero => exact .deep call
  | succ n ih =>
    have hround := h.runFirst s.queue.length
    have hlater := rounds_anyDeeds hround.attained.sited n
    have hsteps := (runFirst_anyDeeds h.attained.sited s.queue.length).steps h.attained.sited
    rw [Session.rounds]
    rcases (h.round_hasBegun hs hlt).cases with hreached | ⟨g, hg⟩
    · exact .alone (hreached.later hround.attained.sited hlater)
    · refine .gathers ((rounds_steps hround.attained.sited n).gathers
        (gathers_of_gathering? hg)) fun other hmem => ?_
      exact ih hround (hsteps.tasks.hasScheduler.trans hs)
        (hround.alert.wired.lt_of_gathered hg hmem)

/-! ### The answers -/

theorem foldl_arrive (calls : List Nat) (s : Session) :
    calls.foldl arrive s = s.after (calls.map .arrive) := by
  rw [Session.after, List.foldl_map]
  rfl

theorem deliver_after (s : Session) : ∃ actions,
    s.deliver = ((List.range s.calls.length).foldl arrive s).after actions := by
  refine ⟨((List.range s.calls.length).foldl arrive s).openClosings.map .endClosing, ?_⟩
  rw [Session.after, List.foldl_map]
  rfl

theorem Reachable.deliver {s : Session} (h : s.Reachable) : s.deliver.Reachable := by
  obtain ⟨actions, hactions⟩ := deliver_after s
  rw [hactions, foldl_arrive]
  exact (h.after _).after actions

theorem deliver_anyDeeds {s : Session} (hs : s.Sited) : s.AnyDeeds s.deliver := by
  obtain ⟨actions, hactions⟩ := deliver_after s
  rw [hactions, foldl_arrive, ← after_append]
  exact after_anyDeeds hs _

theorem canEnd_of_ready {s : Session} {call : Nat} {c : Call} {outcome : Outcome}
    (hc : s.unsettled? call = some c) (hw : c.work = .ready outcome) : s.CanEnd call :=
  ⟨c, (unsettled?_eq_some.mp hc).1, .inr (by rw [immediate?, hw]; rfl)⟩

theorem arrive_canEnd {s : Session} (hs : s.Sited) {call : Nat} {c : Call} {outcome : Outcome}
    (hc : s.unsettled? call = some c) (hw : c.work.HasAnswer outcome) :
    (s.arrive call).CanEnd call := by
  generalize hwork : c.work = work at hw
  cases hw with
  | answered =>
    rcases arrive_answered hs hc hwork with hended | ⟨c', hc', hready⟩
    · exact canEnd_of_isSome hended
    · exact canEnd_of_ready hc' hready
  | ready => exact (after_steps hs [.arrive call]).canEnd (canEnd_of_ready hc hwork)

theorem foldl_arrive_canEnd {calls : List Nat} {s : Session} (hs : s.Sited) {call : Nat} {c : Call}
    {outcome : Outcome} (hmem : call ∈ calls) (hc : s.unsettled? call = some c)
    (hw : c.work.HasAnswer outcome) : (calls.foldl arrive s).CanEnd call := by
  obtain ⟨before, later, rfl⟩ := List.append_of_mem hmem
  rw [foldl_arrive, List.map_append, after_append, List.map_cons]
  have hbefore := after_anyDeeds hs (before.map .arrive)
  have hs1 := hbefore.sited hs
  have harrive := after_steps hs1 [.arrive call]
  refine (after_steps (harrive.sited hs1) (later.map .arrive)).canEnd ?_
  rcases hbefore.evolves hs hc with hended | ⟨c', hc', hevolves⟩
  · exact harrive.canEnd (canEnd_of_isSome hended)
  · exact arrive_canEnd hs1 hc' (hevolves.hasAnswer hw)

/-- A call with a gate can end, if the gate has been settled. -/
theorem Gated.canEnd_or_waits {s : Session} (h : s.Gated) {call gate : Nat}
    (hof : s.gateOf? call = some gate) : s.CanEnd call ∨ s.WaitsAtGate call := by
  obtain ⟨c, hc, hgate⟩ := Option.bind_eq_some_iff.mp hof
  have hlt := h.placed call gate hof
  cases ho : s.gates[gate] with
  | none => exact .inr ⟨gate, hof, by simp [isOpen, hlt, ho]⟩
  | some outcome =>
    refine .inl ⟨c, hc, .inr ?_⟩
    simp [immediate?, Call.gate?_eq_some.mp hgate, gateOutcome, hlt, ho]

/-- Once the answers have arrived, what has asked is ripe, or waits for an open gate. -/
theorem Reachable.deliver_reachedOut {s : Session} (h : s.Reachable) {call : Nat}
    (ha : s.HasReachedOut call) : s.deliver.IsRipe call ∨ s.deliver.WaitsAtGate call := by
  have hsited := h.attained.sited
  rcases ha with hended | hgate | ⟨c, outcome, hc, hanswer⟩
  · have hsteps := (deliver_anyDeeds hsited).steps hsited
    exact .inl (.inl (hsteps.canEnd (canEnd_of_isSome hended)))
  · obtain ⟨gate, hof⟩ := Option.isSome_iff_exists.mp hgate
    exact (h.deliver.alert.gated.canEnd_or_waits
      (gateOf?_later hsited (deliver_anyDeeds hsited) hof)).imp_left .inl
  · obtain ⟨actions, hactions⟩ := deliver_after s
    have hcan := foldl_arrive_canEnd hsited (List.mem_range.mpr (lt_of_unsettled hc)) hc hanswer
    rw [hactions]
    refine .inl (.inl ((after_steps ?_ actions).canEnd hcan))
    rw [foldl_arrive]
    exact (after_steps hsited _).sited hsited

/-! ### From the bottom up -/

/-- One who gathers has ended later, or goes on gathering the same. -/
theorem gathering?_later {s t : Session} (hs : s.Sited) (h : s.AnyDeeds t) {call : Nat}
    {futures : List Future} (hg : s.Gathers call futures) (hlt : t.outcomeOf call = none) :
      ∃ g, t.gathering? (.call call) = some g ∧ g.futures = futures := by
  obtain ⟨c, g, hc, hw, hf⟩ := (h.steps hs).gathers hg
  refine ⟨g, gathering?_eq_some (unsettled?_eq_some.mpr ⟨hc, ?_⟩) hw, hf⟩
  simpa [outcomeOf, hc] using hlt

/-- A call that is ripe before one of some rounds has ended after them. -/
theorem Reachable.rounds_end_ripe {s : Session} (h : s.Reachable) (hs : s.hasScheduler = true)
    {call m n : Nat} (hm : m < n) (hr : (s.rounds m).IsRipe call) :
    ((s.rounds n).outcomeOf call).isSome = true := by
  obtain ⟨more, rfl⟩ := Nat.exists_eq_add_of_lt hm
  have hbefore := rounds_steps h.attained.sited m
  have hround := (h.rounds m).rounds 1
  rw [Nat.add_assoc, Nat.add_comm more 1, rounds_add, rounds_add]
  exact (rounds_steps hround.attained.sited more).continues.ended
    ((h.rounds m).round_ends (hbefore.tasks.hasScheduler.trans hs) hr)

/-- Levels end with rounds, one with each, if nothing holds them up. -/
theorem Reachable.rounds_end {s : Session} (h : s.Reachable) (hs : s.hasScheduler = true)
    {n call : Nat} (hspans : s.Spans (fun call => s.IsRipe call ∨ s.WaitsAtGate call) n call) :
    ((s.rounds (n + 1)).outcomeOf call).isSome = true ∨ s.IsHeldUp n call := by
  have hsited := h.attained.sited
  induction hspans with
  | deep call => exact .inr (.deep call)
  | alone hp =>
    exact hp.imp (fun hr => h.rounds_end_ripe (m := 0) hs (Nat.succ_pos _) hr) .alone
  | @gathers n call futures hg _ ih =>
    by_cases hheld : ∃ other, .call other ∈ futures ∧ s.IsHeldUp n other
    · obtain ⟨other, hmem, hother⟩ := hheld
      exact .inr (.gathers hg hmem hother)
    · -- All that the call gathers has ended after the rounds before.
      have hall : ∀ future ∈ futures, ((s.rounds (n + 1)).result future).isSome = true := by
        intro future hmem
        cases future with
        | settled => rfl
        | call other =>
          exact (ih other hmem).resolve_right fun hother => hheld ⟨other, hmem, hother⟩
      have hlater := rounds_anyDeeds hsited (n + 1)
      refine .inl (h.rounds_end_ripe hs (Nat.lt_succ_self (n + 1)) ?_)
      cases ho : (s.rounds (n + 1)).outcomeOf call with
      | some outcome => exact .inl (canEnd_of_isSome (by rw [ho]; rfl))
      | none =>
        obtain ⟨g, hg', rfl⟩ := gathering?_later hsited hlater hg ho
        exact .inr ⟨g, hg', .inl hall⟩

theorem Reachable.rounds_gates {s : Session} (h : s.Reachable) (n : Nat) :
    s.gates <+: (s.rounds n).gates := by
  induction n generalizing s with
  | zero => exact List.prefix_rfl
  | succ n ih => exact (h.runFirst_gates _).trans (ih (h.runFirst _))

theorem Steps.depth_le {s t : Session} (h : Steps s t) : s.depth ≤ t.depth := by
  induction h with
  | refl => exact Nat.le_refl _
  | tail _ step ih => exact Nat.le_trans ih step.depth_le

theorem tick_eq {s : Session} (hs : s.hasScheduler = true) :
    s.tick = s.run.deliver.rounds (4 * (s.run.deliver.depth + 1)) := by
  rw [tick, if_pos hs, run]

theorem run_deliver_steps {s : Session} (hs : s.Sited) :
    Steps s s.run ∧ Steps s.run s.run.deliver := by
  have hrun : Steps s s.run := rounds_steps hs _
  exact ⟨hrun, (deliver_anyDeeds (hrun.sited hs)).steps (hrun.sited hs)⟩

/-- A tick ends every call that is ripe before one of its rounds. -/
theorem Reachable.tick_ends_ripe {s : Session} (h : s.Reachable) (hs : s.hasScheduler = true)
    {call m : Nat} (hm : m < 4 * (s.depth + 1))
    (hr : (s.rounds m).IsRipe call ∨ (s.run.deliver.rounds m).IsRipe call) :
    (s.tick.outcomeOf call).isSome = true := by
  obtain ⟨hrun, hdeliver⟩ := run_deliver_steps h.attained.sited
  have hdelivered : s.run.deliver.Reachable := (h.rounds _).deliver
  have hsteps : Steps s s.run.deliver := hrun.trans hdeliver
  rw [tick_eq hs]
  rcases hr with hr | hr
  · have hended : (s.run.outcomeOf call).isSome = true := h.rounds_end_ripe hs hm hr
    exact (rounds_steps hdelivered.attained.sited _).continues.ended
      (hdeliver.continues.ended hended)
  · refine hdelivered.rounds_end_ripe (hsteps.tasks.hasScheduler.trans hs) ?_ hr
    have := hsteps.depth_le
    omega

/-- A tick ends every call from which nothing leads down to an open gate, unless there are as many
levels as it has rounds. -/
theorem Reachable.tick_ends {s : Session} (h : s.Reachable) (hs : s.hasScheduler = true)
    {call n : Nat} (hlt : call < s.calls.length) (hn : n < 4 * (s.depth + 1)) :
    (s.tick.outcomeOf call).isSome = true ∨ s.tick.IsHeldUp n call := by
  obtain ⟨hrun, hdeliver⟩ := run_deliver_steps h.attained.sited
  -- Before the answers arrive everything begins.
  have hreached : s.run.Reachable := h.rounds _
  have hspans : s.run.deliver.Spans (fun call => s.run.deliver.IsRipe call ∨
      s.run.deliver.WaitsAtGate call) n call := by
    obtain ⟨more, hmore⟩ := Nat.exists_eq_add_of_le (Nat.le_of_lt hn)
    have hbegun := h.rounds n
    have hrest := rounds_anyDeeds hbegun.attained.sited more
    have hspans : s.run.Spans s.run.HasReachedOut n call := by
      rw [run, hmore, rounds_add]
      exact (h.rounds_spans hs hlt n).later (rounds_steps hbegun.attained.sited more)
        fun _ ha => ha.later hbegun.attained.sited hrest
    exact hspans.later hdeliver fun _ ha => hreached.deliver_reachedOut ha
  -- Afterwards there are at least as many rounds again.
  have hdelivered := hreached.deliver
  have hsteps : Steps s s.run.deliver := hrun.trans hdeliver
  obtain ⟨more, hmore⟩ : ∃ more, 4 * (s.run.deliver.depth + 1) = n + 1 + more :=
    Nat.exists_eq_add_of_le (by have := hsteps.depth_le; omega)
  rw [tick_eq hs, hmore]
  have hended := hdelivered.rounds (n + 1)
  refine (hdelivered.rounds_end (hsteps.tasks.hasScheduler.trans hs) hspans).imp
    (fun hends => ?_) fun hheld => hheld.later hdelivered.attained.sited
      (rounds_anyDeeds hdelivered.attained.sited _) (hdelivered.rounds_gates _)
  rw [rounds_add]
  exact (rounds_steps hended.attained.sited more).continues.ended hends

end Session
end OperationTree
