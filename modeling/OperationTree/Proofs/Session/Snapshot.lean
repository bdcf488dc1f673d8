import OperationTree.Proofs.Session.Registry

/-! What a drain waits for, and what it ends with.  From its first poll on a drain watches the calls
that were registered then: it waits for exactly these, or has ended with the first failure among
them, and no step changes that.  A poll of it ends it as soon as all of them have ended.  Since the
outcome of a call does not change either, the drain and everyone who waits for one of the calls see
the same. -/

namespace OperationTree.Session

/-- A drain waits for futures, or all of them have settled and it has ended with the first failure
among them. -/
def Watches (s : Session) (drain : Nat) (futures : List Future) : Prop :=
  (∃ g, s.drains[drain]? = some (.waiting g) ∧ g.futures = futures) ∨
    ((∀ future ∈ futures, (s.result future).isSome = true) ∧
      s.drains[drain]? = some (.finished (futures.findSome? s.failureOf)))

/-- A settled future keeps its failure. -/
theorem failureOf_continues {s s' : Session} (hc : s.CallsContinue s') {future : Future}
    (h : (s.result future).isSome = true) : s'.failureOf future = s.failureOf future := by
  obtain ⟨outcome, ho⟩ := Option.isSome_iff_exists.mp h
  rw [failureOf, failureOf, ho, hc.result ho]

theorem findSome?_failureOf_continues {s s' : Session} (hc : s.CallsContinue s')
    {futures : List Future} (hall : ∀ future ∈ futures, (s.result future).isSome = true) :
    futures.findSome? s'.failureOf = futures.findSome? s.failureOf := by
  induction futures with
  | nil => rfl
  | cons future rest ih =>
    rw [List.findSome?_cons, List.findSome?_cons, failureOf_continues hc (hall future (by simp)),
      ih fun future h => hall future (by simp [h])]

theorem drainEnd?_eq_some {s : Session} {drain : Nat} {failure : Option CallError} :
    s.drainEnd? drain = some failure ↔ s.drains[drain]? = some (.finished failure) := by
  rw [drainEnd?, Option.bind_eq_some_iff]
  constructor
  · rintro ⟨d, hd, hf⟩
    cases d with
    | finished => rw [hd, ← Option.some.inj hf]
    | fresh | waiting => cases hf
  · exact fun hd => ⟨_, hd, rfl⟩

namespace Watches

variable {s : Session} {drain : Nat} {futures : List Future}

theorem drainEnd? (h : s.Watches drain futures) {failure : Option CallError}
    (he : s.drainEnd? drain = some failure) :
    (∀ future ∈ futures, (s.result future).isSome = true) ∧
      failure = futures.findSome? s.failureOf := by
  rw [drainEnd?_eq_some] at he
  rcases h with ⟨g, hd, -⟩ | ⟨hall, hd⟩
  · simp [hd] at he
  · exact ⟨hall, by simpa [hd, eq_comm] using he⟩

end Watches

theorem getElem?_setDrain {s : Session} {number : Nat} {d : Drain}
    (hd : s.drains[number]? = some d) (other : Nat) (d' : Drain) :
    (s.setDrain other d').drains[number]? = some (if other = number then d' else d) := by
  rw [setDrain, List.getElem?_set, hd]
  split
  · next h =>
    rw [if_pos (h ▸ (List.getElem?_eq_some_iff.mp hd).1)]
  · rfl

/-- What a step does to a drain: nothing that matters, or it begins, or it ends. -/
theorem Step.drain {s s' : Session} (h : Step s s') {number : Nat} {d : Drain}
    (hd : s.drains[number]? = some d) :
    (∃ d', s'.drains[number]? = some d' ∧ d'.outline = d.outline) ∨
    (∃ n, d = .fresh n ∧
      s'.drains[number]? = some (.waiting { futures := (s.tracker n).calls.map .call })) ∨
    ∃ g, d = .waiting g ∧ (∀ future ∈ g.futures, (s.result future).isSome = true) ∧
      s'.drains[number]? = some (.finished (g.futures.findSome? s.failureOf)) := by
  cases h with
  | call h => exact .inl (h.undisturbed.drain hd)
  | addDrain => exact .inl ⟨d, getElem?_of_extends (List.prefix_append _ _) hd, rfl⟩
  | @beginDrain other tracker hfresh =>
    have hset := getElem?_setDrain hd other
      (.waiting { futures := (s.tracker tracker).calls.map .call })
    by_cases hn : other = number
    · subst hn
      obtain rfl := Option.some.inj (hd.symm.trans hfresh)
      exact .inr (.inl ⟨tracker, rfl, by simpa [setGathering] using hset⟩)
    · exact .inl ⟨d, by simpa [hn, setGathering] using hset, rfl⟩
  | @endDrain other g hwaiting hall =>
    have hset := getElem?_setDrain hd other (.finished (g.futures.findSome? s.failureOf))
    by_cases hn : other = number
    · subst hn
      obtain rfl := Option.some.inj (hd.symm.trans hwaiting)
      exact .inr (.inr ⟨g, rfl, hall, by simpa using hset⟩)
    · exact .inl ⟨d, by simpa [hn] using hset, rfl⟩
  | beginShutdown =>
    refine .inl ⟨d, ?_, rfl⟩
    rw [Session.beginShutdown]
    split
    · exact hd
    · exact getElem?_of_extends (List.prefix_append _ _) hd
  | _ => exact .inl ⟨d, hd, rfl⟩

/-- A drain that has ended keeps its end. -/
theorem Step.finished {s s' : Session} (h : Step s s') {number : Nat} {failure : Option CallError}
    (hd : s.drains[number]? = some (.finished failure)) :
    s'.drains[number]? = some (.finished failure) := by
  rcases h.drain hd with ⟨d, hd', ho⟩ | ⟨n, heq, -⟩ | ⟨g, heq, -⟩
  · rw [hd', Drain.eq_finished ho]
  · cases heq
  · cases heq

theorem Step.watches {s s' : Session} (h : Step s s') {drain : Nat} {futures : List Future}
    (hw : s.Watches drain futures) : s'.Watches drain futures := by
  rcases hw with ⟨g, hg, rfl⟩ | ⟨hall, hfinished⟩
  · rcases h.drain hg with ⟨d, hd, ho⟩ | ⟨n, heq, -⟩ | ⟨g', heq, hall, hd⟩
    · obtain ⟨g', rfl, hf⟩ := Drain.eq_waiting ho
      exact .inl ⟨g', hd, hf⟩
    · cases heq
    · obtain rfl := Drain.waiting.inj heq
      rw [← findSome?_failureOf_continues h.continues hall] at hd
      exact .inr ⟨fun future hmem => h.continues.isSome (hall future hmem), hd⟩
  · refine .inr ⟨fun future hmem => h.continues.isSome (hall future hmem), ?_⟩
    rw [findSome?_failureOf_continues h.continues hall]
    exact h.finished hfinished

theorem Steps.watches {s s' : Session} (h : Steps s s') {drain : Nat} {futures : List Future}
    (hw : s.Watches drain futures) : s'.Watches drain futures := by
  induction h with
  | refl => exact hw
  | tail _ step ih => exact step.watches ih

theorem Steps.drainEnd? {s s' : Session} (h : Steps s s') {drain : Nat}
    {failure : Option CallError} (he : s.drainEnd? drain = some failure) :
    s'.drainEnd? drain = some failure := by
  rw [drainEnd?_eq_some] at he ⊢
  induction h with
  | refl => exact he
  | tail _ step ih => exact step.finished ih

/-! ### Polls of a drain -/

theorem calls_map_call (t : Tracker) :
    t.calls.map Future.call = t.entries.map fun entry => .call entry.2 := by
  rw [Tracker.calls, List.map_map]
  rfl

/-! When it is first polled, a drain takes the calls that are registered. -/

section Fresh

variable {s : Session} {drain tracker : Nat} (hd : s.drains[drain]? = some (.fresh tracker))
include hd

theorem gather_sited (hs : s.Sited) :
    (s.gather (.drain drain) ((s.tracker tracker).calls.map .call)).Sited :=
  (gather_watch_steps _ _ _).sited ((Step.beginDrain hd).sited hs)

theorem gather_watches :
    (s.gather (.drain drain) ((s.tracker tracker).calls.map .call)).Watches drain
      ((s.tracker tracker).entries.map fun entry => .call entry.2) := by
  refine (gather_watch_steps _ _ _).steps.watches (.inl ⟨{ futures := _ }, ?_, calls_map_call _⟩)
  exact List.getElem?_set_self (List.getElem?_eq_some_iff.mp hd).1

theorem pollDrain_fresh :
    s.pollDrain drain =
      (s.gather (.drain drain) ((s.tracker tracker).calls.map .call)).pollGathered drain := by
  rw [pollDrain, hd]

theorem pollDrain_watches (hs : s.Sited) :
    (s.pollDrain drain).Watches drain
      ((s.tracker tracker).entries.map fun entry => .call entry.2) := by
  rw [pollDrain_fresh hd]
  exact (pollGathered_steps (gather_sited hd hs) drain).watches (gather_watches hd)

end Fresh

/-- A poll ends a drain if and only if all that it watches has settled after the poll. -/
theorem pollGathered_ends {s : Session} (hs : s.Sited) {drain : Nat} {futures : List Future}
    (hw : s.Watches drain futures) :
    ((s.pollGathered drain).drainEnd? drain).isSome = true ↔
      ∀ future ∈ futures, ((s.pollGathered drain).result future).isSome = true := by
  have hw' := (pollGathered_steps hs drain).watches hw
  refine ⟨fun he => ?_, fun hall => ?_⟩
  · obtain ⟨failure, hf⟩ := Option.isSome_iff_exists.mp he
    exact (hw'.drainEnd? hf).1
  · rcases hw' with ⟨g', hg', hf'⟩ | ⟨-, hd⟩
    · -- A drain that still waits has been left by `endDrain`, so something is not settled.
      exfalso
      rcases hw with ⟨g, hg, rfl⟩ | ⟨-, hd⟩
      · rw [pollGathered, gathering?_drain.mpr hg] at hg' hall
        simp only [endDrain] at hg' hall
        split at hg'
        · next hsettled =>
          obtain ⟨g1, hg1, -⟩ := (pollCalls_steps hs drain g).undisturbed.waiting hg
          rw [setDrain, List.getElem?_set_self (List.getElem?_eq_some_iff.mp hg1).1] at hg'
          cases hg'
        · next hsettled =>
          rw [if_neg hsettled] at hall
          exact hsettled (List.all_eq_true.mpr hall)
      · have hnone : s.gathering? (.drain drain) = none := by simp [gathering?, hd]
        rw [pollGathered, hnone] at hg'
        simp [hd] at hg'
    · simp [Session.drainEnd?, hd, Drain.finished?]

theorem pollDrain_of_watches {s : Session} {drain : Nat} {futures : List Future}
    (hw : s.Watches drain futures) : s.pollDrain drain = s.pollGathered drain := by
  rcases hw with ⟨g, hd, -⟩ | ⟨-, hd⟩
  · rw [pollDrain, hd]
  · have hnone : s.gathering? (.drain drain) = none := by simp [gathering?, hd]
    rw [pollDrain, hd, pollGathered, hnone]

/-! ### Calls that a poll of a drain ends -/

/-- A call has ended, or a poll of it would end it. -/
def CanEnd (s : Session) (call : Nat) : Prop :=
  ∃ c, s.calls[call]? = some c ∧ (c.outcome.isSome = true ∨ (s.immediate? c).isSome = true)

/-- Gates that have settled stay so. -/
def KeepsGates (s s' : Session) : Prop :=
  ∀ gate outcome, s.gateOutcome gate = some outcome → s'.gateOutcome gate = some outcome

theorem KeepsGates.of_extends {s s' : Session} (h : s.gates <+: s'.gates) : s.KeepsGates s' :=
  fun _ _ ho => Option.join_eq_some_iff.mpr (getElem?_of_extends h (Option.join_eq_some_iff.mp ho))

/-- What a call ends with depends on its work and on a settled gate only. -/
theorem immediate?_isSome {s s' : Session} (hg : s.KeepsGates s') {c c' : Call}
    (hw : c'.work = c.work) (h : (s.immediate? c).isSome = true) :
    (s'.immediate? c').isSome = true := by
  rw [immediate?] at h ⊢
  rw [hw]
  split at h
  · rfl
  · next gate _ =>
    obtain ⟨outcome, ho⟩ := Option.isSome_iff_exists.mp h
    rw [hg gate outcome ho]
    rfl
  · exact h
  · cases h
  · cases h
  · cases h

/-- What becomes of a call does not put its end off: an outcome stays, and work that could end the
call goes on only to an outcome. -/
structure KeepsEnd (s : Session) (c c' : Call) : Prop where
  ended : c.outcome.isSome = true → c'.outcome.isSome = true
  work : c'.outcome.isSome = true ∨ c'.work = c.work ∨ s.immediate? c = none

theorem KeepsEnd.refl (s : Session) (c : Call) : s.KeepsEnd c c := ⟨id, .inr (.inl rfl)⟩

theorem CanEnd.of_call {s s' : Session} {call : Nat} (h : s.CanEnd call)
    (hg : s.KeepsGates s')
    (hc : ∀ c, s.calls[call]? = some c → ∃ c', s'.calls[call]? = some c' ∧ s.KeepsEnd c c') :
    s'.CanEnd call := by
  obtain ⟨c, hget, hend⟩ := h
  obtain ⟨c', hget', hended, hrest⟩ := hc c hget
  refine ⟨c', hget', ?_⟩
  rcases hend with hdone | himm
  · exact .inl (hended hdone)
  · rcases hrest with hdone | hwork | hnone
    · exact .inl hdone
    · exact .inr (immediate?_isSome hg hwork himm)
    · simp [hnone] at himm

/-- A call keeps that it can end, unless its work changes, which then could not end it. -/
theorem CanEnd.of_modify {s s' : Session} {call k : Nat} {f : Call → Call} (h : s.CanEnd call)
    (hg : s.KeepsGates s') (hm : s'.calls = s.calls.modify k f)
    (ho : ∀ c, (f c).outcome = c.outcome)
    (hw : ∀ c, s.calls[k]? = some c → (f c).work = c.work ∨ s.immediate? c = none) :
    s'.CanEnd call := by
  refine h.of_call hg fun c hget => ?_
  rw [hm]
  exact exists_modified (.refl s) (fun c hk => ⟨by rw [ho]; exact id, .inr (hw c hk)⟩) hget

/-- The work of a call that could not end anyway may change. -/
theorem CanEnd.of_work {s s' : Session} {call k : Nat} (h : s.CanEnd call)
    (hg : s.KeepsGates s') {c : Call} (hc : s.unsettled? k = some c)
    (hnone : s.immediate? c = none) {work : Work}
    (hm : s'.calls = s.calls.modify k fun c => { c with work }) : s'.CanEnd call := by
  refine h.of_modify hg hm (fun _ => rfl) fun c' hget => .inr ?_
  obtain rfl := Option.some.inj ((unsettled?_eq_some.mp hc).1.symm.trans hget)
  exact hnone

theorem CallStep.canEnd {s s' : Session} (h : CallStep s s') {call : Nat} (hc : s.CanEnd call) :
    s'.CanEnd call := by
  have hg := KeepsGates.of_extends h.undisturbed.gates
  cases h with
  | queue | spawn | keep | openGate =>
    exact hc.of_call hg fun c hget => ⟨c, hget, .refl s c⟩
  | register =>
    exact hc.of_call hg fun c hget =>
      ⟨c, getElem?_of_extends (List.prefix_append _ _) hget, .refl s c⟩
  | addWaiter other waiter =>
    exact hc.of_modify (f := fun c => { c with waiters := c.waiters ++ [waiter] }) hg rfl
      (fun _ => rfl) fun _ _ => .inl rfl
  | release other =>
    exact hc.of_modify (f := fun c => { c with isHeld := false }) hg rfl (fun _ => rfl)
      fun _ _ => .inl rfl
  | @regather waiter g g' hgather =>
    cases waiter with
    | call other =>
      obtain ⟨c, hopen, hwork⟩ := gathering?_call hgather
      exact hc.of_work hg hopen (by rw [immediate?, hwork]) rfl
    | drain => exact hc.of_call hg fun c hget => ⟨c, hget, .refl s c⟩
    | shutdown => cases hgather
  | collect _ hopen hwork => exact hc.of_work hg hopen (by rw [immediate?, hwork]) rfl
  | ask hopen hwork hr =>
    refine hc.of_work hg hopen ?_ rfl
    rw [immediate?, hwork]
    simp [hr]
  | @finish other c outcome hopen =>
    have hkeeps : s.KeepsEnd c { c with outcome := some outcome } := ⟨fun _ => rfl, .inl rfl⟩
    exact hc.of_call hg fun _ hget =>
      exists_replaced (.refl s) (unsettled?_eq_some.mp hopen).1 hkeeps hget

theorem CallSteps.canEnd {s s' : Session} (h : CallSteps s s') {call : Nat} (hc : s.CanEnd call) :
    s'.CanEnd call := by
  induction h with
  | refl => exact hc
  | tail _ step ih => exact step.canEnd ih

theorem CanEnd.poll {s : Session} (hd : 1 ≤ s.depth) {call : Nat} (h : s.CanEnd call) :
    ((s.poll call).outcomeOf call).isSome = true := by
  obtain ⟨c, hget, hend⟩ := h
  cases ho : c.outcome with
  | some outcome =>
    have hnone : s.unsettled? call = none := by simp [unsettled?, hget, ho]
    obtain ⟨depth, hdepth⟩ := Nat.exists_eq_succ_of_ne_zero (Nat.ne_of_gt hd)
    rw [Session.poll, hdepth, pollWithin, hnone]
    simp [outcomeOf, hget, ho]
  | none =>
    obtain ⟨outcome, himm⟩ := Option.isSome_iff_exists.mp (hend.resolve_left (by simp [ho]))
    rw [poll_immediate hd (unsettled?_eq_some.mpr ⟨hget, ho⟩) himm]
    rfl

/-- Polling calls in turn ends those that can end. -/
theorem foldl_pollFuture_canEnd {s : Session} (hs : s.Sited) (hd : 1 ≤ s.depth)
    {futures : List Future} {call : Nat} (hmem : .call call ∈ futures) (hc : s.CanEnd call) :
    ((futures.foldl (pollFuture poll) s).outcomeOf call).isSome = true := by
  induction futures generalizing s with
  | nil => cases hmem
  | cons future rest ih =>
    have hfirst := pollFuture_steps hs future
    have hs' := hfirst.sited hs
    rcases List.mem_cons.mp hmem with rfl | hrest
    · obtain ⟨outcome, ho⟩ := Option.isSome_iff_exists.mp (hc.poll hd)
      have hkept := (foldl_pollFuture_steps hs' rest).undisturbed.calls.outcomeOf ho
      exact Option.isSome_iff_exists.mpr ⟨outcome, hkept⟩
    · exact ih hs' (hfirst.undisturbed.depth ▸ hd) hrest (hfirst.canEnd hc)

theorem endDrain_calls (s : Session) (drain : Nat) (futures : List Future) :
    (s.endDrain drain futures).calls = s.calls := by
  rw [endDrain]
  split <;> rfl

/-- A poll of a drain of few calls ends those that can end. -/
theorem pollGathered_canEnd {s : Session} (hs : s.Sited) (hd : 1 ≤ s.depth) {drain : Nat}
    {futures : List Future} (hw : s.Watches drain futures)
    (hfew : futures.length ≤ Gathering.fewLimit) {call : Nat} (hmem : .call call ∈ futures)
    (hc : s.CanEnd call) : ((s.pollGathered drain).outcomeOf call).isSome = true := by
  rcases hw with ⟨g, hg, rfl⟩ | ⟨hall, hfinished⟩
  · have hnarrow : g.isWide = false := by simpa [Gathering.isWide] using hfew
    rw [pollGathered, gathering?_drain.mpr hg]
    simp only [outcomeOf, endDrain_calls, pollCalls, hnarrow]
    exact foldl_pollFuture_canEnd hs hd hmem hc
  · have hnone : s.gathering? (.drain drain) = none := by simp [gathering?, hfinished]
    rw [pollGathered, hnone]
    exact hall _ hmem

/-- What a poll of a drain of entries comes to. -/
theorem pollGathered_entries {s : Session} (hs : s.Sited) (hd : 1 ≤ s.depth) {drain : Nat}
    {entries : List (Nat × Nat)}
    (hw : s.Watches drain (entries.map fun entry => .call entry.2)) :
    (((s.pollGathered drain).drainEnd? drain).isSome = true ↔
      ∀ entry ∈ entries, ((s.pollGathered drain).outcomeOf entry.2).isSome = true) ∧
    (entries.length ≤ Gathering.fewLimit → (∀ entry ∈ entries, s.CanEnd entry.2) →
      ((s.pollGathered drain).drainEnd? drain).isSome = true) := by
  have hends : _ ↔ ∀ entry ∈ entries, ((s.pollGathered drain).outcomeOf entry.2).isSome = true :=
    (pollGathered_ends hs hw).trans List.forall_mem_map
  refine ⟨hends, fun hfew hcan => hends.mpr fun entry hmem => ?_⟩
  exact pollGathered_canEnd hs hd hw (by simpa using hfew) (List.mem_map_of_mem hmem)
    (hcan entry hmem)

/-! ### The snapshot of a drain -/

/-- How a drain of entries ends: without a failure, or with the one that has the lowest id. -/
def EndsWith (s : Session) (entries : List (Nat × Nat)) : Option CallError → Prop
  | none => ∀ entry ∈ entries, ∃ value, s.outcomeOf entry.2 = some (.ok value)
  | some e => ∃ entry ∈ entries, s.outcomeOf entry.2 = some (.error e) ∧
      ∀ other ∈ entries, other.1 < entry.1 → ∃ value, s.outcomeOf other.2 = some (.ok value)

theorem failureOf_eq_some {s : Session} {call : Nat} {e : CallError} :
    s.failureOf (.call call) = some e ↔ s.outcomeOf call = some (.error e) := by
  rw [failureOf, result]
  split
  · next h => simp [h]
  · next h => exact ⟨(nomatch ·), fun h' => absurd h' (h e)⟩

theorem ok_of_failureOf_eq_none {s : Session} {call : Nat}
    (hsome : (s.outcomeOf call).isSome = true) (h : s.failureOf (.call call) = none) :
    ∃ value, s.outcomeOf call = some (.ok value) := by
  obtain ⟨outcome, ho⟩ := Option.isSome_iff_exists.mp hsome
  cases outcome with
  | ok value => exact ⟨value, ho⟩
  | error e => rw [failureOf_eq_some.mpr ho] at h; cases h

/-- The first failure among entries in the order of their ids is the one with the lowest id. -/
theorem endsWith_findSome? {s : Session} {entries : List (Nat × Nat)}
    (hsorted : entries.Pairwise fun a b => a.1 < b.1)
    (hall : ∀ entry ∈ entries, (s.outcomeOf entry.2).isSome = true) :
    s.EndsWith entries (entries.findSome? fun entry => s.failureOf (.call entry.2)) := by
  cases h : entries.findSome? fun entry => s.failureOf (.call entry.2) with
  | none =>
    exact fun entry hmem =>
      ok_of_failureOf_eq_none (hall entry hmem) (List.findSome?_eq_none_iff.mp h entry hmem)
  | some e =>
    obtain ⟨before, entry, rest, rfl, he, hnone⟩ := List.findSome?_eq_some_iff.mp h
    refine ⟨entry, by simp, failureOf_eq_some.mp he, fun other hmem hlt => ?_⟩
    refine ok_of_failureOf_eq_none (hall other hmem) (hnone other ?_)
    -- Entries behind the failed one have higher ids.
    rcases List.mem_append.mp hmem with hbefore | hrest
    · exact hbefore
    · have hafter := (List.pairwise_append.mp hsorted).2.1
      rcases List.mem_cons.mp hrest with rfl | hrest
      · omega
      · have := List.rel_of_pairwise_cons hafter hrest
        omega

theorem Attained.entries_sorted {s : Session} (h : s.Attained) (n : Nat) :
    (s.tracker n).entries.Pairwise fun a b => a.1 < b.1 := by
  rw [Session.tracker, List.getD_eq_getElem?_getD]
  cases ht : s.trackers[n]? with
  | none => exact .nil
  | some t => exact List.pairwise_map.mp (h.sound.ascending t (List.mem_of_getElem? ht))

/-- What the first poll of a drain comes to. -/
theorem Attained.pollDrain_fresh_ends {s : Session} (h : s.Attained) {drain n : Nat}
    (hd : s.drains[drain]? = some (.fresh n)) :
    (((s.pollDrain drain).drainEnd? drain).isSome = true ↔
      ∀ entry ∈ (s.tracker n).entries, ((s.pollDrain drain).outcomeOf entry.2).isSome = true) ∧
    ((s.tracker n).entries.length ≤ Gathering.fewLimit →
      (∀ entry ∈ (s.tracker n).entries, s.CanEnd entry.2) →
      ((s.pollDrain drain).drainEnd? drain).isSome = true) := by
  have hgather := gather_watch_steps s (.drain drain) ((s.tracker n).calls.map .call)
  obtain ⟨hends, hfew⟩ := pollGathered_entries (gather_sited hd h.sited)
    (hgather.undisturbed.depth ▸ h.depth_pos) (gather_watches hd)
  rw [pollDrain_fresh hd]
  exact ⟨hends, fun hlen hcan => hfew hlen fun entry hmem => hgather.canEnd (hcan entry hmem)⟩

/-- What a later poll of a drain comes to. -/
theorem Attained.pollDrain_ends {s : Session} (h : s.Attained) {drain : Nat}
    {entries : List (Nat × Nat)} (hw : s.Watches drain (entries.map fun entry => .call entry.2)) :
    (((s.pollDrain drain).drainEnd? drain).isSome = true ↔
      ∀ entry ∈ entries, ((s.pollDrain drain).outcomeOf entry.2).isSome = true) ∧
    (entries.length ≤ Gathering.fewLimit → (∀ entry ∈ entries, s.CanEnd entry.2) →
      ((s.pollDrain drain).drainEnd? drain).isSome = true) := by
  rw [pollDrain_of_watches hw]
  exact pollGathered_entries h.sited h.depth_pos hw

theorem pollWithin_settled (depth : Nat) {s : Session} {call : Nat}
    (ho : (s.outcomeOf call).isSome = true) : pollWithin depth s call = s := by
  have hnone : s.unsettled? call = none := by
    obtain ⟨outcome, ho⟩ := Option.isSome_iff_exists.mp ho
    obtain ⟨c, hc, hco⟩ := Option.bind_eq_some_iff.mp ho
    simp [unsettled?, hc, hco]
  cases depth with
  | zero => rfl
  | succ depth => rw [pollWithin, hnone]

theorem poll_settled {s : Session} {call : Nat} {outcome : Outcome}
    (ho : s.outcomeOf call = some outcome) : s.poll call = s :=
  pollWithin_settled s.depth (by rw [ho]; rfl)

theorem await_settled {s : Session} {call : Nat} {outcome : Outcome}
    (ho : s.outcomeOf call = some outcome) : s.await (.call call) = (some outcome, s) := by
  have hresult : s.result (.call call) = some outcome := ho
  simp only [await, waitFor, pollFuture, poll_settled ho, hresult]

/-- A drain that is first polled in a session watches the entries `S` which its tracker has then,
whatever happens between the steps of anyone later on.  If it has ended, all calls of `S` have, and
it has ended with the failure of the lowest id in `S`, or without one.  Each of its polls, the first
one included, ends it if and only if all calls of `S` have ended after the poll, and a poll ends by
itself what can end among few calls.  A call that has ended is not run again: polls do nothing, and
everyone who waits for it gets the outcome that the drain has seen. -/
theorem Attained.drain_snapshot {s : Session} (h : s.Attained) {drain n : Nat}
    (hd : s.drains[drain]? = some (.fresh n)) {S : List (Nat × Nat)}
    (hS : S = (s.tracker n).entries) :
    (∀ u failure, Steps (s.pollDrain drain) u → u.drainEnd? drain = some failure →
      (∀ entry ∈ S, (u.outcomeOf entry.2).isSome = true) ∧ u.EndsWith S failure ∧
        ∀ v, Steps u v → v.drainEnd? drain = some failure) ∧
    (∀ u, u = s ∨ Steps (s.pollDrain drain) u →
      (((u.pollDrain drain).drainEnd? drain).isSome = true ↔
        ∀ entry ∈ S, ((u.pollDrain drain).outcomeOf entry.2).isSome = true) ∧
      (S.length ≤ Gathering.fewLimit → (∀ entry ∈ S, u.CanEnd entry.2) →
        ((u.pollDrain drain).drainEnd? drain).isSome = true)) ∧
    ∀ u call outcome, Steps s u → u.outcomeOf call = some outcome →
      u.poll call = u ∧ (u.await (.call call)).1 = some outcome ∧
        ∀ v, Steps u v → v.outcomeOf call = some outcome := by
  subst hS
  have hs := h.sited
  have hwatches := pollDrain_watches hd hs
  have hpoll := pollDrain_steps hs drain
  refine ⟨fun u failure hu he => ?_, fun u hu => ?_, fun u call outcome hu ho => ?_⟩
  · have hw := hu.watches hwatches
    obtain ⟨hall, rfl⟩ := hw.drainEnd? he
    have hsettled : ∀ entry ∈ (s.tracker n).entries, (u.outcomeOf entry.2).isSome = true :=
      fun entry hmem => hall _ (List.mem_map_of_mem hmem)
    refine ⟨hsettled, ?_, fun v hv => Steps.drainEnd? hv he⟩
    rw [List.findSome?_map]
    exact endsWith_findSome? (h.entries_sorted n) hsettled
  · rcases hu with rfl | hu
    · exact h.pollDrain_fresh_ends hd
    · have hsteps : Steps s u := hpoll.trans hu
      exact (h.steps hsteps).pollDrain_ends (hu.watches hwatches)
  · exact ⟨poll_settled ho, by rw [await_settled ho], fun v hv => hv.continues.outcomeOf ho⟩

/-- A drain of two calls that has not been polled. -/
def twoGates : Session :=
  (initial true {}).after [.addTracker, .start 0 .gated, .start 0 .gated, .addDrain 0]

/-- The second call fails first, and a third one has not ended. -/
theorem drain_snapshot_twoGates :
    let u := (twoGates.pollDrain 0).after
      [.start 0 .gated, .settleGate 1 (.error (.transport "b" "late")), .poll 1,
        .settleGate 0 (.error (.transport "a" "early")), .pollDrain 0]
    u.drainEnd? 0 = some (some (.transport "a" "early")) ∧
      u.EndsWith [(1, 0), (2, 1)] (some (.transport "a" "early")) := by
  intro u
  have hs : twoGates.Attained := Reachable.attained ⟨true, {}, _, rfl⟩
  have hd : twoGates.drains[0]? = some (.fresh 0) := rfl
  have hu : Steps (twoGates.pollDrain 0) u :=
    after_steps ((pollDrain_steps hs.sited 0).sited hs.sited) _
  have hend : u.drainEnd? 0 = some (some (.transport "a" "early")) := by decide +kernel
  exact ⟨hend, ((Attained.drain_snapshot hs hd rfl).1 u _ hu hend).2.1⟩

end OperationTree.Session
