import OperationTree.Proofs.Session.CallStep

/-! What polling and waking calls leave as it is.  Trees, shutdowns and closings do not change, a
drain goes on gathering the same futures, and a call keeps its place in its tracker; once a call has
ended, neither its outcome nor its work changes. -/

namespace OperationTree

/-- A call goes on: it keeps its place, and after its end it stays as it is. -/
structure Call.Continues (c c' : Call) : Prop where
  tracker : c'.tracker = c.tracker
  id : c'.id = c.id
  ended : ∀ outcome, c.outcome = some outcome → c'.outcome = some outcome ∧ c'.work = c.work

theorem Call.Continues.refl (c : Call) : c.Continues c := ⟨rfl, rfl, fun _ h => ⟨h, rfl⟩⟩

theorem Call.Continues.trans {c c1 c2 : Call} (h1 : c.Continues c1) (h2 : c1.Continues c2) :
    c.Continues c2 where
  tracker := h2.tracker.trans h1.tracker
  id := h2.id.trans h1.id
  ended outcome h := by
    obtain ⟨ho, hw⟩ := h1.ended outcome h
    exact ⟨(h2.ended outcome ho).1, (h2.ended outcome ho).2.trans hw⟩

/-- A drain without what is due and taken among its calls. -/
def Drain.outline : Drain → Drain
  | waiting g => waiting { futures := g.futures }
  | d => d

theorem Drain.eq_waiting {d : Drain} {g : Gathering} (h : d.outline = (Drain.waiting g).outline) :
    ∃ g', d = .waiting g' ∧ g'.futures = g.futures := by
  cases d with
  | waiting g' =>
    simp only [outline, waiting.injEq, Gathering.mk.injEq] at h
    exact ⟨g', rfl, h.1⟩
  | fresh | finished => simp [outline] at h

theorem Drain.eq_finished {d : Drain} {failure : Option CallError}
    (h : d.outline = (Drain.finished failure).outline) : d = .finished failure := by
  cases d with
  | finished => exact h
  | fresh | waiting => simp [outline] at h

namespace Session

/-- Every call of `s` goes on in `s'`. -/
def CallsContinue (s s' : Session) : Prop :=
  ∀ (n : Nat) (c : Call), s.calls[n]? = some c → ∃ c', s'.calls[n]? = some c' ∧ c.Continues c'

namespace CallsContinue

variable {s s' : Session}

theorem refl (s : Session) : s.CallsContinue s := fun _ c h => ⟨c, h, .refl c⟩

theorem trans {s1 s2 : Session} (h1 : s.CallsContinue s1) (h2 : s1.CallsContinue s2) :
    s.CallsContinue s2 := by
  intro n c h
  obtain ⟨c1, hc1, hcc1⟩ := h1 n c h
  obtain ⟨c2, hc2, hcc2⟩ := h2 n c1 hc1
  exact ⟨c2, hc2, hcc1.trans hcc2⟩

theorem of_eq (h : s'.calls = s.calls) : s.CallsContinue s' :=
  fun _ c hc => ⟨c, h ▸ hc, .refl c⟩

theorem of_extends (h : s.calls <+: s'.calls) : s.CallsContinue s' :=
  fun _ c hc => ⟨c, getElem?_of_extends h hc, .refl c⟩

theorem of_modify {call : Nat} {f : Call → Call} (h : s'.calls = s.calls.modify call f)
    (hf : ∀ c, s.calls[call]? = some c → c.Continues (f c)) : s.CallsContinue s' := by
  intro n c hc
  rw [h]
  exact exists_modified .refl hf hc

theorem outcomeOf (h : s.CallsContinue s') {n : Nat} {outcome : Outcome}
    (hn : s.outcomeOf n = some outcome) : s'.outcomeOf n = some outcome := by
  obtain ⟨c, hc, hco⟩ := Option.bind_eq_some_iff.mp hn
  obtain ⟨c', hc', hcc⟩ := h n c hc
  exact Option.bind_eq_some_iff.mpr ⟨c', hc', (hcc.ended outcome hco).1⟩

theorem result (h : s.CallsContinue s') {future : Future} {outcome : Outcome}
    (hn : s.result future = some outcome) : s'.result future = some outcome := by
  cases future with
  | settled => exact hn
  | call n => exact h.outcomeOf hn

theorem isSome (h : s.CallsContinue s') {future : Future}
    (hn : (s.result future).isSome = true) : (s'.result future).isSome = true := by
  obtain ⟨outcome, ho⟩ := Option.isSome_iff_exists.mp hn
  exact Option.isSome_iff_exists.mpr ⟨outcome, h.result ho⟩

theorem ended (h : s.CallsContinue s') {n : Nat} (hn : (s.outcomeOf n).isSome = true) :
    (s'.outcomeOf n).isSome = true :=
  (h.isSome hn : (s'.result (.call n)).isSome = true)

end CallsContinue

theorem setWork_continues {s : Session} {call : Nat} {c : Call} (work : Work)
    (hc : s.unsettled? call = some c) : s.CallsContinue (s.setWork call work) := by
  obtain ⟨hget, hopen⟩ := unsettled?_eq_some.mp hc
  refine .of_modify rfl fun c' hc' => ⟨rfl, rfl, fun outcome ho => ?_⟩
  obtain rfl := Option.some.inj (hget.symm.trans hc')
  rw [hopen] at ho
  cases ho

theorem finish_continues {s : Session} {call : Nat} {c : Call} (outcome : Outcome)
    (hc : s.unsettled? call = some c) : s.CallsContinue (s.finish call c outcome) := by
  obtain ⟨hget, hopen⟩ := unsettled?_eq_some.mp hc
  have hcontinues : c.Continues { c with outcome := some outcome } :=
    ⟨rfl, rfl, fun _ ho => by cases hopen.symm.trans ho⟩
  exact fun _ _ hc' => exists_replaced .refl hget hcontinues hc'

/-- Only a call that is not settled gathers. -/
theorem gathering?_call {s : Session} {call : Nat} {g : Gathering}
    (h : s.gathering? (.call call) = some g) :
    ∃ c, s.unsettled? call = some c ∧ c.work = .collecting g := by
  rw [gathering?] at h
  split at h
  · next c hc => exact ⟨_, hc, by rw [Option.some.inj h]⟩
  · cases h

theorem gathering?_eq_some {s : Session} {call : Nat} {c : Call} {g : Gathering}
    (hc : s.unsettled? call = some c) (hw : c.work = .collecting g) :
    s.gathering? (.call call) = some g := by
  obtain ⟨_, _, _, _, _, _⟩ := c
  obtain rfl := hw
  rw [gathering?, hc]

theorem gathering?_drain {s : Session} {drain : Nat} {g : Gathering} :
    s.gathering? (.drain drain) = some g ↔ s.drains[drain]? = some (.waiting g) := by
  rw [gathering?]
  split
  · next h => simp [h]
  · next h => exact ⟨(nomatch ·), fun h' => absurd h' (h g)⟩

/-- A drain that is set to one with the same outline keeps the outlines of all drains. -/
theorem setDrain_outline {s : Session} {drain : Nat} {d d' : Drain} (hd : s.drains[drain]? = some d)
    (ho : d'.outline = d.outline) :
    (s.setDrain drain d').drains.map Drain.outline = s.drains.map Drain.outline :=
  map_set_eq hd ho

/-- What polls of calls leave as it is. -/
structure Undisturbed (s s' : Session) : Prop where
  calls : s.CallsContinue s'
  trees : s'.trees = s.trees
  shutdowns : s'.shutdowns = s.shutdowns
  closings : s'.closings = s.closings
  depth : s'.depth = s.depth
  drains : s'.drains.map Drain.outline = s.drains.map Drain.outline
  gates : s.gates <+: s'.gates

namespace Undisturbed

variable {s s' : Session}

theorem drain (h : s.Undisturbed s') {number : Nat} {d : Drain}
    (hd : s.drains[number]? = some d) :
    ∃ d', s'.drains[number]? = some d' ∧ d'.outline = d.outline := by
  have hmap := congrArg (·[number]?) h.drains
  simpa [List.getElem?_map, hd] using hmap

/-- A drain that waits goes on waiting for the same futures. -/
theorem waiting (h : s.Undisturbed s') {number : Nat} {g : Gathering}
    (hd : s.drains[number]? = some (.waiting g)) :
    ∃ g', s'.drains[number]? = some (.waiting g') ∧ g'.futures = g.futures := by
  obtain ⟨d, hd', ho⟩ := h.drain hd
  obtain ⟨g', rfl, hf⟩ := Drain.eq_waiting ho
  exact ⟨g', hd', hf⟩

end Undisturbed

theorem CallStep.undisturbed {s s' : Session} (h : CallStep s s') : s.Undisturbed s' := by
  cases h with
  | queue | spawn | keep => exact ⟨.refl _, rfl, rfl, rfl, rfl, rfl, List.prefix_rfl⟩
  | openGate => exact ⟨.refl _, rfl, rfl, rfl, rfl, rfl, List.prefix_append _ _⟩
  | register =>
    exact ⟨.of_extends (List.prefix_append _ _), rfl, rfl, rfl, rfl, rfl, List.prefix_rfl⟩
  | addWaiter call waiter =>
    have hcalls : s.CallsContinue (s.addWaiter call waiter) :=
      .of_modify (f := fun c => { c with waiters := c.waiters ++ [waiter] }) rfl
        fun _ _ => ⟨rfl, rfl, fun _ h => ⟨h, rfl⟩⟩
    exact ⟨hcalls, rfl, rfl, rfl, rfl, rfl, List.prefix_rfl⟩
  | release call =>
    have hcalls : s.CallsContinue (s.release call) :=
      .of_modify (f := fun c => { c with isHeld := false }) rfl
        fun _ _ => ⟨rfl, rfl, fun _ h => ⟨h, rfl⟩⟩
    exact ⟨hcalls, rfl, rfl, rfl, rfl, rfl, List.prefix_rfl⟩
  | @regather waiter g g' hg hf =>
    cases waiter with
    | call call =>
      obtain ⟨c, hc, -⟩ := gathering?_call hg
      exact ⟨setWork_continues _ hc, rfl, rfl, rfl, rfl, rfl, List.prefix_rfl⟩
    | drain drain =>
      have hd := setDrain_outline (gathering?_drain.mp hg)
        (show (Drain.waiting g').outline = (Drain.waiting g).outline by simp [Drain.outline, hf])
      exact ⟨.refl _, rfl, rfl, rfl, rfl, hd, List.prefix_rfl⟩
    | shutdown => cases hg
  | collect _ hc => exact ⟨setWork_continues _ hc, rfl, rfl, rfl, rfl, rfl, List.prefix_rfl⟩
  | ask hc _ _ =>
    exact ⟨setWork_continues (s := { s with outside := _ }) _ hc, rfl, rfl, rfl, rfl, rfl,
      List.prefix_rfl⟩
  | finish _ hc => exact ⟨finish_continues _ hc, rfl, rfl, rfl, rfl, rfl, List.prefix_rfl⟩

theorem CallSteps.undisturbed {s s' : Session} (h : CallSteps s s') : s.Undisturbed s' := by
  induction h with
  | refl => exact ⟨.refl _, rfl, rfl, rfl, rfl, rfl, List.prefix_rfl⟩
  | tail _ step ih =>
    have h := step.undisturbed
    exact ⟨ih.calls.trans h.calls, h.trees.trans ih.trees, h.shutdowns.trans ih.shutdowns,
      h.closings.trans ih.closings, h.depth.trans ih.depth, h.drains.trans ih.drains,
      ih.gates.trans h.gates⟩

end Session
end OperationTree
