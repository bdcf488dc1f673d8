import OperationTree.Proofs.Session.Origin

/-! What becomes of a call in the course of time.  Its work goes on in one direction only, and a
call that is to call others waits, or has been refused, or has called all of them in one change. -/

namespace OperationTree

/-- Work that has gone on. -/
inductive Work.Evolves : Work → Work → Prop
  | refl (work : Work) : Evolves work work
  | turn {work work' work'' : Work} (h : Evolves work work') (ht : work'.Turns work'') :
    Evolves work work''
  | fan {work : Work} {site : Site} {ids : List String} {request : Request} (g : Gathering)
    (h : Evolves work (.aggregate site ids request)) : Evolves work (.collecting g)

/-- Work of something outside that has been asked, and whose answer may have arrived. -/
inductive Work.HasAnswer (outcome : Outcome) : Work → Prop
  | answered : HasAnswer outcome (.answered outcome)
  | ready : HasAnswer outcome (.ready outcome)

theorem Work.HasAnswer.turns {outcome : Outcome} {work work' : Work}
    (h : work.HasAnswer outcome) (ht : work.Turns work') : work'.HasAnswer outcome := by
  cases h with
  | answered =>
    cases ht
    exact .ready
  | ready => cases ht

namespace Work.Evolves

variable {work : Work}

theorem of_ready {outcome : Outcome} (h : (Work.ready outcome).Evolves work) :
    work = .ready outcome := by
  induction h with
  | refl => rfl
  | turn _ ht ih => subst ih; cases ht
  | fan _ _ ih => cases ih

theorem of_gate {gate : Nat} (h : (Work.gate gate).Evolves work) : work = .gate gate := by
  induction h with
  | refl => rfl
  | turn _ ht ih => subst ih; cases ht
  | fan _ _ ih => cases ih

theorem hasAnswer {work' : Work} {outcome : Outcome} (h : work.Evolves work')
    (hw : work.HasAnswer outcome) : work'.HasAnswer outcome := by
  induction h with
  | refl => exact hw
  | turn _ ht ih => exact ih.turns ht
  | fan _ _ ih => cases ih

theorem of_exchange {e : Exchange} (h : (Work.exchange e).Evolves work) :
    work = .exchange e ∨ ∃ outcome, work.HasAnswer outcome := by
  induction h with
  | refl => exact .inl rfl
  | turn _ ht ih =>
    rcases ih with rfl | ⟨outcome, hanswer⟩
    · cases ht
      exact .inr ⟨_, .answered⟩
    · exact .inr ⟨outcome, hanswer.turns ht⟩
  | fan _ _ ih =>
    rcases ih with ih | ⟨_, ih⟩
    · cases ih
    · cases ih

theorem of_collecting {g : Gathering} (h : (Work.collecting g).Evolves work) :
    ∃ g', work = .collecting g' ∧ g'.futures = g.futures := by
  induction h with
  | refl => exact ⟨g, rfl, rfl⟩
  | turn _ ht ih =>
    obtain ⟨g', rfl, hf⟩ := ih
    cases ht with
    | regathered hf' => exact ⟨_, rfl, hf'.trans hf⟩
  | fan _ _ ih =>
    obtain ⟨_, h, -⟩ := ih
    cases h

theorem to_aggregate {site : Site} {ids : List String} {request : Request}
    (h : work.Evolves (.aggregate site ids request)) : work = .aggregate site ids request := by
  cases h with
  | refl => rfl
  | turn _ ht => exact absurd rfl (ht.ne_aggregate site ids request)

end Work.Evolves

namespace Session

theorem Step.gathers {s s' : Session} (h : Step s s') {call : Nat} {futures : List Future}
    (hg : s.Gathers call futures) : s'.Gathers call futures := by
  cases h with
  | call h => exact h.gathers hg
  | arrive hc hw => exact hg.of_work hc rfl (by simp [hw])
  | beginShutdown =>
    rw [Session.beginShutdown]
    split <;> exact hg
  | _ => exact hg

theorem Steps.gathers {s s' : Session} (h : Steps s s') {call : Nat} {futures : List Future}
    (hg : s.Gathers call futures) : s'.Gathers call futures := by
  induction h with
  | refl => exact hg
  | tail _ step ih => exact step.gathers ih

variable {ok : Action → Prop} {x y : Hand × Session}

/-- What a deed does with a call that is there: it leaves the work and may end the call in a way
that the work allows, or the work takes a turn, or the call was to call others. -/
theorem Deed.continued (h : Deed ok x y) (hs : x.2.Sited) {n : Nat} {c : Call}
    (hc : x.2.calls[n]? = some c) : ∃ c', y.2.calls[n]? = some c' ∧
      ((c'.work = c.work ∧ (c'.outcome = c.outcome ∨
          ∃ outcome, c'.outcome = some outcome ∧ x.2.Allows c.work outcome)) ∨
        c.work.Turns c'.work ∨
        ∃ site ids request, c.work = .aggregate site ids request) := by
  obtain ⟨c', hc', -⟩ := (h.steps hs).continues n c hc
  refine ⟨c', hc', ?_⟩
  cases h.origin hc' with
  | same hget hw ho =>
    obtain rfl := Option.some.inj (hc.symm.trans hget)
    exact .inl ⟨hw, .inl ho⟩
  | turned hopen ht =>
    obtain rfl := Option.some.inj (hc.symm.trans (unsettled?_eq_some.mp hopen).1)
    exact .inr (.inl ht)
  | fanned hopen hw =>
    obtain rfl := Option.some.inj (hc.symm.trans (unsettled?_eq_some.mp hopen).1)
    exact .inr (.inr ⟨_, _, _, hw⟩)
  | started hn => exact absurd (List.getElem?_eq_some_iff.mp hc).1 (Nat.not_lt.mpr hn)
  | ended hopen hw ho ha =>
    obtain rfl := Option.some.inj (hc.symm.trans (unsettled?_eq_some.mp hopen).1)
    exact .inl ⟨hw, .inr ⟨_, ho, ha⟩⟩

/-- A call that has not ended has gone on, or ended. -/
theorem Deeds.evolves (h : Deeds ok x y) (hs : x.2.Sited) {n : Nat} {c : Call}
    (hc : x.2.unsettled? n = some c) : (y.2.outcomeOf n).isSome = true ∨
      ∃ c', y.2.unsettled? n = some c' ∧ c.work.Evolves c'.work := by
  induction h with
  | refl => exact .inr ⟨c, hc, .refl _⟩
  | @tail y z deeds deed ih =>
    have hcontinues := (deed.steps ((Deeds.steps deeds hs).sited hs)).continues
    rcases ih with hended | ⟨c1, hc1, hevolves⟩
    · obtain ⟨outcome, ho⟩ := Option.isSome_iff_exists.mp hended
      exact .inl (by rw [hcontinues.outcomeOf ho]; rfl)
    · obtain ⟨hget, hopen⟩ := unsettled?_eq_some.mp hc1
      obtain ⟨c', hc', -⟩ := hcontinues n c1 hget
      cases deed.origin hc' with
      | same hget' hw ho =>
        obtain rfl := Option.some.inj (hget.symm.trans hget')
        exact .inr ⟨c', unsettled?_eq_some.mpr ⟨hc', ho.trans hopen⟩, hw ▸ hevolves⟩
      | turned hc2 ht ho =>
        obtain rfl := Option.some.inj (hc1.symm.trans hc2)
        exact .inr ⟨c', unsettled?_eq_some.mpr ⟨hc', ho⟩, hevolves.turn ht⟩
      | fanned hc2 hw _ _ hw' ho =>
        obtain rfl := Option.some.inj (hc1.symm.trans hc2)
        refine .inr ⟨c', unsettled?_eq_some.mpr ⟨hc', ho⟩, ?_⟩
        rw [hw']
        exact .fan _ (hw ▸ hevolves)
      | started hn =>
        exact absurd (List.getElem?_eq_some_iff.mp hget).1 (Nat.not_lt.mpr hn)
      | ended _ _ ho => exact .inl (by simp [outcomeOf, hc', ho])

theorem Moves.evolves (h : Moves x y) (hs : x.2.Sited) {n : Nat} {c : Call}
    (hc : x.2.unsettled? n = some c) : (y.2.outcomeOf n).isSome = true ∨
      ∃ c', y.2.unsettled? n = some c' ∧ c.work.Evolves c'.work :=
  Deeds.evolves (Moves.deeds h : Deeds (fun _ => True) x y) hs hc

theorem AnyDeeds.evolves {s t : Session} (h : s.AnyDeeds t) (hs : s.Sited) {n : Nat} {c : Call}
    (hc : s.unsettled? n = some c) : (t.outcomeOf n).isSome = true ∨
      ∃ c', t.unsettled? n = some c' ∧ c.work.Evolves c'.work :=
  Deeds.evolves (h []) hs hc

/-- What has become in `y` of a call that was to call others in `x`. -/
inductive Fate (ok : Action → Prop) (x : Hand × Session) (call : Nat) (site : Site)
    (ids : List String) (request : Request) (y : Hand × Session) : Prop
  | waits {c : Call} (hc : y.2.unsettled? call = some c)
    (hw : c.work = .aggregate site ids request)
  /-- The paths have not been resolved, and nothing has been called. -/
  | refused {z : Hand × Session} {c : Call} {e : CallError} (before : Deeds ok x z)
    (later : Deeds ok z y) (he : z.2.resolve site ids = (.error e, z.2))
    (hc : y.2.calls[call]? = some c) (hw : c.work = .aggregate site ids request)
    (ho : c.outcome = some (.error e))
  | fanned {z : Hand × Session} {hand : Hand} {c : Call} {operations : List Operation}
    (before : Deeds ok x z) (hc : z.2.unsettled? call = some c)
    (hw : c.work = .aggregate site ids request)
    (hfound : z.2.resolved.lookup site = some operations)
    (fan : Deeds ok z (hand, z.2.fanOut call request operations))
    (later : Deeds ok (hand, z.2.fanOut call request operations) y)

theorem Deeds.fate (h : Deeds ok x y) (hs : x.2.Sited) {call : Nat} {c : Call} {site : Site}
    {ids : List String} {request : Request} (hc : x.2.unsettled? call = some c)
    (hw : c.work = .aggregate site ids request) : Fate ok x call site ids request y := by
  induction h with
  | refl => exact .waits hc hw
  | @tail y z deeds deed ih =>
    have hcontinues := (deed.steps ((Deeds.steps deeds hs).sited hs)).continues
    cases ih with
    | fanned before hc' hw' hfound fan later =>
      exact .fanned before hc' hw' hfound fan (later.tail deed)
    | refused before later he hget hw' ho =>
      obtain ⟨c', hc', hcc⟩ := hcontinues call _ hget
      obtain ⟨ho', hwork⟩ := hcc.ended _ ho
      exact .refused before (later.tail deed) he hc' (hwork.trans hw') ho'
    | waits hc1 hw1 =>
      obtain ⟨hget, hopen⟩ := unsettled?_eq_some.mp hc1
      obtain ⟨c', hc', -⟩ := hcontinues call _ hget
      cases deed.origin hc' with
      | same hget' hw' ho =>
        obtain rfl := Option.some.inj (hget.symm.trans hget')
        exact .waits (unsettled?_eq_some.mpr ⟨hc', ho.trans hopen⟩) (hw'.trans hw1)
      | turned hc2 ht =>
        obtain rfl := Option.some.inj (hc1.symm.trans hc2)
        rw [hw1] at ht
        nomatch ht
      | @fanned _ _ _ _ operations hc2 hw2 hfound hz =>
        obtain rfl := Option.some.inj (hc1.symm.trans hc2)
        obtain ⟨rfl, rfl, rfl⟩ := Work.aggregate.inj (hw1.symm.trans hw2)
        obtain ⟨hand, s⟩ := z
        obtain rfl : s = _ := hz
        exact .fanned deeds hc1 hw1 hfound (.single deed) .refl
      | started hn =>
        exact absurd (List.getElem?_eq_some_iff.mp hget).1 (Nat.not_lt.mpr hn)
      | ended hc2 hw2 ho ha =>
        obtain rfl := Option.some.inj (hc1.symm.trans hc2)
        rw [hw1] at ha
        obtain ⟨e, he, rfl⟩ := ha
        exact .refused deeds (.single deed) he hc' (hw2.trans hw1) ho

/-! ### Calls that end by themselves -/

/-- What waking leaves as it is. -/
structure Woken (s s' : Session) : Prop where
  outcomes : s'.calls.map Call.outcome = s.calls.map Call.outcome
  trackers : s'.trackers = s.trackers
  gates : s'.gates = s.gates
  outside : s'.outside = s.outside
  tasks : s'.tasks = s.tasks
  resolved : s'.resolved = s.resolved

theorem Nudge.woken {x y : Hand × Session} (h : Nudge x y) : x.2.Woken y.2 := by
  cases h with
  | queue | heed | leave => exact ⟨rfl, rfl, rfl, rfl, rfl, rfl⟩
  | @push _ s waiter place g =>
    cases waiter with
    | call number =>
      have houtcomes : (s.setGathering (g.push place) (.call number)).calls.map Call.outcome =
          s.calls.map Call.outcome :=
        map_modify_eq (f := fun c => { c with work := .collecting (g.push place) })
          (fun _ => rfl) s.calls number
      exact ⟨houtcomes, rfl, rfl, rfl, rfl, rfl⟩
    | drain | shutdown => exact ⟨rfl, rfl, rfl, rfl, rfl, rfl⟩

theorem Nudges.woken {x y : Hand × Session} (h : Nudges x y) : x.2.Woken y.2 := by
  induction h with
  | refl => exact ⟨rfl, rfl, rfl, rfl, rfl, rfl⟩
  | tail _ step ih =>
    have h := step.woken
    exact ⟨h.outcomes.trans ih.outcomes, h.trackers.trans ih.trackers, h.gates.trans ih.gates,
      h.outside.trans ih.outside, h.tasks.trans ih.tasks, h.resolved.trans ih.resolved⟩

/-- A call ends with an outcome and leaves its tracker.  Nothing is started or asked, and no other
call ends. -/
structure EndsAlone (s : Session) (call : Nat) (outcome : Outcome) (s' : Session) : Prop where
  outcomes : s'.calls.map Call.outcome = (s.calls.map Call.outcome).set call (some outcome)
  trackers : ∃ c, s.unsettled? call = some c ∧
    s'.trackers = s.trackers.modify c.tracker (·.erase c.id)
  gates : s'.gates = s.gates
  outside : s'.outside = s.outside
  tasks : s'.tasks = s.tasks
  resolved : s'.resolved = s.resolved

theorem EndsAlone.length {s s' : Session} {call : Nat} {outcome : Outcome}
    (h : s.EndsAlone call outcome s') : s'.calls.length = s.calls.length := by
  simpa using congrArg List.length h.outcomes

theorem settle_endsAlone {s : Session} {call : Nat} {c : Call} (hc : s.unsettled? call = some c)
    (outcome : Outcome) : s.EndsAlone call outcome (s.settle call outcome) := by
  have hwoken := (wake_nudges [] (s.finish call c outcome) (.call call)).woken
  rw [settle, hc]
  exact ⟨hwoken.outcomes.trans List.map_set, ⟨c, hc, hwoken.trackers⟩, hwoken.gates,
    hwoken.outside, hwoken.tasks, hwoken.resolved⟩

end Session
end OperationTree
