import OperationTree.Proofs.Session.Alert

/-! Calls that the next poll ends.  A call is ripe when it can end by itself, or all that it gathers
has settled, or one of few has failed.  Whatever happens in between, a ripe call stays so until it
has ended, and a poll ends it; and a ripe call can go on, so everyone who polls it has been told. -/

namespace OperationTree.Session

open Relation

/-- What is gathered has come to something. -/
def HasSettled (s : Session) (g : Gathering) : Prop :=
  (∀ future ∈ g.futures, (s.result future).isSome = true) ∨
    (g.isWide = false ∧ ∃ future ∈ g.futures, ∃ e, s.result future = some (.error e))

/-- A call has ended, or the next poll of it ends it. -/
def IsRipe (s : Session) (call : Nat) : Prop :=
  s.CanEnd call ∨ ∃ g, s.gathering? (.call call) = some g ∧ s.HasSettled g

theorem canEnd_of_isSome {s : Session} {call : Nat} (h : (s.outcomeOf call).isSome = true) :
    s.CanEnd call := by
  obtain ⟨outcome, ho⟩ := Option.isSome_iff_exists.mp h
  obtain ⟨c, hc, hco⟩ := Option.bind_eq_some_iff.mp ho
  exact ⟨c, hc, .inl (by rw [hco]; rfl)⟩

theorem Step.canEnd {s s' : Session} (h : Step s s') {call : Nat} (hc : s.CanEnd call) :
    s'.CanEnd call := by
  have hg : s.KeepsGates s' := fun _ _ => h.gateOutcome
  cases h with
  | call h => exact h.canEnd hc
  | arrive hopen hw => exact hc.of_work hg hopen (by rw [immediate?, hw]) rfl
  | beginShutdown =>
    refine hc.of_call hg fun c hget => ⟨c, ?_, .refl s c⟩
    rw [Session.beginShutdown]
    split <;> exact hget
  | _ => exact hc.of_call hg fun c hget => ⟨c, hget, .refl s c⟩

theorem Steps.canEnd {s s' : Session} (h : Steps s s') {call : Nat} (hc : s.CanEnd call) :
    s'.CanEnd call := by
  induction h with
  | refl => exact hc
  | tail _ step ih => exact step.canEnd ih

theorem HasSettled.later {s t : Session} (h : s.CallsContinue t) {g g' : Gathering}
    (hf : g'.futures = g.futures) (hs : s.HasSettled g) : t.HasSettled g' := by
  rw [HasSettled, hf, Gathering.isWide, hf]
  rcases hs with hall | ⟨hw, future, hmem, e, he⟩
  · exact .inl fun future hmem => h.isSome (hall future hmem)
  · exact .inr ⟨hw, future, hmem, e, h.result he⟩

/-- A ripe call stays so, whatever happens. -/
theorem IsRipe.later {s t : Session} (hs : s.Sited) (h : s.AnyDeeds t) {call : Nat}
    (hr : s.IsRipe call) : t.IsRipe call := by
  have hsteps := h.steps hs
  rcases hr with hend | ⟨g, hg, hsettled⟩
  · exact .inl (hsteps.canEnd hend)
  · obtain ⟨c, hc, hw⟩ := gathering?_call hg
    rcases h.evolves hs hc with hended | ⟨c', hc', hevolves⟩
    · exact .inl (canEnd_of_isSome hended)
    · obtain ⟨g', hw', hf⟩ := (hw ▸ hevolves).of_collecting
      exact .inr ⟨g', gathering?_eq_some hc' hw', hsettled.later hsteps.continues hf⟩

/-- A poll ends a ripe call. -/
theorem IsRipe.poll {s : Session} (hs : s.Sited) (hw : Wired ([], s)) (hd : 1 ≤ s.depth)
    {call : Nat} (hr : s.IsRipe call) : ((s.poll call).outcomeOf call).isSome = true := by
  rcases hr with hend | ⟨g, hg, hsettled⟩
  · exact hend.poll hd
  · cases hwide : g.isWide with
    | false =>
      obtain ⟨c, hc, hwork⟩ := gathering?_call hg
      rw [poll_unsettled hd hc, hwork]
      exact pollTargets_decided (pollWithin_moves (s.depth - 1))
        (fun _ _ => pollWithin_settled _) hs hg hwide (hsettled.imp_right And.right)
    | true =>
      refine hw.poll_settles hs hd hg (hsettled.resolve_right fun hfew => ?_)
      cases hwide.symm.trans hfew.1

/-- Of many futures that have settled some are due, or all results have been taken. -/
theorem hasNews_of_settled {s : Session} (hw : Wired ([], s)) {call : Nat} {g : Gathering}
    (hg : s.gathering? (.call call) = some g) (hwide : g.isWide = true)
    (hall : ∀ future ∈ g.futures, (s.result future).isSome = true) : s.HasNews g := by
  obtain ⟨hgathering, hopen⟩ := gathering?_iff.mp hg
  refine or_iff_not_imp_left.mpr fun hdue => progressFrom_taken hall 0 fun place hlt => ?_
  rw [not_not] at hdue
  rw [Nat.zero_add]
  by_contra htaken
  have hnone := hw.missed call g place _ hgathering hopen hwide (List.getElem?_eq_getElem hlt)
    (Gathering.accepts_iff.mpr ⟨by rw [hdue]; exact List.not_mem_nil, htaken⟩) List.not_mem_nil
  have hsome := hall _ (List.getElem_mem hlt)
  rw [← strand_result, hnone] at hsome
  cases hsome

/-- A ripe call has ended or can go on. -/
theorem IsRipe.canGoOn {s : Session} (hw : Wired ([], s)) {call : Nat} (hr : s.IsRipe call) :
    (s.outcomeOf call).isSome = true ∨ s.CanGoOn call := by
  rcases hr with ⟨c, hget, hended | himm⟩ | ⟨g, hg, hsettled⟩
  · exact .inl (by rw [outcomeOf, hget]; exact hended)
  · cases ho : c.outcome with
    | some outcome => exact .inl (by rw [outcomeOf, hget, Option.bind_some, ho]; rfl)
    | none =>
      refine .inr ⟨c, unsettled?_eq_some.mpr ⟨hget, ho⟩, ?_⟩
      rw [immediate?] at himm
      cases hwork : c.work with
      | gate gate => rwa [hwork] at himm
      | ready | exchange => trivial
      | answered | aggregate | collecting => rw [hwork] at himm; cases himm
  · obtain ⟨c, hc, hwork⟩ := gathering?_call hg
    refine .inr ⟨c, hc, ?_⟩
    rw [hwork, GoesOn]
    cases hwide : g.isWide with
    | true =>
      rw [if_pos rfl]
      refine hasNews_of_settled hw hg hwide (hsettled.resolve_right fun hfew => ?_)
      cases hwide.symm.trans hfew.1
    | false =>
      rw [if_neg Bool.false_ne_true]
      exact hsettled.imp_right And.right

/-! ### Polled on the way -/

/-- A call is polled on the way from one session to another. -/
def Polls (s t : Session) (call : Nat) : Prop :=
  ∃ u, s.AnyDeeds u ∧ (u.poll call).AnyDeeds t

theorem Polls.after {s t u : Session} {call : Nat} (h : s.AnyDeeds t) (h' : t.Polls u call) :
    s.Polls u call := by
  obtain ⟨v, hv, hu⟩ := h'
  exact ⟨v, h.trans hv, hu⟩

theorem Polls.before {s t u : Session} {call : Nat} (h : s.Polls t call) (h' : t.AnyDeeds u) :
    s.Polls u call := by
  obtain ⟨v, hv, ht⟩ := h
  exact ⟨v, hv, ht.trans h'⟩

/-- A ripe call has ended when it has been polled on the way. -/
theorem Polls.ends {s t : Session} (hatt : s.Attained) (hw : Wired ([], s)) {call : Nat}
    (hr : s.IsRipe call) (hp : s.Polls t call) : (t.outcomeOf call).isSome = true := by
  obtain ⟨u, hu, ht⟩ := hp
  have hsteps := hu.steps hatt.sited
  have hs := hsteps.sited hatt.sited
  have hwired : Wired ([], u) :=
    (hu []).preserves (P := Wired) (fun _ _ _ deed hx => deed.wired hx) hatt.sited hw
  have hends := (hr.later hatt.sited hu).poll hs hwired (hatt.steps hsteps).depth_pos
  exact ht.ended ((poll_steps hs call).sited hs) hends

end OperationTree.Session
