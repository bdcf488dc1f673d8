import OperationTree.Proofs.Session.Snapshot
import OperationTree.Proofs.Session.Wiring

/-! A call that gathers others ends at its first poll after all of them have settled.  Few futures
are all looked at.  Of many, the poll takes those that are due, and the wiring says that these are
all whose results have not been taken. -/

namespace OperationTree.Session

section Settled

variable {pollCall : Session → Nat → Session}
  (hp : ∀ s n, (outcomeOf s n).isSome = true → pollCall s n = s)
include hp

theorem pollFuture_settled {s : Session} {future : Future}
    (hf : (s.result future).isSome = true) : pollFuture pollCall s future = s := by
  cases future with
  | settled => rfl
  | call number => exact hp s number hf

/-- Futures that have all settled come to something. -/
theorem collect_settled {s : Session} {futures : List Future}
    (hall : ∀ future ∈ futures, (s.result future).isSome = true) :
    (collect pollCall s futures).2 = s ∧ (collect pollCall s futures).1 ≠ .waiting := by
  induction futures with
  | nil => exact ⟨rfl, by rintro ⟨⟩⟩
  | cons future rest ih =>
    obtain ⟨hfirst, hrest⟩ := List.forall_mem_cons.mp hall
    obtain ⟨hsame, hprogress⟩ := ih hrest
    obtain ⟨outcome, ho⟩ := Option.isSome_iff_exists.mp hfirst
    rw [collect, pollFuture_settled hp hfirst, ho]
    cases outcome with
    | error e => exact ⟨rfl, by rintro ⟨⟩⟩
    | ok value =>
      refine ⟨hsame, ?_⟩
      dsimp only
      cases hrest : (collect pollCall s rest).1 with
      | waiting => exact absurd hrest hprogress
      | failed | complete => rintro ⟨⟩

omit hp in
theorem setGathering_result {s : Session} {call : Nat} {g : Gathering} (g' : Gathering)
    (hg : s.gathering? (.call call) = some g) (future : Future) :
    (s.setGathering g' (.call call)).result future = s.result future := by
  rw [← strand_result, ← strand_result, strand_setGathering hg]
  exact Strand.result_congr (Strand.regathered_outcome s.strand call · g') future

/-- What is left when a poll has gone through the places that are due. -/
structure Emptied (s s' : Session) (call : Nat) (g g' : Gathering) : Prop where
  gathering : s'.gathering? (.call call) = some g'
  futures : g'.futures = g.futures
  result : ∀ future, s'.result future = s.result future
  isOver : s'.hasFailed g' = true ∨ ∀ place < g.futures.length, place ∈ g'.taken

/-- A call gathers what it has gathered before, with other places that are due or taken. -/
structure Regathered (s s' : Session) (call : Nat) (g g' : Gathering) : Prop where
  gathering : s'.gathering? (.call call) = some g'
  futures : g'.futures = g.futures
  result : ∀ future, s'.result future = s.result future

/-- A call gathers futures that have all settled, and none of their results is out of sight. -/
structure Covered (s : Session) (call : Nat) (g : Gathering) : Prop where
  gathering : s.gathering? (.call call) = some g
  settled : ∀ future ∈ g.futures, (s.result future).isSome = true
  cover : ∀ place < g.futures.length, place ∈ g.due ∨ place ∈ g.taken

section Regathered

variable {s s1 s2 : Session} {call : Nat} {g g1 g2 : Gathering}

omit hp

theorem Regathered.set (hg : s.gathering? (.call call) = some g) (g' : Gathering)
    (hf : g'.futures = g.futures) : Regathered s (s.setGathering g' (.call call)) call g g' :=
  ⟨gathering?_setGathering g' hg, hf, setGathering_result g' hg⟩

theorem Regathered.trans (h1 : Regathered s s1 call g g1) (h2 : Regathered s1 s2 call g1 g2) :
    Regathered s s2 call g g2 :=
  ⟨h2.gathering, h2.futures.trans h1.futures, fun f => (h2.result f).trans (h1.result f)⟩

theorem Regathered.emptied (h1 : Regathered s s1 call g g1) (h2 : Emptied s1 s2 call g1 g2) :
    Emptied s s2 call g g2 :=
  ⟨h2.gathering, h2.futures.trans h1.futures, fun f => (h2.result f).trans (h1.result f),
    h1.futures ▸ h2.isOver⟩

theorem Covered.regathered (h : Covered s call g) (hr : Regathered s s1 call g g1)
    (hcover : ∀ p, p ∈ g.due ∨ p ∈ g.taken → p < g.futures.length → p ∈ g1.due ∨ p ∈ g1.taken) :
    Covered s1 call g1 where
  gathering := hr.gathering
  settled f hmem := by
    rw [hr.result]
    exact h.settled f (hr.futures ▸ hmem)
  cover p hlt := by
    rw [hr.futures] at hlt
    exact hcover p (h.cover p hlt) hlt

variable {place : Nat} {due : List Nat} (h : Covered s call g) (hdue : g.due = place :: due)
include h hdue

/-- A place whose result has been taken already need not be due. -/
theorem Covered.pass (htaken : place < g.futures.length → place ∈ g.taken) :
    Covered (s.setGathering { g with due } (.call call)) call { g with due } := by
  refine h.regathered (.set h.gathering _ rfl) fun p hp hlt => ?_
  rw [hdue, List.mem_cons] at hp
  rcases hp with (rfl | hp) | hp
  · exact .inr (htaken hlt)
  · exact .inl hp
  · exact .inr hp

theorem Covered.take :
    Covered ((s.setGathering { g with due } (.call call)).setGathering
      (({ g with due } : Gathering).take place) (.call call)) call
      (({ g with due } : Gathering).take place) := by
  have hpop := Regathered.set h.gathering { g with due } rfl
  refine h.regathered (hpop.trans (.set hpop.gathering _ rfl)) fun p hp _ => ?_
  rw [hdue, List.mem_cons] at hp
  rcases hp with (rfl | hp) | hp
  · exact .inr List.mem_cons_self
  · exact .inl hp
  · exact .inr (List.mem_cons_of_mem _ hp)

end Regathered

/-- A poll of places whose futures have settled takes all of their results, or stops at a failure.
-/
theorem pollDue_settled {call : Nat} (fuel polled yielded : Nat) {s : Session} {g : Gathering}
    (h : Covered s call g) (hfuel : g.due.length < fuel) :
    ∃ g', Emptied s (pollDue pollCall hasFailed (.call call) fuel polled yielded s) call g g' := by
  induction fuel generalizing polled yielded s g with
  | zero => exact absurd hfuel (Nat.not_lt_zero _)
  | succ fuel ih =>
    rw [pollDue, h.gathering]
    dsimp only
    split
    · next hdue =>
      refine ⟨g, h.gathering, rfl, fun _ => rfl, .inr fun place hlt => ?_⟩
      simpa [hdue] using h.cover place hlt
    · next place due hdue =>
      have hfuel1 : due.length < fuel := by
        rw [hdue, List.length_cons] at hfuel
        omega
      have hpop := Regathered.set h.gathering { g with due } rfl
      split
      · next hnone =>
        have hpass := h.pass hdue fun hlt =>
          absurd hlt (Nat.not_lt.mpr (List.getElem?_eq_none_iff.mp hnone))
        exact (ih polled yielded hpass hfuel1).imp fun _ => hpop.emptied
      · next future hfuture =>
        split
        · next htaken =>
          have hpass := h.pass hdue fun _ => by simpa using htaken
          exact (ih polled yielded hpass hfuel1).imp fun _ => hpop.emptied
        · have hsettled := h.settled future (List.mem_of_getElem? hfuture)
          rw [← hpop.result] at hsettled
          rw [pollFuture_settled hp hsettled, hpop.gathering]
          dsimp only
          rw [if_pos hsettled]
          have htake := hpop.trans
            (.set hpop.gathering (({ g with due } : Gathering).take place) rfl)
          split
          · next hfailed => exact ⟨_, htake.gathering, htake.futures, htake.result, .inl hfailed⟩
          · exact (ih 0 0 (h.take hdue) hfuel1).imp fun _ => htake.emptied

end Settled

theorem progressFrom_taken {s : Session} {taken : List Nat} {futures : List Future}
    (hall : ∀ future ∈ futures, (s.result future).isSome = true) (place : Nat)
    (htaken : ∀ i < futures.length, place + i ∈ taken) :
    s.progressFrom taken place futures ≠ .waiting := by
  induction futures generalizing place with
  | nil => rintro ⟨⟩
  | cons future rest ih =>
    obtain ⟨hfirst, hrest⟩ := List.forall_mem_cons.mp hall
    obtain ⟨outcome, ho⟩ := Option.isSome_iff_exists.mp hfirst
    have hplace : taken.contains place = true := by
      simpa using htaken 0 (by simp)
    rw [progressFrom, if_pos hplace, ho]
    cases outcome with
    | error e => rintro ⟨⟩
    | ok value =>
      have hmore := ih hrest (place + 1) fun i hi => by
        have := htaken (i + 1) (by simpa using hi)
        rwa [Nat.add_right_comm, Nat.add_assoc]
      dsimp only
      cases hprogress : s.progressFrom taken (place + 1) rest with
      | waiting => exact absurd hprogress hmore
      | failed | complete => rintro ⟨⟩

theorem settle_isSome {s : Session} {call : Nat} {c : Call} (hc : s.calls[call]? = some c)
    (outcome : Outcome) : ((s.settle call outcome).outcomeOf call).isSome = true := by
  cases ho : c.outcome with
  | none => rw [settle_outcomeOf outcome (unsettled?_eq_some.mpr ⟨hc, ho⟩)]; rfl
  | some found =>
    have hnone : s.unsettled? call = none := by simp [unsettled?, hc, ho]
    rw [settle, hnone]
    simp [outcomeOf, hc, ho]

theorem conclude_isSome {s : Session} (hs : s.Sited) {call : Nat} {c : Call}
    (hc : s.calls[call]? = some c) {futures : List Future} {progress : Progress}
    (hp : progress ≠ .waiting) :
    ((s.conclude call futures progress).outcomeOf call).isSome = true := by
  obtain ⟨c', hc', -⟩ := (drop_moves [] futures s).continues hs call c hc
  cases progress with
  | waiting => exact absurd rfl hp
  | failed | complete => exact settle_isSome hc' _

/-- A wide gathering of futures that have all settled has lost none of its places. -/
theorem Wired.covered {s : Session} (h : Wired ([], s)) {call : Nat} {g : Gathering}
    (hg : s.gathering? (.call call) = some g) (hwide : g.isWide = true)
    (hall : ∀ future ∈ g.futures, (s.result future).isSome = true) : Covered s call g := by
  refine ⟨hg, hall, fun place hlt => ?_⟩
  by_contra hmissing
  rw [not_or] at hmissing
  obtain ⟨hgathering, hopen⟩ := gathering?_iff.mp hg
  have hnone := h.missed call g place _ hgathering hopen hwide (List.getElem?_eq_getElem hlt)
    (Gathering.accepts_iff.mpr hmissing) (by simp [Hand.places])
  have hsome := hall _ (List.getElem_mem hlt)
  rw [← strand_result, hnone] at hsome
  cases hsome

/-- A poll has more fuel than there are places that are due. -/
theorem Wired.due_lt {s : Session} (h : Wired ([], s)) {call : Nat} {g : Gathering}
    (hg : s.gathering? (.call call) = some g) : g.due.length < g.pollBound := by
  obtain ⟨hnodup, hbound⟩ := h.due call g (gathering?_iff.mp hg).1
  have hle := hnodup.length_le_of_subset fun p hmem => List.mem_range.mpr (hbound p hmem)
  rw [List.length_range] at hle
  have hsmall : g.futures.length < g.futures.length + 2 := by omega
  exact Nat.lt_of_le_of_lt hle (Nat.lt_of_lt_of_le hsmall
    (Nat.le_mul_of_pos_right _ (Nat.succ_pos _)))

/-- A poll of a call that gathers futures which have all settled ends the call. -/
theorem Wired.poll_settles {s : Session} (h : Wired ([], s)) (hs : s.Sited) (hd : 1 ≤ s.depth)
    {call : Nat} {g : Gathering} (hg : s.gathering? (.call call) = some g)
    (hall : ∀ future ∈ g.futures, (s.result future).isSome = true) :
    ((s.poll call).outcomeOf call).isSome = true := by
  obtain ⟨c, hopen, hw⟩ := gathering?_call hg
  have hget := (unsettled?_eq_some.mp hopen).1
  have hp : ∀ s' n, (outcomeOf s' n).isSome = true → pollWithin (s.depth - 1) s' n = s' :=
    fun _ _ => pollWithin_settled (s.depth - 1)
  rw [poll_unsettled hd hopen, hw, advance, pollTargets, hg]
  dsimp only
  split
  · next hwide =>
    obtain ⟨g', hempty⟩ :=
      pollDue_settled hp g.pollBound 0 0 (h.covered hg hwide hall) (h.due_lt hg)
    have hmoves := pollDue_moves (pollWithin_moves (s.depth - 1)) hasFailed
      (.call call) g.pollBound 0 0 [] hs
    obtain ⟨c', hc', -⟩ := hmoves.continues hs call c hget
    rw [hempty.gathering]
    refine conclude_isSome ((hmoves.steps hs).sited hs) hc' ?_
    rcases hempty.isOver with hfailed | htaken
    · intro hwait
      rw [hasFailed, hempty.futures] at hfailed
      dsimp only [Option.elim] at hwait
      rw [hwait] at hfailed
      cases hfailed
    · exact progressFrom_taken (fun f hmem => by rw [hempty.result]; exact hall f hmem) 0
        (by simpa using htaken)
  · obtain ⟨hsame, hprogress⟩ := collect_settled hp hall
    rw [hsame]
    exact conclude_isSome hs hget hprogress

end OperationTree.Session
