import OperationTree.Proofs.Session.Frame

/-! Polling the places that are due, one after the other.  `DueRun` says what can become of each
place; whatever is kept by what can happen to one place is kept by such a poll. -/

namespace OperationTree.Session

theorem gathering?_setGathering {s : Session} {waiter : Waiter} {g : Gathering} (g' : Gathering)
    (hg : s.gathering? waiter = some g) :
    (s.setGathering g' waiter).gathering? waiter = some g' := by
  cases waiter with
  | call number =>
    obtain ⟨c, hc, -⟩ := gathering?_call hg
    obtain ⟨hget, hopen⟩ := unsettled?_eq_some.mp hc
    have hset : (s.setGathering g' (.call number)).unsettled? number =
        some { c with work := .collecting g' } :=
      unsettled?_eq_some.mpr ⟨by simp [setGathering, setWork, hget], hopen⟩
    rw [gathering?, hset]
  | drain number =>
    have hlt := (List.getElem?_eq_some_iff.mp (gathering?_drain.mp hg)).1
    exact gathering?_drain.mpr (by simp [setGathering, setDrain, hlt])
  | shutdown => cases hg

variable {pollCall : Session → Nat → Session} {isOver : Session → Gathering → Bool}
  {waiter : Waiter}

/-- What a poll of the places that are due comes to: places without a future, or whose results have
been taken, are passed over, the others are polled, and their results taken if they are there.  The
number counts the places. -/
inductive DueRun (pollCall : Session → Nat → Session) (isOver : Session → Gathering → Bool)
    (waiter : Waiter) : Nat → Session → Session → Prop
  | idle {s : Session} (h : ∀ g, s.gathering? waiter = some g → g.due = []) :
    DueRun pollCall isOver waiter 0 s s
  | stop {s : Session} {g : Gathering} (hg : s.gathering? waiter = some g)
    (ho : isOver s g = true) : DueRun pollCall isOver waiter 0 s s
  /-- The one who gathers lets others run. -/
  | yield (s : Session) : DueRun pollCall isOver waiter 0 s (s.wake waiter)
  | pass {n : Nat} {s t : Session} {g : Gathering} {place : Nat} {due : List Nat}
    (hg : s.gathering? waiter = some g) (hdue : g.due = place :: due)
    (hvoid : ∀ future, g.futures[place]? = some future → place ∈ g.taken)
    (rest : DueRun pollCall isOver waiter n (s.setGathering { g with due } waiter) t) :
    DueRun pollCall isOver waiter (n + 1) s t
  | poll {n : Nat} {s s1 t : Session} {g : Gathering} {place : Nat} {due : List Nat}
    {future : Future} (hg : s.gathering? waiter = some g) (hdue : g.due = place :: due)
    (hfuture : g.futures[place]? = some future) (htaken : place ∉ g.taken)
    (hpoll : s1 = pollFuture pollCall (s.setGathering { g with due } waiter) future)
    (hopen : ∀ g', s1.gathering? waiter = some g' → s1.result future = none)
    (rest : DueRun pollCall isOver waiter n s1 t) : DueRun pollCall isOver waiter (n + 1) s t
  | take {n : Nat} {s s1 t : Session} {g g' : Gathering} {place : Nat} {due : List Nat}
    {future : Future} (hg : s.gathering? waiter = some g) (hdue : g.due = place :: due)
    (hfuture : g.futures[place]? = some future) (htaken : place ∉ g.taken)
    (hpoll : s1 = pollFuture pollCall (s.setGathering { g with due } waiter) future)
    (hg' : s1.gathering? waiter = some g') (hresult : (s1.result future).isSome = true)
    (rest : DueRun pollCall isOver waiter n (s1.setGathering (g'.take place) waiter) t) :
    DueRun pollCall isOver waiter (n + 1) s t

/-- A poll gets past the first place that is due, if it has fuel. -/
theorem pollDue_first {fuel : Nat}
    (hrest : ∀ (polled yielded : Nat) (s : Session), ∃ n, DueRun pollCall isOver waiter n s
      (pollDue pollCall isOver waiter fuel polled yielded s))
    (polled yielded : Nat) {s : Session} {g : Gathering} {place : Nat} {due : List Nat}
    (hg : s.gathering? waiter = some g) (hdue : g.due = place :: due) :
    ∃ n, DueRun pollCall isOver waiter (n + 1) s
      (pollDue pollCall isOver waiter (fuel + 1) polled yielded s) := by
  rw [pollDue, hg]
  dsimp only
  rw [hdue]
  dsimp only
  split
  · next hnone =>
    exact (hrest _ _ _).imp fun _ => .pass hg hdue fun f hf => by cases hnone.symm.trans hf
  · next future hfuture =>
    split
    · next htaken =>
      exact (hrest _ _ _).imp fun _ => .pass hg hdue fun _ _ => by simpa using htaken
    · next htaken =>
      replace htaken : place ∉ g.taken := by simpa using htaken
      split
      · next hnone =>
        exact ⟨0, .poll hg hdue hfuture htaken rfl (fun g' hg' => by cases hnone.symm.trans hg')
          (.idle fun g' hg' => by cases hnone.symm.trans hg')⟩
      · next g' hg' =>
        split
        · next hresult =>
          split
          · next hover =>
            exact ⟨0, .take hg hdue hfuture htaken rfl hg' hresult
              (.stop (gathering?_setGathering _ hg') hover)⟩
          · exact (hrest _ _ _).imp fun _ => .take hg hdue hfuture htaken rfl hg' hresult
        · next hresult =>
          have hopen := Option.not_isSome_iff_eq_none.mp hresult
          split
          · exact ⟨0, .poll hg hdue hfuture htaken rfl (fun _ _ => hopen) (.yield _)⟩
          · exact (hrest _ _ _).imp fun _ => .poll hg hdue hfuture htaken rfl fun _ _ => hopen

variable (pollCall isOver waiter) in
/-- A poll of the places that are due is a run. -/
theorem pollDue_run (fuel polled yielded : Nat) (s : Session) :
    ∃ n, DueRun pollCall isOver waiter n s
      (pollDue pollCall isOver waiter fuel polled yielded s) := by
  induction fuel generalizing polled yielded s with
  | zero => exact ⟨0, .yield s⟩
  | succ fuel ih =>
    cases hg : s.gathering? waiter with
    | none =>
      rw [pollDue, hg]
      exact ⟨0, .idle fun g hg' => by cases hg.symm.trans hg'⟩
    | some g =>
      cases hdue : g.due with
      | nil =>
        rw [pollDue, hg]
        dsimp only
        rw [hdue]
        exact ⟨0, .idle fun g' hg' => Option.some.inj (hg.symm.trans hg') ▸ hdue⟩
      | cons place due =>
        obtain ⟨n, hrun⟩ := pollDue_first ih polled yielded hg hdue
        exact ⟨n + 1, hrun⟩

/-- A poll with fuel gets past the first place that is due. -/
theorem pollDue_run_pos {fuel polled yielded place : Nat} {s : Session} {g : Gathering}
    {due : List Nat} (hg : s.gathering? waiter = some g) (hdue : g.due = place :: due) :
    ∃ n, DueRun pollCall isOver waiter (n + 1) s
      (pollDue pollCall isOver waiter (fuel + 1) polled yielded s) :=
  pollDue_first (pollDue_run pollCall isOver waiter fuel) polled yielded hg hdue

end OperationTree.Session
