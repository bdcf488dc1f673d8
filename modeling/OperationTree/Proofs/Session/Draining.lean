import OperationTree.Proofs.Session.Ripe

/-! What a drain does for the calls that it waits for.  It ends only when all of them have ended,
and until then its polls poll them: of few all of them each time, of many those that are due, one
after the other.  A call that is ripe is among these, so polls of the drain end it, one if there are
few calls, and else as many as there are calls that come before it. -/

namespace OperationTree.Session

open Relation

/-! ### What drains have taken -/

/-- The results that drains have taken are there. -/
def DrainsTake (s : Session) : Prop :=
  ∀ (drain : Nat) (g : Gathering) (place : Nat) (future : Future),
    s.gathering? (.drain drain) = some g → place ∈ g.taken → g.futures[place]? = some future →
      (s.result future).isSome = true

/-- Drains wait as before, or have just begun, or have taken results that are there. -/
def TakesResults (s t : Session) : Prop :=
  ∀ (drain : Nat) (g' : Gathering), t.gathering? (.drain drain) = some g' → g'.taken = [] ∨
    ∃ g, s.gathering? (.drain drain) = some g ∧ g'.futures = g.futures ∧ ∀ place ∈ g'.taken,
      place ∈ g.taken ∨ ∀ future, g.futures[place]? = some future → (s.result future).isSome = true

theorem DrainsTake.of_takes {s t : Session} (h : s.DrainsTake) (hc : s.CallsContinue t)
    (ht : s.TakesResults t) : t.DrainsTake := by
  intro drain g' place future hg' hmem hplace
  rcases ht drain g' hg' with hnil | ⟨g, hg, hf, htaken⟩
  · rw [hnil] at hmem
    cases hmem
  · rw [hf] at hplace
    refine hc.isSome ?_
    rcases htaken place hmem with hold | hresult
    · exact h drain g place future hg hold hplace
    · exact hresult future hplace

namespace TakesResults

variable {s t : Session}

theorem of_drains (h : t.drains = s.drains) : s.TakesResults t := fun drain g hg =>
  .inr ⟨g, by rwa [gathering?, ← h], rfl, fun _ hmem => .inl hmem⟩

theorem setGathering {waiter : Waiter} {g g' : Gathering} (hg : s.gathering? waiter = some g)
    (hf : g'.futures = g.futures) (ht : ∀ place ∈ g'.taken, place ∈ g.taken ∨
      ∀ future, g.futures[place]? = some future → (s.result future).isSome = true) :
    s.TakesResults (s.setGathering g' waiter) := by
  cases waiter with
  | call => exact .of_drains rfl
  | shutdown => exact .of_drains rfl
  | drain drain =>
    intro other g1 hg1
    by_cases hother : drain = other
    · subst hother
      obtain rfl := Option.some.inj ((gathering?_setGathering g' hg).symm.trans hg1)
      exact .inr ⟨g, hg, hf, ht⟩
    · rw [gathering?_setGathering_ne hother] at hg1
      exact .inr ⟨g1, hg1, rfl, fun _ hmem => .inl hmem⟩

end TakesResults

theorem start_drains (s : Session) (tracker : Nat) (job : Job) :
    (s.start tracker job).2.drains = s.drains := by
  cases job <;> exact track_drains _ tracker _

theorem invoke_drains (s : Session) (o : Operation) (request : Request) :
    (s.invoke o request).2.drains = s.drains := by
  rw [invoke]
  split
  · rfl
  · exact start_drains s _ _

theorem invokeAll_drains (s : Session) (request : Request) (operations : List Operation) :
    (s.invokeAll request operations).2.drains = s.drains := by
  induction operations generalizing s with
  | nil => rfl
  | cons o rest ih => exact (ih _).trans (invoke_drains s o request)

theorem watch_drains (waiter : Waiter) (place : Nat) (s : Session) (futures : List Future) :
    (watch waiter place s futures).drains = s.drains := by
  induction futures generalizing place s with
  | nil => rfl
  | cons future rest ih =>
    cases future with
    | settled => exact ih _ s
    | call => exact ih _ _

theorem fanOut_drains (s : Session) (call : Nat) (request : Request)
    (operations : List Operation) : (s.fanOut call request operations).drains = s.drains :=
  (watch_drains _ _ _ _).trans (invokeAll_drains s request operations)

theorem Move.takesResults {x y : Hand × Session} (h : Move x y) : x.2.TakesResults y.2 := by
  cases h with
  | nudge h =>
    cases h with
    | queue | heed | leave => exact .of_drains rfl
    | push hg => exact .setGathering hg rfl fun _ hmem => .inl hmem
  | pop hg => exact .setGathering hg rfl fun _ hmem => .inl hmem
  | take place hg hr =>
    refine .setGathering hg rfl fun p hmem => ?_
    rcases List.mem_cons.mp hmem with rfl | hold
    · exact .inr hr
    · exact .inl hold
  | invoke => exact .of_drains (invoke_drains _ _ _)
  | fanOut => exact .of_drains (fanOut_drains _ _ _ _)
  | keep | ask | finish | release => exact .of_drains rfl

theorem Deed.takesResults {ok : Action → Prop} {x y : Hand × Session} (h : Deed ok x y) :
    x.2.TakesResults y.2 := by
  cases h with
  | move h => exact h.takesResults
  | start => exact .of_drains (start_drains _ _ _)
  | arrive | addTree | watch => exact .of_drains rfl
  | aside _ _ ha =>
    exact fun drain g hg => (ha.waiting drain g hg).imp_right fun hold =>
      ⟨g, hold, rfl, fun _ hmem => .inl hmem⟩

theorem DrainsTake.deeds {s t : Session} (hs : s.Sited) (h : s.AnyDeeds t) (hd : s.DrainsTake) :
    t.DrainsTake :=
  Deeds.preserves (P := fun x => x.2.DrainsTake)
    (fun _ _ hs deed hd => hd.of_takes (deed.steps hs).continues deed.takesResults) (h []) hs hd

theorem Reachable.drainsTake {s : Session} (h : s.Reachable) : s.DrainsTake := by
  obtain ⟨hasScheduler, outside, actions, rfl⟩ := h
  refine DrainsTake.deeds (initial_sited hasScheduler outside)
    (fun hand => after_deeds _ hand (initial_sited hasScheduler outside) fun _ _ => trivial) ?_
  intro drain g _ _ hg
  simp [gathering?, initial] at hg

/-! ### Polls of drains -/

/-- The place of a call stands among those that are due in a drain of many, behind at most some
others. -/
def InLine (s : Session) (drain place call n : Nat) : Prop :=
  ∃ g before later, s.gathering? (.drain drain) = some g ∧ g.isWide = true ∧
    g.futures[place]? = some (.call call) ∧ place ∉ g.taken ∧
    g.due = before ++ place :: later ∧ place ∉ before ∧ before.length ≤ n

theorem InLine.extend {s t : Session} {drain place call n : Nat}
    (h : s.InLine drain place call n) (hd : s.DrainsExtend t) : t.InLine drain place call n := by
  obtain ⟨g, before, later, hg, hw, hplace, htaken, hdue, hbefore, hn⟩ := h
  rcases hd drain with ⟨hnone, -⟩ | ⟨g0, more, hg0, ht⟩
  · cases hnone.symm.trans hg
  · obtain rfl := Option.some.inj (hg.symm.trans hg0)
    exact ⟨_, before, later ++ more, ht, hw, hplace, htaken, by simp [hdue], hbefore, hn⟩

theorem InLine.setGathering {s : Session} {drain place call n : Nat} {g g' : Gathering}
    {before later : List Nat} (hg : s.gathering? (.drain drain) = some g)
    (hf : g'.futures = g.futures) (hwide : g.isWide = true)
    (hplace : g.futures[place]? = some (.call call)) (htaken : place ∉ g'.taken)
    (hdue : g'.due = before ++ place :: later) (hbefore : place ∉ before)
    (hn : before.length ≤ n) : (s.setGathering g' (.drain drain)).InLine drain place call n :=
  ⟨g', before, later, gathering?_setGathering g' hg, by rwa [Gathering.isWide, hf],
    hf ▸ hplace, htaken, hdue, hbefore, hn⟩

/-- Taking another place changes nothing for a call. -/
theorem InLine.take {s : Session} {drain place call other n : Nat} {g : Gathering}
    (h : s.InLine drain place call n) (hg : s.gathering? (.drain drain) = some g)
    (hother : place ≠ other) :
    (s.setGathering (g.take other) (.drain drain)).InLine drain place call n := by
  obtain ⟨g0, before, later, hg0, hwide, hplace, htaken, hdue, hbefore, hn⟩ := h
  obtain rfl := Option.some.inj (hg.symm.trans hg0)
  exact .setGathering hg rfl hwide hplace (List.not_mem_cons_of_ne_of_not_mem hother htaken) hdue
    hbefore hn

/-- What a drain notes is none of the business of calls. -/
theorem AnyDeeds.pop {s : Session} {drain place : Nat} {due : List Nat} {g : Gathering}
    (hg : s.gathering? (.drain drain) = some g) (hdue : g.due = place :: due) :
    s.AnyDeeds (s.setGathering { g with due } (.drain drain)) := fun _ =>
  .head (.move (.pop hg hdue))
    (.single (.move (.nudge (.leave fun _ _ hcall => nomatch hcall))))

theorem AnyDeeds.take {s t : Session} (hsteps : CallSteps s t) {waiter : Waiter}
    {g g' : Gathering} {place : Nat} {future : Future} (hg : s.gathering? waiter = some g)
    (hg' : t.gathering? waiter = some g') (hf : g.futures[place]? = some future)
    (hr : (t.result future).isSome = true) :
    t.AnyDeeds (t.setGathering (g'.take place) waiter) := fun hand =>
  .single (.move (hsteps.take hand hg hg' hf hr))

theorem pollFuture_anyDeeds {s : Session} (hs : s.Sited) (future : Future) :
    s.AnyDeeds (pollFuture poll s future) :=
  .of_moves fun hand => pollFuture_moves poll_moves hand hs future

theorem DueRun.anyDeeds {isOver : Session → Gathering → Bool} {waiter : Waiter} {n : Nat}
    {s t : Session} (h : DueRun Session.poll isOver waiter n s t) (hs : s.Sited) : s.AnyDeeds t :=
  .of_moves fun hand => h.moves poll_moves hand hs

/-- When a place is popped, it is the one of the call, or its turn comes nearer. -/
theorem InLine.pop {s : Session} {drain place call first n : Nat} {g : Gathering}
    {due : List Nat} (h : s.InLine drain place call n) (hg : s.gathering? (.drain drain) = some g)
    (hdue : g.due = first :: due) :
    (first = place ∧ place ∉ g.taken ∧ g.futures[place]? = some (.call call)) ∨
      (place ≠ first ∧ ∃ m, m + 1 ≤ n ∧
        (s.setGathering { g with due } (.drain drain)).InLine drain place call m) := by
  obtain ⟨g0, before, later, hg0, hwide, hplace, htaken, heq, hbefore, hn⟩ := h
  obtain rfl := Option.some.inj (hg.symm.trans hg0)
  rw [hdue] at heq
  cases before with
  | nil => exact .inl ⟨(List.cons.inj heq).1, htaken, hplace⟩
  | cons other before =>
    obtain ⟨rfl, rfl⟩ := List.cons.inj heq
    exact .inr ⟨List.ne_of_not_mem_cons hbefore, before.length, hn,
      .setGathering hg rfl hwide hplace htaken rfl (List.not_mem_of_not_mem_cons hbefore)
        (Nat.le_refl _)⟩

/-- A poll of a drain of many polls a call whose place is due, or gets past some places that come
before it. -/
theorem DueRun.inLine {isOver : Session → Gathering → Bool} (hover : ∀ s g, isOver s g = false)
    {drain place call k n : Nat} {s t : Session}
    (h : DueRun Session.poll isOver (.drain drain) k s t) (hs : s.InOrder)
    (hline : s.InLine drain place call n) :
    s.Polls t call ∨ ∃ m, m + k ≤ n ∧ t.InLine drain place call m := by
  induction h generalizing n with
  | idle hidle =>
    obtain ⟨g, before, later, hg, -, -, -, hdue, -⟩ := hline
    simp [hidle g hg] at hdue
  | stop _ ho => cases (hover _ _).symm.trans ho
  | yield s => exact .inr ⟨n, Nat.le_refl n, hline.extend (wake_rouses s _).drains⟩
  | pass hg hdue hvoid _ ih =>
    rcases hline.pop hg hdue with ⟨rfl, htaken, hplace⟩ | ⟨-, m, hm, hline⟩
    · exact absurd (hvoid _ hplace) htaken
    · rcases ih (pop_inOrder hs hg hdue) hline with hpolls | ⟨m', hm', hline⟩
      · exact .inl (hpolls.after (.pop hg hdue))
      · exact .inr ⟨m', by omega, hline⟩
  | @poll _ _ _ _ _ _ _ future hg hdue hfuture _ hpoll _ rest ih =>
    have h1 := pop_inOrder hs hg hdue
    have h2 := hs.polled poll_moves hg hdue hpoll
    subst hpoll
    rcases hline.pop hg hdue with ⟨rfl, -, hplace⟩ | ⟨-, m, hm, hline⟩
    · obtain rfl := Option.some.inj (hfuture.symm.trans hplace)
      exact .inl ⟨_, .pop hg hdue, rest.anyDeeds h2.sited⟩
    · have hline2 := hline.extend (pollFuture_onward poll_onward h1 future).drains
      rcases ih h2 hline2 with hpolls | ⟨m', hm', hline⟩
      · have hpolled := pollFuture_anyDeeds h1.sited future
        exact .inl (hpolls.after (.trans (.pop hg hdue) hpolled))
      · exact .inr ⟨m', by omega, hline⟩
  | @take _ _ _ _ _ _ _ _ future hg hdue hfuture _ hpoll hg' hresult rest ih =>
    have h1 := pop_inOrder hs hg hdue
    have h3 := hs.took poll_moves hg hdue hfuture hpoll hg' hresult
    subst hpoll
    have honward := pollFuture_onward poll_onward h1 future
    have htake := AnyDeeds.take honward.steps (gathering?_setGathering _ hg) hg' hfuture hresult
    rcases hline.pop hg hdue with ⟨rfl, -, hplace⟩ | ⟨hne, m, hm, hline⟩
    · obtain rfl := Option.some.inj (hfuture.symm.trans hplace)
      exact .inl ⟨_, .pop hg hdue, htake.trans (rest.anyDeeds h3.sited)⟩
    · have hline3 := (hline.extend honward.drains).take hg' hne
      rcases ih h3 hline3 with hpolls | ⟨m', hm', hline⟩
      · have hpolled := pollFuture_anyDeeds h1.sited future
        exact .inl (hpolls.after (.trans (.pop hg hdue) (hpolled.trans htake)))
      · exact .inr ⟨m', by omega, hline⟩

/-- A call has ended, or it is polled on the way from one session to another. -/
def EndsOrPolls (s t : Session) (call : Nat) : Prop :=
  (t.outcomeOf call).isSome = true ∨ s.Polls t call

theorem EndsOrPolls.after {s t u : Session} {call : Nat} (h : s.AnyDeeds t)
    (h' : t.EndsOrPolls u call) : s.EndsOrPolls u call :=
  h'.imp_right fun hpolls => hpolls.after h

theorem EndsOrPolls.before {s t u : Session} {call : Nat} (h : s.EndsOrPolls t call)
    (ht : t.Sited) (h' : t.AnyDeeds u) : s.EndsOrPolls u call :=
  h.imp (fun hended => h'.ended ht hended) fun hpolls => hpolls.before h'

theorem foldl_pollFuture_polls {futures : List Future} {s : Session} (hs : s.Sited) {call : Nat}
    (hmem : .call call ∈ futures) : s.Polls (futures.foldl (pollFuture poll) s) call := by
  obtain ⟨before, later, rfl⟩ := List.append_of_mem hmem
  rw [List.foldl_append, List.foldl_cons]
  have hbefore : s.AnyDeeds (before.foldl (pollFuture poll) s) :=
    .of_moves fun hand => foldl_pollFuture_moves hand hs before
  have hpoll := pollFuture_anyDeeds (hbefore.sited hs) (.call call)
  exact ⟨_, hbefore, .of_moves fun hand =>
    foldl_pollFuture_moves hand (hpoll.sited (hbefore.sited hs)) later⟩

/-- A poll of a drain of few calls polls all of them. -/
theorem pollGathered_polls_few {s : Session} (hs : s.Sited) {drain call : Nat} {g : Gathering}
    (hg : s.gathering? (.drain drain) = some g) (hw : g.isWide = false)
    (hmem : .call call ∈ g.futures) : s.Polls (s.pollGathered drain) call := by
  have hend := endDrain_anyDeeds hs hg
  rw [pollGathered, hg]
  refine .before ?_ hend
  rw [pollCalls, if_neg (by simp [hw])]
  exact foldl_pollFuture_polls hs hmem

/-- A call that a drain waits for has ended, or is polled by it, or its turn comes nearer. -/
theorem pollGathered_inLine {s : Session} {drain place call n : Nat} (h : s.InOrder)
    (hline : s.InLine drain place call n) :
    s.EndsOrPolls (s.pollGathered drain) call ∨
      ∃ m, m < n ∧ (s.pollGathered drain).InLine drain place call m := by
  obtain ⟨g, before, later, hg, hw, hplace, -, hdue, -⟩ := id hline
  have hend := endDrain_anyDeeds h.sited hg
  obtain ⟨first, due, hfirst⟩ : ∃ first due, g.due = first :: due :=
    List.exists_cons_of_ne_nil (by simp [hdue])
  obtain ⟨k, hrun⟩ : ∃ k, DueRun poll (fun _ _ => false) (.drain drain) (k + 1) s
      (s.pollCalls drain g) := by
    obtain ⟨fuel, hfuel⟩ : ∃ fuel, g.pollBound = fuel + 1 := ⟨_, rfl⟩
    rw [pollCalls, if_pos hw, hfuel]
    exact pollDue_run_pos hg hfirst
  rw [pollGathered, hg]
  dsimp only
  rcases hrun.inLine (fun _ _ => rfl) h hline with hpolls | ⟨m, hm, hline⟩
  · exact .inl (.inr (hpolls.before hend))
  · rw [endDrain]
    split
    · next hall =>
      exact .inl (.inl (List.all_eq_true.mp hall _ (List.mem_of_getElem? hplace)))
    · exact .inr ⟨m, by omega, hline⟩

theorem inLine_of_due {s : Session} {drain place call : Nat} {g : Gathering}
    (hg : s.gathering? (.drain drain) = some g) (hw : g.isWide = true)
    (hplace : g.futures[place]? = some (.call call)) (htaken : place ∉ g.taken)
    (hdue : place ∈ g.due) : ∃ m, m < g.due.length ∧ s.InLine drain place call m := by
  obtain ⟨before, later, heq, hbefore⟩ := List.eq_append_cons_of_mem hdue
  refine ⟨before.length, ?_, g, before, later, hg, hw, hplace, htaken, heq, hbefore,
    Nat.le_refl _⟩
  rw [heq]
  simp

/-- A call that can go on is in line in every drain of many that waits for it. -/
theorem Reachable.inLine {s : Session} (h : s.Reachable) {call drain : Nat} (hgo : s.CanGoOn call)
    {g : Gathering} (hg : s.gathering? (.drain drain) = some g) (hw : g.isWide = true)
    (hmem : .call call ∈ g.futures) :
    ∃ place m, m < g.due.length ∧ s.InLine drain place call m := by
  obtain ⟨place, hplace⟩ := List.mem_iff_getElem?.mp hmem
  have htaken : place ∉ g.taken := fun hmem =>
    not_canGoOn_of_isSome (h.drainsTake drain g place _ hg hmem hplace) hgo
  have haccepts := (h.alert.roused hgo).due drain g place hg hw hplace
  have hdue := (accepts_eq_false.mp haccepts).resolve_right htaken
  exact ⟨place, inLine_of_due hg hw hplace htaken hdue⟩

/-! ### Polls in a row -/

/-- Polls of a drain, one after the other. -/
def pollDrainTimes (s : Session) (drain n : Nat) : Session :=
  s.after (List.replicate n (.pollDrain drain))

theorem pollDrain_of_gathering? {s : Session} {drain : Nat} {g : Gathering}
    (hg : s.gathering? (.drain drain) = some g) : s.pollDrain drain = s.pollGathered drain := by
  rw [pollDrain, gathering?_drain.mp hg]

namespace Reachable

variable {s : Session} (h : s.Reachable)
include h

theorem pollDrain (drain : Nat) : (s.pollDrain drain).Reachable := h.after [.pollDrain drain]

theorem pollDrain_anyDeeds (drain : Nat) : s.AnyDeeds (s.pollDrain drain) :=
  after_anyDeeds h.attained.sited [.pollDrain drain]

theorem pollDrainTimes_anyDeeds (drain n : Nat) : s.AnyDeeds (s.pollDrainTimes drain n) :=
  after_anyDeeds h.attained.sited _

/-- The first of some polls is enough, or the others are. -/
theorem pollDrainTimes_succ {drain call n : Nat}
    (hor : s.EndsOrPolls (s.pollDrain drain) call ∨
      (s.pollDrain drain).EndsOrPolls ((s.pollDrain drain).pollDrainTimes drain n) call) :
    s.EndsOrPolls (s.pollDrainTimes drain (n + 1)) call := by
  have hnext := h.pollDrain drain
  rcases hor with hfirst | hrest
  · exact hfirst.before hnext.attained.sited (hnext.pollDrainTimes_anyDeeds drain n)
  · exact hrest.after (h.pollDrain_anyDeeds drain)

end Reachable

theorem Reachable.inLine_polls {s : Session} (h : s.Reachable) {drain place call m n : Nat}
    (hline : s.InLine drain place call m) (hn : m < n) :
    s.EndsOrPolls (s.pollDrainTimes drain n) call := by
  induction n generalizing s m with
  | zero => exact absurd hn (Nat.not_lt_zero m)
  | succ n ih =>
    obtain ⟨g, -, -, hg, -⟩ := id hline
    refine h.pollDrainTimes_succ ?_
    rw [pollDrain_of_gathering? hg]
    rcases pollGathered_inLine h.alert.inOrder hline with hfirst | ⟨m', hm, hline⟩
    · exact .inl hfirst
    · have hnext := h.pollDrain drain
      rw [pollDrain_of_gathering? hg] at hnext
      exact .inr (ih hnext hline (by omega))

/-- A drain waits for a call, or will do so when it begins. -/
def WaitsFor (s : Session) (drain call : Nat) : Prop :=
  (∃ tracker, s.drains[drain]? = some (.fresh tracker) ∧ call ∈ (s.tracker tracker).calls) ∨
    ∃ g, s.gathering? (.drain drain) = some g ∧ .call call ∈ g.futures

/-- How many polls of a drain are enough for all that are due at present. -/
def turns (s : Session) (drain : Nat) : Nat :=
  match s.drains[drain]? with
  | some (.fresh tracker) => (s.tracker tracker).size
  | some (.waiting g) => if g.isWide then g.due.length else 1
  | _ => 0

/-- A drain that begins polls all calls of its registry. -/
theorem Reachable.fresh_drain_polls {s : Session} (h : s.Reachable) {drain tracker call n : Nat}
    (hd : s.drains[drain]? = some (.fresh tracker)) (hmem : call ∈ (s.tracker tracker).calls)
    (hn : (s.tracker tracker).size ≤ n) : s.EndsOrPolls (s.pollDrainTimes drain n) call := by
  let futures : List Future := (s.tracker tracker).calls.map .call
  have hbegin : s.AnyDeeds (s.gather (.drain drain) futures) := fun hand =>
    beginDrain_deeds _ hand hd
  have hbegun := (beginDrain_alert h.alert h.attained hd).inOrder
  have hg : (s.gather (.drain drain) futures).gathering? (.drain drain) = some { futures } := by
    rw [gathering?_drain, gather, watch_drains]
    exact List.getElem?_set_self (List.getElem?_eq_some_iff.mp hd).1
  have hfuture : Future.call call ∈ futures := List.mem_map_of_mem hmem
  have hsize : futures.length = (s.tracker tracker).size := by
    simp [futures, Tracker.calls, Tracker.size]
  obtain ⟨place, hplace⟩ := List.mem_iff_getElem?.mp hfuture
  have hlt := (List.getElem?_eq_some_iff.mp hplace).1
  obtain ⟨n, rfl⟩ := Nat.exists_eq_succ_of_ne_zero (n := n) (by omega)
  refine h.pollDrainTimes_succ ?_
  rw [pollDrain_fresh hd]
  cases hw : Gathering.isWide { futures } with
  | false =>
    exact .inl (.after hbegin (.inr (pollGathered_polls_few hbegun.sited hg hw hfuture)))
  | true =>
    obtain ⟨m, hm, hline⟩ := inLine_of_due hg hw hplace List.not_mem_nil (List.mem_range.mpr hlt)
    rw [List.length_range] at hm
    rcases pollGathered_inLine hbegun hline with hfirst | ⟨m', hm', hline⟩
    · exact .inl (hfirst.after hbegin)
    · have hnext := h.pollDrain drain
      rw [pollDrain_fresh hd] at hnext
      exact .inr (hnext.inLine_polls hline (by omega))

/-- A drain polls every call that it waits for and that can go on. -/
theorem Reachable.drain_polls {s : Session} (h : s.Reachable) {drain call n : Nat}
    (hgo : s.CanGoOn call) (hw : s.WaitsFor drain call) (hn : s.turns drain ≤ n) :
    s.EndsOrPolls (s.pollDrainTimes drain n) call := by
  rcases hw with ⟨tracker, hd, hmem⟩ | ⟨g, hg, hmem⟩
  · rw [turns, hd] at hn
    exact h.fresh_drain_polls hd hmem hn
  · rw [turns, gathering?_drain.mp hg] at hn
    dsimp only at hn
    cases hwide : g.isWide with
    | true =>
      rw [if_pos hwide] at hn
      obtain ⟨place, m, hm, hline⟩ := h.inLine hgo hg hwide hmem
      exact h.inLine_polls hline (Nat.lt_of_lt_of_le hm hn)
    | false =>
      rw [if_neg (by simp [hwide])] at hn
      obtain ⟨n, rfl⟩ := Nat.exists_eq_succ_of_ne_zero (Nat.ne_of_gt hn)
      refine h.pollDrainTimes_succ (.inl (.inr ?_))
      rw [pollDrain_of_gathering? hg]
      exact pollGathered_polls_few h.attained.sited hg hwide hmem

/-- A ripe call that a drain waits for has ended after it has been polled often enough. -/
theorem Reachable.drain_ends {s : Session} (h : s.Reachable) {drain call n : Nat}
    (hr : s.IsRipe call) (hw : s.WaitsFor drain call) (hn : s.turns drain ≤ n) :
    ((s.pollDrainTimes drain n).outcomeOf call).isSome = true := by
  rcases hr.canGoOn h.alert.wired with hended | hgo
  · exact (after_steps h.attained.sited _).continues.ended hended
  · exact (h.drain_polls hgo hw hn).elim id fun hpolls => hpolls.ends h.attained h.alert.wired hr

end OperationTree.Session
