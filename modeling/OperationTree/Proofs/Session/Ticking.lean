import OperationTree.Proofs.Session.Ripe

/-! What the scheduler does for calls.  The queue is a queue: what runs takes the first task and
adds at the end, so a round polls every call that can go on when it begins, and a call that is ripe
then has ended after the round. -/

namespace OperationTree.Session

open Relation

/-! ### The queue -/

/-- More is queued, and more gates are there. -/
structure Grows (s t : Session) : Prop where
  queue : s.queue <+: t.queue
  gates : s.gates <+: t.gates

namespace Grows

variable {s t u : Session}

theorem refl (s : Session) : s.Grows s := ⟨List.prefix_rfl, List.prefix_rfl⟩

theorem of_eq (hq : t.queue = s.queue) (hg : t.gates = s.gates) : s.Grows t :=
  ⟨hq ▸ List.prefix_rfl, hg ▸ List.prefix_rfl⟩

theorem trans (h : s.Grows t) (h' : t.Grows u) : s.Grows u :=
  ⟨h.queue.trans h'.queue, h.gates.trans h'.gates⟩

end Grows

theorem pollCalls_grows {s : Session} (h : s.InOrder) (hd : 1 ≤ s.depth) (drain : Nat)
    (g : Gathering) : s.Grows (s.pollCalls drain g) :=
  ⟨(pollCalls_watchful h hd drain g).queue, (pollCalls_steps h.sited drain g).undisturbed.gates⟩

theorem pollGathered_grows {s : Session} (h : s.InOrder) (hd : 1 ≤ s.depth) (drain : Nat) :
    s.Grows (s.pollGathered drain) := by
  rw [pollGathered]
  split
  · exact .refl s
  · next g _ =>
    refine (pollCalls_grows h hd drain g).trans ?_
    rw [endDrain]
    split
    · exact .of_eq rfl rfl
    · exact .refl _

theorem pollDrain_grows {s : Session} (h : s.Alert) (hatt : s.Attained) (drain : Nat) :
    s.Grows (s.pollDrain drain) := by
  rw [pollDrain]
  split
  · next n hd =>
    have hgather := (gather_watch_steps s (.drain drain)
      ((s.tracker n).calls.map .call)).undisturbed
    have hwatch := watch_onward (.drain drain) 0
      (s.setGathering { futures := (s.tracker n).calls.map .call } (.drain drain))
      ((s.tracker n).calls.map .call)
    refine .trans ⟨hwatch.queue, hgather.gates⟩ ?_
    exact pollGathered_grows (beginDrain_alert h hatt hd).inOrder
      (hgather.depth ▸ hatt.depth_pos) drain
  · exact pollGathered_grows h.inOrder hatt.depth_pos drain
  · exact .refl s

theorem pollFresh_grows (s : Session) (number : Nat) : s.Grows (s.pollFresh number) := by
  rw [pollFresh]
  split
  · rw [beginShutdown]
    split <;> exact .of_eq rfl rfl
  · exact .refl s

theorem pollClosing_grows (s : Session) (number : Nat) : s.Grows (s.pollClosing number) := by
  rw [pollClosing]
  split
  · split
    · exact .of_eq rfl rfl
    · exact .refl s
  · exact .refl s

theorem pollDraining_grows {s : Session} (h : s.Alert) (hatt : s.Attained) (number : Nat) :
    s.Grows (s.pollDraining number) := by
  rw [pollDraining]
  split
  · next drain _ _ =>
    refine (pollDrain_grows h hatt drain).trans ?_
    dsimp only
    split
    · exact .of_eq rfl rfl
    · exact .refl _
  · exact .refl s

theorem pollShutdown_grows {s : Session} (h : s.Alert) (hatt : s.Attained) (number : Nat) :
    s.Grows (s.pollShutdown number) :=
  ((pollFresh_grows s number).trans (pollDraining_grows (pollFresh_alert h number)
    (hatt.steps (pollFresh_steps s number)) number)).trans (pollClosing_grows _ number)

/-- What runs adds to the queue at its end. -/
theorem runNext_grows {s : Session} (h : s.Alert) (hatt : s.Attained) {task : Nat}
    {queue : List Nat} (hq : s.queue = task :: queue) :
    Grows { s with queue } (s.runFirst 1) := by
  have hatt' := dequeue_attained hatt queue
  have halert (hcall : ∀ call, s.tasks[task]? ≠ some (.call call)) : Alert { s with queue } :=
    dequeue_alert h hq fun call htask => absurd htask (hcall call)
  rw [runFirst, hq]
  dsimp only
  rw [runFirst, runTask]
  dsimp only
  split
  · exact .refl _
  · next call _ =>
    exact ⟨(poll_onward (dequeue_inOrder h.inOrder queue) call).queue,
      (poll_steps hatt'.sited call).undisturbed.gates⟩
  · next htask => exact pollDrain_grows (halert fun _ hc => by cases htask.symm.trans hc) hatt' _
  · next htask => exact pollShutdown_grows (halert fun _ hc => by cases htask.symm.trans hc) hatt' _

theorem runFirst_of_empty {s : Session} (hq : s.queue = []) (n : Nat) : s.runFirst n = s := by
  cases n with
  | zero => rfl
  | succ n => rw [runFirst, hq]

theorem runFirst_succ (n : Nat) (s : Session) : s.runFirst (n + 1) = (s.runFirst 1).runFirst n := by
  cases hq : s.queue with
  | nil => rw [runFirst_of_empty hq, runFirst_of_empty hq, runFirst_of_empty hq]
  | cons task queue =>
    rw [runFirst, runFirst, hq]
    rfl

theorem Reachable.runNext {s : Session} (h : s.Reachable) : (s.runFirst 1).Reachable :=
  h.after [.runNext]

theorem Reachable.runFirst {s : Session} (h : s.Reachable) (n : Nat) :
    (s.runFirst n).Reachable := by
  induction n generalizing s with
  | zero => exact h
  | succ n ih =>
    rw [runFirst_succ]
    exact ih (h.runNext)

theorem Reachable.runFirst_gates {s : Session} (h : s.Reachable) (n : Nat) :
    s.gates <+: (s.runFirst n).gates := by
  induction n generalizing s with
  | zero => exact List.prefix_rfl
  | succ n ih =>
    rw [runFirst_succ]
    have hfirst : s.gates <+: (s.runFirst 1).gates := by
      cases hq : s.queue with
      | nil => exact (runFirst_of_empty hq 1).symm ▸ List.prefix_rfl
      | cons task queue => exact (runNext_grows h.alert h.attained hq).gates
    exact hfirst.trans (ih h.runNext)

/-! ### Rounds -/

theorem runFirst_anyDeeds {s : Session} (hs : s.Sited) (n : Nat) : s.AnyDeeds (s.runFirst n) :=
  fun hand => runFirst_deeds _ n hand hs

/-- The calls of the first tasks in the queue are polled. -/
theorem Reachable.runFirst_polls {s : Session} (h : s.Reachable) {before later : List Nat}
    {task call : Nat} (hq : s.queue = before ++ task :: later)
    (htask : s.tasks[task]? = some (.call call)) {n : Nat} (hn : before.length < n) :
    s.Polls (s.runFirst n) call := by
  induction before generalizing s n later with
  | nil =>
    obtain ⟨n, rfl⟩ := Nat.exists_eq_succ_of_ne_zero (Nat.ne_zero_of_lt hn)
    have hfirst : s.runFirst 1 = Session.poll { s with queue := later } call := by
      rw [Session.runFirst, hq]
      simp only [List.nil_append, Session.runFirst, runTask, htask]
    have hsited := h.runNext.attained.sited
    have hpop : s.AnyDeeds { s with queue := later } := fun hand =>
      .single (.move (.nudge (.queue hand s later)))
    refine ⟨_, hpop, ?_⟩
    rw [runFirst_succ, ← hfirst]
    exact runFirst_anyDeeds hsited n
  | cons first before ih =>
    obtain ⟨n, rfl⟩ := Nat.exists_eq_succ_of_ne_zero (Nat.ne_zero_of_lt hn)
    obtain ⟨more, hmore⟩ := (runNext_grows h.alert h.attained hq).queue
    have hdeeds := runFirst_anyDeeds h.attained.sited 1
    have htask' := getElem?_of_extends (hdeeds.steps h.attained.sited).tasks.tasks htask
    have hq' : (s.runFirst 1).queue = before ++ task :: (later ++ more) := by
      rw [← hmore]
      simp
    rw [runFirst_succ]
    exact .after hdeeds (ih h.runNext hq' htask' (by simpa using hn))

/-- A round polls every call that can go on when it begins. -/
theorem Reachable.round_polls {s : Session} (h : s.Reachable) (hs : s.hasScheduler = true)
    {call : Nat} (hgo : s.CanGoOn call) : s.Polls (s.runFirst s.queue.length) call := by
  obtain ⟨task, hmem, htask⟩ := (h.alert.roused hgo).queued hs
  obtain ⟨before, later, hq⟩ := List.append_of_mem hmem
  refine h.runFirst_polls hq htask ?_
  rw [hq]
  simp

/-- A ripe call has ended after a round. -/
theorem Reachable.round_ends {s : Session} (h : s.Reachable) (hs : s.hasScheduler = true)
    {call : Nat} (hr : s.IsRipe call) :
    ((s.runFirst s.queue.length).outcomeOf call).isSome = true := by
  have hsited := h.attained.sited
  rcases hr.canGoOn h.alert.wired with hended | hgo
  · exact (runFirst_anyDeeds hsited _).ended hsited hended
  · exact (h.round_polls hs hgo).ends h.attained h.alert.wired hr

theorem rounds_add (m n : Nat) (s : Session) : s.rounds (m + n) = (s.rounds m).rounds n := by
  induction m generalizing s with
  | zero => rw [Nat.zero_add]; rfl
  | succ m ih => rw [Nat.add_right_comm, rounds, ih]; rfl

theorem Reachable.rounds {s : Session} (h : s.Reachable) (n : Nat) : (s.rounds n).Reachable := by
  induction n generalizing s with
  | zero => exact h
  | succ n ih => exact ih (h.runFirst _)

theorem rounds_anyDeeds {s : Session} (hs : s.Sited) (n : Nat) : s.AnyDeeds (s.rounds n) := by
  induction n generalizing s with
  | zero => exact fun _ => .refl
  | succ n ih =>
    have hfirst := runFirst_anyDeeds hs s.queue.length
    exact hfirst.trans (ih (hfirst.sited hs))

theorem rounds_steps {s : Session} (hs : s.Sited) (n : Nat) : Steps s (s.rounds n) :=
  (rounds_anyDeeds hs n).steps hs

end OperationTree.Session
