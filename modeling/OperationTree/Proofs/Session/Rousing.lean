import OperationTree.Proofs.Session.Spawning
import OperationTree.Proofs.Session.Wiring

/-! Who is woken.  A call that can go on is polled by its task, by the drains that wait for it, and
by whoever gathers it; all of these only look at it when they have been told to.  `Roused` says that
everyone has been told who polls a call without being asked: its task is queued, and its place is
due in all drains of many calls.  Waking a call rouses it and those who gather it. -/

namespace OperationTree

/-- Work without what is due among many futures. -/
def Work.rough : Work → Work
  | .collecting g => .collecting (if g.isWide then { g with due := [] } else g)
  | work => work

def Call.rough (c : Call) : Call := { c with work := c.work.rough }

section Rough

variable {c c' : Call} (h : c'.rough = c.rough)
include h

theorem Call.work_of_rough : c'.work.rough = c.work.rough :=
  (congrArg Call.work h : c'.rough.work = c.rough.work)

theorem Call.outcome_of_rough : c'.outcome = c.outcome :=
  (congrArg Call.outcome h : c'.rough.outcome = c.rough.outcome)

theorem Call.waiters_of_rough : c'.waiters = c.waiters :=
  (congrArg Call.waiters h : c'.rough.waiters = c.rough.waiters)

end Rough

theorem Work.rough_few {g : Gathering} (hw : g.isWide = false) :
    (Work.collecting g).rough = .collecting g := by
  rw [rough, if_neg (by simp [hw])]

theorem Work.rough_wide {g : Gathering} (hw : g.isWide = true) :
    (Work.collecting g).rough = .collecting { g with due := [] } := by
  rw [rough, if_pos hw]

/-- Work that is the same except for what is due is the same, or waits for many futures. -/
theorem Work.rough_cases {work work' : Work} (h : work'.rough = work.rough) :
    work' = work ∨ ∃ g due, g.isWide = true ∧ work = .collecting g ∧
      work' = .collecting { g with due } := by
  cases work with
  | collecting g =>
    cases work' with
    | collecting g' =>
      cases hw : g.isWide <;> cases hw' : g'.isWide
      · rw [rough_few hw, rough_few hw'] at h
        exact .inl h
      · rw [rough_few hw, rough_wide hw'] at h
        obtain rfl := Work.collecting.inj h
        cases hw.symm.trans hw'
      · rw [rough_wide hw, rough_few hw'] at h
        obtain rfl := (Work.collecting.inj h).symm
        cases hw'.symm.trans hw
      · rw [rough_wide hw, rough_wide hw'] at h
        obtain ⟨futures, due, taken⟩ := g
        obtain ⟨futures', due', taken'⟩ := g'
        obtain ⟨rfl, -, rfl⟩ := Gathering.mk.inj (Work.collecting.inj h)
        exact .inr ⟨_, due', hw, rfl, rfl⟩
    | _ => rw [rough] at h; split at h <;> cases h
  | _ =>
    cases work' with
    | collecting => rw [rough] at h; split at h <;> cases h
    | _ => exact .inl h

namespace Session

/-! ### What can go on -/

/-- Few futures have come to something: all have settled, or one of them has failed. -/
def IsDecided (s : Session) (futures : List Future) : Prop :=
  (∀ future ∈ futures, (s.result future).isSome = true) ∨
    ∃ future ∈ futures, ∃ e, s.result future = some (.error e)

/-- Of many futures some are due, or the results that have been taken come to something. -/
def HasNews (s : Session) (g : Gathering) : Prop :=
  g.due ≠ [] ∨ s.progressFrom g.taken 0 g.futures ≠ .waiting

/-- A poll would take the work further. -/
def GoesOn (s : Session) : Work → Prop
  | .ready _ | .exchange _ | .aggregate .. => True
  | .gate gate => (s.gateOutcome gate).isSome = true
  | .answered _ => False
  | .collecting g => if g.isWide then s.HasNews g else s.IsDecided g.futures

theorem progressFrom_congr {s t : Session} {taken : List Nat} {futures : List Future}
    {place : Nat}
    (h : ∀ (i : Nat) (future : Future), futures[i]? = some future → place + i ∈ taken →
      t.result future = s.result future) :
    t.progressFrom taken place futures = s.progressFrom taken place futures := by
  induction futures generalizing place with
  | nil => rfl
  | cons future rest ih =>
    have hrest : t.progressFrom taken (place + 1) rest = s.progressFrom taken (place + 1) rest :=
      ih fun i f hf hp => h (i + 1) f hf (by rwa [Nat.add_right_comm] at hp)
    rw [progressFrom, progressFrom, hrest]
    split
    · next hp => rw [h 0 future rfl (by simpa using hp)]
    · rfl

theorem isDecided_congr {s t : Session} {futures : List Future}
    (h : ∀ future ∈ futures, t.result future = s.result future) :
    t.IsDecided futures ↔ s.IsDecided futures := by
  refine or_congr (forall₂_congr fun future hf => ?_) (exists_congr fun future =>
    and_congr_right fun hf => ?_)
  all_goals rw [h future hf]

theorem goesOn_congr {s t : Session} (hg : ∀ gate, t.gateOutcome gate = s.gateOutcome gate)
    (hr : ∀ future, t.result future = s.result future) (work : Work) :
    t.GoesOn work ↔ s.GoesOn work := by
  cases work with
  | collecting g =>
    rw [GoesOn, GoesOn, HasNews, HasNews, isDecided_congr fun future _ => hr future,
      progressFrom_congr fun _ future _ _ => hr future]
  | _ => simp only [GoesOn, hg]

/-- A poll would take a call further. -/
def CanGoOn (s : Session) (call : Nat) : Prop :=
  ∃ c, s.unsettled? call = some c ∧ s.GoesOn c.work

/-! ### Who has been told -/

def IsQueued (s : Session) (call : Nat) : Prop :=
  ∃ task ∈ s.queue, s.tasks[task]? = some (.call call)

theorem IsQueued.later {s t : Session} {call : Nat} (h : s.IsQueued call) (ht : s.KeepsTasks t)
    (hq : s.queue <+: t.queue) : t.IsQueued call := by
  obtain ⟨task, hmem, htask⟩ := h
  exact ⟨task, hq.subset hmem, getElem?_of_extends ht.tasks htask⟩

/-- Everyone who polls a call by himself is going to do so. -/
structure Roused (s : Session) (call : Nat) : Prop where
  queued : s.hasScheduler = true → s.IsQueued call
  due : ∀ (drain : Nat) (g : Gathering) (place : Nat), s.gathering? (.drain drain) = some g →
    g.isWide = true → g.futures[place]? = some (.call call) → g.accepts place = false

/-- Drains go on waiting as they do, with more that is due. -/
def DrainsExtend (s t : Session) : Prop :=
  ∀ drain, (s.gathering? (.drain drain) = none ∧ t.gathering? (.drain drain) = none) ∨
    ∃ g more, s.gathering? (.drain drain) = some g ∧
      t.gathering? (.drain drain) = some { g with due := g.due ++ more }

namespace DrainsExtend

variable {s t u : Session}

theorem of_eq (h : t.drains = s.drains) : s.DrainsExtend t := by
  intro drain
  have hsame : t.gathering? (.drain drain) = s.gathering? (.drain drain) := by
    rw [gathering?, gathering?, h]
  rw [hsame]
  cases s.gathering? (.drain drain) with
  | none => exact .inl ⟨rfl, rfl⟩
  | some g => exact .inr ⟨g, [], rfl, by rw [List.append_nil]⟩

theorem trans (h : s.DrainsExtend t) (h' : t.DrainsExtend u) : s.DrainsExtend u := by
  intro drain
  rcases h drain with ⟨hs, ht⟩ | ⟨g, more, hs, ht⟩
  · rcases h' drain with ⟨-, hu⟩ | ⟨g, _, ht', -⟩
    · exact .inl ⟨hs, hu⟩
    · cases ht.symm.trans ht'
  · rcases h' drain with ⟨ht', -⟩ | ⟨g', more', ht', hu⟩
    · cases ht.symm.trans ht'
    · obtain rfl := Option.some.inj (ht.symm.trans ht')
      exact .inr ⟨g, more ++ more', hs, by rw [hu, List.append_assoc]⟩

/-- A drain waits after all for the futures that it has waited for. -/
theorem back (h : s.DrainsExtend t) {drain : Nat} {g' : Gathering}
    (hg : t.gathering? (.drain drain) = some g') :
    ∃ g more, s.gathering? (.drain drain) = some g ∧ g' = { g with due := g.due ++ more } := by
  rcases h drain with ⟨-, ht⟩ | ⟨g, more, hs, ht⟩
  · cases ht.symm.trans hg
  · exact ⟨g, more, hs, Option.some.inj (hg.symm.trans ht)⟩

end DrainsExtend

theorem accepts_eq_false {g : Gathering} {place : Nat} :
    g.accepts place = false ↔ place ∈ g.due ∨ place ∈ g.taken := by
  rw [← Bool.not_eq_true, Gathering.accepts_iff, not_and_or, not_not, not_not]

theorem accepts_extend {g : Gathering} {place : Nat} (h : g.accepts place = false)
    (more : List Nat) : Gathering.accepts { g with due := g.due ++ more } place = false :=
  accepts_eq_false.mpr ((accepts_eq_false.mp h).imp_left (List.mem_append_left more))

theorem Roused.mono {s t : Session} {call : Nat} (h : s.Roused call) (ht : s.KeepsTasks t)
    (hq : s.queue <+: t.queue) (hd : s.DrainsExtend t) : t.Roused call where
  queued hs := (h.queued (ht.hasScheduler ▸ hs)).later ht hq
  due drain g' place hg hw hp := by
    obtain ⟨g, more, hs, rfl⟩ := hd.back hg
    exact accepts_extend (h.due drain g place hs hw hp) more

/-- Every call that a drain waits for knows of it. -/
def Announced (s : Session) : Prop :=
  ∀ (drain : Nat) (g : Gathering) (place call : Nat), s.gathering? (.drain drain) = some g →
    g.futures[place]? = some (.call call) →
    ∃ c : Call, s.calls[call]? = some c ∧ (.drain drain, place) ∈ c.waiters

/-- A session whose calls can be woken: those who poll a call know of it, and a call is gathered by
earlier calls. -/
structure Linked (s : Session) : Prop where
  spawned : s.Spawned
  announced : s.Announced
  ordered : ∀ (k other place : Nat) (c : Call), s.calls[k]? = some c →
    (.call other, place) ∈ c.waiters → other < k

/-! ### Waking -/

/-- What waking does: the queue grows at its end, and more becomes due. -/
structure Rouses (s t : Session) : Prop where
  calls : t.calls.map Call.rough = s.calls.map Call.rough
  gates : t.gates = s.gates
  tasks : t.tasks = s.tasks
  hasScheduler : t.hasScheduler = s.hasScheduler
  queue : s.queue <+: t.queue
  drains : s.DrainsExtend t

/-- More has become due of what a call gathers. -/
def Heeds (s t : Session) (call : Nat) : Prop :=
  ∃ g g', s.gathering? (.call call) = some g ∧ t.gathering? (.call call) = some g' ∧
    g'.due ≠ g.due

namespace Rouses

variable {s t u : Session}

theorem refl (s : Session) : s.Rouses s :=
  ⟨rfl, rfl, rfl, rfl, List.prefix_rfl, .of_eq rfl⟩

theorem trans (h : s.Rouses t) (h' : t.Rouses u) : s.Rouses u :=
  ⟨h'.calls.trans h.calls, h'.gates.trans h.gates, h'.tasks.trans h.tasks,
    h'.hasScheduler.trans h.hasScheduler, h.queue.trans h'.queue, h.drains.trans h'.drains⟩

section Kept

variable (h : s.Rouses t)
include h

theorem keepsTasks : s.KeepsTasks t := .of_eq h.hasScheduler h.tasks

theorem roused {call : Nat} (hr : s.Roused call) : t.Roused call :=
  hr.mono h.keepsTasks h.queue h.drains

theorem length_calls : t.calls.length = s.calls.length := by
  simpa using congrArg List.length h.calls

theorem outcomeOf (call : Nat) : t.outcomeOf call = s.outcomeOf call := by
  rw [Session.outcomeOf, Session.outcomeOf]
  rcases getElem?_cases h.calls call with ⟨hs, ht⟩ | ⟨c, c', hs, ht, hrough⟩
  · rw [hs, ht]
  · rw [hs, ht]
    exact Call.outcome_of_rough hrough

theorem result (future : Future) : t.result future = s.result future := by
  cases future with
  | settled => rfl
  | call n => exact h.outcomeOf n

theorem gateOutcome (gate : Nat) : t.gateOutcome gate = s.gateOutcome gate := by
  rw [Session.gateOutcome, Session.gateOutcome, h.gates]

theorem unsettled?_cases (call : Nat) : (s.unsettled? call = none ∧ t.unsettled? call = none) ∨
    ∃ c c', s.unsettled? call = some c ∧ t.unsettled? call = some c' ∧ c'.rough = c.rough := by
  rw [unsettled?, unsettled?]
  rcases getElem?_cases h.calls call with ⟨hs, ht⟩ | ⟨c, c', hs, ht, hrough⟩
  · exact .inl (by rw [hs, ht]; exact ⟨rfl, rfl⟩)
  · rw [hs, ht, Option.filter_some, Option.filter_some, Call.outcome_of_rough hrough]
    split
    · exact .inr ⟨c, c', rfl, rfl, hrough⟩
    · exact .inl ⟨rfl, rfl⟩

/-- What can go on could do so before, or more has become due of what it gathers. -/
theorem canGoOn_cases {call : Nat} (hc : t.CanGoOn call) : s.CanGoOn call ∨ s.Heeds t call := by
  obtain ⟨c', hopen, hgo⟩ := hc
  rcases h.unsettled?_cases call with ⟨-, hnone⟩ | ⟨c, c1, hs, ht, hrough⟩
  · cases hnone.symm.trans hopen
  · obtain rfl := Option.some.inj (ht.symm.trans hopen)
    rw [goesOn_congr h.gateOutcome h.result] at hgo
    rcases Work.rough_cases (Call.work_of_rough hrough) with hsame | ⟨g, due, hw, hwork, hwork'⟩
    · exact .inl ⟨c, hs, hsame ▸ hgo⟩
    · by_cases hdue : due = g.due
      · subst hdue
        exact .inl ⟨c, hs, by rw [hwork]; rwa [hwork'] at hgo⟩
      · exact .inr ⟨g, _, gathering?_eq_some hs hwork, gathering?_eq_some ht hwork', hdue⟩

theorem gathering?_call_cases {call : Nat} {g : Gathering}
    (hg : s.gathering? (.call call) = some g) :
    t.gathering? (.call call) = some g ∨
      (g.isWide = true ∧ ∃ due, t.gathering? (.call call) = some { g with due }) := by
  obtain ⟨c, hc, hwork⟩ := gathering?_call hg
  rcases h.unsettled?_cases call with ⟨hnone, -⟩ | ⟨c1, c', hs, ht, hrough⟩
  · cases hnone.symm.trans hc
  · obtain rfl := Option.some.inj (hs.symm.trans hc)
    rcases Work.rough_cases (Call.work_of_rough hrough) with hsame | ⟨g', due, hw, heq, hwork'⟩
    · exact .inl (gathering?_eq_some ht (hsame.trans hwork))
    · obtain rfl := Work.collecting.inj (hwork.symm.trans heq)
      exact .inr ⟨hw, due, gathering?_eq_some ht hwork'⟩

/-- What is gathered of few futures does not change. -/
theorem gathering?_few {call : Nat} {g : Gathering} (hg : s.gathering? (.call call) = some g)
    (hw : g.isWide = false) : t.gathering? (.call call) = some g := by
  rcases h.gathering?_call_cases hg with hsame | ⟨hw', -⟩
  · exact hsame
  · cases hw.symm.trans hw'

theorem spawned (hs : s.Spawned) : t.Spawned :=
  hs.of_length h.length_calls h.keepsTasks

theorem announced (hs : s.Announced) : t.Announced := by
  intro drain g' place call hg hp
  obtain ⟨g, more, hold, rfl⟩ := h.drains.back hg
  obtain ⟨c, hc, hmem⟩ := hs drain g place call hold hp
  rcases getElem?_cases h.calls call with ⟨hnone, -⟩ | ⟨c1, c', hget, hget', hrough⟩
  · cases hnone.symm.trans hc
  · obtain rfl := Option.some.inj (hget.symm.trans hc)
    exact ⟨c', hget', (Call.waiters_of_rough hrough).symm ▸ hmem⟩

theorem linked (hs : s.Linked) : t.Linked where
  spawned := h.spawned hs.spawned
  announced := h.announced hs.announced
  ordered k other place c hc hmem := by
    rcases getElem?_cases h.calls k with ⟨-, hnone⟩ | ⟨c1, c', hget, hget', hrough⟩
    · cases hnone.symm.trans hc
    · obtain rfl := Option.some.inj (hget'.symm.trans hc)
      exact hs.ordered k other place c1 hget (Call.waiters_of_rough hrough ▸ hmem)

end Kept
end Rouses

theorem enqueue_rouses (s : Session) (waiter : Waiter) : s.Rouses (s.enqueue waiter) :=
  ⟨rfl, rfl, rfl, rfl, List.prefix_append _ _, .of_eq rfl⟩

theorem gathering?_setGathering_ne {s : Session} {g : Gathering} {drain other : Nat}
    (h : drain ≠ other) :
    (s.setGathering g (.drain drain)).gathering? (.drain other) = s.gathering? (.drain other) := by
  simp [gathering?, setGathering, setDrain, List.getElem?_set_ne h]

theorem push_rouses {s : Session} {waiter : Waiter} {g : Gathering}
    (hg : s.gathering? waiter = some g) (hw : g.isWide = true) (place : Nat) :
    s.Rouses (s.setGathering (g.push place) waiter) := by
  cases waiter with
  | call n =>
    refine ⟨?_, rfl, rfl, rfl, List.prefix_rfl, .of_eq rfl⟩
    obtain ⟨c, hc, hwork⟩ := gathering?_call hg
    have hget := (unsettled?_eq_some.mp hc).1
    refine List.ext_getElem? fun m => ?_
    simp only [setGathering, setWork, List.getElem?_map, List.getElem?_modify]
    by_cases hm : n = m
    · subst hm
      have hw' : (g.push place).isWide = true := hw
      simp only [hget, if_true, Option.map_some, Option.map_eq_map, Call.rough, Work.rough, hwork,
        hw, hw']
      rfl
    · simp [hm]
  | drain n =>
    refine ⟨rfl, rfl, rfl, rfl, List.prefix_rfl, fun drain => ?_⟩
    by_cases hn : n = drain
    · subst hn
      exact .inr ⟨g, [place], hg, gathering?_setGathering _ hg⟩
    · rw [gathering?_setGathering_ne hn]
      cases s.gathering? (.drain drain) with
      | none => exact .inl ⟨rfl, rfl⟩
      | some g' => exact .inr ⟨g', [], rfl, by rw [List.append_nil]⟩
  | shutdown => cases hg

section Notify

variable {wake : Session → Waiter → Session}
  (hwake : ∀ (s : Session) (waiter : Waiter), s.Rouses (wake s waiter))
include hwake

theorem notify_rouses (s : Session) (waiter : Waiter) (place : Nat) :
    s.Rouses (notify wake s waiter place) := by
  rw [notify]
  split
  · exact .refl s
  · next g hg =>
    split
    · exact hwake s waiter
    · next hw =>
      split
      · exact (push_rouses hg (by simpa using hw) place).trans (hwake _ waiter)
      · exact .refl s

theorem notifyAll_rouses (waiters : List (Waiter × Nat)) (s : Session) :
    s.Rouses (waiters.foldl (fun s (waiter, place) => notify wake s waiter place) s) := by
  induction waiters generalizing s with
  | nil => exact .refl s
  | cons entry rest ih => exact (notify_rouses hwake s entry.1 entry.2).trans (ih _)

/-- What holds when one has been told, and is kept by waking, holds when all have been told. -/
theorem notifyAll_of_mem {P : Session → Prop} (hkeep : ∀ {s t : Session}, s.Rouses t → P s → P t)
    {waiters : List (Waiter × Nat)} {s : Session} {waiter : Waiter} {place : Nat}
    (hmem : (waiter, place) ∈ waiters) (hp : ∀ t, s.Rouses t → P (notify wake t waiter place)) :
    P (waiters.foldl (fun s (waiter, place) => notify wake s waiter place) s) := by
  obtain ⟨before, after, rfl⟩ := List.append_of_mem hmem
  rw [List.foldl_append, List.foldl_cons]
  exact hkeep (notifyAll_rouses hwake after _) (hp _ (notifyAll_rouses hwake before s))

/-- A drain of many calls that has been told of a place has it among those that are due. -/
theorem notify_accepts (s : Session) (drain place : Nat) {g : Gathering}
    (hg : (notify wake s (.drain drain) place).gathering? (.drain drain) = some g)
    (hw : g.isWide = true) : g.accepts place = false := by
  rw [notify] at hg
  split at hg
  · next hnone => cases hnone.symm.trans hg
  · next g0 hg0 =>
    split at hg
    · next hnarrow =>
      obtain ⟨g1, more, hg1, rfl⟩ := (hwake s (.drain drain)).drains.back hg
      obtain rfl := Option.some.inj (hg0.symm.trans hg1)
      rw [Gathering.isWide] at hw hnarrow
      simp [hw] at hnarrow
    · split at hg
      · obtain ⟨g1, more, hg1, rfl⟩ := (hwake _ (.drain drain)).drains.back hg
        obtain rfl := Option.some.inj ((gathering?_setGathering _ hg0).symm.trans hg1)
        refine accepts_extend (accepts_eq_false.mpr (.inl ?_)) more
        exact List.mem_append_right _ (List.mem_singleton.mpr rfl)
      · next ha =>
        obtain rfl := Option.some.inj (hg0.symm.trans hg)
        simpa using ha

end Notify

theorem wakeWithin_rouses (depth : Nat) (s : Session) (waiter : Waiter) :
    s.Rouses (wakeWithin depth s waiter) := by
  induction depth generalizing s waiter with
  | zero => exact .refl s
  | succ depth ih =>
    cases waiter with
    | call n => exact (enqueue_rouses s (.call n)).trans (notifyAll_rouses ih _ _)
    | drain | shutdown => exact enqueue_rouses s _

theorem wake_rouses (s : Session) (waiter : Waiter) : s.Rouses (s.wake waiter) :=
  wakeWithin_rouses _ s waiter

theorem enqueue_isQueued {s : Session} {call : Nat} (h : .call call ∈ s.tasks) :
    (s.enqueue (.call call)).IsQueued call := by
  obtain ⟨task, htask⟩ := List.mem_iff_getElem?.mp h
  refine ⟨task, ?_, htask⟩
  rw [enqueue, List.mem_append]
  by_cases hq : task ∈ s.queue
  · exact .inl hq
  · refine .inr (List.mem_map.mpr ⟨(.call call, task), List.mem_filter.mpr ⟨?_, ?_⟩, rfl⟩)
    · exact List.mk_mem_zipIdx_iff_getElem?.mpr htask
    · simp [polls, hq]

/-- A call that is woken is roused. -/
theorem wakeWithin_roused {s : Session} (hs : s.Linked) {call : Nat}
    (hcall : call < s.calls.length) (depth : Nat) :
    (wakeWithin (depth + 1) s (.call call)).Roused call := by
  have hnotify := notifyAll_rouses (wakeWithin_rouses depth)
    (s.calls[call]?.elim [] Call.waiters) (s.enqueue (.call call))
  refine ⟨fun hscheduler => ?_, fun drain g place hg hw hp => ?_⟩
  · have hsched : s.hasScheduler = true :=
      (wakeWithin_rouses (depth + 1) s (.call call)).hasScheduler ▸ hscheduler
    obtain ⟨task, hmem, htask⟩ := enqueue_isQueued (hs.spawned hsched call hcall)
    exact ⟨task, hnotify.queue.subset hmem, hnotify.tasks.symm ▸ htask⟩
  · obtain ⟨g0, more, hg0, rfl⟩ :=
      (wakeWithin_rouses (depth + 1) s (.call call)).drains.back hg
    obtain ⟨c, hc, hmem⟩ := hs.announced drain g0 place call hg0 hp
    have hmem' : (.drain drain, place) ∈ s.calls[call]?.elim [] Call.waiters := by
      rw [hc]
      exact hmem
    refine notifyAll_of_mem (wakeWithin_rouses depth)
      (P := fun t => ∀ g, t.gathering? (.drain drain) = some g → g.isWide = true →
        g.accepts place = false) (fun h hold g' hg' hw' => ?_) hmem'
      (fun t _ g' hg' hw' => notify_accepts (wakeWithin_rouses depth) t drain place hg' hw')
      _ hg hw
    obtain ⟨g1, more', hg1, rfl⟩ := h.drains.back hg'
    exact accepts_extend (hold g1 hg1 hw') more'

theorem wake_roused {s : Session} (hs : s.Linked) {call : Nat} (hcall : call < s.calls.length) :
    (s.wake (.call call)).Roused call :=
  wakeWithin_roused hs hcall _

/-- Waking a call rouses those that gather it among few. -/
theorem wake_roused_gatherer {s : Session} (hs : s.Linked) {call other : Nat} {c : Call}
    {place : Nat} {g : Gathering} (hc : s.calls[call]? = some c)
    (hmem : (.call other, place) ∈ c.waiters) (hg : s.gathering? (.call other) = some g)
    (hw : g.isWide = false) : (s.wake (.call call)).Roused other := by
  have hmem' : (.call other, place) ∈ s.calls[call]?.elim [] Call.waiters := by
    rw [hc]
    exact hmem
  have hcalls : 0 < s.calls.length :=
    Nat.lt_of_le_of_lt (Nat.zero_le _) (List.getElem?_eq_some_iff.mp hc).1
  rw [wake, ← Nat.sub_add_cancel hcalls]
  refine notifyAll_of_mem (wakeWithin_rouses _) (P := fun t => t.Roused other)
    (fun h hr => h.roused hr) hmem' fun t ht => ?_
  have ht' := (enqueue_rouses s (.call call)).trans ht
  obtain ⟨c', hc', -⟩ := gathering?_call hg
  rw [notify, ht'.gathering?_few hg hw]
  simp only [hw, Bool.not_false, if_true]
  exact wakeWithin_roused (ht'.linked hs) (ht'.length_calls ▸ lt_of_unsettled hc') _

/-! ### Waking those who gather many -/

/-- Whoever gathers something of which more has become due has been roused. -/
def Heeded (s t : Session) : Prop := ∀ call, s.Heeds t call → t.Roused call

theorem heeded_of_calls {s t : Session} (h : t.calls = s.calls) : s.Heeded t := by
  rintro call ⟨g, g', hg, hg', hdue⟩
  have hsame : t.gathering? (.call call) = s.gathering? (.call call) := by
    rw [gathering?, gathering?, unsettled?, unsettled?, h]
  rw [hsame, hg] at hg'
  exact absurd (congrArg Gathering.due (Option.some.inj hg').symm) hdue

theorem Heeded.trans {s t u : Session} (hs : s.Heeded t) (ht : t.Heeded u) (h : s.Rouses t)
    (h' : t.Rouses u) : s.Heeded u := by
  rintro call ⟨g, g', hg, hg', hdue⟩
  obtain ⟨g1, hg1⟩ : ∃ g1, t.gathering? (.call call) = some g1 := by
    rcases h.gathering?_call_cases hg with hsame | ⟨-, due, hmore⟩
    · exact ⟨g, hsame⟩
    · exact ⟨_, hmore⟩
  by_cases heq : g1.due = g.due
  · exact ht call ⟨g1, g', hg1, hg', heq ▸ hdue⟩
  · exact h'.roused (hs call ⟨g, g1, hg, hg1, heq⟩)

theorem gathering?_setGathering_call_ne {s : Session} {g : Gathering} {call other : Nat}
    (h : call ≠ other) :
    (s.setGathering g (.call call)).gathering? (.call other) = s.gathering? (.call other) := by
  simp [gathering?, setGathering, setWork, unsettled?, h]

theorem wakeWithin_drain_calls (depth : Nat) (s : Session) (drain : Nat) :
    (wakeWithin depth s (.drain drain)).calls = s.calls := by
  cases depth <;> rfl

theorem notify_drain_calls (depth : Nat) (s : Session) (drain place : Nat) :
    (notify (wakeWithin depth) s (.drain drain) place).calls = s.calls := by
  rw [notify]
  split
  · rfl
  · split
    · exact wakeWithin_drain_calls depth s drain
    · split
      · exact wakeWithin_drain_calls depth _ drain
      · rfl

section Heeding

variable {depth : Nat} (hwake : ∀ (s : Session) (call : Nat), s.Linked → call < depth →
  s.Heeded (wakeWithin depth s (.call call)))
include hwake

theorem notify_heeded {s : Session} (hs : s.Linked) {waiter : Waiter} (place : Nat)
    (hlt : ∀ call, waiter = .call call → call < depth) :
    s.Heeded (notify (wakeWithin depth) s waiter place) := by
  cases waiter with
  | drain drain => exact heeded_of_calls (notify_drain_calls depth s drain place)
  | shutdown => exact heeded_of_calls rfl
  | call call =>
    have hcall := hlt call rfl
    rw [notify]
    split
    · exact heeded_of_calls rfl
    · next g hg =>
      obtain ⟨c, hc, -⟩ := gathering?_call hg
      split
      · exact hwake s call hs hcall
      · next hw =>
        split
        · have hpush := push_rouses hg (by simpa using hw) place
          rintro other ⟨g0, g', hg0, hg', hdue⟩
          by_cases hother : call = other
          · -- The one whose place is pushed is woken itself.
            subst hother
            rw [← Nat.sub_add_cancel (Nat.lt_of_le_of_lt (Nat.zero_le _) hcall)]
            exact wakeWithin_roused (hpush.linked hs) (hpush.length_calls ▸ lt_of_unsettled hc) _
          · refine hwake _ call (hpush.linked hs) hcall other ⟨g0, g', ?_, hg', hdue⟩
            rwa [gathering?_setGathering_call_ne hother]
        · exact heeded_of_calls rfl

theorem notifyAll_heeded (waiters : List (Waiter × Nat)) {s : Session} (hs : s.Linked)
    (hlt : ∀ call place, (.call call, place) ∈ waiters → call < depth) :
    s.Heeded (waiters.foldl (fun s (waiter, place) => notify (wakeWithin depth) s waiter place)
      s) := by
  induction waiters generalizing s with
  | nil => exact heeded_of_calls rfl
  | cons entry rest ih =>
    obtain ⟨waiter, place⟩ := entry
    have hfirst := notify_rouses (wakeWithin_rouses depth) s waiter place
    have htold := notify_heeded hwake hs place fun call heq =>
      hlt call place (heq ▸ List.mem_cons_self ..)
    have hrest := ih (hfirst.linked hs) fun call p hmem => hlt call p (List.mem_cons_of_mem _ hmem)
    exact htold.trans hrest hfirst (notifyAll_rouses (wakeWithin_rouses depth) rest _)

end Heeding

/-- Waking goes on to all who gather a call, since these are earlier calls. -/
theorem wakeWithin_heeded {depth : Nat} {s : Session} (hs : s.Linked) {call : Nat}
    (hdepth : call < depth) : s.Heeded (wakeWithin depth s (.call call)) := by
  induction depth generalizing s call with
  | zero => exact absurd hdepth (Nat.not_lt_zero _)
  | succ depth ih =>
    have hqueue := enqueue_rouses s (.call call)
    have hqueued : s.Heeded (s.enqueue (.call call)) := heeded_of_calls rfl
    refine hqueued.trans (notifyAll_heeded (fun _ _ hs hlt => ih hs hlt)
      (s.calls[call]?.elim [] Call.waiters) (hqueue.linked hs) fun other place hmem => ?_) hqueue
      (notifyAll_rouses (wakeWithin_rouses depth) _ _)
    cases hc : s.calls[call]? with
    | none => rw [hc] at hmem; cases hmem
    | some c =>
      rw [hc] at hmem
      exact Nat.lt_of_lt_of_le (hs.ordered call other place c hc hmem) (Nat.le_of_lt_succ hdepth)

/-- What can go on after waking could do so before, or has been roused. -/
theorem wake_canGoOn {s : Session} (hs : s.Linked) {waiter : Waiter} {call : Nat}
    (h : (s.wake waiter).CanGoOn call) : s.CanGoOn call ∨ (s.wake waiter).Roused call := by
  have hheeded : s.Heeded (s.wake waiter) := by
    cases waiter with
    | drain | shutdown => exact heeded_of_calls rfl
    | call n =>
      by_cases hn : n < s.calls.length
      · exact wakeWithin_heeded hs (Nat.lt_succ_of_lt hn)
      · refine heeded_of_calls ?_
        rw [wake, wakeWithin]
        dsimp only
        rw [show (s.enqueue (.call n)).calls = s.calls from rfl,
          List.getElem?_eq_none (Nat.le_of_not_lt hn)]
        rfl
  exact ((wake_rouses s waiter).canGoOn_cases h).imp_right (hheeded call)

end Session
end OperationTree
