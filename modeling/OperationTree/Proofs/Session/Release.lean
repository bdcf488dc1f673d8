import OperationTree.Proofs.Session.Draining
import OperationTree.Proofs.Session.Levels
import OperationTree.Proofs.Session.Likeness

/-! Letting go of the future of a call.  Whoever started the call may do so at any time, and nobody
else can tell whether it has been done: everything goes on in the same way.  The call itself is kept
by its task if there is a scheduler, and by its registry as long as that is there, and it ends with
the next tick or drain that finds that it can. -/

namespace OperationTree.Session

/-! ### Nobody can tell -/

/-- Two sessions differ at most in who keeps the futures of calls, and no one who looks into the
registries or waits for anything can tell them apart. -/
structure Indistinct (s t : Session) : Prop where
  same : ∃ calls : List Call, t = { s with calls } ∧
    calls.map (Call.seen false) = s.calls.map (Call.seen false)
  tracker : ∀ number, t.tracker number = s.tracker number
  outcomeOf : ∀ call, t.outcomeOf call = s.outcomeOf call
  drainEnd? : ∀ drain, t.drainEnd? drain = s.drainEnd? drain
  await : ∀ future, (t.await future).1 = (s.await future).1
  awaitDrain : ∀ tracker, (t.awaitDrain tracker).1 = (s.awaitDrain tracker).1

/-- Letting go of a future changes only who keeps it. -/
theorem release_resembles (s : Session) (call : Nat) :
    Resembles false Eq s (s.release call) := by
  refine ⟨fun _ compiled => compiled, fun _ _ => rfl, (s.release call).calls, ?_, ?_⟩
  · exact map_modify_eq (f := fun c => { c with isHeld := false }) (g := Call.seen false)
      (fun _ => rfl) s.calls call
  · rw [mapIdx_replace_self fun _ _ => rfl]
    rfl

theorem Resembles.indistinct {s t : Session} (h : Resembles false Eq s t) : s.Indistinct t := by
  obtain ⟨f, hf, hm⟩ := h
  have hoffers (number : Nat) (compiled : Compiled) : compiled.Offers (f number compiled) :=
    hf number compiled ▸ .refl compiled
  obtain ⟨calls, hcalls, ht⟩ := id hm
  rw [mapIdx_replace_self hf] at ht
  exact
    { same := ⟨calls, ht, hcalls⟩
      tracker := fun _ => ht ▸ rfl
      outcomeOf := hm.outcomeOf
      drainEnd? := hm.drainEnd?
      await := fun future => (hm.await hoffers future).1
      awaitDrain := fun tracker => (hm.awaitDrain hoffers tracker).1 }

/-! ### The call goes on -/

/-- Those who keep an unsettled call: its task, and its registry. -/
structure IsKept (s : Session) (call : Nat) (c : Call) : Prop where
  task : s.hasScheduler = true → .call call ∈ s.tasks
  entry : s.isTracking c.tracker = true → (c.id, call) ∈ (s.tracker c.tracker).entries

theorem Reachable.isKept {s : Session} (h : s.Reachable) {call : Nat} {c : Call}
    (hc : s.unsettled? call = some c) : s.IsKept call c where
  task hs := h.alert.inOrder.spawned hs call (lt_of_unsettled hc)
  entry ht := by
    obtain ⟨t, hget, hheld⟩ := isTracking_iff.mp ht
    obtain ⟨hcall, hopen⟩ := unsettled?_eq_some.mp hc
    rw [Session.tracker, List.getD_eq_getElem?_getD, hget]
    exact (h.attained.sound.held c.tracker t hget hheld c.id call).mpr
      (getElem?_marks.mpr ⟨c, hcall, rfl, rfl, hopen⟩)

/-- A call ends with the next tick or drain at which it can. -/
structure EndsInTime (s : Session) (call : Nat) : Prop where
  /-- A tick ends the call if it is ripe when one of the rounds begins. -/
  tick_ripe : s.hasScheduler = true → ∀ m < 4 * (s.depth + 1),
    (s.rounds m).IsRipe call ∨ (s.run.deliver.rounds m).IsRipe call →
      (s.tick.outcomeOf call).isSome = true
  /-- A tick ends the call unless something below it waits for an open gate, or the calls below it
  are on too many levels for its rounds. -/
  tick_levels : s.hasScheduler = true → ∀ n < 4 * (s.depth + 1),
    (s.tick.outcomeOf call).isSome = true ∨ s.tick.IsHeldUp n call
  /-- A drain polls the call if it can go on. -/
  drain_polls : ∀ drain n, s.WaitsFor drain call → s.turns drain ≤ n → s.CanGoOn call →
    s.EndsOrPolls (s.pollDrainTimes drain n) call
  /-- A drain ends the call if it is ripe. -/
  drain_ripe : ∀ drain n, s.WaitsFor drain call → s.turns drain ≤ n → s.IsRipe call →
    ((s.pollDrainTimes drain n).outcomeOf call).isSome = true

theorem Reachable.endsInTime {s : Session} (h : s.Reachable) {call : Nat}
    (hcall : call < s.calls.length) : s.EndsInTime call where
  tick_ripe hs _ hm hr := h.tick_ends_ripe hs hm hr
  tick_levels hs _ hn := h.tick_ends hs hcall hn
  drain_polls _ _ hw hn hgo := h.drain_polls hgo hw hn
  drain_ripe _ _ hw hn hr := h.drain_ends hr hw hn

/-- Letting go of the future of a call cancels nothing, whether there is a scheduler or not and
whatever is done afterwards: at any later time the session cannot be told from the one in which the
future has been kept; somebody keeps the call while it has not ended; and it ends in time. -/
theorem Reachable.release_cancels_nothing {s : Session} (h : s.Reachable) {call : Nat}
    (hcall : call < s.calls.length) (actions : List Action) :
    let kept := s.after actions
    let dropped := (s.perform (.release call)).after actions
    kept.Indistinct dropped ∧
      (∀ c, dropped.unsettled? call = some c → dropped.IsKept call c) ∧
      dropped.EndsInTime call := by
  intro kept dropped
  have hdropped : dropped.Reachable := (h.after [.release call]).after actions
  have hcalls : call < dropped.calls.length := by
    have hcontinues := (after_steps h.attained.sited (.release call :: actions)).continues
    obtain ⟨c, hc, -⟩ := hcontinues call _ (List.getElem?_eq_getElem hcall)
    exact (List.getElem?_eq_some_iff.mp hc).1
  exact ⟨((release_resembles s call).after (fun _ => rfl) (fun heq => heq ▸ .refl _)
    actions).indistinct, fun _ hc => hdropped.isKept hc, hdropped.endsInTime hcalls⟩

/-- A call waits for a gate, and its registry is there. -/
def waitingForGate (hasScheduler : Bool) : Session :=
  (initial hasScheduler {}).after [.addTracker, .start 0 .gated]

/-- After its future has been let go of the call ends with the next tick, or with a drain where
there is no scheduler. -/
theorem release_cancels_nothing_gated :
    let settled : Action := .settleGate 0 (.ok .null)
    let ticking := ((waitingForGate true).perform (.release 0)).after [settled]
    let draining := ((waitingForGate false).perform (.release 0)).after [settled, .addDrain 0]
    ((waitingForGate true).after [settled]).Indistinct ticking ∧
      (ticking.tick.outcomeOf 0).isSome = true ∧
      ((waitingForGate false).after [settled, .addDrain 0]).Indistinct draining ∧
      ((draining.pollDrainTimes 0 1).outcomeOf 0).isSome = true := by
  intro settled ticking draining
  have hwaiting (hasScheduler : Bool) : (waitingForGate hasScheduler).Reachable :=
    ⟨hasScheduler, {}, _, rfl⟩
  have hcall (hasScheduler : Bool) : 0 < (waitingForGate hasScheduler).calls.length := by
    cases hasScheduler <;> decide +kernel
  obtain ⟨htick, -, hticks⟩ := (hwaiting true).release_cancels_nothing (hcall true) [settled]
  obtain ⟨hdrain, -, hdrains⟩ :=
    (hwaiting false).release_cancels_nothing (hcall false) [settled, .addDrain 0]
  have hripe : ticking.IsRipe 0 := .inl ⟨_, rfl, .inr rfl⟩
  have hripe' : draining.IsRipe 0 := .inl ⟨_, rfl, .inr rfl⟩
  have hwaits : draining.WaitsFor 0 0 := .inl ⟨0, rfl, List.mem_singleton.mpr rfl⟩
  exact ⟨htick, hticks.tick_ripe rfl 0 (by decide) (.inl hripe), hdrain,
    hdrains.drain_ripe 0 1 hwaits (by decide +kernel) hripe'⟩

end OperationTree.Session
