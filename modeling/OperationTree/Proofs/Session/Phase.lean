import OperationTree.Proofs.Session.Shutdown

/-! The phases of a tree.  They move forward, and only when one of the tree's shutdowns is polled.
A shutdown that is first polled before the tree is closed awaits the calls that are registered then:
it drains them, and closes nothing until all of them have ended and everything after that.  One that
is given up while it drains has closed nothing, and leaves a tree that is not closed to the next. -/

namespace OperationTree.Session

/-! ### Stages -/

/-- How the stage of a shutdown can change. -/
inductive Advances (s : Session) : Stage → Stage → Prop
  | start {stage : Stage} (hne : stage ≠ .fresh) : Advances s .fresh stage
  | closeAll {drain : Nat} (he : (s.drainEnd? drain).isSome = true) :
    Advances s (.draining drain) .closing
  | finish (faults : CloseFaults) : Advances s .closing (.finished faults)

namespace Advances

variable {s : Session} {stage stage' : Stage}

theorem ne_fresh (h : s.Advances stage stage') : stage' ≠ .fresh := by
  cases h with
  | start hne => exact hne
  | closeAll | finish => exact Stage.noConfusion

theorem isPast (h : s.Advances stage stage') (hpast : stage.isPast = true) :
    stage'.isPast = true := by
  cases h with
  | finish => rfl
  | start | closeAll => cases hpast

theorem of_draining {drain : Nat} (h : s.Advances (.draining drain) stage') :
    stage' = .closing ∧ (s.drainEnd? drain).isSome = true := by
  cases h with
  | closeAll he => exact ⟨rfl, he⟩

end Advances

/-- What a step makes of a shutdown. -/
structure Advanced (s : Session) (sd sd' : Shutdown) : Prop where
  tree : sd'.tree = sd.tree
  isHeld : sd'.isHeld = true → sd.isHeld = true
  stage : sd'.stage = sd.stage ∨ (sd.isHeld = true ∧ s.Advances sd.stage sd'.stage)

theorem Advanced.refl (s : Session) (sd : Shutdown) : s.Advanced sd sd := ⟨rfl, id, .inl rfl⟩

theorem setStage_advanced {s u : Session} (hu : u.shutdowns = s.shutdowns) {m : Nat}
    {x : Shutdown} (hm : s.heldShutdown? m = some x) {stage : Stage}
    (ha : s.Advances x.stage stage) {n : Nat} {sd : Shutdown} (hn : s.shutdowns[n]? = some sd) :
    ∃ sd', (u.setStage m stage).shutdowns[n]? = some sd' ∧ s.Advanced sd sd' := by
  obtain ⟨hget, hheld⟩ := heldShutdown?_eq_some.mp hm
  rw [setStage, hu]
  refine exists_modified (.refl s) (fun y hy => ?_) hn
  obtain rfl := Option.some.inj (hget.symm.trans hy)
  exact ⟨rfl, id, .inr ⟨hheld, ha⟩⟩

theorem Step.shutdown {s s' : Session} (h : Step s s') {n : Nat} {sd : Shutdown}
    (hn : s.shutdowns[n]? = some sd) :
    ∃ sd', s'.shutdowns[n]? = some sd' ∧ s.Advanced sd sd' := by
  cases h with
  | call h => exact ⟨sd, by rw [h.undisturbed.shutdowns, hn], .refl s sd⟩
  | addShutdown =>
    exact ⟨sd, getElem?_of_extends (List.prefix_append _ _) hn, .refl s sd⟩
  | dropShutdown =>
    exact exists_modified (.refl s)
      (fun _ _ => ⟨rfl, fun hheld => absurd hheld Bool.false_ne_true, .inl rfl⟩) hn
  | beginShutdown hm hf =>
    rw [Session.beginShutdown]
    split
    · exact setStage_advanced rfl hm (hf ▸ .start (by simp)) hn
    · exact setStage_advanced rfl hm (hf ▸ .start (by simp)) hn
  | closeAll hm hd he => exact setStage_advanced rfl hm (hd ▸ .closeAll he) hn
  | endShutdown hm hc _ => exact setStage_advanced rfl hm (hc ▸ .finish _) hn
  | _ => exact ⟨sd, hn, .refl s sd⟩

/-- A shutdown that has been given up stays as it is. -/
theorem Steps.givenUp {s s' : Session} (h : Steps s s') {n : Nat} {sd : Shutdown}
    (hn : s.shutdowns[n]? = some sd) (hheld : sd.isHeld = false) :
    ∃ sd', s'.shutdowns[n]? = some sd' ∧ sd'.isHeld = false ∧ sd'.stage = sd.stage := by
  induction h with
  | refl => exact ⟨sd, hn, hheld, rfl⟩
  | tail _ step ih =>
    obtain ⟨sd1, hn1, hheld1, hstage1⟩ := ih
    obtain ⟨sd2, hn2, -, hback, hstage | ⟨hheld', -⟩⟩ := step.shutdown hn1
    · refine ⟨sd2, hn2, ?_, hstage.trans hstage1⟩
      cases h2 : sd2.isHeld with
      | false => rfl
      | true => rw [hback h2] at hheld1; cases hheld1
    · rw [hheld'] at hheld1
      cases hheld1

/-- A shutdown that has begun is never fresh again. -/
theorem Steps.not_fresh {s s' : Session} (h : Steps s s') {n : Nat} {sd : Shutdown}
    (hn : s.shutdowns[n]? = some sd) (hne : sd.stage ≠ .fresh) :
    ∃ sd', s'.shutdowns[n]? = some sd' ∧ sd'.stage ≠ .fresh := by
  induction h with
  | refl => exact ⟨sd, hn, hne⟩
  | tail _ step ih =>
    obtain ⟨sd1, hn1, hne1⟩ := ih
    obtain ⟨sd2, hn2, -, -, hstage | ⟨-, hadv⟩⟩ := step.shutdown hn1
    · exact ⟨sd2, hn2, hstage ▸ hne1⟩
    · exact ⟨sd2, hn2, hadv.ne_fresh⟩

/-- A shutdown that is past its drain stays so and asks for nothing any more. -/
theorem Steps.past {s s' : Session} (h : Steps s s') {n : Nat} {sd : Shutdown}
    (hn : s.shutdowns[n]? = some sd) (hpast : sd.stage.isPast = true) :
    ∃ sd', s'.shutdowns[n]? = some sd' ∧ sd'.tree = sd.tree ∧ sd'.stage.isPast = true ∧
      s'.docket.closingsBy n = s.docket.closingsBy n := by
  induction h with
  | refl => exact ⟨sd, hn, rfl, hpast, rfl⟩
  | tail _ step ih =>
    obtain ⟨sd1, hn1, htree1, hpast1, hby1⟩ := ih
    obtain ⟨sd2, hn2, htree2, -, hstage⟩ := step.shutdown hn1
    refine ⟨sd2, hn2, htree2.trans htree1, ?_, ?_⟩
    · rcases hstage with heq | ⟨-, hadv⟩
      · rw [heq, hpast1]
      · exact hadv.isPast hpast1
    · rcases step.docket with heq | hstep
      · rw [heq, hby1]
      · rw [hstep.closingsBy_eq hn1 hpast1, hby1]

/-! ### What a shutdown awaits -/

/-- A shutdown of a tree is past its drain and has asked every instance to close. -/
def HasAsked (s : Session) (n t : Nat) : Prop :=
  ∃ sd, s.shutdowns[n]? = some sd ∧ sd.tree = t ∧ sd.stage.isPast = true ∧
    s.docket.closingsBy n = s.docket.asked n t

theorem hasAsked_of_closing {s : Session} (hd : s.docket.Sound) {n : Nat} {sd : Shutdown}
    (hn : s.shutdowns[n]? = some sd) (hc : sd.stage = .closing) : s.HasAsked n sd.tree := by
  have hasked := hd.asking n sd hn
  rw [hc] at hasked
  exact ⟨sd, hn, rfl, by rw [hc]; rfl, hasked⟩

theorem Steps.hasAsked {s s' : Session} (hs : s.Attained) (h : Steps s s') {n t : Nat}
    (ha : s.HasAsked n t) : s'.HasAsked n t := by
  obtain ⟨sd, hn, rfl, hpast, hall⟩ := ha
  obtain ⟨sd', hn', htree, hpast', hby⟩ := h.past hn hpast
  have hplaced := hs.docket_sound.placed sd (List.mem_of_getElem? hn)
  have hlt : sd.tree < s.trees.length := by rwa [length_docket] at hplaced
  exact ⟨sd', hn', htree, hpast', by rw [hby, hall, (h.trees hlt).2.2]⟩

/-- A shutdown of a tree waits for the calls of entries, or they have ended and it is past its
drain. -/
def Awaits (s : Session) (n t : Nat) (entries : List (Nat × Nat)) : Prop :=
  (∃ sd drain, s.shutdowns[n]? = some sd ∧ sd.tree = t ∧ sd.stage = .draining drain ∧
    s.Watches drain (entries.map fun entry => .call entry.2)) ∨
  (s.HasAsked n t ∧ ∀ entry ∈ entries, (s.outcomeOf entry.2).isSome = true)

theorem Step.awaits {s s' : Session} (hs : s.Attained) (h : Step s s') {n t : Nat}
    {entries : List (Nat × Nat)} (ha : s.Awaits n t entries) : s'.Awaits n t entries := by
  have hsettled : (∀ entry ∈ entries, (s.outcomeOf entry.2).isSome = true) →
      ∀ entry ∈ entries, (s'.outcomeOf entry.2).isSome = true :=
    fun hall entry hmem => @CallsContinue.isSome s s' h.continues (.call entry.2) (hall entry hmem)
  rcases ha with ⟨sd, drain, hn, rfl, hdrain, hw⟩ | ⟨hasked, hall⟩
  · obtain ⟨sd', hn', htree, -, heq | ⟨-, hadv⟩⟩ := h.shutdown hn
    · exact .inl ⟨sd', drain, hn', htree, heq.trans hdrain, h.watches hw⟩
    · -- The drain has ended, so all that it watches has settled.
      obtain ⟨hstage, he⟩ := (hdrain ▸ hadv).of_draining
      obtain ⟨failure, hf⟩ := Option.isSome_iff_exists.mp he
      have hall := List.forall_mem_map.mp (hw.drainEnd? hf).1
      have hd' := (hs.steps (.single h)).docket_sound
      exact .inr ⟨htree ▸ hasAsked_of_closing hd' hn' hstage, hsettled hall⟩
  · exact .inr ⟨Steps.hasAsked hs (.single h) hasked, hsettled hall⟩

theorem Steps.awaits {s s' : Session} (hs : s.Attained) (h : Steps s s') {n t : Nat}
    {entries : List (Nat × Nat)} (ha : s.Awaits n t entries) : s'.Awaits n t entries := by
  induction h with
  | refl => exact ha
  | tail steps step ih => exact step.awaits (hs.steps steps) ih

/-! ### Polls of a shutdown -/

section Poll

variable {s : Session} {n : Nat} {sd : Shutdown} (hn : s.heldShutdown? n = some sd)
include hn

theorem pollFresh_of_ne (hne : sd.stage ≠ .fresh) : s.pollFresh n = s := by
  rw [pollFresh, hn]
  split
  · next heq =>
    obtain rfl := Option.some.inj heq
    exact absurd rfl hne
  · rfl

theorem pollFresh_of_fresh (hf : sd.stage = .fresh) :
    s.pollFresh n = s.beginShutdown n sd.tree := by
  obtain ⟨tree, stage, isHeld⟩ := sd
  obtain rfl : stage = .fresh := hf
  rw [pollFresh, hn]

theorem pollDraining_of_draining {drain : Nat} (hd : sd.stage = .draining drain) :
    s.pollDraining n =
      if ((s.pollDrain drain).drainEnd? drain).isSome then (s.pollDrain drain).closeAll n sd.tree
      else s.pollDrain drain := by
  obtain ⟨tree, stage, isHeld⟩ := sd
  obtain rfl : stage = .draining drain := hd
  rw [pollDraining, hn]

end Poll

theorem pollClosing_calls (s : Session) (n : Nat) : (s.pollClosing n).calls = s.calls := by
  rw [pollClosing]
  split
  · split <;> rfl
  · rfl

theorem pollShutdown_after_fresh {s : Session} (hs : s.Sited) (n : Nat) :
    Steps (s.pollFresh n) (s.pollShutdown n) :=
  .trans (pollDraining_steps ((pollFresh_steps s n).sited hs) n) (pollClosing_steps _ n)

/-- A poll of a shutdown that drains comes after a poll of its drain. -/
theorem pollShutdown_after_drain {s : Session} (hs : s.Sited) {n drain : Nat} {sd : Shutdown}
    (hn : s.heldShutdown? n = some sd) (hd : sd.stage = .draining drain) :
    Steps (s.pollDrain drain) (s.pollShutdown n) := by
  rw [pollShutdown, pollFresh_of_ne hn (by simp [hd]), pollDraining_of_draining hn hd]
  split
  · next he =>
    have hheld : (s.pollDrain drain).heldShutdown? n = some sd := by
      rw [heldShutdown?, (pollDrain_lasting hs drain).shutdowns]
      exact hn
    exact .trans (.single (.closeAll hheld hd he)) (pollClosing_steps _ n)
  · exact pollClosing_steps _ n

/-- A shutdown whose drain ends has asked every instance to close when its poll is over. -/
theorem pollShutdown_hasAsked {s : Session} (hs : s.Attained) {n drain : Nat} {sd : Shutdown}
    (hn : s.heldShutdown? n = some sd) (hd : sd.stage = .draining drain)
    {entries : List (Nat × Nat)}
    (hends : ((s.pollDrain drain).drainEnd? drain).isSome = true ↔
      ∀ entry ∈ entries, ((s.pollDrain drain).outcomeOf entry.2).isSome = true)
    (hall : ∀ entry ∈ entries, ((s.pollShutdown n).outcomeOf entry.2).isSome = true) :
    (s.pollShutdown n).HasAsked n sd.tree := by
  have hpoll := pollDrain_steps hs.sited drain
  have hshutdowns := (pollDrain_lasting hs.sited drain).shutdowns
  have heq := pollDraining_of_draining hn hd
  rw [pollShutdown, pollFresh_of_ne hn (by simp [hd]), heq] at hall ⊢
  have hend : ((s.pollDrain drain).drainEnd? drain).isSome = true := by
    refine hends.mpr fun entry hmem => ?_
    have hcalls := hall entry hmem
    rw [outcomeOf, pollClosing_calls] at hcalls
    split at hcalls <;> exact hcalls
  rw [if_pos hend]
  have hheld : (s.pollDrain drain).heldShutdown? n = some sd := by
    rw [heldShutdown?, hshutdowns]
    exact hn
  have hclose : Steps s ((s.pollDrain drain).closeAll n sd.tree) :=
    hpoll.tail (.closeAll hheld hd hend)
  have hget : ((s.pollDrain drain).closeAll n sd.tree).shutdowns[n]? =
      some { sd with stage := .closing } := by
    simp [closeAll, setStage, (heldShutdown?_eq_some.mp hheld).1]
  have hasked := hasAsked_of_closing (hs.steps hclose).docket_sound hget rfl
  exact Steps.hasAsked (hs.steps hclose) (pollClosing_steps _ n) hasked

section First

variable {s : Session} {n : Nat} {sd : Shutdown} (hn : s.heldShutdown? n = some sd)
  (hf : sd.stage = .fresh) {tree : TreeState} (ht : s.trees[sd.tree]? = some tree)
  (hopen : tree.phase ≠ .closed)
include hn ht hopen

theorem beginShutdown_draining :
    (s.beginShutdown n sd.tree).heldShutdown? n =
      some { sd with stage := .draining s.drains.length } ∧
    (s.beginShutdown n sd.tree).drains[s.drains.length]? = some (.fresh tree.tracker) ∧
    (s.beginShutdown n sd.tree).trackers = s.trackers := by
  obtain ⟨hget, hheld⟩ := heldShutdown?_eq_some.mp hn
  have hphase : ¬ s.phaseOf sd.tree = .closed := by rw [phaseOf, ht]; exact hopen
  rw [beginShutdown, if_neg hphase]
  refine ⟨heldShutdown?_eq_some.mpr ⟨?_, hheld⟩, ?_, rfl⟩
  · simp [setStage, addDrain, setPhase, hget]
  · simp [setStage, addDrain, setPhase, trackerOf, ht]

include hf

/-- The first poll of a shutdown begins it and then polls it. -/
theorem pollShutdown_of_fresh :
    s.pollShutdown n = (s.beginShutdown n sd.tree).pollShutdown n := by
  have hbegun := (beginShutdown_draining hn ht hopen).1
  rw [pollShutdown, pollFresh_of_fresh hn hf, pollShutdown,
    pollFresh_of_ne hbegun (by simp)]

/-- From its first poll on a shutdown awaits the calls that were registered, and it has closed
everything after that poll if they have ended. -/
theorem pollShutdown_awaits (hs : s.Attained) :
    (s.pollShutdown n).Awaits n sd.tree (s.tracker tree.tracker).entries ∧
    ((∀ entry ∈ (s.tracker tree.tracker).entries,
      ((s.pollShutdown n).outcomeOf entry.2).isSome = true) →
      (s.pollShutdown n).HasAsked n sd.tree) := by
  obtain ⟨hbegun, hfresh, htrackers⟩ := beginShutdown_draining hn ht hopen
  rw [pollShutdown_of_fresh hn hf ht hopen]
  have hu : (s.beginShutdown n sd.tree).Attained := hs.steps (.single (.beginShutdown hn hf))
  have hentries : (s.tracker tree.tracker).entries =
      ((s.beginShutdown n sd.tree).tracker tree.tracker).entries := by
    rw [tracker, tracker, htrackers]
  rw [hentries]
  generalize s.beginShutdown n sd.tree = u at *
  refine ⟨?_, pollShutdown_hasAsked hu hbegun rfl (hu.pollDrain_fresh_ends hfresh).1⟩
  have hafter := pollShutdown_after_drain hu.sited hbegun rfl
  have hdrain := pollDrain_steps hu.sited s.drains.length
  refine Steps.awaits (hu.steps hdrain) hafter
    (.inl ⟨{ sd with stage := .draining s.drains.length }, s.drains.length, ?_, rfl, rfl, ?_⟩)
  · rw [(pollDrain_lasting hu.sited _).shutdowns]
    exact (heldShutdown?_eq_some.mp hbegun).1
  · exact pollDrain_watches hfresh hu.sited

end First

/-- A shutdown that finds its tree closed closes nothing. -/
theorem closingsBy_of_closed {s : Session} (hs : s.Attained) {n : Nat} {sd : Shutdown}
    (hn : s.heldShutdown? n = some sd) (hf : sd.stage = .fresh)
    (hclosed : s.phaseOf sd.tree = .closed) {u : Session} (hu : Steps (s.pollShutdown n) u) :
    u.docket.closingsBy n = [] := by
  have hget := (heldShutdown?_eq_some.mp hn).1
  have hrest := (pollShutdown_after_fresh hs.sited n).trans hu
  rw [pollFresh_of_fresh hn hf, beginShutdown, if_pos hclosed] at hrest
  have hended : (s.setStage n (.finished [])).shutdowns[n]? =
      some { sd with stage := .finished [] } := by
    simp [setStage, hget]
  obtain ⟨-, -, -, -, hby⟩ := Steps.past hrest hended rfl
  have hasked := hs.docket_sound.asking n sd hget
  rw [hf] at hasked
  exact hby.trans hasked

/-- A shutdown that awaits calls has closed everything after a poll if they have ended. -/
theorem Awaits.pollShutdown {s : Session} (hs : s.Attained) {n t : Nat}
    {entries : List (Nat × Nat)} (ha : s.Awaits n t entries) {sd : Shutdown}
    (hn : s.heldShutdown? n = some sd)
    (hall : ∀ entry ∈ entries, ((s.pollShutdown n).outcomeOf entry.2).isSome = true) :
    (s.pollShutdown n).HasAsked n t := by
  rcases ha with ⟨sd', drain, hn', rfl, hd, hw⟩ | ⟨hasked, -⟩
  · obtain rfl : sd = sd' := by
      simpa [hn'] using (heldShutdown?_eq_some.mp hn).1.symm
    exact pollShutdown_hasAsked hs hn hd (hs.pollDrain_ends hw).1 hall
  · exact Steps.hasAsked hs (pollShutdown_steps hs.sited n) hasked

/-! ### Actions that poll no shutdown -/

/-- The shutdown that an action polls. -/
def polledShutdown? (s : Session) : Action → Option Nat
  | .pollShutdown n => some n
  | .runNext =>
    match s.queue.head?.bind fun task => s.tasks[task]? with
    | some (.shutdown n) => some n
    | _ => none
  | _ => none

/-- Phases and stages stay as they are. -/
structure Calm (s s' : Session) : Prop where
  phases : ∀ t < s.trees.length, s'.phaseOf t = s.phaseOf t
  stages : ∀ (n : Nat) (sd : Shutdown), s.shutdowns[n]? = some sd →
    ∃ sd', s'.shutdowns[n]? = some sd' ∧ sd'.stage = sd.stage

theorem calm_of_docket {s s' : Session} (h : s'.docket = s.docket) : s.Calm s' where
  phases t _ := by rw [← phase_docket, h, phase_docket]
  stages n sd hn := by
    have hs : s'.shutdowns = s.shutdowns := congrArg Docket.shutdowns h
    exact ⟨sd, by rw [hs, hn], rfl⟩

theorem Lasting.docket {s s' : Session} (h : s.Lasting s') : s'.docket = s.docket :=
  docket_congr h.trees h.shutdowns h.closings

theorem settleGate_lasting (s : Session) (gate : Nat) (outcome : Outcome) :
    s.Lasting (s.settleGate gate outcome) := by
  rw [settleGate]
  split
  · dsimp only
    cases s.calls.findIdx? (waitsAt gate) with
    | none => exact ⟨rfl, rfl, rfl⟩
    | some call =>
      have hset : s.Lasting { s with gates := s.gates.set gate (some outcome) } := ⟨rfl, rfl, rfl⟩
      exact hset.trans (wake_steps _ _).lasting
  · exact ⟨rfl, rfl, rfl⟩

theorem arrive_lasting (s : Session) (call : Nat) : s.Lasting (s.arrive call) := by
  rw [arrive]
  split
  · exact ⟨rfl, rfl, rfl⟩
  · next outcome _ =>
    have hwork : s.Lasting (s.setWork call (.ready outcome)) := ⟨rfl, rfl, rfl⟩
    exact hwork.trans (wake_steps _ _).lasting

theorem endClosing_docket (s : Session) (number : Nat) :
    (s.endClosing number).docket = s.docket := by
  rw [endClosing]
  split
  · rfl
  · next c hc =>
    rw [(wake_steps _ _).lasting.docket]
    exact docket_endClosing hc

theorem addTree_calm (s : Session) (catalog : Catalog) (settings : Settings) (tracker : Nat)
    (definition : Json) : s.Calm (s.addTree catalog settings tracker definition) where
  phases t ht := by rw [phaseOf, phaseOf, addTree, List.getElem?_append_left ht]
  stages _ sd hn := ⟨sd, hn, rfl⟩

theorem addShutdown_calm (s : Session) (tree : Nat) : s.Calm (s.addShutdown tree).2 where
  phases _ _ := rfl
  stages _ sd hn := ⟨sd, getElem?_of_extends (List.prefix_append _ _) hn, rfl⟩

theorem dropShutdown_calm (s : Session) (number : Nat) : s.Calm (s.dropShutdown number) where
  phases _ _ := rfl
  stages _ _ hn :=
    exists_modified (R := fun sd sd' : Shutdown => sd'.stage = sd.stage)
      (f := fun sd => { sd with isHeld := false }) (fun _ => rfl) (fun _ _ => rfl) hn

/-- The scheduler polls the first task of the queue, and nothing else. -/
theorem perform_runNext (s : Session) :
    s.perform .runNext = match s.queue with
      | [] => s
      | task :: queue => { s with queue }.runTask task := by
  rw [perform, runFirst]
  cases s.queue <;> rfl

theorem runNext_docket {s : Session} (hs : s.Sited) (h : s.polledShutdown? .runNext = none) :
    (s.perform .runNext).docket = s.docket := by
  rw [perform_runNext]
  cases hq : s.queue with
  | nil => rfl
  | cons task queue =>
    have hqueue : Sited { s with queue } := (CallStep.queue s queue).sited hs
    have hlasting : s.Lasting { s with queue } := ⟨rfl, rfl, rfl⟩
    dsimp only
    rw [runTask]
    cases ht : s.tasks[task]? with
    | none => rfl
    | some t =>
      cases t with
      | call call => exact (hlasting.trans (poll_steps hqueue call).lasting).docket
      | drain tree drain => exact (hlasting.trans (pollDrain_lasting hqueue drain)).docket
      | shutdown n => simp [polledShutdown?, hq, ht] at h

/-- What an action that polls no shutdown does to phases, shutdowns and closings. -/
inductive Rests (s : Session) : Action → Session → Prop
  | same {action : Action} {s' : Session} (h : s'.docket = s.docket) : Rests s action s'
  | addTree {action : Action} (catalog : Catalog) (settings : Settings) (tracker : Nat)
    (definition : Json) : Rests s action (s.addTree catalog settings tracker definition)
  | addShutdown {action : Action} (tree : Nat) : Rests s action (s.addShutdown tree).2
  | dropShutdown (number : Nat) : Rests s (.dropShutdown number) (s.dropShutdown number)

theorem perform_rests {s : Session} (hs : s.Sited) {action : Action}
    (h : s.polledShutdown? action = none) : s.Rests action (s.perform action) := by
  cases action with
  | addTracker | addDrain | change | spawn | release => exact .same rfl
  | discardTracker tracker =>
    refine .same ?_
    rw [perform, discardTracker]
    split <;> rfl
  | addTree catalog settings tracker definition =>
    rw [perform]
    split
    · exact .addTree catalog settings tracker definition
    · exact .same rfl
  | dropTree tree => exact .same (docket_dropTree s tree)
  | start tracker job =>
    rw [perform]
    split
    · next ht => exact .same (start_steps job ht).lasting.docket
    · exact .same rfl
  | invoke tree path request =>
    exact .same (perform_invoke_steps hs tree path request).lasting.docket
  | poll call => exact .same (poll_steps hs call).lasting.docket
  | settleGate gate outcome => exact .same (settleGate_lasting s gate outcome).docket
  | arrive call => exact .same (arrive_lasting s call).docket
  | pollDrain drain => exact .same (pollDrain_lasting hs drain).docket
  | addShutdown tree =>
    rw [perform]
    split
    · exact .addShutdown tree
    · exact .same rfl
  | pollShutdown n => cases h
  | dropShutdown number => exact .dropShutdown number
  | endClosing number => exact .same (endClosing_docket s number)
  | runNext => exact .same (runNext_docket hs h)

theorem Rests.calm {s s' : Session} {action : Action} (h : s.Rests action s') : s.Calm s' := by
  cases h with
  | same h => exact calm_of_docket h
  | addTree => exact addTree_calm s _ _ _ _
  | addShutdown => exact addShutdown_calm s _
  | dropShutdown number => exact dropShutdown_calm s number

/-- An action that polls no shutdown changes neither phases nor stages. -/
theorem perform_calm {s : Session} (hs : s.Sited) {action : Action}
    (h : s.polledShutdown? action = none) : s.Calm (s.perform action) :=
  (perform_rests hs h).calm

/-- An action that polls a shutdown does nothing else, but for taking its task from the queue. -/
theorem perform_of_polled {s : Session} {action : Action} {n : Nat}
    (h : s.polledShutdown? action = some n) :
    ∃ queue, s.perform action = { s with queue }.pollShutdown n := by
  cases action with
  | pollShutdown m =>
    obtain rfl := Option.some.inj h
    exact ⟨s.queue, rfl⟩
  | runNext =>
    rw [perform_runNext]
    cases hq : s.queue with
    | nil => simp [polledShutdown?, hq] at h
    | cons task queue =>
      refine ⟨queue, ?_⟩
      dsimp only
      rw [runTask]
      cases ht : s.tasks[task]? with
      | none => simp [polledShutdown?, hq, ht] at h
      | some t =>
        cases t with
        | call | drain => simp [polledShutdown?, hq, ht] at h
        | shutdown m =>
          obtain rfl : m = n := by simpa [polledShutdown?, hq, ht] using h
          rfl
  | _ => cases h

/-! ### Actions that poll a shutdown -/

theorem pollFresh_only (s : Session) (n : Nat) :
    Docket.OnlyMoves n s.docket (s.pollFresh n).docket := by
  rw [pollFresh]
  split
  · next hn => exact (docket_beginShutdown (heldShutdown?_eq_some.mp hn).1 rfl).only
  · exact .refl n s.docket

theorem pollDraining_only {s : Session} (hs : s.Sited) (n : Nat) :
    Docket.OnlyMoves n s.docket (s.pollDraining n).docket := by
  rw [pollDraining]
  split
  · next tree drain isHeld hn =>
    have hl := pollDrain_lasting hs drain
    have hdocket := docket_congr hl.trees hl.shutdowns hl.closings
    dsimp only
    split
    · have hn' : (s.pollDrain drain).shutdowns[n]? = some ⟨tree, .draining drain, isHeld⟩ := by
        rw [hl.shutdowns]
        exact (heldShutdown?_eq_some.mp hn).1
      rw [← hdocket]
      exact (docket_closeAll hn' rfl).only
    · rw [hdocket]
      exact .refl n s.docket
  · exact .refl n s.docket

theorem pollClosing_only (s : Session) (n : Nat) :
    Docket.OnlyMoves n s.docket (s.pollClosing n).docket := by
  rw [pollClosing]
  split
  · next hn =>
    split
    · exact (docket_endShutdown (heldShutdown?_eq_some.mp hn).1 rfl).only
    · exact .refl n s.docket
  · exact .refl n s.docket

theorem pollShutdown_only {s : Session} (hs : s.Sited) (n : Nat) :
    Docket.OnlyMoves n s.docket (s.pollShutdown n).docket := by
  have hfresh := pollFresh_steps s n
  exact ((pollFresh_only s n).trans (pollDraining_only (hfresh.sited hs) n)).trans
    (pollClosing_only _ n)

/-- The phase of a tree changes only when a shutdown of the tree is polled. -/
theorem phaseOf_changes {s : Session} (hs : s.Sited) {action : Action} {t : Nat}
    (ht : t < s.trees.length) (hne : (s.perform action).phaseOf t ≠ s.phaseOf t) :
    ∃ n sd, s.polledShutdown? action = some n ∧ s.shutdowns[n]? = some sd ∧ sd.tree = t := by
  cases hp : s.polledShutdown? action with
  | none => exact absurd ((perform_calm hs hp).phases t ht) hne
  | some n =>
    obtain ⟨queue, heq⟩ := perform_of_polled hp
    have honly := pollShutdown_only ((CallStep.queue s queue).sited hs) n
    by_contra hnone
    refine hne ?_
    rw [heq, ← phase_docket, ← phase_docket]
    refine honly.phase t (by rwa [length_docket]) fun sd hn htree => hnone ?_
    exact ⟨n, sd, rfl, hn, htree⟩

/-- A shutdown that is not polled stays in its stage. -/
theorem stage_of_not_polled {s : Session} (hs : s.Sited) {action : Action} {n : Nat}
    {sd : Shutdown} (hn : s.shutdowns[n]? = some sd) (hne : s.polledShutdown? action ≠ some n) :
    ∃ sd', (s.perform action).shutdowns[n]? = some sd' ∧ sd'.stage = sd.stage := by
  cases hp : s.polledShutdown? action with
  | none => exact (perform_calm hs hp).stages n sd hn
  | some m =>
    obtain ⟨queue, heq⟩ := perform_of_polled hp
    have honly := pollShutdown_only ((CallStep.queue s queue).sited hs) m
    have hmn : n ≠ m := fun h => hne (h ▸ hp)
    rw [heq]
    exact ⟨sd, (honly.others n hmn).trans hn, rfl⟩

theorem beginShutdown_not_fresh {s : Session} {n : Nat} {sd : Shutdown}
    (hn : s.shutdowns[n]? = some sd) :
    ∃ sd', (s.beginShutdown n sd.tree).shutdowns[n]? = some sd' ∧ sd'.stage ≠ .fresh := by
  rw [beginShutdown]
  split
  · exact ⟨{ sd with stage := .finished [] }, by simp [setStage, hn], by simp⟩
  · exact ⟨{ sd with stage := .draining s.drains.length },
      by simp [setStage, setPhase, addDrain, hn], by simp⟩

/-- A shutdown that is polled has begun. -/
theorem pollShutdown_not_fresh {s : Session} (hs : s.Sited) {n : Nat} {sd : Shutdown}
    (hn : s.heldShutdown? n = some sd) :
    ∃ sd', (s.pollShutdown n).shutdowns[n]? = some sd' ∧ sd'.stage ≠ .fresh := by
  have hrest := pollShutdown_after_fresh hs n
  have hget := (heldShutdown?_eq_some.mp hn).1
  by_cases hf : sd.stage = .fresh
  · rw [pollFresh_of_fresh hn hf] at hrest
    obtain ⟨sd', hn', hne⟩ := beginShutdown_not_fresh hget
    exact hrest.not_fresh hn' hne
  · rw [pollFresh_of_ne hn hf] at hrest
    exact hrest.not_fresh hget hf

/-! ### The lifecycle -/

/-- The keys of the instances that a shutdown has asked to close, in that order. -/
def closedBy (s : Session) (n : Nat) : List String :=
  (s.closings.filter fun c => c.shutdown == n).map Closing.key

/-- The keys of the instances of a tree, in load order. -/
def instanceKeys (s : Session) (t : Nat) : List String := (s.instancesOf t).map Instance.key

theorem closedBy_docket (s : Session) (n : Nat) :
    (s.docket.closingsBy n).map Closing.key = s.closedBy n := by
  rw [Docket.closingsBy, closedBy, docket, List.filter_map, List.map_map]
  rfl

theorem instanceKeys_docket (s : Session) (n t : Nat) :
    (s.docket.asked n t).map Closing.key = s.instanceKeys t := by
  rw [asked_docket, instanceKeys, List.map_map]
  rfl

theorem HasAsked.closedBy {s : Session} {n t : Nat} (h : s.HasAsked n t) :
    s.closedBy n = s.instanceKeys t := by
  obtain ⟨sd, -, -, -, hall⟩ := h
  rw [← closedBy_docket, hall, instanceKeys_docket]

theorem Steps.instanceKeys {s s' : Session} (h : Steps s s') {t : Nat} (ht : t < s.trees.length) :
    s'.instanceKeys t = s.instanceKeys t := by
  rw [← instanceKeys_docket s' 0, (h.trees ht).2.2 0, instanceKeys_docket]

/-- A shutdown that drains has closed nothing. -/
theorem Attained.closedBy_draining {s : Session} (h : s.Attained) {n drain : Nat} {sd : Shutdown}
    (hn : s.shutdowns[n]? = some sd) (hd : sd.stage = .draining drain) : s.closedBy n = [] := by
  have hasked := h.docket_sound.asking n sd hn
  rw [hd] at hasked
  have hnone : s.docket.closingsBy n = [] := hasked
  rw [← closedBy_docket, hnone, List.map_nil]

/-- How the phases of trees, their shutdowns and the closings of their modules go together, in a
session and from it on. -/
structure Lifecycle (s : Session) : Prop where
  /-- Phases move forward. -/
  forward : ∀ (u : Session) (t : Nat), Steps s u → t < s.trees.length →
    (s.phaseOf t).rank ≤ (u.phaseOf t).rank
  /-- A tree is open as long as none of its shutdowns has begun. -/
  opened : ∀ (t : Nat), t < s.trees.length → (s.phaseOf t = .opened ↔
    ∀ (n : Nat) (sd : Shutdown), s.shutdowns[n]? = some sd → sd.tree = t → sd.stage = .fresh)
  /-- A shutdown begins when it is first polled. -/
  begins : ∀ (action : Action) (n : Nat) (sd : Shutdown), s.polledShutdown? action = some n →
    s.heldShutdown? n = some sd →
    ∃ sd', (s.perform action).shutdowns[n]? = some sd' ∧ sd'.stage ≠ .fresh
  /-- Nothing but its polls takes a shutdown on. -/
  rests : ∀ (action : Action) (n : Nat) (sd : Shutdown), s.shutdowns[n]? = some sd →
    s.polledShutdown? action ≠ some n →
    ∃ sd', (s.perform action).shutdowns[n]? = some sd' ∧ sd'.stage = sd.stage
  /-- Nothing but polls of its shutdowns changes the phase of a tree. -/
  changes : ∀ (action : Action) (t : Nat), t < s.trees.length →
    (s.perform action).phaseOf t ≠ s.phaseOf t →
    ∃ n sd, s.polledShutdown? action = some n ∧ s.shutdowns[n]? = some sd ∧ sd.tree = t
  /-- A shutdown that is first polled closes nothing until all calls that are registered then have
  ended. -/
  awaits : ∀ (n : Nat) (sd : Shutdown) (tree : TreeState), s.heldShutdown? n = some sd →
    sd.stage = .fresh → s.trees[sd.tree]? = some tree →
    ∀ u, Steps (s.pollShutdown n) u → u.closedBy n ≠ [] →
      ∀ entry ∈ (s.tracker tree.tracker).entries, (u.outcomeOf entry.2).isSome = true
  /-- One that finds its tree closed closes nothing. -/
  turnedAway : ∀ (n : Nat) (sd : Shutdown), s.heldShutdown? n = some sd → sd.stage = .fresh →
    s.phaseOf sd.tree = .closed → ∀ u, Steps (s.pollShutdown n) u → u.closedBy n = []
  /-- Any other has closed everything after the first of its polls that finds them ended, whatever
  their outcomes are. -/
  closes : ∀ (n : Nat) (sd : Shutdown) (tree : TreeState), s.heldShutdown? n = some sd →
    sd.stage = .fresh → s.trees[sd.tree]? = some tree → tree.phase ≠ .closed →
    ∀ u, u = s ∨ Steps (s.pollShutdown n) u → (u.heldShutdown? n).isSome = true →
      (∀ entry ∈ (s.tracker tree.tracker).entries,
        ((u.pollShutdown n).outcomeOf entry.2).isSome = true) →
      (u.pollShutdown n).closedBy n = s.instanceKeys sd.tree
  /-- A shutdown that is given up while it drains has closed nothing, and never will. -/
  givenUp : ∀ (n : Nat) (sd : Shutdown) (drain : Nat), s.shutdowns[n]? = some sd →
    sd.stage = .draining drain →
    s.closedBy n = [] ∧ ∀ u, Steps (s.dropShutdown n) u → u.closedBy n = []
  /-- A tree is closed only after one of its shutdowns has closed everything. -/
  closed : ∀ (t : Nat), t < s.trees.length → s.phaseOf t = .closed →
    ∃ n sd, s.shutdowns[n]? = some sd ∧ sd.tree = t ∧ sd.finished?.isSome = true ∧
      s.closedBy n = s.instanceKeys t

theorem finished?_of_phase {sd : Shutdown} (h : sd.stage.phase = .closed) :
    sd.finished?.isSome = true := by
  rw [Shutdown.finished?]
  cases hs : sd.stage with
  | finished => rfl
  | fresh | draining | closing => rw [hs] at h; cases h

theorem Attained.opened_iff {s : Session} (h : s.Attained) {t : Nat} (ht : t < s.trees.length) :
    s.phaseOf t = .opened ↔
      ∀ (n : Nat) (sd : Shutdown), s.shutdowns[n]? = some sd → sd.tree = t → sd.stage = .fresh := by
  have hd := h.docket_sound
  rw [← phase_docket]
  constructor
  · rintro hopen n sd hn rfl
    have hbound := hd.bound sd (List.mem_of_getElem? hn)
    rw [hopen] at hbound
    cases hs : sd.stage with
    | fresh => rfl
    | draining | closing | finished =>
      rw [hs] at hbound
      exact absurd hbound (by simp [Stage.phase, Phase.rank])
  · intro hfresh
    rcases hd.reached t (by rwa [length_docket]) with hopen | ⟨n, sd, hn, htree, hphase⟩
    · exact hopen
    · rw [← hphase, hfresh n sd hn htree]
      rfl

/-- Every session goes through the lifecycles of its trees in order, whatever is polled or given up
and when. -/
theorem Attained.lifecycle {s : Session} (h : s.Attained) : s.Lifecycle where
  forward u t hu ht := (hu.trees ht).2.1
  opened t ht := h.opened_iff ht
  begins action n sd hp hn := by
    obtain ⟨queue, heq⟩ := perform_of_polled hp
    rw [heq]
    exact pollShutdown_not_fresh ((CallStep.queue s queue).sited h.sited) hn
  rests action n sd hn hne := stage_of_not_polled h.sited hn hne
  changes action t ht hne := phaseOf_changes h.sited ht hne
  awaits n sd tree hn hf ht u hu hclosed := by
    have hpoll := h.steps (pollShutdown_steps h.sited n)
    have hopen : tree.phase ≠ .closed := fun hphase => by
      have hnone := closingsBy_of_closed h hn hf (by rw [phaseOf, ht]; exact hphase) hu
      rw [← closedBy_docket, hnone] at hclosed
      exact hclosed rfl
    have ha := Steps.awaits hpoll hu (pollShutdown_awaits hn hf ht hopen h).1
    rcases ha with ⟨sd', drain, hn', -, hd, -⟩ | ⟨-, hall⟩
    · exact absurd ((hpoll.steps hu).closedBy_draining hn' hd) hclosed
    · exact hall
  turnedAway n sd hn hf hclosed u hu := by
    rw [← closedBy_docket, closingsBy_of_closed h hn hf hclosed hu, List.map_nil]
  closes n sd tree hn hf ht hopen u hu hheld hall := by
    have hpoll := pollShutdown_steps h.sited n
    have hlt := (List.getElem?_eq_some_iff.mp ht).1
    obtain ⟨ha, hfirst⟩ := pollShutdown_awaits hn hf ht hopen h
    rcases hu with rfl | hu
    · rw [(hfirst hall).closedBy, Steps.instanceKeys hpoll hlt]
    · obtain ⟨sd', hn'⟩ := Option.isSome_iff_exists.mp hheld
      have hsu : Steps s u := hpoll.trans hu
      have hu' := h.steps hsu
      have hawaits := Steps.awaits (h.steps hpoll) hu ha
      rw [(Awaits.pollShutdown hu' hawaits hn' hall).closedBy]
      exact Steps.instanceKeys (hsu.trans (pollShutdown_steps hu'.sited n)) hlt
  givenUp n sd drain hn hd := by
    refine ⟨h.closedBy_draining hn hd, fun u hu => ?_⟩
    have hdrop : (s.dropShutdown n).shutdowns[n]? = some { sd with isHeld := false } := by
      simp [dropShutdown, hn]
    obtain ⟨sd', hn', -, hstage⟩ := Steps.givenUp hu hdrop rfl
    have hu' := h.steps (.head (.dropShutdown s n) hu)
    exact hu'.closedBy_draining hn' (hstage.trans hd)
  closed t ht hclosed := by
    rw [← phase_docket] at hclosed
    obtain ⟨n, sd, hn, htree, hphase, hall⟩ :=
      h.docket_sound.closer t (by rwa [length_docket]) hclosed
    refine ⟨n, sd, hn, htree, finished?_of_phase hphase, ?_⟩
    rw [← closedBy_docket, hall, instanceKeys_docket]

/-- A tree with a call that waits, a shutdown that has been given up, and one that is new. -/
def givenUpOnce : Session :=
  (initial true {}).after
    [.addTracker, .addGated 0, .invoke 0 "a" {}, .addShutdown 0, .pollShutdown 0, .dropShutdown 0,
      .addShutdown 0]

/-- The new shutdown waits for the call, which fails, and then closes everything. -/
theorem lifecycle_givenUpOnce :
    let u := (givenUpOnce.pollShutdown 1).after [.settleGate 0 (.error .aggregate), .poll 0]
    givenUpOnce.phaseOf 0 = .draining ∧ givenUpOnce.closedBy 0 = [] ∧ u.closedBy 1 = [] ∧
      (u.pollShutdown 1).closedBy 1 = ["g"] := by
  intro u
  have hs : givenUpOnce.Attained := Reachable.attained ⟨true, {}, _, rfl⟩
  have hlife := Attained.lifecycle hs
  have hn : givenUpOnce.heldShutdown? 1 = some { tree := 0 } := by rfl
  have htree : givenUpOnce.trees[0]?.map (fun t => (t.phase, t.tracker)) = some (.draining, 0) := by
    decide +kernel
  obtain ⟨t, ht, heq⟩ := Option.map_eq_some_iff.mp htree
  obtain ⟨hphase, htracker⟩ := Prod.mk.inj heq
  have hu : Steps (givenUpOnce.pollShutdown 1) u :=
    after_steps ((pollShutdown_steps hs.sited 1).sited hs.sited) _
  have hcloses := hlife.closes 1 _ t hn rfl ht (by simp [hphase]) u (.inr hu) (by decide +kernel)
    (by rw [htracker]; decide +kernel)
  exact ⟨by decide +kernel, by decide +kernel, by decide +kernel, hcloses.trans (by decide +kernel)⟩

end OperationTree.Session
