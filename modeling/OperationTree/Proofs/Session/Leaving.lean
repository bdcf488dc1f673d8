import OperationTree.Proofs.Session.Completion
import OperationTree.Proofs.Session.Height

/-! Leaving a session.  Nothing but the one who has a shutdown adds it or gives it up, and it ends
with no other faults than those of the instances that cannot be closed.  So whoever waits for the
only shutdown of a session in which all calls come to an end sees it end, and finds each instance of
the tree closed once. -/

namespace OperationTree

/-- What the one who has a shutdown knows of it. -/
def Shutdown.handle (sd : Shutdown) : Nat × Bool := (sd.tree, sd.isHeld)

namespace Session

/-! ### What ticks leave to others -/

def handles (s : Session) : List (Nat × Bool) := s.shutdowns.map Shutdown.handle

theorem Restages.handles {n : Nat} {s t : Session} (h : Restages n s t) :
    t.handles = s.handles := by
  rcases h with heq | ⟨stage, heq⟩
  · rw [Session.handles, heq, Session.handles]
  · rw [Session.handles, heq]
    exact map_modify_eq (f := fun sd : Shutdown => { sd with stage }) (g := Shutdown.handle)
      (fun _ => rfl) s.shutdowns n

theorem Lasting.handles {s t : Session} (h : s.Lasting t) : t.handles = s.handles :=
  congrArg (List.map Shutdown.handle) h.shutdowns

theorem foldl_handles {α : Type} {f : Session → α → Session}
    (hf : ∀ s a, (f s a).handles = s.handles) (xs : List α) (s : Session) :
    (xs.foldl f s).handles = s.handles := by
  induction xs generalizing s with
  | nil => rfl
  | cons a rest ih => exact (ih (f s a)).trans (hf s a)

theorem runTask_handles {s : Session} (hs : s.Sited) (number : Nat) :
    (s.runTask number).handles = s.handles := by
  rw [runTask]
  split
  · rfl
  · exact (poll_steps hs _).lasting.handles
  · exact (pollDrain_lasting hs _).handles
  · exact (pollShutdown_restages hs _).handles

theorem runFirst_handles (count : Nat) {s : Session} (hs : s.Sited) :
    (s.runFirst count).handles = s.handles := by
  induction count generalizing s with
  | zero => rfl
  | succ count ih =>
    rw [runFirst]
    split
    · rfl
    · next task queue _ =>
      have hqueue : Sited { s with queue } := (CallStep.queue s queue).sited hs
      exact (ih ((runTask_fosters hqueue task).sited hqueue)).trans (runTask_handles hqueue task)

theorem rounds_handles (n : Nat) {s : Session} (hs : s.Sited) :
    (s.rounds n).handles = s.handles := by
  induction n generalizing s with
  | zero => rfl
  | succ n ih =>
    have hround := runFirst_fosters s.queue.length hs
    exact (ih (hround.sited hs)).trans (runFirst_handles _ hs)

theorem deliver_handles (s : Session) : s.deliver.handles = s.handles := by
  have harrive : ∀ s call, (arrive s call).handles = s.handles :=
    fun s call => (arrive_lasting s call).handles
  have hend : ∀ s number, (endClosing s number).handles = s.handles := fun s number =>
    congrArg (fun d => d.shutdowns.map Shutdown.handle) (endClosing_docket s number)
  exact (foldl_handles hend _ _).trans (foldl_handles harrive _ s)

theorem tick_handles {s : Session} (hs : s.Sited) : s.tick.handles = s.handles := by
  rw [tick]
  split
  · have hrun := rounds_fosters (4 * (s.depth + 1)) hs
    have hdeliver := hrun.trans (deliver_fosters (hrun.sited hs))
    exact ((rounds_handles _ (hdeliver.sited hs)).trans (deliver_handles _)).trans
      (rounds_handles _ hs)
  · rfl

/-- A shutdown that has not been given up is still there after what leaves the handles alone. -/
theorem heldShutdown?_of_handles {s t : Session} (h : t.handles = s.handles) {n : Nat}
    (hn : (s.heldShutdown? n).isSome = true) : (t.heldShutdown? n).isSome = true := by
  obtain ⟨sd, hsd⟩ := Option.isSome_iff_exists.mp hn
  obtain ⟨hget, hheld⟩ := heldShutdown?_eq_some.mp hsd
  rcases getElem?_cases h n with ⟨hnone, -⟩ | ⟨sd1, sd2, h1, h2, hhandle⟩
  · cases hnone.symm.trans hget
  · obtain rfl := Option.some.inj (hget.symm.trans h1)
    have hheld2 : sd2.isHeld = true := (congrArg Prod.snd hhandle).trans hheld
    exact Option.isSome_iff_exists.mpr ⟨sd2, heldShutdown?_eq_some.mpr ⟨h2, hheld2⟩⟩

/-! ### Trees that close at once -/

/-- Nothing goes wrong with a tree when it is shut down, and nothing takes its time. -/
structure ClosesAtOnce (s : Session) (t : Nat) : Prop where
  placed : t < s.trees.length
  instances : ∀ i ∈ s.instancesOf t,
    i.transport.closeFault = none ∧ i.transport.closesLater = false
  faults : ∀ sd ∈ s.shutdowns, sd.tree = t → ∀ faults, sd.stage = .finished faults → faults = []
  done : ∀ c ∈ s.closings, c.tree = t → c.isDone = true

namespace ClosesAtOnce

variable {s s' : Session} {t : Nat}

theorem closeFaults (h : s.ClosesAtOnce t) : closeFaults (s.instancesOf t) = [] :=
  closeFaults_eq_nil_iff.mpr fun i hi => (h.instances i hi).1

/-- A change of a stage brings no faults. -/
theorem setStage {u : Session} (h : s.ClosesAtOnce t) (hu : u.shutdowns = s.shutdowns) {m : Nat}
    {stage : Stage} (hstage : ∀ sd, s.shutdowns[m]? = some sd → sd.tree = t →
      ∀ faults, stage = .finished faults → faults = []) :
    ∀ sd ∈ (u.setStage m stage).shutdowns, sd.tree = t →
      ∀ faults, sd.stage = .finished faults → faults = [] := by
  intro sd hsd
  obtain ⟨n, hn⟩ := List.mem_iff_getElem?.mp hsd
  rw [Session.setStage, hu] at hn
  rcases getElem?_modify_eq_some hn with ⟨-, old, hold, rfl⟩ | ⟨-, hold⟩
  · exact hstage old hold
  · exact h.faults sd (List.mem_of_getElem? hold)

theorem step_faults (h : s.ClosesAtOnce t) (step : Step s s') :
    ∀ sd ∈ s'.shutdowns, sd.tree = t → ∀ faults, sd.stage = .finished faults → faults = [] := by
  cases step with
  | call step => exact step.undisturbed.shutdowns ▸ h.faults
  | addShutdown =>
    intro sd hsd
    rcases List.mem_append.mp hsd with hold | hnew
    · exact h.faults sd hold
    · obtain rfl := List.mem_singleton.mp hnew
      rintro - _ ⟨⟩
  | dropShutdown =>
    intro sd hsd
    obtain ⟨n, hn⟩ := List.mem_iff_getElem?.mp hsd
    obtain ⟨old, hold, htree, hstage⟩ := dropShutdown_back hn
    rw [htree, hstage]
    exact h.faults old (List.mem_of_getElem? hold)
  | beginShutdown =>
    rw [Session.beginShutdown]
    split
    · exact h.setStage rfl fun _ _ _ faults hf => (Stage.finished.inj hf).symm
    · exact h.setStage rfl fun _ _ _ _ => by rintro ⟨⟩
  | closeAll => exact h.setStage rfl fun _ _ _ _ => by rintro ⟨⟩
  | endShutdown hm =>
    refine h.setStage rfl fun sd hget ht faults hf => ?_
    obtain rfl := Option.some.inj ((heldShutdown?_eq_some.mp hm).1.symm.trans hget)
    rw [← Stage.finished.inj hf, ht, h.closeFaults]
  | _ => exact h.faults

theorem step_done (h : s.ClosesAtOnce t) (step : Step s s') :
    ∀ c ∈ s'.closings, c.tree = t → c.isDone = true := by
  cases step with
  | call step => exact step.undisturbed.closings ▸ h.done
  | beginShutdown =>
    rw [Session.beginShutdown]
    split <;> exact h.done
  | closeAll =>
    intro c hc ht
    rcases List.mem_append.mp hc with hold | hnew
    · exact h.done c hold ht
    · obtain ⟨i, hi, rfl⟩ := List.mem_map.mp hnew
      obtain rfl : _ = t := ht
      rw [closing, (h.instances i hi).2]
      rfl
  | endClosing =>
    intro c hc ht
    rcases List.mem_or_eq_of_mem_set hc with hold | rfl
    · exact h.done c hold ht
    · rfl
  | _ => exact h.done

theorem steps (h : s.ClosesAtOnce t) (steps : Steps s s') : s'.ClosesAtOnce t := by
  induction steps with
  | refl => exact h
  | @tail u v _ step ih =>
    refine ⟨(Steps.trees (.single step) ih.placed).1, ?_, ih.step_faults step, ih.step_done step⟩
    rw [Steps.instancesOf (.single step) ih.placed]
    exact ih.instances

end ClosesAtOnce

/-! ### The only shutdown -/

/-- The only shutdown of a session belongs to a tree and has not been given up. -/
def HasOnly (s : Session) (t : Nat) : Prop := s.handles = [(t, true)]

theorem HasOnly.shutdown {s : Session} {t : Nat} (h : s.HasOnly t) :
    ∃ sd, s.shutdowns = [sd] ∧ sd.tree = t ∧ sd.isHeld = true := by
  obtain ⟨sd, hshutdowns, hhandle⟩ := List.map_eq_singleton_iff.mp h
  exact ⟨sd, hshutdowns, congrArg Prod.fst hhandle, congrArg Prod.snd hhandle⟩

theorem Attained.closing_of_only {s : Session} (hs : s.Attained) {t : Nat} (h : s.HasOnly t)
    {c : Closing} (hc : c ∈ s.docket.closings) : c.shutdown = 0 ∧ c.tree = t := by
  obtain ⟨sd, hshutdowns, rfl, -⟩ := h.shutdown
  obtain ⟨sd', hn, htree⟩ := hs.docket_sound.listed c hc
  have hn' : [sd][c.shutdown]? = some sd' := hshutdowns ▸ hn
  obtain ⟨hlt, rfl⟩ := List.getElem?_eq_some_iff.mp hn'
  have hzero : c.shutdown = 0 := Nat.lt_one_iff.mp hlt
  simp only [hzero, List.getElem_cons_zero] at htree
  exact ⟨hzero, htree.symm⟩

/-- When the only shutdown has ended, it has asked every instance of its tree to close once. -/
theorem HasOnly.closings_outline {s : Session} (hs : s.Attained) {t : Nat} (h : s.HasOnly t)
    (hend : (s.shutdownEnd? 0).isSome = true) : s.docket.closings = s.docket.asked 0 t := by
  obtain ⟨sd, hshutdowns, rfl, -⟩ := h.shutdown
  have hget : s.shutdowns[0]? = some sd := by rw [hshutdowns]; rfl
  obtain ⟨faults, hf⟩ := Option.isSome_iff_exists.mp hend
  rw [shutdownEnd?, hget] at hf
  have hd := hs.docket_sound
  have hclosed := hd.closed_of_finished (n := 0) hget (Shutdown.finished?_eq_some.mp hf)
  obtain ⟨n, sd', hn, -, -, hall⟩ := hd.closer sd.tree (hd.placed sd (List.mem_of_getElem? hget))
    hclosed
  have hn' : [sd][n]? = some sd' := hshutdowns ▸ hn
  obtain rfl : n = 0 := Nat.lt_one_iff.mp (List.getElem?_eq_some_iff.mp hn').1
  rw [← hall, Docket.closingsBy, List.filter_eq_self.mpr fun c hc => ?_]
  rw [beq_iff_eq]
  exact (hs.closing_of_only h hc).1

/-- Its closings end at once. -/
theorem HasOnly.hasClosed {s : Session} (hs : s.Attained) {t : Nat} (h : s.HasOnly t)
    (ha : s.ClosesAtOnce t) : s.hasClosed 0 = true := by
  refine List.all_eq_true.mpr fun c hc => ?_
  have hmem : c.outline ∈ s.docket.closings := List.mem_map_of_mem (f := Closing.outline) hc
  simp [ha.done c hc (hs.closing_of_only h hmem).2]

theorem HasOnly.closings_eq {s : Session} (hs : s.Attained) {t : Nat} (h : s.HasOnly t)
    (ha : s.ClosesAtOnce t) (hend : (s.shutdownEnd? 0).isSome = true) :
    s.closings = (s.instancesOf t).map (closing 0 t) := by
  have houtline := h.closings_outline hs hend
  rw [asked_docket] at houtline
  have hdone : ∀ c ∈ s.closings, { c.outline with isDone := true } = c := by
    intro c hc
    obtain ⟨-, ht⟩ := hs.closing_of_only h (List.mem_map_of_mem hc)
    obtain ⟨shutdown, tree, key, name, isDone⟩ := c
    obtain rfl : isDone = true := ha.done _ hc ht
    rfl
  have hclosing : ∀ i ∈ s.instancesOf t,
      { (closing 0 t i).outline with isDone := true } = closing 0 t i := by
    intro i hi
    rw [closing, (ha.instances i hi).2]
    rfl
  calc s.closings
      = (s.closings.map Closing.outline).map fun c => { c with isDone := true } := by
        rw [List.map_map]
        exact ((List.map_congr_left hdone).trans (List.map_id _)).symm
    _ = ((s.instancesOf t).map fun i => (closing 0 t i).outline).map
          fun c => { c with isDone := true } := congrArg _ houtline
    _ = (s.instancesOf t).map (closing 0 t) := by
        rw [List.map_map]
        exact List.map_congr_left hclosing

/-! ### Waiting for it -/

section WaitFor

variable {α : Type} {p : Session → Session} {f : Session → Option α}

/-- Whoever waits gets what there is in the end. -/
theorem waitFor_fst (s : Session) :
    (s.waitFor p f).1 = f (s.waitFor p f).2 := by
  rw [waitFor]
  dsimp only
  split
  · next h => exact h.symm
  · rfl

/-- Whoever waits polls, and so does it again after a tick if that has not been enough. -/
theorem waitFor_cases (s : Session) :
    ((f (p s)).isSome = true ∧
      (s.waitFor p f).2 = p s) ∨
    (s.waitFor p f).2 = p (p s).tick := by
  rw [waitFor]
  dsimp only
  split
  · next h => exact .inl ⟨by rw [h]; rfl, rfl⟩
  · exact .inr rfl

theorem waitFor_fosters (hp : ∀ {s : Session}, s.Sited → s.Fosters (p s)) {s : Session}
    (hs : s.Sited) : s.Fosters (s.waitFor p f).2 := by
  have hfirst := hp hs
  rcases waitFor_cases (p := p) (f := f) s with ⟨-, heq⟩ | heq
  · rwa [heq]
  · rw [heq]
    have htick := hfirst.trans (tick_fosters (hfirst.sited hs))
    exact htick.trans (hp (htick.sited hs))

theorem waitFor_handles (hp : ∀ {s : Session}, s.Sited → s.Fosters (p s))
    (hh : ∀ {s : Session}, s.Sited → (p s).handles = s.handles) {s : Session}
    (hs : s.Sited) : (s.waitFor p f).2.handles = s.handles := by
  have hfirst := hp hs
  rcases waitFor_cases (p := p) (f := f) s with ⟨-, heq⟩ | heq
  · rw [heq, hh hs]
  · have htick := hfirst.trans (tick_fosters (hfirst.sited hs))
    rw [heq, hh (htick.sited hs), tick_handles (hfirst.sited hs), hh hs]

end WaitFor

theorem await_fosters {s : Session} (hs : s.Sited) (future : Future) :
    s.Fosters (s.await future).2 :=
  waitFor_fosters (fun hs => pollFuture_fosters poll_fosters hs future) hs

theorem await_handles {s : Session} (hs : s.Sited) (future : Future) :
    (s.await future).2.handles = s.handles :=
  waitFor_handles (fun hs => pollFuture_fosters poll_fosters hs future)
    (fun hs => (pollFuture_steps hs future).lasting.handles) hs

/-- The session when the wait for its shutdown `0` is over. -/
def afterShutdown (s : Session) (t : Nat) : Session :=
  ((s.addShutdown t).2.waitFor (pollShutdown · 0) (shutdownEnd? · 0)).2

section Shutdown

variable {s : Session} {t : Nat}

theorem awaitShutdown_eq (hnone : s.shutdowns = []) : s.awaitShutdown t =
    ((s.afterShutdown t).shutdownEnd? 0, (s.afterShutdown t).dropShutdown 0) := by
  have hnumber : (s.addShutdown t).1 = 0 := by simp [addShutdown, hnone]
  have hend := waitFor_fst (p := (pollShutdown · 0)) (f := (shutdownEnd? · 0)) (s.addShutdown t).2
  rw [awaitShutdown]
  dsimp only
  rw [hnumber, hend]
  rfl

theorem addShutdown_fosters (hlt : t < s.trees.length) : s.Fosters (s.addShutdown t).2 :=
  .of_length (.single (.addShutdown hlt)) rfl

theorem afterShutdown_fosters (hs : s.Sited) (hlt : t < s.trees.length) :
    s.Fosters (s.afterShutdown t) := by
  have hadd := addShutdown_fosters hlt
  exact hadd.trans (waitFor_fosters (fun hs => pollShutdown_fosters hs 0) (hadd.sited hs))

theorem afterShutdown_hasOnly (hs : s.Sited) (hlt : t < s.trees.length)
    (hnone : s.shutdowns = []) : (s.afterShutdown t).HasOnly t := by
  have hadd : (s.addShutdown t).2.handles = [(t, true)] := by
    simp [handles, addShutdown, hnone, Shutdown.handle]
  have hsited := (addShutdown_fosters hlt).sited hs
  exact (waitFor_handles (fun hs => pollShutdown_fosters hs 0)
    (fun hs => (pollShutdown_restages hs 0).handles) hsited).trans hadd

/-- A shutdown that ends has no faults if the tree closes at once. -/
theorem ClosesAtOnce.awaitShutdown (ha : s.ClosesAtOnce t) (hs : s.Attained)
    (hnone : s.shutdowns = []) {faults : CloseFaults}
    (hend : (s.awaitShutdown t).1 = some faults) :
    faults = [] ∧ (s.awaitShutdown t).2.closings = (s.instancesOf t).map (closing 0 t) := by
  have hsteps := (afterShutdown_fosters hs.sited ha.placed).steps
  have honly := afterShutdown_hasOnly hs.sited ha.placed hnone
  rw [awaitShutdown_eq hnone] at hend ⊢
  replace hend : (s.afterShutdown t).shutdownEnd? 0 = some faults := hend
  obtain ⟨sd, hshutdowns, ht, -⟩ := honly.shutdown
  have hstage : sd.finished? = some faults := by rwa [shutdownEnd?, hshutdowns] at hend
  constructor
  · exact (ha.steps hsteps).faults sd (by simp [hshutdowns]) ht faults
      (Shutdown.finished?_eq_some.mp hstage)
  · rw [← hsteps.instancesOf ha.placed]
    exact honly.closings_eq (hs.steps hsteps) (ha.steps hsteps) (by rw [hend]; rfl)

/-- The first poll of the shutdown comes right after it has been added. -/
theorem Tame.firstPoll {compiled : Compiled} (h : s.Tame compiled) (hlt : t < s.trees.length) :
    ((s.addShutdown t).2.pollShutdown 0).Tame compiled := by
  have hafter : (s.addShutdown t).2.pollShutdown 0 =
      s.after [.addShutdown t, .pollShutdown 0] := by
    simp [after, perform, hlt]
  have hadd := addShutdown_fosters hlt
  refine h.later (hafter ▸ h.reachable.after _) (hafter ▸ after_deeds _ [] h.sited ?_)
    (hadd.trans (pollShutdown_fosters (hadd.sited h.sited) 0))
  simp [Action.IsRegular]

/-- Where all calls come to an end, the shutdown ends. -/
theorem Tame.shutdown_ends {compiled : Compiled} (h : s.Tame compiled) (ha : s.ClosesAtOnce t)
    (hnone : s.shutdowns = []) : ((s.afterShutdown t).shutdownEnd? 0).isSome = true := by
  have hadd := addShutdown_fosters ha.placed
  have hadded : (s.addShutdown t).2.Attained := h.regular.attained.steps hadd.steps
  have hfirst := h.firstPoll ha.placed
  rcases waitFor_cases (p := (pollShutdown · 0)) (f := (shutdownEnd? · 0)) (s.addShutdown t).2 with
    ⟨hend, heq⟩ | heq
  · rwa [afterShutdown, heq]
  · obtain ⟨tree, htree⟩ : ∃ tree, s.trees[t]? = some tree :=
      ⟨_, List.getElem?_eq_getElem ha.placed⟩
    have hopen : s.phaseOf t = .opened :=
      (h.regular.attained.opened_iff ha.placed).mpr fun n sd hn => by simp [hnone] at hn
    have hheld : (s.addShutdown t).2.heldShutdown? 0 = some { tree := t } := by
      simp [heldShutdown?, addShutdown, hnone]
    have hhandles := (tick_handles hfirst.sited).trans
      (pollShutdown_restages hadded.sited 0).handles
    have hpoll := pollShutdown_fosters hadded.sited 0
    have hlast := pollShutdown_steps hfirst.tick.sited 0
    have hcloses := ha.steps (afterShutdown_fosters h.sited ha.placed).steps
    have honly := afterShutdown_hasOnly h.sited ha.placed hnone
    rw [afterShutdown, heq] at hcloses honly ⊢
    refine hadded.pollShutdown_completes hheld rfl htree ?_ (.inr (tick_fosters hfirst.sited).steps)
      (heldShutdown?_of_handles hhandles (by rw [hheld]; rfl)) (fun entry hentry => ?_)
      (honly.hasClosed (hfirst.tick.regular.attained.steps hlast) hcloses)
    · rw [phaseOf, htree] at hopen
      simp [show tree.phase = .opened from hopen]
    · -- The calls that it awaits have ended with the tick.
      have hlt := hpoll.lt (hadded.entry_lt hentry)
      exact hlast.continues.ended (hfirst.tick_ends hlt)

theorem Tame.awaitShutdown {compiled : Compiled} (h : s.Tame compiled) (ha : s.ClosesAtOnce t)
    (hnone : s.shutdowns = []) : (s.awaitShutdown t).1 = some [] ∧
      (s.awaitShutdown t).2.closings = (s.instancesOf t).map (closing 0 t) := by
  obtain ⟨faults, hend⟩ := Option.isSome_iff_exists.mp (h.shutdown_ends ha hnone)
  have hfst : (s.awaitShutdown t).1 = some faults := by rw [awaitShutdown_eq hnone, ← hend]
  obtain ⟨rfl, hclosings⟩ := ha.awaitShutdown h.regular.attained hnone hfst
  exact ⟨hfst, hclosings⟩

end Shutdown

end Session
end OperationTree
