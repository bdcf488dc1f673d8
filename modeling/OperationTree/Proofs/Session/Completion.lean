import OperationTree.Proofs.Session.Loading
import OperationTree.Proofs.Session.Turns

/-! What the first shutdown of a tree that ends leaves behind, if the tree's shutdowns take turns.
Every instance has been asked to close once and has closed, the faults are those of all instances
that cannot be closed, and whatever happens from then on changes nothing about that: shutdowns that
begin later find the tree closed. -/

namespace OperationTree

namespace Docket

variable {d d' : Docket} {t : Nat}

theorem Step.added (h : d.Step d') {n : Nat} {sd : Shutdown} (hn : d.shutdowns[n]? = none)
    (hn' : d'.shutdowns[n]? = some sd) : sd.stage = .fresh := by
  cases h with
  | addTree => cases hn.symm.trans hn'
  | addShutdown =>
    rcases Session.getElem?_append_eq_some.mp hn' with hold | ⟨-, rfl⟩
    · cases hn.symm.trans hold
    · rfl
  | move h =>
    obtain ⟨hm, -, -⟩ := h
    rcases (getElem?_shutdowns_move hm).mp hn' with ⟨rfl, -⟩ | ⟨-, hold⟩
    · cases hn.symm.trans hm
    · cases hn.symm.trans hold

section Alone

variable (hd : d.Sound) (ha : d.Alone t) (hclosed : d.phase t = .closed) {n : Nat}
  (honly : ∀ (m : Nat) (sd : Shutdown) (faults : CloseFaults), d.shutdowns[m]? = some sd →
    sd.tree = t → sd.stage = .finished faults → m = n)
include hd ha hclosed honly

/-- In a closed tree of which one shutdown has ended, all closings are of that shutdown. -/
theorem Alone.shutdown_eq {c : Closing} (hc : c ∈ d.closings) (ht : c.tree = t) :
    c.shutdown = n := by
  obtain ⟨sd, hm, htree⟩ := hd.listed c hc
  have hall := hd.closingsBy_eq hc
  have hasked := hd.asking _ sd hm
  have hmem : c ∈ d.closingsBy c.shutdown := List.mem_filter.mpr ⟨hc, beq_self_eq_true _⟩
  cases hs : sd.stage with
  | fresh | draining =>
    rw [hs] at hasked
    have hnone : d.closingsBy c.shutdown = [] := hasked
    rw [hnone] at hmem
    cases hmem
  | closing =>
    -- It would be running, since none that is closing has been given up.
    have hheld := ha.keeps hm (htree.trans ht) hs
    refine absurd ⟨sd, hm, Shutdown.runsOn_iff.mpr ⟨htree.trans ht, hheld, ?_⟩⟩ (ha.quiet hclosed _)
    rw [hs]
    rfl
  | finished faults => exact honly _ sd faults hm (htree.trans ht) hs

theorem Alone.closingsOf_eq (hlt : t < d.trees.length) : d.closingsOf t = d.asked n t := by
  obtain ⟨k, sd, hk, htree, hphase, hall⟩ := hd.closer t hlt hclosed
  obtain ⟨faults, hend⟩ := Stage.finished_of_phase hphase
  obtain rfl := honly k sd faults hk htree hend
  rw [← hall, closingsOf, closingsBy]
  refine List.filter_congr fun c hc => ?_
  rw [Bool.eq_iff_iff, beq_iff_eq, beq_iff_eq]
  refine ⟨shutdown_eq hd ha hclosed honly hc, fun heq => ?_⟩
  obtain ⟨sd', hk', htree'⟩ := hd.listed c hc
  rw [heq, hk] at hk'
  obtain rfl := Option.some.inj hk'
  exact htree'.symm.trans htree

end Alone

end Docket

namespace Session

/-! ### Closed trees -/

theorem Steps.instancesOf {s s' : Session} (h : Steps s s') {t : Nat} (ht : t < s.trees.length) :
    s'.instancesOf t = s.instancesOf t := by
  have hcompiled : ∀ u : Session, u.instancesOf t =
      (u.compiled[t]?.map fun compiled => compiled.loaded.instances).getD [] := fun u => by
    simp [Session.instancesOf, Session.compiled, Function.comp_def]
  obtain ⟨compiled, hget⟩ : ∃ compiled, s.compiled[t]? = some compiled :=
    ⟨_, compiled_of_tree (List.getElem?_eq_getElem ht)⟩
  rw [hcompiled, hcompiled, getElem?_of_extends h.compiled hget, hget]

theorem dropShutdown_back {s : Session} {number n : Nat} {sd' : Shutdown}
    (hn : (s.dropShutdown number).shutdowns[n]? = some sd') :
    ∃ sd, s.shutdowns[n]? = some sd ∧ sd'.tree = sd.tree ∧ sd'.stage = sd.stage :=
  exists_unmodified (R := fun sd sd' : Shutdown => sd'.tree = sd.tree ∧ sd'.stage = sd.stage)
    (f := fun sd => { sd with isHeld := false }) (fun _ => ⟨rfl, rfl⟩) (fun _ _ => ⟨rfl, rfl⟩) hn

theorem Step.shutdown_back {s s' : Session} (h : Step s s') {n : Nat} {sd' : Shutdown}
    (hn : s'.shutdowns[n]? = some sd') :
    sd'.stage = .fresh ∨ ∃ sd, s.shutdowns[n]? = some sd ∧ s.Advanced sd sd' := by
  cases hs : s.shutdowns[n]? with
  | some sd =>
    obtain ⟨sd1, hn1, hadv⟩ := h.shutdown hs
    obtain rfl := Option.some.inj (hn1.symm.trans hn)
    exact .inr ⟨sd, rfl, hadv⟩
  | none =>
    rcases h.docket with heq | hstep
    · have hsame : s'.shutdowns = s.shutdowns := congrArg Docket.shutdowns heq
      rw [hsame, hs] at hn
      cases hn
    · exact .inl (hstep.added hs hn)

/-- A tree is closed, and none of its shutdowns is running. -/
structure IsOver (s : Session) (t : Nat) : Prop where
  placed : t < s.trees.length
  closed : s.phaseOf t = .closed
  quiet : ∀ n, ¬ s.docket.Runs t n

namespace IsOver

variable {s s' : Session} {t : Nat}

/-- Of the shutdowns of a closed tree those that have not begun may end, without faults. -/
theorem stage (ho : s.IsOver t) (h : Step s s') {n : Nat} {sd sd' : Shutdown}
    (hn : s.shutdowns[n]? = some sd) (hn' : s'.shutdowns[n]? = some sd') (ht : sd.tree = t) :
    sd'.stage = sd.stage ∨ (sd.stage = .fresh ∧ sd'.stage = .finished []) := by
  subst ht
  obtain ⟨sd1, hn1, -, -, hsame | ⟨hheld, -⟩⟩ := h.shutdown hn
  · obtain rfl := Option.some.inj (hn1.symm.trans hn')
    exact .inl hsame
  · rcases h.docket with heq | hstep
    · have hsame : s'.shutdowns = s.shutdowns := congrArg Docket.shutdowns heq
      rw [hsame, hn] at hn'
      obtain rfl := Option.some.inj hn'
      exact .inl rfl
    · refine hstep.stage_of_closed hn ((phase_docket s _).trans ho.closed) ?_ hn'
      rcases Docket.held_cases (d := s.docket) hn hheld with hf | ⟨faults, hend⟩ | hrun
      · rw [hf]; rfl
      · rw [hend]; rfl
      · exact absurd hrun (ho.quiet n)

theorem step (ho : s.IsOver t) (h : Step s s') : s'.IsOver t := by
  obtain ⟨hlt, hrank, -⟩ := Steps.trees (.single h) ho.placed
  refine ⟨hlt, Phase.eq_closed (ho.closed ▸ hrank), fun n ⟨sd', hn', hrun⟩ => ?_⟩
  obtain ⟨ht', hheld', hongoing⟩ := Shutdown.runsOn_iff.mp hrun
  rcases h.shutdown_back hn' with hf | ⟨sd, hn, hadv⟩
  · rw [hf] at hongoing
    cases hongoing
  · have ht : sd.tree = t := hadv.tree.symm.trans ht'
    rcases ho.stage h hn hn' ht with hsame | ⟨-, hend⟩
    · refine ho.quiet n ⟨sd, hn, Shutdown.runsOn_iff.mpr ⟨ht, hadv.isHeld hheld', ?_⟩⟩
      rwa [hsame] at hongoing
    · rw [hend] at hongoing
      cases hongoing

/-- Of a closed tree nothing more is asked to close. -/
theorem closings (ho : s.IsOver t) (h : Step s s') :
    s'.docket.closingsOf t = s.docket.closingsOf t ∧
      ((∀ c ∈ s.closings, c.tree = t → c.isDone = true) →
        ∀ c ∈ s'.closings, c.tree = t → c.isDone = true) := by
  cases h with
  | call h =>
    have hsame := h.undisturbed.closings
    rw [Docket.closingsOf, Docket.closingsOf, docket, docket, hsame]
    exact ⟨rfl, id⟩
  | @closeAll n drain sd hn hd he =>
    obtain ⟨hget, hheld⟩ := heldShutdown?_eq_some.mp hn
    -- A shutdown that asks its modules to close is running, hence one of another tree.
    have hne : sd.tree ≠ t := fun ht => by
      refine ho.quiet n ⟨sd, hget, Shutdown.runsOn_iff.mpr ⟨ht, hheld, ?_⟩⟩
      rw [hd]
      rfl
    have hnew : ∀ c ∈ (s.instancesOf sd.tree).map (closing n sd.tree), c.tree ≠ t := by
      intro c hc
      obtain ⟨i, -, rfl⟩ := List.mem_map.mp hc
      exact hne
    have hnone : (((s.instancesOf sd.tree).map (closing n sd.tree)).map Closing.outline).filter
        (fun c => c.tree == t) = [] := by
      refine List.filter_eq_nil_iff.mpr fun c hc => ?_
      obtain ⟨c, hmem, rfl⟩ := List.mem_map.mp hc
      simpa [Closing.outline] using hnew c hmem
    refine ⟨?_, fun hall c hc ht => ?_⟩
    · show ((s.closings ++ _).map Closing.outline).filter (fun c => c.tree == t) = _
      rw [List.map_append, List.filter_append, hnone, List.append_nil]
      rfl
    · exact (List.mem_append.mp hc).elim (hall c · ht) fun hc => absurd ht (hnew c hc)
  | endClosing hc =>
    refine ⟨by rw [docket_endClosing hc], fun hall c' hc' ht => ?_⟩
    rcases List.mem_or_eq_of_mem_set hc' with hold | rfl
    · exact hall c' hold ht
    · rfl
  | beginShutdown =>
    rw [Session.beginShutdown]
    split <;> exact ⟨rfl, id⟩
  | _ => exact ⟨rfl, id⟩

end IsOver

/-- A tree is closed by its shutdown `n`, the first that has ended, with some faults. -/
structure EndedBy (s : Session) (t n : Nat) (faults : CloseFaults) : Prop where
  isOver : s.IsOver t
  first : ∃ sd, s.shutdowns[n]? = some sd ∧ sd.tree = t ∧ sd.stage = .finished faults
  others : ∀ {m : Nat} {sd : Shutdown} {faults : CloseFaults}, m ≠ n → s.shutdowns[m]? = some sd →
    sd.tree = t → sd.stage = .finished faults → faults = []
  closings : s.docket.closingsOf t = s.docket.asked n t
  done : ∀ c ∈ s.closings, c.tree = t → c.isDone = true

theorem EndedBy.step {s s' : Session} {t n : Nat} {faults : CloseFaults}
    (he : s.EndedBy t n faults) (h : Step s s') : s'.EndedBy t n faults := by
  obtain ⟨hclosings, hdone⟩ := he.isOver.closings h
  refine ⟨he.isOver.step h, ?_, fun {m sd' faults'} hmn hn' ht' hend => ?_, ?_, hdone he.done⟩
  · obtain ⟨sd, hn, ht, hend⟩ := he.first
    obtain ⟨sd', hn', hadv⟩ := h.shutdown hn
    refine ⟨sd', hn', hadv.tree.trans ht, ?_⟩
    rcases he.isOver.stage h hn hn' ht with hsame | ⟨hf, -⟩
    · exact hsame.trans hend
    · cases hf.symm.trans hend
  · rcases h.shutdown_back hn' with hf | ⟨sd, hn, hadv⟩
    · cases hf.symm.trans hend
    · have ht := hadv.tree.symm.trans ht'
      rcases he.isOver.stage h hn hn' ht with hsame | ⟨-, hnew⟩
      · exact he.others hmn hn ht (hsame.symm.trans hend)
      · exact Stage.finished.inj (hend.symm.trans hnew)
  · rw [hclosings, he.closings, (Steps.trees (.single h) he.isOver.placed).2.2]

/-- Nothing that happens later changes how a tree has been closed. -/
theorem EndedBy.steps {s s' : Session} {t n : Nat} {faults : CloseFaults}
    (he : s.EndedBy t n faults) (h : Steps s s') : s'.EndedBy t n faults := by
  induction h with
  | refl => exact he
  | tail _ step ih => exact ih.step step

/-! ### The poll that ends the first shutdown -/

theorem phaseOf_pollFresh {s : Session} {t : Nat} (hopen : s.phaseOf t ≠ .closed) (n : Nat) :
    (s.pollFresh n).phaseOf t ≠ .closed := by
  rw [pollFresh]
  split
  · next tree _ _ =>
    rw [beginShutdown]
    split
    · exact hopen
    · show (s.setPhase tree .draining).phaseOf t ≠ .closed
      rw [phaseOf, setPhase, List.getElem?_modify]
      rw [phaseOf] at hopen
      cases ht : s.trees[t]? with
      | none => simp [ht] at hopen
      | some state =>
        by_cases heq : tree = t
        · simp [heq]
        · simpa [ht, heq] using hopen
  · exact hopen

theorem phaseOf_pollDraining {s : Session} (hs : s.Sited) (n t : Nat) :
    (s.pollDraining n).phaseOf t = s.phaseOf t := by
  rw [pollDraining]
  split
  · next drain _ _ =>
    have hsame : (s.pollDrain drain).phaseOf t = s.phaseOf t := by
      rw [phaseOf, (pollDrain_lasting hs drain).trees, phaseOf]
    dsimp only
    split <;> exact hsame
  · rfl

theorem endShutdown_shutdown {s : Session} {n tree : Nat} {sd : Shutdown}
    (hn : s.shutdowns[n]? = some sd) : (s.endShutdown n tree).shutdowns[n]? =
      some { sd with stage := .finished (closeFaults (s.instancesOf tree)) } := by
  simp [endShutdown, setStage, setPhase, hn]

/-- A shutdown that ends in the last part of a poll was closing, and everything had closed. -/
theorem pollClosing_ends {s : Session} {n : Nat} {sd : Shutdown} {faults : CloseFaults}
    (hn : s.heldShutdown? n = some sd) (hopen : sd.finished? = none)
    (hend : (s.pollClosing n).shutdownEnd? n = some faults) :
    faults = closeFaults (s.instancesOf sd.tree) ∧ (s.pollClosing n).hasClosed n = true := by
  have hget := (heldShutdown?_eq_some.mp hn).1
  rw [pollClosing, hn] at hend ⊢
  split at hend
  · next heq =>
    obtain rfl := Option.some.inj heq
    split at hend
    · next hall =>
      rw [if_pos hall]
      rw [shutdownEnd?, endShutdown_shutdown hget] at hend
      exact ⟨(Option.some.inj hend).symm, hall⟩
    · rw [shutdownEnd?, hget] at hend
      cases hopen.symm.trans hend
  · rw [shutdownEnd?, hget] at hend
    cases hopen.symm.trans hend

/-- A poll that ends a shutdown of a tree that is not closed yet finds everything closed. -/
theorem pollShutdown_ends {s : Session} (hs : s.Attained) {n : Nat} {sd : Shutdown}
    {faults : CloseFaults} (hn : s.heldShutdown? n = some sd) (hopen : s.phaseOf sd.tree ≠ .closed)
    (hend : (s.pollShutdown n).shutdownEnd? n = some faults) :
    faults = closeFaults (s.instancesOf sd.tree) ∧ (s.pollShutdown n).hasClosed n = true := by
  obtain ⟨hget, hheld⟩ := heldShutdown?_eq_some.mp hn
  have hfresh := pollFresh_steps s n
  have hdraining : Steps s ((s.pollFresh n).pollDraining n) :=
    hfresh.trans (pollDraining_steps (hfresh.sited hs.sited) n)
  obtain ⟨stage, hn'⟩ := ((pollFresh_restages s n).trans
    (pollDraining_restages (hfresh.sited hs.sited) n)).held hn
  have hphase : ((s.pollFresh n).pollDraining n).phaseOf sd.tree ≠ .closed := by
    rw [phaseOf_pollDraining (hfresh.sited hs.sited)]
    exact phaseOf_pollFresh hopen n
  have hplaced := hs.docket_sound.placed sd (List.mem_of_getElem? hget)
  rw [length_docket] at hplaced
  rw [pollShutdown] at hend ⊢
  rw [← hdraining.instancesOf hplaced]
  have hu := hs.steps hdraining
  generalize (s.pollFresh n).pollDraining n = u at *
  -- The tree would be closed if the shutdown had ended before.
  have hnot : Shutdown.finished? { sd with stage } = none := by
    cases hf : Shutdown.finished? { sd with stage } with
    | none => rfl
    | some faults =>
      have hclosed := hu.docket_sound.closed_of_finished (heldShutdown?_eq_some.mp hn').1
        (Shutdown.finished?_eq_some.mp hf)
      exact absurd ((phase_docket u _).symm.trans hclosed) hphase
  have hends := pollClosing_ends hn' hnot hend
  exact hends

/-- A shutdown that is closing after a poll waits for something to close. -/
theorem pollClosing_closing {s s' : Session} {n : Nat} (h : s' = s.pollClosing n) {sd : Shutdown}
    (hn : s'.heldShutdown? n = some sd) (hc : sd.stage = .closing) : s'.hasClosed n = false := by
  obtain ⟨hget, hheld⟩ := heldShutdown?_eq_some.mp hn
  rw [pollClosing] at h
  split at h
  · next tree _ hclosing =>
    split at h
    · have hold := (heldShutdown?_eq_some.mp hclosing).1
      rw [h, endShutdown_shutdown hold] at hget
      obtain rfl := Option.some.inj hget
      cases hc
    · next hopen => rw [h]; exact Bool.eq_false_iff.mpr hopen
  · next hne =>
    obtain ⟨tree, stage, isHeld⟩ := sd
    obtain rfl : stage = .closing := hc
    exact absurd (h ▸ hn) (hne tree isHeld)

/-- Whether a shutdown of a tree has ended. -/
def hasEnded (s : Session) (t : Nat) : Bool :=
  s.shutdowns.any fun sd => sd.tree == t && sd.finished?.isSome

theorem hasEnded_iff {s : Session} {t : Nat} : s.hasEnded t = true ↔
    ∃ (n : Nat) (sd : Shutdown) (faults : CloseFaults), s.shutdowns[n]? = some sd ∧ sd.tree = t ∧
      sd.stage = .finished faults := by
  rw [hasEnded, List.any_eq_true]
  constructor
  · rintro ⟨sd, hmem, h⟩
    obtain ⟨n, hn⟩ := List.mem_iff_getElem?.mp hmem
    rw [Bool.and_eq_true, beq_iff_eq, Option.isSome_iff_exists] at h
    obtain ⟨ht, faults, hf⟩ := h
    exact ⟨n, sd, faults, hn, ht, Shutdown.finished?_eq_some.mp hf⟩
  · rintro ⟨n, sd, faults, hn, ht, hf⟩
    exact ⟨sd, List.mem_of_getElem? hn, by simp [ht, Shutdown.finished?_eq_some.mpr hf]⟩

theorem Attained.hasEnded_iff_closed {s : Session} (h : s.Attained) {t : Nat}
    (ht : t < s.trees.length) : s.hasEnded t = true ↔ s.phaseOf t = .closed := by
  rw [← phase_docket, hasEnded_iff]
  constructor
  · rintro ⟨n, sd, faults, hn, rfl, hf⟩
    exact h.docket_sound.closed_of_finished hn hf
  · intro hclosed
    obtain ⟨n, sd, hn, htree, hphase, -⟩ := h.docket_sound.closer t (by rwa [length_docket]) hclosed
    obtain ⟨faults, hf⟩ := Stage.finished_of_phase hphase
    exact ⟨n, sd, faults, hn, htree, hf⟩

theorem Rests.hasEnded {s s' : Session} {action : Action} (h : s.Rests action s') {t : Nat}
    (hend : s'.hasEnded t = true) : s.hasEnded t = true := by
  obtain ⟨n, sd, faults, hn, ht, hf⟩ := hasEnded_iff.mp hend
  cases h with
  | same h =>
    have hsame : s'.shutdowns = s.shutdowns := congrArg Docket.shutdowns h
    exact hasEnded_iff.mpr ⟨n, sd, faults, hsame ▸ hn, ht, hf⟩
  | addTree => exact hend
  | addShutdown =>
    rcases getElem?_append_eq_some.mp hn with hold | ⟨-, rfl⟩
    · exact hasEnded_iff.mpr ⟨n, sd, faults, hold, ht, hf⟩
    · cases hf
  | dropShutdown m =>
    obtain ⟨old, hold, htree, hstage⟩ := dropShutdown_back hn
    exact hasEnded_iff.mpr ⟨n, old, faults, hold, htree ▸ ht, hstage ▸ hf⟩

/-- A poll ends no shutdown but the one that is polled. -/
theorem ended_of_pollShutdown {s : Session} (hs : s.Sited) {t n m : Nat} {sd' : Shutdown}
    {faults : CloseFaults} (hnone : s.hasEnded t = false)
    (hm : (s.pollShutdown n).shutdowns[m]? = some sd') (ht : sd'.tree = t)
    (hf : sd'.stage = .finished faults) :
    m = n ∧ ∃ sd, s.heldShutdown? n = some sd ∧ sd.tree = t := by
  have hnew : s.shutdowns[m]? ≠ some sd' := fun hold => by
    cases hnone.symm.trans (hasEnded_iff.mpr ⟨m, sd', faults, hold, ht, hf⟩)
  cases hn : s.heldShutdown? n with
  | none =>
    rw [pollShutdown_of_none hn] at hm
    exact absurd hm hnew
  | some sd =>
    have hget := (heldShutdown?_eq_some.mp hn).1
    obtain ⟨stage, hset⟩ := (pollShutdown_restages hs n).shutdown hget
    rw [hset] at hm
    rcases (Docket.getElem?_shutdowns_move (d := s.docket) hget).mp hm with ⟨rfl, rfl⟩ | ⟨-, hold⟩
    · exact ⟨rfl, sd, rfl, ht⟩
    · exact absurd hold hnew

/-- The first shutdown of a tree that ends has closed everything. -/
theorem endedBy_pollShutdown {s : Session} (hs : s.Attained) {t n : Nat}
    (hnone : s.hasEnded t = false) (ha : (s.pollShutdown n).docket.Alone t)
    (hend : (s.pollShutdown n).hasEnded t = true) :
    (s.pollShutdown n).EndedBy t n (closeFaults ((s.pollShutdown n).instancesOf t)) := by
  have honly : ∀ (m : Nat) (sd : Shutdown) (faults : CloseFaults),
      (s.pollShutdown n).shutdowns[m]? = some sd → sd.tree = t → sd.stage = .finished faults →
      m = n :=
    fun m sd faults hm ht hf => (ended_of_pollShutdown hs.sited hnone hm ht hf).1
  obtain ⟨m, sd', faults, hm, ht, hf⟩ := hasEnded_iff.mp hend
  obtain ⟨rfl, sd, hn, rfl⟩ := ended_of_pollShutdown hs.sited hnone hm ht hf
  have hsteps := pollShutdown_steps hs.sited m
  have hs' := hs.steps hsteps
  have hplaced : sd.tree < s.trees.length :=
    length_docket s ▸
      hs.docket_sound.placed sd (List.mem_of_getElem? (heldShutdown?_eq_some.mp hn).1)
  have hlt := (hsteps.trees hplaced).1
  have hclosed := (hs'.hasEnded_iff_closed hlt).mp hend
  have hdocket := (phase_docket _ _).trans hclosed
  have hopen : s.phaseOf sd.tree ≠ .closed := fun h => by
    cases hnone.symm.trans ((hs.hasEnded_iff_closed hplaced).mpr h)
  have hfaults : (s.pollShutdown m).shutdownEnd? m = some faults := by
    rw [shutdownEnd?, hm]
    exact Shutdown.finished?_eq_some.mpr hf
  obtain ⟨rfl, hall⟩ := pollShutdown_ends hs hn hopen hfaults
  rw [hsteps.instancesOf hplaced]
  refine ⟨⟨hlt, hclosed, ha.quiet hdocket⟩, ⟨sd', hm, ht, hf⟩,
    fun {k other f} hkm hk hkt hstage => ?_, ?_, fun c hc hct => ?_⟩
  · exact absurd (honly k other f hk hkt hstage) hkm
  · exact ha.closingsOf_eq hs'.docket_sound hdocket honly (by rwa [length_docket])
  · have hby := ha.shutdown_eq hs'.docket_sound hdocket honly (List.mem_map_of_mem hc) hct
    have hdone := List.all_eq_true.mp hall c hc
    rwa [show c.shutdown = m from hby, bne_self_eq_false, Bool.false_or] at hdone

theorem endedBy_perform {s : Session} (hs : s.Attained) {t : Nat} (ha : s.docket.Alone t)
    {action : Action} (hturn : s.keepsTurn t action = true) (hnone : s.hasEnded t = false)
    (hend : (s.perform action).hasEnded t = true) :
    ∃ n, (s.perform action).EndedBy t n (closeFaults ((s.perform action).instancesOf t)) := by
  have ha' := alone_perform hs ha hturn
  cases hp : s.polledShutdown? action with
  | none =>
    rw [(perform_rests hs.sited hp).hasEnded hend] at hnone
    cases hnone
  | some n =>
    obtain ⟨queue, heq⟩ := perform_of_polled hp
    have hqueue : Attained { s with queue } := hs.steps (.single (.call (.queue s queue)))
    rw [heq] at ha' hend ⊢
    exact ⟨n, endedBy_pollShutdown hqueue hnone ha' hend⟩

/-! ### Runs -/

/-- The instances that cannot be closed, in load order. -/
def failing (instances : List Instance) : List Instance :=
  instances.filter fun i => i.transport.closeFault.isSome

theorem closeFaults_eq_map (instances : List Instance) : closeFaults instances =
    (failing instances).map fun i => (i.transport.name, i.transport.closeFault.getD "") := by
  induction instances with
  | nil => rfl
  | cons i rest ih =>
    rw [closeFaults, failing] at *
    cases hf : i.transport.closeFault with
    | none => simp [hf, ih]
    | some fault => simp [hf, ih]

theorem closeFaults_eq_nil_iff {instances : List Instance} :
    closeFaults instances = [] ↔ ∀ i ∈ instances, i.transport.closeFault = none := by
  simp [closeFaults]

/-- The one text that counts and lists the instances that cannot be closed. -/
def closeReport (instances : List Instance) : String :=
  "failed to close " ++ toString (failing instances).length ++ " module(s): " ++
    "; ".intercalate ((failing instances).map fun i =>
      i.transport.name ++ ": " ++ i.transport.closeFault.getD "")

theorem message_closeFaults (instances : List Instance) :
    CloseFaults.message (closeFaults instances) = closeReport instances := by
  show "failed to close " ++ toString (closeFaults instances).length ++ " module(s): " ++
    "; ".intercalate ((closeFaults instances).map fun fault => fault.1 ++ ": " ++ fault.2) = _
  rw [closeFaults_eq_map, List.length_map, List.map_map]
  exact Eq.refl _

/-- How a tree has been closed by its shutdown `n`, and what becomes of the others. -/
structure ClosedOnce (s : Session) (t n : Nat) : Prop where
  phase : s.phaseOf t = .closed
  /-- Every instance has been asked once, in load order. -/
  closed : s.closedKeys t = s.instanceKeys t
  once : (s.instanceKeys t).Nodup
  done : ∀ c ∈ s.closings, c.tree = t → c.isDone = true
  ended : ∃ sd, s.shutdowns[n]? = some sd ∧ sd.tree = t ∧
    sd.finished? = some (closeFaults (s.instancesOf t))
  succeeds : closeFaults (s.instancesOf t) = [] ↔
    ∀ i ∈ s.instancesOf t, i.transport.closeFault = none
  report : CloseFaults.message (closeFaults (s.instancesOf t)) = closeReport (s.instancesOf t)
  /-- The others have closed nothing, and those that have ended have no faults. -/
  others : ∀ (m : Nat) (sd : Shutdown), m ≠ n → s.shutdowns[m]? = some sd → sd.tree = t →
    s.closedBy m = [] ∧ ∀ faults, sd.finished? = some faults → faults = []
  /-- None of them is waiting for anything. -/
  rest : ∀ (m : Nat) (sd : Shutdown), s.heldShutdown? m = some sd → sd.tree = t →
    sd.stage = .fresh ∨ sd.finished?.isSome = true
  /-- The first poll of one that has not begun ends it, and does nothing else. -/
  atOnce : ∀ (m : Nat) (sd : Shutdown), s.heldShutdown? m = some sd → sd.tree = t →
    sd.stage = .fresh → s.pollShutdown m = s.setStage m (.finished [])

theorem EndedBy.closedOnce {s : Session} (hs : s.Attained) {t n : Nat}
    (he : s.EndedBy t n (closeFaults (s.instancesOf t))) : s.ClosedOnce t n where
  phase := he.isOver.closed
  closed := by rw [← closedKeys_docket, he.closings, instanceKeys_docket]
  once := instanceKeys_docket s n t ▸ hs.docket_sound.keys_nodup n t
  done := he.done
  ended := by
    obtain ⟨sd, hn, ht, hend⟩ := he.first
    exact ⟨sd, hn, ht, Shutdown.finished?_eq_some.mpr hend⟩
  succeeds := closeFaults_eq_nil_iff
  report := message_closeFaults _
  others m sd hmn hm ht := by
    refine ⟨?_, fun faults hf => he.others hmn hm ht (Shutdown.finished?_eq_some.mp hf)⟩
    have hnone : s.docket.closingsBy m = [] := by
      refine List.filter_eq_nil_iff.mpr fun c hc hby => hmn ?_
      rw [beq_iff_eq] at hby
      obtain ⟨sd', hm', htree⟩ := hs.docket_sound.listed c hc
      rw [hby] at hm'
      obtain rfl := Option.some.inj (hm.symm.trans hm')
      have hmem := Docket.mem_closingsOf.mpr ⟨hc, htree.symm.trans ht⟩
      rw [he.closings] at hmem
      exact hby.symm.trans (Docket.mem_asked hmem).1
    rw [← closedBy_docket, hnone, List.map_nil]
  rest m sd hm ht := by
    obtain ⟨hget, hheld⟩ := heldShutdown?_eq_some.mp hm
    rcases Docket.held_cases (d := s.docket) hget hheld with hf | ⟨faults, hend⟩ | hrun
    · exact .inl hf
    · exact .inr (by rw [Shutdown.finished?_eq_some.mpr hend]; rfl)
    · exact absurd (ht ▸ hrun) (he.isOver.quiet m)
  atOnce m sd hm ht hf := pollShutdown_of_closed hm hf (ht ▸ he.isOver.closed)

/-- A shutdown has ended after a poll that finds the calls it awaits ended and everything closed
that it has asked to close. -/
theorem Attained.pollShutdown_completes {s : Session} (h : s.Attained) {n : Nat} {sd : Shutdown}
    {tree : TreeState} (hn : s.heldShutdown? n = some sd) (hf : sd.stage = .fresh)
    (ht : s.trees[sd.tree]? = some tree) (hopen : tree.phase ≠ .closed) {u : Session}
    (hu : u = s ∨ Steps (s.pollShutdown n) u) (hheld : (u.heldShutdown? n).isSome = true)
    (hcalls : ∀ entry ∈ (s.tracker tree.tracker).entries,
      ((u.pollShutdown n).outcomeOf entry.2).isSome = true)
    (hclosed : (u.pollShutdown n).hasClosed n = true) :
    ((u.pollShutdown n).shutdownEnd? n).isSome = true := by
  obtain ⟨ha, hfirst⟩ := pollShutdown_awaits hn hf ht hopen h
  have hpoll := pollShutdown_steps h.sited n
  obtain ⟨x, hx⟩ := Option.isSome_iff_exists.mp hheld
  have hsu : Steps s u := hu.elim (fun heq => heq ▸ .refl) hpoll.trans
  have hasked : (u.pollShutdown n).HasAsked n sd.tree := by
    rcases hu with rfl | hu
    · exact hfirst hcalls
    · exact (Steps.awaits (h.steps hpoll) hu ha).pollShutdown (h.steps hsu) hx hcalls
  -- It has ended, or it is closing and waits for something.
  obtain ⟨y, hy, -, hpast, -⟩ := hasked
  cases hs : y.stage with
  | fresh | draining => rw [hs] at hpast; cases hpast
  | closing =>
    obtain ⟨stage, hheld'⟩ := (pollShutdown_restages (h.steps hsu).sited n).held hx
    obtain rfl := Option.some.inj ((heldShutdown?_eq_some.mp hheld').1.symm.trans hy)
    cases hclosed.symm.trans (pollClosing_closing rfl hheld' hs)
  | finished faults =>
    rw [shutdownEnd?, hy]
    exact Option.isSome_iff_exists.mpr ⟨faults, Shutdown.finished?_eq_some.mpr hs⟩

theorem exists_first_end {s : Session} {t : Nat} {actions : List Action}
    (hnone : s.hasEnded t = false) (hend : (s.after actions).hasEnded t = true) :
    ∃ before action later, actions = before ++ action :: later ∧
      (s.after before).hasEnded t = false ∧
      ((s.after before).perform action).hasEnded t = true := by
  induction actions generalizing s with
  | nil => cases hnone.symm.trans hend
  | cons action rest ih =>
    cases hnext : (s.perform action).hasEnded t with
    | true => exact ⟨[], action, rest, rfl, hnone, hnext⟩
    | false =>
      obtain ⟨before, last, later, rfl, hbefore, hlast⟩ := ih hnext hend
      exact ⟨action :: before, last, later, rfl, hbefore, hlast⟩

/-- What comes of a run in which the shutdowns of a tree take turns. -/
structure ShutsDown (s : Session) (t : Nat) (actions : List Action) : Prop where
  /-- A shutdown that has been given up has closed nothing, unless it had ended. -/
  givenUp : ∀ (n : Nat) (sd : Shutdown), (s.after actions).shutdowns[n]? = some sd →
    sd.tree = t → sd.isHeld = false → sd.finished? = none → (s.after actions).closedBy n = []
  /-- A shutdown that begins ends at the first of its polls that finds the calls ended that were
  registered then, and everything closed that it has asked to close. -/
  completes : ∀ (n : Nat) (sd : Shutdown) (tree : TreeState),
    (s.after actions).heldShutdown? n = some sd → sd.stage = .fresh →
    (s.after actions).trees[sd.tree]? = some tree → tree.phase ≠ .closed →
    ∀ u, (u = s.after actions ∨ Steps ((s.after actions).pollShutdown n) u) →
      (u.heldShutdown? n).isSome = true →
      (∀ entry ∈ ((s.after actions).tracker tree.tracker).entries,
        ((u.pollShutdown n).outcomeOf entry.2).isSome = true) →
      (u.pollShutdown n).hasClosed n = true → ((u.pollShutdown n).shutdownEnd? n).isSome = true
  /-- If any shutdown has ended, then the first one has closed the tree for good. -/
  first : (s.after actions).hasEnded t = true → ∃ before action later n,
    actions = before ++ action :: later ∧ (s.after before).hasEnded t = false ∧
    ∀ u, Steps (s.after (before ++ [action])) u → u.ClosedOnce t n

/-- Shutdowns that take turns close everything once, whatever fails. -/
theorem shutsDown_of_takesTurns (hasScheduler : Bool) (outside : Outside) (t : Nat)
    (actions : List Action) (hturns : takesTurns t (initial hasScheduler outside) actions = true) :
    (initial hasScheduler outside).ShutsDown t actions := by
  have h0 := initial_alone hasScheduler outside t
  have hstart : (initial hasScheduler outside).Attained := ⟨hasScheduler, outside, .refl⟩
  have hreach : ∀ actions, ((initial hasScheduler outside).after actions).Attained :=
    fun actions => hstart.steps (after_steps hstart.sited actions)
  refine ⟨fun n sd hn ht hheld hopen => ?_, fun n sd tree hn hf ht hopen u => ?_, fun hend => ?_⟩
  · have halone := alone_after hstart h0 hturns
    have hasked := (hreach actions).docket_sound.asking n sd hn
    cases hs : sd.stage with
    | fresh | draining =>
      rw [hs] at hasked
      have hnone : ((initial hasScheduler outside).after actions).docket.closingsBy n = [] := hasked
      rw [← closedBy_docket, hnone, List.map_nil]
    | closing =>
      rw [halone.keeps hn ht hs] at hheld
      cases hheld
    | finished faults =>
      rw [Shutdown.finished?_eq_some.mpr hs] at hopen
      cases hopen
  · exact (hreach actions).pollShutdown_completes hn hf ht hopen
  · obtain ⟨before, action, later, rfl, hbefore, hlast⟩ := exists_first_end rfl hend
    obtain ⟨hearly, hlate⟩ := takesTurns_append.mp hturns
    have hturn := (Bool.and_eq_true_iff.mp hlate).1
    have halone := alone_after hstart h0 hearly
    obtain ⟨n, hended⟩ := endedBy_perform (hreach before) halone hturn hbefore hlast
    refine ⟨before, action, later, n, rfl, hbefore, fun u hu => ?_⟩
    rw [after_append] at hu
    have hstep : Steps ((initial hasScheduler outside).after before) _ :=
      after_steps (hreach before).sited [action]
    have hu' := (hreach before).steps (hstep.trans hu)
    refine EndedBy.closedOnce hu' ?_
    rw [Steps.instancesOf hu hended.isOver.placed]
    exact hended.steps hu

/-- Adds a tree of three operations.  Two of its modules cannot be closed, and one of these takes
its time. -/
def Action.addBroken : Action :=
  .addTree
    { transports := [
      ("g", { name := "g", call? := fun _ _ _ => some fun _ => .gated, closeFault := some "busy" }),
      ("h", { name := "h", call? := fun _ _ _ => some fun _ => .gated }),
      ("k", { name := "k", call? := fun _ _ _ => some fun _ => .gated, closeFault := some "lost",
              closesLater := true })] } {} 0
    (.object [("a", .object [("asyncModule", .string "g"), ("operationDetails", .object [])]),
      ("b", .object [("asyncModule", .string "h"), ("operationDetails", .object [])]),
      ("c", .object [("asyncModule", .string "k"), ("operationDetails", .object [])])])

/-- Of three shutdowns the first is given up while it drains, the second ends after a call has
failed and the last module has closed, and the third ends although a call waits. -/
def threeInTurn : List Action :=
  [.addTracker, .addBroken, .invoke 0 "a" {}, .addShutdown 0, .pollShutdown 0, .dropShutdown 0,
    .addShutdown 0, .pollShutdown 1, .settleGate 0 (.error .aggregate), .poll 0, .pollShutdown 1,
    .endClosing 2, .pollShutdown 1, .invoke 0 "b" {}, .addShutdown 0, .pollShutdown 2]

theorem shutsDown_threeInTurn :
    (initial true {}).ShutsDown 0 threeInTurn ∧
      (∃ n, ((initial true {}).after threeInTurn).ClosedOnce 0 n) ∧
      ((initial true {}).after threeInTurn).closedKeys 0 = ["g", "h", "k"] ∧
      ((initial true {}).after threeInTurn).shutdownEnd? 1 = some [("g", "busy"), ("k", "lost")] ∧
      ((initial true {}).after threeInTurn).shutdownEnd? 2 = some [] := by
  have hdown := shutsDown_of_takesTurns true {} 0 threeInTurn (by decide +kernel)
  refine ⟨hdown, ?_, by decide +kernel, by decide +kernel, by decide +kernel⟩
  obtain ⟨before, action, later, n, hrun, -, hclosed⟩ := hdown.first (by decide +kernel)
  have hs := initial_sited true {}
  refine ⟨n, hclosed _ ?_⟩
  have hsplit : before ++ action :: later = (before ++ [action]) ++ later := by simp
  rw [hrun, hsplit, after_append _ (before ++ [action]) later]
  exact after_steps ((after_steps hs _).sited hs) later

end Session
end OperationTree
