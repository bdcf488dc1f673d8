import OperationTree.Proofs.Catalog
import OperationTree.Proofs.Session.Docket
import OperationTree.Proofs.Session.Snapshot

/-! Sessions and their dockets.  Every step of a session is at most one step of its docket, so that
what is said of dockets holds of all sessions. -/

namespace OperationTree.Session

def docket (s : Session) : Docket where
  trees := s.trees.map fun t => (t.phase, t.compiled.loaded.instances)
  shutdowns := s.shutdowns
  closings := s.closings.map Closing.outline

theorem length_docket (s : Session) : s.docket.trees.length = s.trees.length :=
  List.length_map _

theorem phase_docket (s : Session) (t : Nat) : s.docket.phase t = s.phaseOf t := by
  rw [Docket.phase, phaseOf, docket, List.getElem?_map, Option.map_map]
  rfl

theorem asked_docket (s : Session) (n t : Nat) :
    s.docket.asked n t = (s.instancesOf t).map fun i => (closing n t i).outline := by
  rw [Docket.asked, instancesOf, docket, List.getElem?_map, Option.map_map]
  rfl

theorem docket_setPhase (s : Session) (t : Nat) (p : Phase) :
    (s.setPhase t p).docket = { s.docket with trees := s.docket.setPhase t p } := by
  simp only [docket, setPhase, Docket.mk.injEq, and_true, Docket.setPhase]
  refine map_modify (fun tree => ?_) s.trees t
  rfl

theorem docket_setStage {s : Session} {n : Nat} {sd : Shutdown} (hn : s.shutdowns[n]? = some sd)
    (stage : Stage) :
    (s.setStage n stage).docket =
      { s.docket with shutdowns := s.shutdowns.set n { sd with stage } } := by
  simp [docket, setStage, List.modify_eq_set_getElem?, hn]

theorem docket_setPhase_setStage {s u : Session} {t n : Nat} {p : Phase} {sd : Shutdown}
    (hu : u.docket = (s.setPhase t p).docket) (hn : s.shutdowns[n]? = some sd) (stage : Stage) :
    (u.setStage n stage).docket =
      ⟨s.docket.setPhase t p, s.shutdowns.set n { sd with stage }, s.docket.closings⟩ := by
  have hshutdowns : u.shutdowns = s.shutdowns := congrArg Docket.shutdowns hu
  rw [docket_setStage (hshutdowns ▸ hn), hu, docket_setPhase, hshutdowns]

theorem docket_congr {s s' : Session} (ht : s'.trees = s.trees) (hs : s'.shutdowns = s.shutdowns)
    (hc : s'.closings = s.closings) : s'.docket = s.docket := by
  rw [docket, docket, ht, hs, hc]

theorem docket_dropTree (s : Session) (t : Nat) : (s.dropTree t).docket = s.docket := by
  simp only [docket, dropTree, Docket.mk.injEq, and_true]
  refine map_modify_eq (fun tree => ?_) s.trees t
  rfl

theorem docket_endClosing {s : Session} {number : Nat} {c : Closing}
    (hc : s.closings[number]? = some c) :
    docket { s with closings := s.closings.set number { c with isDone := true } } = s.docket := by
  have hset : (s.closings.set number { c with isDone := true }).map Closing.outline =
      s.closings.map Closing.outline := map_set_eq hc rfl
  simp only [docket, hset]

/-- A move that leaves the phase of its tree as it is. -/
theorem docket_keepPhase (d : Docket) (t : Nat) : d.setPhase t (d.phase t) = d.trees := by
  refine List.ext_getElem? fun u => ?_
  rw [Docket.getElem?_setPhase, Docket.phase]
  cases h : d.trees[u]? with
  | none => rfl
  | some entry =>
    by_cases hu : t = u
    · simp [hu, h]
    · simp [hu]

theorem docket_dropShutdown {s : Session} {n : Nat} {sd : Shutdown}
    (hn : s.shutdowns[n]? = some sd) : Docket.MoveOf n s.docket (s.dropShutdown n).docket := by
  have hmove := @Docket.MoveOf.mk n s.docket sd { sd with isHeld := false } _ _ hn rfl
    (.keep (s.docket.phase sd.tree) sd.stage)
  rw [docket_keepPhase, List.append_nil] at hmove
  simpa [docket, dropShutdown, List.modify_eq_set_getElem?, hn] using hmove

theorem docket_beginShutdown {s : Session} {n : Nat} {sd : Shutdown}
    (hn : s.shutdowns[n]? = some sd) (hf : sd.stage = .fresh) :
    Docket.MoveOf n s.docket (s.beginShutdown n sd.tree).docket := by
  rw [beginShutdown]
  split
  · next hclosed =>
    have hmove := @Docket.MoveOf.mk n s.docket sd { sd with stage := .finished [] }
      (s.docket.phase sd.tree) [] hn rfl (by rw [hf, phase_docket, hclosed]; exact .skip)
    rw [docket_keepPhase, List.append_nil] at hmove
    rw [docket_setStage hn]
    exact hmove
  · next hopen =>
    have hmove := @Docket.MoveOf.mk n s.docket sd
      { sd with stage := .draining (s.setPhase sd.tree .draining).drains.length } .draining [] hn
      rfl (by rw [hf, phase_docket]; exact .start hopen _)
    rw [List.append_nil] at hmove
    have hdocket := docket_setPhase_setStage (s := s) (t := sd.tree) (p := .draining)
      (u := ((s.setPhase sd.tree .draining).addDrain (s.trackerOf sd.tree)).2) rfl hn
      (.draining (s.setPhase sd.tree .draining).drains.length)
    exact hdocket ▸ hmove

theorem docket_closeAll {s : Session} {n drain : Nat} {sd : Shutdown}
    (hn : s.shutdowns[n]? = some sd) (hd : sd.stage = .draining drain) :
    Docket.MoveOf n s.docket (s.closeAll n sd.tree).docket := by
  have hmove := @Docket.MoveOf.mk n s.docket sd { sd with stage := .closing }
    (s.docket.phase sd.tree) (s.docket.asked n sd.tree) hn rfl (by rw [hd]; exact .closeAll _ _)
  rw [docket_keepPhase, asked_docket] at hmove
  have hstage := docket_setStage (s := { s with
    closings := s.closings ++ (s.instancesOf sd.tree).map (closing n sd.tree) }) hn .closing
  rw [closeAll, hstage]
  simpa [docket, Function.comp_def] using hmove

theorem docket_endShutdown {s : Session} {n : Nat} {sd : Shutdown}
    (hn : s.shutdowns[n]? = some sd) (hc : sd.stage = .closing) :
    Docket.MoveOf n s.docket (s.endShutdown n sd.tree).docket := by
  have hmove := @Docket.MoveOf.mk n s.docket sd
    { sd with stage := .finished (closeFaults (s.instancesOf sd.tree)) } .closed [] hn rfl
    (by rw [hc]; exact .finish _ _)
  rw [List.append_nil] at hmove
  rw [endShutdown, docket_setPhase_setStage rfl hn]
  exact hmove

/-- A step of a session is at most one step of its docket. -/
theorem Step.docket {s s' : Session} (h : Step s s') :
    s'.docket = s.docket ∨ s.docket.Step s'.docket := by
  cases h with
  | call h =>
    have hu := h.undisturbed
    exact .inl (docket_congr hu.trees hu.shutdowns hu.closings)
  | spawn | change | settleGate | arrive | addTracker | discardTracker | addDrain | beginDrain
  | endDrain => exact .inl rfl
  | addTree catalog settings definition ht =>
    refine .inr ?_
    have hadd := Docket.Step.addTree s.docket
      (Compiled.ofDefinition_instanceKeys_nodup catalog settings s.trees.length definition)
    simpa [Session.docket, Session.addTree] using hadd
  | dropTree tree => exact .inl (docket_dropTree s tree)
  | @addShutdown tree ht =>
    exact .inr (Docket.Step.addShutdown (d := s.docket) (by rwa [length_docket]))
  | dropShutdown number =>
    cases hn : s.shutdowns[number]? with
    | some sd => exact .inr (.move (docket_dropShutdown hn))
    | none =>
      refine .inl (docket_congr rfl ?_ rfl)
      exact List.modify_eq_self (List.getElem?_eq_none_iff.mp hn)
  | beginShutdown hn hf =>
    exact .inr (.move (docket_beginShutdown (heldShutdown?_eq_some.mp hn).1 hf))
  | closeAll hn hd _ => exact .inr (.move (docket_closeAll (heldShutdown?_eq_some.mp hn).1 hd))
  | endShutdown hn hc _ =>
    exact .inr (.move (docket_endShutdown (heldShutdown?_eq_some.mp hn).1 hc))
  | endClosing hc => exact .inl (docket_endClosing hc)

theorem Attained.docket_sound {s : Session} (h : s.Attained) : s.docket.Sound :=
  h.invariant (P := fun s => s.docket.Sound) (fun _ _ => Docket.initial_sound)
    fun _ _ _ step hd => step.docket.elim (fun heq => heq ▸ hd) fun h => h.sound hd

/-- Trees stay, and their phases move forward only. -/
theorem Steps.trees {s s' : Session} (h : Steps s s') {t : Nat} (ht : t < s.trees.length) :
    t < s'.trees.length ∧ (s.phaseOf t).rank ≤ (s'.phaseOf t).rank ∧
      ∀ n, s'.docket.asked n t = s.docket.asked n t := by
  induction h with
  | refl => exact ⟨ht, Nat.le_refl _, fun _ => rfl⟩
  | @tail u v _ step ih =>
    obtain ⟨hlt, hrank, hasked⟩ := ih
    have hlen : t < u.docket.trees.length := by rwa [length_docket]
    rcases step.docket with heq | hstep
    · have hv : v.trees.length = u.trees.length := by
        rw [← length_docket, heq, length_docket]
      refine ⟨hv ▸ hlt, ?_, fun n => heq ▸ hasked n⟩
      rwa [← phase_docket v, heq, phase_docket]
    · have hle := hstep.length_le
      rw [length_docket, length_docket] at hle
      refine ⟨Nat.lt_of_lt_of_le hlt hle, ?_, fun n => (hstep.asked_eq n hlen).trans (hasked n)⟩
      have := hstep.rank_le hlen
      rw [phase_docket, phase_docket] at this
      exact Nat.le_trans hrank this

end OperationTree.Session
