import OperationTree.Proofs.Session.Closing
import OperationTree.Proofs.Session.Phase

/-! Shutdowns that take turns.  The shutdowns of a tree do not overlap if none begins while another
one is running and none is given up once it is closing.  Then the first of them that ends has closed
every module once, even if that fails for some or calls have failed, and it reports the failures of
all of them.  Those that follow end at their first poll, without faults, and close nothing. -/

namespace OperationTree

/-- Whether a shutdown in some stage has begun and not ended. -/
def Stage.isOngoing : Stage → Bool
  | draining _ | closing => true
  | fresh | finished _ => false

/-- Whether a shutdown of a tree has begun and has neither ended nor been given up. -/
def Shutdown.runsOn (tree : Nat) (sd : Shutdown) : Bool :=
  sd.tree == tree && sd.isHeld && sd.stage.isOngoing

theorem Shutdown.runsOn_iff {tree : Nat} {sd : Shutdown} :
    sd.runsOn tree = true ↔ sd.tree = tree ∧ sd.isHeld = true ∧ sd.stage.isOngoing = true := by
  simp [runsOn, and_assoc]

theorem Shutdown.finished?_eq_some {sd : Shutdown} {faults : CloseFaults} :
    sd.finished? = some faults ↔ sd.stage = .finished faults := by
  rw [finished?]
  cases sd.stage <;> simp

theorem Phase.eq_closed {p : Phase} (h : Phase.closed.rank ≤ p.rank) : p = .closed := by
  cases p with
  | closed => rfl
  | opened | draining => exact absurd h (by decide)

theorem Stage.finished_of_phase {stage : Stage} (h : stage.phase = .closed) :
    ∃ faults, stage = .finished faults := by
  cases stage with
  | finished faults => exact ⟨faults, rfl⟩
  | fresh | draining | closing => cases h

/-- A shutdown of a closed tree that is not under way ends without faults, if it moves at all. -/
theorem Move.of_closed {all more : List Closing} {p' : Phase} {stage stage' : Stage}
    (h : Move all .closed stage p' stage' more) (hrest : stage.isOngoing = false) :
    stage' = stage ∨ (stage = .fresh ∧ stage' = .finished []) := by
  cases h with
  | keep => exact .inl rfl
  | start hp => exact absurd rfl hp
  | skip => exact .inr ⟨rfl, rfl⟩
  | closeAll | finish => cases hrest

namespace Docket

variable {d d' : Docket} {t : Nat}

/-- Shutdown `n` of a tree is running. -/
def Runs (d : Docket) (t n : Nat) : Prop := ∃ sd, d.shutdowns[n]? = some sd ∧ sd.runsOn t = true

/-- What the shutdowns of a tree are like as long as they take turns. -/
structure Alone (d : Docket) (t : Nat) : Prop where
  one : ∀ {n m : Nat}, d.Runs t n → d.Runs t m → n = m
  keeps : ∀ {n : Nat} {sd : Shutdown}, d.shutdowns[n]? = some sd → sd.tree = t →
    sd.stage = .closing → sd.isHeld = true
  quiet : d.phase t = .closed → ∀ n, ¬ d.Runs t n

theorem Sound.lt_of_runs (hd : d.Sound) {n : Nat} (h : d.Runs t n) : t < d.trees.length := by
  obtain ⟨sd, hn, hrun⟩ := h
  exact (Shutdown.runsOn_iff.mp hrun).1 ▸ hd.placed sd (List.mem_of_getElem? hn)

theorem Sound.closed_of_finished (hd : d.Sound) {n : Nat} {sd : Shutdown} {faults : CloseFaults}
    (hn : d.shutdowns[n]? = some sd) (hend : sd.stage = .finished faults) :
    d.phase sd.tree = .closed := by
  have hbound := hd.bound sd (List.mem_of_getElem? hn)
  rw [hend] at hbound
  exact Phase.eq_closed hbound

theorem held_cases {n : Nat} {sd : Shutdown} (hn : d.shutdowns[n]? = some sd)
    (hheld : sd.isHeld = true) :
    sd.stage = .fresh ∨ (∃ faults, sd.stage = .finished faults) ∨ d.Runs sd.tree n := by
  cases hs : sd.stage with
  | fresh => exact .inl rfl
  | finished faults => exact .inr (.inl ⟨faults, rfl⟩)
  | draining | closing =>
    exact .inr (.inr ⟨sd, hn, Shutdown.runsOn_iff.mpr ⟨rfl, hheld, by rw [hs]; rfl⟩⟩)

theorem Alone.addTree (hd : d.Sound) (h : d.Alone t) (instances : List Instance) :
    Alone { d with trees := d.trees ++ [(.opened, instances)] } t where
  one := h.one
  keeps := h.keeps
  quiet hclosed n hrun := by
    have hlt := hd.lt_of_runs hrun
    rw [phase, List.getElem?_append_left hlt] at hclosed
    exact h.quiet hclosed n hrun

theorem runs_addShutdown {tree n : Nat} :
    Runs { d with shutdowns := d.shutdowns ++ [{ tree }] } t n ↔ d.Runs t n := by
  constructor
  · rintro ⟨sd, hn, hrun⟩
    rcases Session.getElem?_append_eq_some.mp hn with hold | ⟨-, rfl⟩
    · exact ⟨sd, hold, hrun⟩
    · cases (Shutdown.runsOn_iff.mp hrun).2.2
  · rintro ⟨sd, hn, hrun⟩
    exact ⟨sd, Session.getElem?_of_extends (List.prefix_append _ _) hn, hrun⟩

theorem Alone.addShutdown (h : d.Alone t) (tree : Nat) :
    Alone { d with shutdowns := d.shutdowns ++ [{ tree }] } t where
  one hn hm := h.one (runs_addShutdown.mp hn) (runs_addShutdown.mp hm)
  keeps hn htree hc := by
    rcases Session.getElem?_append_eq_some.mp hn with hold | ⟨-, rfl⟩
    · exact h.keeps hold htree hc
    · cases hc
  quiet hclosed n hrun := h.quiet hclosed n (runs_addShutdown.mp hrun)

theorem Alone.giveUp (h : d.Alone t) {n : Nat} {sd : Shutdown} (hn : d.shutdowns[n]? = some sd)
    (hc : sd.tree = t → sd.stage ≠ .closing) :
    Alone { d with shutdowns := d.shutdowns.set n { sd with isHeld := false } } t := by
  have hruns : ∀ {m}, Runs { d with shutdowns := d.shutdowns.set n { sd with isHeld := false } } t m
      → d.Runs t m := by
    rintro m ⟨x, hx, hrun⟩
    rcases (getElem?_shutdowns_move hn).mp hx with ⟨-, rfl⟩ | ⟨-, hx⟩
    · cases (Shutdown.runsOn_iff.mp hrun).2.1
    · exact ⟨x, hx, hrun⟩
  refine ⟨fun hm hk => h.one (hruns hm) (hruns hk), fun hx htree hstage => ?_,
    fun hclosed m hrun => h.quiet hclosed m (hruns hrun)⟩
  rcases (getElem?_shutdowns_move hn).mp hx with ⟨-, rfl⟩ | ⟨-, hx⟩
  · exact absurd hstage (hc htree)
  · exact h.keeps hx htree hstage

/-- A shutdown changes its stage.  If it belongs to the tree, no other one is running there, and it
does not begin on a closed tree. -/
theorem Alone.restage (hd : d.Sound) (hd' : d'.Sound) (h : d.Alone t) {n : Nat} {sd : Shutdown}
    {stage : Stage} (hn : d.shutdowns[n]? = some sd) (hheld : sd.isHeld = true)
    (heq : d'.shutdowns = d.shutdowns.set n { sd with stage })
    (hturn : sd.tree = t → (∀ m, d.Runs t m → m = n) ∧
      (d.phase t = .closed → stage.isOngoing = false)) : d'.Alone t := by
  have hget : ∀ {m : Nat} {x : Shutdown}, d'.shutdowns[m]? = some x →
      (m = n ∧ x = { sd with stage }) ∨ (m ≠ n ∧ d.shutdowns[m]? = some x) := by
    intro m x hx
    rw [heq] at hx
    exact (getElem?_shutdowns_move hn).mp hx
  have hcases : ∀ {m : Nat}, d'.Runs t m →
      (m = n ∧ sd.tree = t ∧ stage.isOngoing = true) ∨ (m ≠ n ∧ d.Runs t m) := by
    rintro m ⟨x, hx, hrun⟩
    rcases hget hx with ⟨rfl, rfl⟩ | ⟨hne, hx⟩
    · obtain ⟨htree, -, hongoing⟩ := Shutdown.runsOn_iff.mp hrun
      exact .inl ⟨rfl, htree, hongoing⟩
    · exact .inr ⟨hne, x, hx, hrun⟩
  refine ⟨fun {m k} hm hk => ?_, fun {m x} hx htree hstage => ?_, fun hclosed m hrun => ?_⟩
  · rcases hcases hm with ⟨rfl, htree, -⟩ | ⟨hmn, hm⟩ <;>
      rcases hcases hk with ⟨rfl, htree', -⟩ | ⟨hkn, hk⟩
    · rfl
    · exact absurd ((hturn htree).1 k hk) hkn
    · exact absurd ((hturn htree').1 m hm) hmn
    · exact h.one hm hk
  · rcases hget hx with ⟨rfl, rfl⟩ | ⟨-, hx⟩
    · exact hheld
    · exact h.keeps hx htree hstage
  · -- The tree has just been closed, by a shutdown that has ended; only `n` can have done that.
    have hopen : d.phase t ≠ .closed := fun hp => by
      rcases hcases hrun with ⟨-, htree, hongoing⟩ | ⟨-, hold⟩
      · rw [(hturn htree).2 hp] at hongoing
        cases hongoing
      · exact h.quiet hp m hold
    obtain ⟨k, x, hx, hxt, hphase, -⟩ := hd'.closer t (hd'.lt_of_runs hrun) hclosed
    obtain ⟨faults, hend⟩ := Stage.finished_of_phase hphase
    rcases hget hx with ⟨rfl, rfl⟩ | ⟨-, hold⟩
    · rcases hcases hrun with ⟨-, -, hongoing⟩ | ⟨hne, hold⟩
      · rw [show stage = .finished faults from hend] at hongoing
        cases hongoing
      · exact hne ((hturn hxt).1 m hold)
    · exact hopen (hxt ▸ hd.closed_of_finished hold hend)

theorem Step.stage_of_closed (h : d.Step d') {n : Nat} {sd sd' : Shutdown}
    (hn : d.shutdowns[n]? = some sd) (hclosed : d.phase sd.tree = .closed)
    (hrest : sd.stage.isOngoing = false) (hn' : d'.shutdowns[n]? = some sd') :
    sd'.stage = sd.stage ∨ (sd.stage = .fresh ∧ sd'.stage = .finished []) := by
  cases h with
  | addTree =>
    obtain rfl := Option.some.inj (hn.symm.trans hn')
    exact .inl rfl
  | addShutdown =>
    rw [Session.getElem?_of_extends (List.prefix_append _ _) hn] at hn'
    obtain rfl := Option.some.inj hn'
    exact .inl rfl
  | move h =>
    obtain ⟨hm, -, hmove⟩ := h
    rcases (getElem?_shutdowns_move hm).mp hn' with ⟨rfl, rfl⟩ | ⟨-, hold⟩
    · obtain rfl := Option.some.inj (hn.symm.trans hm)
      rw [hclosed] at hmove
      exact hmove.of_closed hrest
    · obtain rfl := Option.some.inj (hn.symm.trans hold)
      exact .inl rfl

end Docket

namespace Session

/-! ### Actions in turn -/

/-- Whether a shutdown of a tree is running. -/
def isBusy (s : Session) (t : Nat) : Bool := s.shutdowns.any (Shutdown.runsOn t)

/-- Whether an action is the first poll of a shutdown of a tree. -/
def begins (s : Session) (t : Nat) (action : Action) : Bool :=
  match (s.polledShutdown? action).bind s.heldShutdown? with
  | some { tree, stage := .fresh, .. } => tree == t
  | _ => false

/-- Whether an action gives up a shutdown of a tree that is closing. -/
def abandons (s : Session) (t : Nat) : Action → Bool
  | .dropShutdown n =>
    match s.shutdowns[n]? with
    | some { tree, stage := .closing, .. } => tree == t
    | _ => false
  | _ => false

/-- Whether an action keeps the shutdowns of a tree from overlapping. -/
def keepsTurn (s : Session) (t : Nat) (action : Action) : Bool :=
  !(s.begins t action && s.isBusy t) && !s.abandons t action

/-- Whether the shutdowns of a tree do not overlap in a run: none begins while another one is
running, and each that begins ends or is given up while it drains. -/
def takesTurns (t : Nat) : Session → List Action → Bool
  | _, [] => true
  | s, action :: rest => s.keepsTurn t action && takesTurns t (s.perform action) rest

theorem takesTurns_append {t : Nat} {s : Session} {before later : List Action} :
    takesTurns t s (before ++ later) = true ↔
      takesTurns t s before = true ∧ takesTurns t (s.after before) later = true := by
  induction before generalizing s with
  | nil => simp [takesTurns, after]
  | cons action rest ih =>
    rw [List.cons_append, takesTurns, takesTurns, Bool.and_eq_true, Bool.and_eq_true, ih, and_assoc]
    rfl

theorem isBusy_eq_false {s : Session} {t : Nat} (h : s.isBusy t = false) (n : Nat) :
    ¬ s.docket.Runs t n := by
  rintro ⟨sd, hn, hrun⟩
  exact absurd hrun (List.any_eq_false.mp h sd (List.mem_of_getElem? hn))

/-- A shutdown that begins in turn is the only one. -/
theorem keepsTurn_begins {s : Session} {t : Nat} {action : Action}
    (h : s.keepsTurn t action = true) {n : Nat} {sd : Shutdown}
    (hp : s.polledShutdown? action = some n) (hn : s.heldShutdown? n = some sd)
    (ht : sd.tree = t) (hf : sd.stage = .fresh) (m : Nat) : ¬ s.docket.Runs t m := by
  obtain ⟨tree, stage, isHeld⟩ := sd
  obtain rfl : stage = .fresh := hf
  obtain rfl : tree = t := ht
  have hbegins : s.begins tree action = true := by simp [begins, hp, hn]
  rw [keepsTurn, hbegins] at h
  refine isBusy_eq_false ?_ m
  cases hb : s.isBusy tree with
  | false => rfl
  | true => rw [hb] at h; cases h

theorem keepsTurn_giveUp {s : Session} {t n : Nat} (h : s.keepsTurn t (.dropShutdown n) = true)
    {sd : Shutdown} (hn : s.shutdowns[n]? = some sd) (ht : sd.tree = t) : sd.stage ≠ .closing := by
  intro hc
  obtain ⟨tree, stage, isHeld⟩ := sd
  obtain rfl : stage = .closing := hc
  obtain rfl : tree = t := ht
  have habandons : s.abandons tree (.dropShutdown n) = true := by simp [abandons, hn]
  rw [keepsTurn, habandons] at h
  simp at h

/-! ### Polls of a shutdown -/

/-- No shutdown but `n` has changed, and that one at most in its stage. -/
def Restages (n : Nat) (s s' : Session) : Prop :=
  s'.shutdowns = s.shutdowns ∨
    ∃ stage, s'.shutdowns = s.shutdowns.modify n fun sd => { sd with stage }

theorem Restages.trans {n : Nat} {s s1 s2 : Session} (h1 : Restages n s s1)
    (h2 : Restages n s1 s2) : Restages n s s2 := by
  rcases h2 with heq2 | ⟨stage2, heq2⟩
  · rcases h1 with heq1 | ⟨stage1, heq1⟩
    · exact .inl (heq2.trans heq1)
    · exact .inr ⟨stage1, heq2.trans heq1⟩
  · rcases h1 with heq1 | ⟨stage1, heq1⟩
    · exact .inr ⟨stage2, heq2.trans (by rw [heq1])⟩
    · refine .inr ⟨stage2, heq2.trans ?_⟩
      rw [heq1, List.modify_modify_eq]
      rfl

theorem pollFresh_restages (s : Session) (n : Nat) : Restages n s (s.pollFresh n) := by
  rw [pollFresh]
  split
  · rw [beginShutdown]
    split <;> exact .inr ⟨_, rfl⟩
  · exact .inl rfl

theorem pollDraining_restages {s : Session} (hs : s.Sited) (n : Nat) :
    Restages n s (s.pollDraining n) := by
  rw [pollDraining]
  split
  · next drain _ _ =>
    have hsame := (pollDrain_lasting hs drain).shutdowns
    dsimp only
    split
    · exact .inr ⟨.closing, by rw [closeAll, setStage, hsame]⟩
    · exact .inl hsame
  · exact .inl rfl

theorem pollClosing_restages (s : Session) (n : Nat) : Restages n s (s.pollClosing n) := by
  rw [pollClosing]
  split
  · split
    · exact .inr ⟨_, rfl⟩
    · exact .inl rfl
  · exact .inl rfl

theorem pollShutdown_restages {s : Session} (hs : s.Sited) (n : Nat) :
    Restages n s (s.pollShutdown n) :=
  ((pollFresh_restages s n).trans
    (pollDraining_restages ((pollFresh_steps s n).sited hs) n)).trans (pollClosing_restages _ n)

theorem Restages.shutdown {n : Nat} {s s' : Session} (h : Restages n s s') {sd : Shutdown}
    (hn : s.shutdowns[n]? = some sd) :
    ∃ stage, s'.shutdowns = s.shutdowns.set n { sd with stage } := by
  rcases h with heq | ⟨stage, heq⟩
  · refine ⟨sd.stage, heq.trans ?_⟩
    obtain ⟨hlt, rfl⟩ := List.getElem?_eq_some_iff.mp hn
    exact (List.set_getElem_self hlt).symm
  · exact ⟨stage, heq.trans (by simp [List.modify_eq_set_getElem?, hn])⟩

theorem Restages.held {n : Nat} {s s' : Session} (h : Restages n s s') {sd : Shutdown}
    (hn : s.heldShutdown? n = some sd) :
    ∃ stage, s'.heldShutdown? n = some { sd with stage } := by
  obtain ⟨hget, hheld⟩ := heldShutdown?_eq_some.mp hn
  obtain ⟨stage, hset⟩ := h.shutdown hget
  refine ⟨stage, heldShutdown?_eq_some.mpr ⟨?_, hheld⟩⟩
  rw [hset]
  exact Docket.getElem?_moved (d := s.docket) hget

theorem pollShutdown_of_none {s : Session} {n : Nat} (hn : s.heldShutdown? n = none) :
    s.pollShutdown n = s := by
  simp [pollShutdown, pollFresh, pollDraining, pollClosing, hn]

theorem pollShutdown_of_finished {s : Session} {n : Nat} {sd : Shutdown} {faults : CloseFaults}
    (hn : s.heldShutdown? n = some sd) (hend : sd.stage = .finished faults) :
    s.pollShutdown n = s := by
  obtain ⟨tree, stage, isHeld⟩ := sd
  obtain rfl : stage = .finished faults := hend
  simp [pollShutdown, pollFresh, pollDraining, pollClosing, hn]

/-- The first poll of a shutdown of a closed tree ends it, and does nothing else. -/
theorem pollShutdown_of_closed {s : Session} {n : Nat} {sd : Shutdown}
    (hn : s.heldShutdown? n = some sd) (hf : sd.stage = .fresh)
    (hclosed : s.phaseOf sd.tree = .closed) :
    s.pollShutdown n = s.setStage n (.finished []) := by
  obtain ⟨hget, hheld⟩ := heldShutdown?_eq_some.mp hn
  have hended : (s.setStage n (.finished [])).heldShutdown? n =
      some { sd with stage := .finished [] } :=
    heldShutdown?_eq_some.mpr ⟨by simp [setStage, hget], hheld⟩
  have hrest := pollShutdown_of_finished hended rfl
  rw [pollShutdown, pollFresh_of_ne hended (by simp)] at hrest
  rwa [pollShutdown, pollFresh_of_fresh hn hf, beginShutdown, if_pos hclosed]

/-! ### One shutdown at a time -/

theorem initial_alone (hasScheduler : Bool) (outside : Outside) (t : Nat) :
    (initial hasScheduler outside).docket.Alone t where
  one := fun ⟨_, hn, _⟩ => nomatch hn
  keeps := fun hn => nomatch hn
  quiet := fun _ _ ⟨_, hn, _⟩ => nomatch hn

/-- The shutdown that is polled in turn is the only one that may be running. -/
theorem runs_of_polled {s : Session} {t : Nat} (ha : s.docket.Alone t) {action : Action}
    (hturn : s.keepsTurn t action = true) {n : Nat} {sd : Shutdown}
    (hp : s.polledShutdown? action = some n) (hn : s.heldShutdown? n = some sd)
    (ht : sd.tree = t) (hopen : sd.finished? = none) (m : Nat) (hm : s.docket.Runs t m) :
    m = n := by
  obtain ⟨hget, hheld⟩ := heldShutdown?_eq_some.mp hn
  rcases Docket.held_cases (d := s.docket) hget hheld with hf | ⟨faults, hend⟩ | hrun
  · exact absurd hm (keepsTurn_begins hturn hp hn ht hf m)
  · rw [Shutdown.finished?_eq_some.mpr hend] at hopen
    cases hopen
  · exact ha.one hm (ht ▸ hrun)

theorem alone_pollShutdown {s : Session} (hs : s.Attained) {t n : Nat} (ha : s.docket.Alone t)
    (hturn : ∀ sd, s.heldShutdown? n = some sd → sd.tree = t → sd.finished? = none →
      ∀ m, s.docket.Runs t m → m = n) : (s.pollShutdown n).docket.Alone t := by
  have hd' := (hs.steps (pollShutdown_steps hs.sited n)).docket_sound
  cases hn : s.heldShutdown? n with
  | none => rwa [pollShutdown_of_none hn]
  | some sd =>
    obtain ⟨hget, hheld⟩ := heldShutdown?_eq_some.mp hn
    cases hend : sd.finished? with
    | some faults => rwa [pollShutdown_of_finished hn (Shutdown.finished?_eq_some.mp hend)]
    | none =>
      -- In a closed tree it has not begun, and ends at once.  Otherwise it is the one that runs.
      by_cases hclosed : sd.tree = t ∧ s.phaseOf sd.tree = .closed
      · obtain ⟨rfl, hclosed⟩ := hclosed
        rcases Docket.held_cases (d := s.docket) hget hheld with hf | ⟨faults, hstage⟩ | hrun
        · have hset : (s.pollShutdown n).docket.shutdowns =
              s.docket.shutdowns.set n { sd with stage := .finished [] } := by
            rw [pollShutdown_of_closed hn hf hclosed, docket_setStage hget]
            rfl
          exact ha.restage hs.docket_sound hd' hget hheld hset
            fun _ => ⟨hturn sd hn rfl hend, fun _ => rfl⟩
        · rw [Shutdown.finished?_eq_some.mpr hstage] at hend
          cases hend
        · exact absurd hrun (ha.quiet ((phase_docket s _).trans hclosed) n)
      · obtain ⟨stage, hset⟩ := (pollShutdown_restages hs.sited n).shutdown hget
        refine ha.restage hs.docket_sound hd' hget hheld hset fun ht => ⟨hturn sd hn ht hend, ?_⟩
        intro hp
        exact absurd ⟨ht, (phase_docket s _).symm.trans (ht ▸ hp)⟩ hclosed

theorem alone_perform {s : Session} (hs : s.Attained) {t : Nat} (ha : s.docket.Alone t)
    {action : Action} (hturn : s.keepsTurn t action = true) :
    (s.perform action).docket.Alone t := by
  cases hp : s.polledShutdown? action with
  | none =>
    have hrests := perform_rests hs.sited hp
    generalize s.perform action = s' at hrests
    cases hrests with
    | same h => exact h ▸ ha
    | addTree catalog settings tracker definition =>
      have hadd := ha.addTree hs.docket_sound
        (Compiled.ofDefinition catalog settings s.trees.length definition).loaded.instances
      simpa [docket, addTree] using hadd
    | addShutdown tree => exact ha.addShutdown tree
    | dropShutdown n =>
      cases hn : s.shutdowns[n]? with
      | none =>
        have hsame : (s.dropShutdown n).docket = s.docket :=
          docket_congr rfl (List.modify_eq_self (List.getElem?_eq_none_iff.mp hn)) rfl
        exact hsame ▸ ha
      | some sd =>
        have hgive := ha.giveUp hn (keepsTurn_giveUp hturn hn)
        simpa [docket, dropShutdown, List.modify_eq_set_getElem?, hn] using hgive
  | some n =>
    obtain ⟨queue, heq⟩ := perform_of_polled hp
    have hqueue : Attained { s with queue } := hs.steps (.single (.call (.queue s queue)))
    rw [heq]
    exact alone_pollShutdown hqueue ha fun sd hn ht hend => runs_of_polled ha hturn hp hn ht hend

theorem alone_after {t : Nat} {s : Session} (hs : s.Attained) (ha : s.docket.Alone t)
    {actions : List Action} (hturns : takesTurns t s actions = true) :
    (s.after actions).docket.Alone t := by
  induction actions generalizing s with
  | nil => exact ha
  | cons action rest ih =>
    obtain ⟨hturn, hrest⟩ := Bool.and_eq_true_iff.mp hturns
    exact ih (hs.steps (after_steps hs.sited [action])) (alone_perform hs ha hturn) hrest

end Session
end OperationTree
