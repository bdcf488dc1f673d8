import OperationTree.Proofs.Session.Spawning

/-! Gates.  Every gate is opened for one call and waited for by that call only, so whoever settles
it knows whom to wake. -/

namespace OperationTree

def Call.gate? (c : Call) : Option Nat :=
  match c.work with
  | .gate gate => some gate
  | _ => none

theorem Call.gate?_eq_some {c : Call} {gate : Nat} : c.gate? = some gate ↔ c.work = .gate gate := by
  rw [gate?]
  cases c.work <;> simp

namespace Session

def gateOf? (s : Session) (call : Nat) : Option Nat := s.calls[call]?.bind Call.gate?

theorem Step.gates_length_le {s s' : Session} (h : Step s s') :
    s.gates.length ≤ s'.gates.length := by
  cases h with
  | call h => exact h.undisturbed.gates.length_le
  | settleGate => exact Nat.le_of_eq List.length_set.symm
  | beginShutdown =>
    rw [Session.beginShutdown]
    split <;> exact Nat.le_refl _
  | _ => exact Nat.le_refl _

/-- Every gate that is waited for is there, and waited for by one call. -/
structure Gated (s : Session) : Prop where
  placed : ∀ call gate, s.gateOf? call = some gate → gate < s.gates.length
  single : ∀ call other gate, s.gateOf? call = some gate → s.gateOf? other = some gate →
    call = other

theorem initial_gated (hasScheduler : Bool) (outside : Outside) :
    (initial hasScheduler outside).Gated := by
  constructor <;> simp [initial, gateOf?]

namespace Gated

variable {s t : Session}

/-- Calls may cease to wait for gates. -/
theorem of_gateOf? (h : s.Gated) (hg : s.gates.length ≤ t.gates.length)
    (hof : ∀ call gate, t.gateOf? call = some gate → s.gateOf? call = some gate) : t.Gated where
  placed call gate hc := Nat.lt_of_lt_of_le (h.placed call gate (hof call gate hc)) hg
  single call other gate hc ho := h.single call other gate (hof _ _ hc) (hof _ _ ho)

theorem start (h : s.Gated) (tracker : Nat) (job : Job) : (s.start tracker job).2.Gated := by
  have hcalls := (start_starts s tracker job).calls
  have hgates : s.gates.length ≤ (s.start tracker job).2.gates.length ∧
      ∀ gate, (s.begun tracker job).gate? = some gate →
        gate = s.gates.length ∧ gate < (s.start tracker job).2.gates.length := by
    cases job with
    | gated =>
      simp only [Session.start, track]
      split <;> simp [workOf, openGate, register, spawn, begun, Call.gate?]
    | finished | exchange | aggregate =>
      simp only [Session.start, track]
      split <;> simp [workOf, register, spawn, begun, Call.gate?]
  obtain ⟨hlength, hnew⟩ := hgates
  have hcases (call gate : Nat) (hc : (s.start tracker job).2.gateOf? call = some gate) :
      s.gateOf? call = some gate ∨ (call = s.calls.length ∧ gate = s.gates.length ∧
        gate < (s.start tracker job).2.gates.length) := by
    obtain ⟨c, hget, hgate⟩ := Option.bind_eq_some_iff.mp hc
    rw [hcalls] at hget
    rcases getElem?_append_eq_some.mp hget with hold | ⟨rfl, rfl⟩
    · exact .inl (Option.bind_eq_some_iff.mpr ⟨c, hold, hgate⟩)
    · exact .inr ⟨rfl, hnew gate hgate⟩
  constructor
  · intro call gate hc
    rcases hcases call gate hc with hold | ⟨-, -, hlt⟩
    · exact Nat.lt_of_lt_of_le (h.placed call gate hold) hlength
    · exact hlt
  · intro call other gate hc ho
    rcases hcases call gate hc with hc | ⟨rfl, rfl, -⟩ <;>
      rcases hcases other _ ho with ho | ⟨rfl, hgate, -⟩
    · exact h.single call other gate hc ho
    · exact absurd (h.placed call gate hc) (by omega)
    · exact absurd (h.placed other _ ho) (Nat.lt_irrefl _)
    · rfl

theorem invoke (h : s.Gated) (o : Operation) (request : Request) :
    (s.invoke o request).2.Gated := by
  rw [Session.invoke]
  split
  · exact h
  · exact h.start _ _

theorem invokeAll (h : s.Gated) (request : Request) (operations : List Operation) :
    (s.invokeAll request operations).2.Gated := by
  induction operations generalizing s with
  | nil => exact h
  | cons o rest ih => exact ih (h.invoke o request)

/-- The work of a call changes to work that waits for no gate. -/
theorem of_modify (h : s.Gated) {n : Nat} {f : Call → Call}
    (hm : t.calls = s.calls.modify n f) (hg : s.gates.length ≤ t.gates.length)
    (hf : ∀ c gate, (f c).gate? = some gate → c.gate? = some gate) : t.Gated := by
  refine h.of_gateOf? hg fun call gate hc => ?_
  obtain ⟨c, hget, hgate⟩ := Option.bind_eq_some_iff.mp hc
  rw [hm] at hget
  obtain ⟨old, hold, hback⟩ := exists_unmodified
    (R := fun c c' : Call => c'.gate? = some gate → c.gate? = some gate) (fun _ => id)
    (fun c _ => hf c gate) hget
  exact Option.bind_eq_some_iff.mpr ⟨old, hold, hback hgate⟩

theorem setWork (h : s.Gated) (n : Nat) {work : Work} (hw : ∀ gate, work ≠ .gate gate) :
    (s.setWork n work).Gated := by
  refine h.of_modify (f := fun c => { c with work }) rfl (Nat.le_refl _) fun c gate hgate => ?_
  cases work with
  | gate other => exact absurd rfl (hw other)
  | _ => cases hgate

theorem setGathering (h : s.Gated) (g : Gathering) (waiter : Waiter) :
    (s.setGathering g waiter).Gated := by
  cases waiter with
  | call n => exact h.setWork n fun _ => nofun
  | drain | shutdown => exact h.of_gateOf? (Nat.le_refl _) fun _ _ hc => hc

theorem fanOut (h : s.Gated) (call : Nat) (request : Request) (operations : List Operation) :
    (s.fanOut call request operations).Gated := by
  have hset := (h.invokeAll request operations).setGathering
    { futures := (s.invokeAll request operations).1 } (.call call)
  have hwatched := fanOut_watchedFrom s call request operations
  refine hset.of_gateOf? (gather_watch_steps _ _ _).undisturbed.gates.length_le
    fun n gate hc => ?_
  obtain ⟨c, hget, hgate⟩ := Option.bind_eq_some_iff.mp hc
  rcases getElem?_cases hwatched.calls n with ⟨-, hnone⟩ | ⟨c1, c', hold, hnew, hbare⟩
  · cases hnone.symm.trans hget
  · obtain rfl := Option.some.inj (hnew.symm.trans hget)
    refine Option.bind_eq_some_iff.mpr ⟨c1, hold, ?_⟩
    rwa [Call.gate?, Call.work_of_bare hbare] at hgate

theorem move {x y : Hand × Session} (hx : x.2.Gated) (h : Move x y) : y.2.Gated := by
  cases h with
  | nudge h =>
    cases h with
    | queue | heed | leave => exact hx.of_gateOf? (Nat.le_refl _) fun _ _ hc => hc
    | push => exact hx.setGathering _ _
  | pop | take => exact hx.setGathering _ _
  | invoke => exact hx.invoke _ _
  | keep => exact hx.of_gateOf? (Nat.le_refl _) fun _ _ hc => hc
  | fanOut => exact hx.fanOut _ _ _
  | @ask _ s call c e =>
    exact Gated.setWork (s := { s with outside := (e.perform s.outside).2 })
      (hx.of_gateOf? (Nat.le_refl _) fun _ _ hc => hc) call fun _ => nofun
  | @finish _ s call c outcome hc =>
    refine hx.of_gateOf? (Nat.le_refl _) fun n gate hgate => ?_
    have hget := (unsettled?_eq_some.mp hc).1
    by_cases hn : call = n
    · subst hn
      have hsame : Call.gate? { c with outcome := some outcome } = c.gate? := rfl
      rw [gateOf?, Session.finish, List.getElem?_set_self (List.getElem?_eq_some_iff.mp hget).1,
        Option.bind_some, hsame] at hgate
      rwa [gateOf?, hget]
    · simpa [gateOf?, Session.finish, List.getElem?_set_ne hn] using hgate
  | release =>
    exact hx.of_modify (f := fun c => { c with isHeld := false }) rfl (Nat.le_refl _)
      fun _ _ hc => hc

theorem deed {ok : Action → Prop} {x y : Hand × Session} (hx : x.2.Gated) (h : Deed ok x y)
    (hs : x.2.Sited) : y.2.Gated := by
  cases h with
  | move h => exact hx.move h
  | arrive => exact hx.setWork _ fun _ => nofun
  | start => exact hx.start _ _
  | addTree => exact hx.of_gateOf? (Nat.le_refl _) fun _ _ hc => hc
  | watch _ _ call drain place =>
    exact hx.of_modify (f := fun c => { c with waiters := c.waiters ++ [(.drain drain, place)] })
      rfl (Nat.le_refl _) fun _ _ hc => hc
  | aside _ h ha =>
    refine hx.of_gateOf? h.gates_length_le fun call gate hc => ?_
    rwa [gateOf?, ha.calls] at hc

end Gated

end Session
end OperationTree
