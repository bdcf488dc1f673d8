import Mathlib.Data.Set.Card
import OperationTree.Proofs.Session.Fostering

/-! What a tick ends for certain.  When the references below an operation never come back, its
aggregates have fewer levels than the tree has operations, and a tick has rounds for more levels
than that.  So nothing but a gate can hold up a call of the operation, and of the standard
transports none has gates. -/

namespace OperationTree

open Relation

namespace Operation

variable {root : Node Operation} {o o' : Operation}

/-- From an operation that can be started one comes to fewer operations. -/
theorem CanStart.ncard_lt (h : o.CanStart root o') (hnever : o.NeverReturns root) :
    {o1 | ReflTransGen (CanStart root) o' o1}.ncard <
      {o1 | ReflTransGen (CanStart root) o o1}.ncard := by
  refine Set.ncard_lt_ncard ⟨fun o1 hreach => hreach.head h, fun hback => ?_⟩
    (finite_reachable root o)
  have hself : ReflTransGen (CanStart root) o' o := hback .refl
  exact hnever o .refl (.head' h hself)

theorem ncard_le_length (ho : o ∈ root.operations) :
    {o1 | ReflTransGen (CanStart root) o o1}.ncard ≤ root.operations.length := by
  classical
  have hsub : {o1 | ReflTransGen (CanStart root) o o1} ⊆ (root.operations.toFinset : Set _) := by
    intro o1 hreach
    rw [List.coe_toFinset]
    rcases ReflTransGen.cases_tail hreach with rfl | ⟨o2, -, hstart⟩
    · exact ho
    · exact hstart.mem
  calc {o1 | ReflTransGen (CanStart root) o o1}.ncard
      ≤ (root.operations.toFinset : Set Operation).ncard :=
        Set.ncard_le_ncard hsub (Finset.finite_toSet _)
    _ = root.operations.toFinset.card := Set.ncard_coe_finset _
    _ ≤ root.operations.length := List.toFinset_card_le _

theorem NeverReturns.of_canStart (h : o.CanStart root o') (hnever : o.NeverReturns root) :
    o'.NeverReturns root :=
  fun o1 hreach => hnever o1 (hreach.head h)

end Operation

/-! ### Jobs without gates -/

/-- No job of a function waits for a gate. -/
def Job.NeedsNoGate (start : Request → Job) : Prop := ∀ request, start request ≠ .gated

/-- No function of a transport gives jobs that wait for gates. -/
structure Transport.NeedsNoGate (t : Transport) : Prop where
  call : ∀ context details groupDetails start,
    t.call? context details groupDetails = some start → Job.NeedsNoGate start
  canned : ∀ context node start, t.canned? context node = some start → Job.NeedsNoGate start

/-- The calls of all operations do without gates. -/
def Compiled.NeedsNoGate (c : Compiled) : Prop :=
  ∀ o ∈ c.root.operations, ∀ start, o.action = .tracked start → Job.NeedsNoGate start

namespace Transport

theorem http_needsNoGate (options : Http.Options) : (http options).NeedsNoGate where
  call context details _ start h := by
    obtain rfl := Option.some.inj h
    unfold httpCall
    dsimp only
    split <;> exact fun _ => nofun
  canned context node start h := by
    obtain rfl := Option.some.inj h
    exact fun _ => nofun

theorem file_needsNoGate : file.NeedsNoGate where
  call context details _ start h := by
    obtain rfl := Option.some.inj h
    unfold fileCall
    split
    · exact fun _ => nofun
    · split
      · exact fun _ => nofun
      · split <;> exact fun _ => nofun
  canned _ _ _ h := nomatch h

theorem sql_needsNoGate : sql.NeedsNoGate where
  call context details _ start h := by
    obtain rfl := Option.some.inj h
    unfold sqlCall
    split <;> exact fun _ => nofun
  canned _ _ _ h := nomatch h

theorem aggregator_needsNoGate : aggregator.NeedsNoGate where
  call context details _ start h := by
    obtain rfl := Option.some.inj h
    unfold aggregateCall
    split <;> exact fun _ => nofun
  canned _ _ _ h := nomatch h

end Transport

theorem Compiled.standard_needsNoGate (options : Http.Options) (settings : Settings) (tree : Nat)
    (definition : Json) :
    (ofDefinition (.standardWith options) settings tree definition).NeedsNoGate := by
  have hall : ∀ name t, (Catalog.standardWith options).find? name = some t → t.NeedsNoGate :=
    Catalog.forall_standardWith (Transport.http_needsNoGate options) Transport.file_needsNoGate
      Transport.aggregator_needsNoGate Transport.sql_needsNoGate
  intro o ho start haction
  exact forall_operations (P := fun _ => Job.NeedsNoGate) (fun _ _ _ => nofun)
    (fun name t hname => (hall name t hname).call)
    (fun name t hname => (hall name t hname).canned) ho haction

/-- Work that waits for no gate. -/
def Work.NeedsNoGate : Work → Prop
  | .gate _ => False
  | _ => True

theorem Work.Turns.needsNoGate {work work' : Work} (h : work.Turns work') : work'.NeedsNoGate := by
  cases h <;> trivial

theorem Job.NeedsNoGate.begins {start : Request → Job} (h : Job.NeedsNoGate start)
    {request : Request} {work : Work} (hb : (start request).Begins work) : work.NeedsNoGate := by
  have hgated := h request
  generalize start request = job at hb hgated
  cases hb with
  | gated => exact absurd rfl hgated
  | finished | exchange | aggregate => trivial

namespace Session

theorem Deed.needsNoGate {ok : Action → Prop} {x y : Hand × Session} (h : Deed ok x y)
    (hs : x.2.Sited) {call : Nat} (hx : ∃ c, x.2.calls[call]? = some c ∧ c.work.NeedsNoGate) :
    ∃ c, y.2.calls[call]? = some c ∧ c.work.NeedsNoGate := by
  obtain ⟨c, hc, hw⟩ := hx
  obtain ⟨c', hc', -⟩ := (h.steps hs).continues call c hc
  refine ⟨c', hc', ?_⟩
  cases h.origin hc' with
  | same hget hwork =>
    obtain rfl := Option.some.inj (hc.symm.trans hget)
    rwa [hwork]
  | ended hopen hwork =>
    obtain rfl := Option.some.inj (hc.symm.trans (unsettled?_eq_some.mp hopen).1)
    rwa [hwork]
  | turned _ ht => exact ht.needsNoGate
  | fanned _ _ _ _ hwork =>
    rw [hwork]
    trivial
  | started hlength => exact absurd (List.getElem?_eq_some_iff.mp hc).1 (Nat.not_lt.mpr hlength)

/-! ### Calls without gates -/

namespace Run

variable {run : Run} {compiled : Compiled} {o : Operation} {call : Nat}

theorem Has.needsNoGate (h : run.Has compiled o call) (hgates : compiled.NeedsNoGate) :
    ∃ i c, (run.states i).calls[call]? = some c ∧ c.work.NeedsNoGate := by
  obtain ⟨hx, later, hget, ho, hanswer⟩ := h
  rename_i x i request
  cases hanswer with
  | @tracked start _ c haction hc hb =>
    exact ⟨i, Deeds.preserves
      (P := fun x => ∃ c, x.2.calls[call]? = some c ∧ c.work.NeedsNoGate)
      (fun _ _ hs deed => deed.needsNoGate hs) later hx.sited
      ⟨c, (unsettled?_eq_some.mp hc).1, (hgates o ho start haction).begins hb⟩⟩

variable {s t : Session} {hs : Regular ([], s)}

theorem Has.not_waitsAtGate (h : (still s hs).Has compiled o call)
    (hgates : compiled.NeedsNoGate) : ¬ s.WaitsAtGate call := by
  rintro ⟨gate, hof, -⟩
  obtain ⟨c, hc, hgate⟩ := Option.bind_eq_some_iff.mp hof
  obtain ⟨_, c', hc', hw⟩ := h.needsNoGate hgates
  obtain rfl := Option.some.inj (hc.symm.trans hc')
  rwa [Call.gate?_eq_some.mp hgate] at hw

theorem Has.stays (h : (still s hs).Has compiled o call)
    (hdeeds : Deeds Action.IsRegular ([], s) ([], t)) (ht : Regular ([], t)) :
    (still t ht).Has compiled o call := by
  obtain ⟨hx, later, hget, ho, hanswer⟩ := h
  have hlater : Deeds Action.IsRegular _ ([], (still t ht).states 0) := later.trans hdeeds
  exact .intro hx hlater hget ho hanswer

/-- Nothing holds a call up but what stands below it. -/
theorem Has.lt_of_isHeldUp (h : (still s hs).Has compiled o call)
    (hnever : o.NeverReturns compiled.root) (hgates : compiled.NeedsNoGate) {n : Nat}
    (hheld : s.IsHeldUp n call) :
    n < {o' | ReflTransGen (Operation.CanStart compiled.root) o o'}.ncard := by
  induction hheld generalizing o with
  | deep => exact (Set.ncard_pos (Operation.finite_reachable _ o)).mpr ⟨o, .refl⟩
  | alone hwaits => exact absurd hwaits (h.not_waitsAtGate hgates)
  | gathers hg hmem _ ih =>
    obtain ⟨o', hstart, hhas⟩ := h.of_gathers ⟨0, _, hg, hmem⟩
    exact Nat.lt_of_le_of_lt (ih hhas (hnever.of_canStart hstart)) (hstart.ncard_lt hnever)

end Run

/-! ### Sessions whose calls come to an end -/

/-- Every call is one of an operation of a tree, and the references below the operation never come
back. -/
def Descends (s : Session) (compiled : Compiled) : Prop :=
  ∀ call < s.calls.length, ∃ hs o,
    (Run.still s hs).Has compiled o call ∧ o.NeverReturns compiled.root

theorem descends_of_no_calls {s : Session} (h : s.calls = []) (compiled : Compiled) :
    s.Descends compiled := by
  intro call hlt
  rw [h] at hlt
  exact absurd hlt (Nat.not_lt_zero call)

namespace Descends

variable {s t : Session} {compiled : Compiled}

/-- What calls add is below them. -/
theorem later (h : s.Descends compiled) (hs : Regular ([], s))
    (hdeeds : Deeds Action.IsRegular ([], s) ([], t)) (hfosters : s.Fosters t) :
    t.Descends compiled := by
  intro call hlt
  induction call using Nat.strong_induction_on with
  | h call ih =>
    by_cases hold : call < s.calls.length
    · obtain ⟨_, o, hhas, hnever⟩ := h call hold
      exact ⟨hs.deeds hdeeds, o, hhas.stays hdeeds _, hnever⟩
    · obtain ⟨a, ha, futures, hg, hmem⟩ := hfosters.called call (Nat.le_of_not_lt hold) hlt
      obtain ⟨ht, o, hhas, hnever⟩ := ih a ha (ha.trans hlt)
      obtain ⟨o', hstart, hhas'⟩ := hhas.of_gathers ⟨0, futures, hg, hmem⟩
      exact ⟨ht, o', hhas', hnever.of_canStart hstart⟩

end Descends

theorem rounds_deeds (n : Nat) {s : Session} (hs : s.Sited) :
    Deeds Action.IsRegular ([], s) ([], s.rounds n) := by
  induction n generalizing s with
  | zero => exact .refl
  | succ n ih =>
    have hround := runFirst_deeds Action.IsRegular s.queue.length [] hs
    exact hround.trans (ih ((hround.steps hs).sited hs))

theorem deliver_deeds {s : Session} (hs : s.Sited) :
    Deeds Action.IsRegular ([], s) ([], s.deliver) := by
  let arrived := (List.range s.calls.length).foldl arrive s
  let actions := (List.range s.calls.length).map Action.arrive ++
    arrived.openClosings.map Action.endClosing
  have hdeliver : s.deliver = s.after actions := by
    rw [after_append, ← foldl_arrive, Session.after, List.foldl_map]
    rfl
  rw [hdeliver]
  refine after_deeds _ [] hs fun action hmem => ?_
  rcases List.mem_append.mp hmem with hmem | hmem
  · obtain ⟨-, -, rfl⟩ := List.mem_map.mp hmem
    trivial
  · obtain ⟨-, -, rfl⟩ := List.mem_map.mp hmem
    trivial

theorem tick_deeds {s : Session} (hs : s.Sited) :
    Deeds Action.IsRegular ([], s) ([], s.tick) := by
  rw [tick]
  split
  · have hrun := rounds_deeds (4 * (s.depth + 1)) hs
    have hs1 := (hrun.steps hs).sited hs
    have hdeliver := hrun.trans (deliver_deeds hs1)
    exact hdeliver.trans (rounds_deeds _ ((Deeds.steps hdeliver hs).sited hs))
  · exact .refl

theorem Reachable.tick {s : Session} (h : s.Reachable) : s.tick.Reachable := by
  rw [Session.tick]
  split
  · exact (h.rounds _).deliver.rounds _
  · exact h

/-- A session with a scheduler, in which all calls are of operations of one tree that never come
back, and which follows as many levels as the tree has operations. -/
structure Tame (s : Session) (compiled : Compiled) : Prop where
  reachable : s.Reachable
  regular : Regular ([], s)
  hasScheduler : s.hasScheduler = true
  depth : compiled.root.operations.length ≤ s.depth
  gates : compiled.NeedsNoGate
  descends : s.Descends compiled

namespace Tame

variable {s t : Session} {compiled : Compiled}

theorem sited (h : s.Tame compiled) : s.Sited := h.regular.sited

theorem later (h : s.Tame compiled) (ht : t.Reachable)
    (hdeeds : Deeds Action.IsRegular ([], s) ([], t)) (hfosters : s.Fosters t) :
    t.Tame compiled where
  reachable := ht
  regular := h.regular.deeds hdeeds
  hasScheduler := hfosters.steps.tasks.hasScheduler.trans h.hasScheduler
  depth := Nat.le_trans h.depth hfosters.steps.depth_le
  gates := h.gates
  descends := h.descends.later h.regular hdeeds hfosters

theorem tick (h : s.Tame compiled) : s.tick.Tame compiled :=
  h.later h.reachable.tick (tick_deeds h.sited) (tick_fosters h.sited)

theorem poll (h : s.Tame compiled) (call : Nat) : (s.poll call).Tame compiled :=
  h.later (h.reachable.after [.poll call]) (poll_moves [] h.sited call).deeds
    (poll_fosters h.sited call)

/-- An operation may be called that never comes back. -/
theorem invoke (h : s.Tame compiled) {n : Nat} {path : String} {o : Operation}
    (hget : s.compiled[n]? = some compiled) (hat : compiled.root.operationAt? path = some o)
    (hnever : o.NeverReturns compiled.root) (request : Request) :
    (s.invoke o request).2.Tame compiled := by
  have ho := Node.operationAt?_mem hat
  obtain rfl : o.site.tree = n := (h.regular.orderly.trees _ _ hget).2 o ho
  have hdeeds := invoke_deeds (x := ([], s)) hget ho request
  have hsteps := Deeds.steps hdeeds h.sited
  have hinvoked := h.regular.deeds hdeeds
  have hperform : s.perform (.invoke o.site.tree path request) = (s.invoke o request).2 := by
    obtain ⟨state, hstate, rfl⟩ :=
      Option.map_eq_some_iff.mp ((List.getElem?_map ..).symm.trans hget)
    rw [perform, operationAt?, hstate, Option.bind_some, hat]
  refine ⟨hperform ▸ h.reachable.after [.invoke o.site.tree path request], hinvoked,
    hsteps.tasks.hasScheduler.trans h.hasScheduler, Nat.le_trans h.depth hsteps.depth_le, h.gates,
    fun call hlt => ?_⟩
  by_cases hold : call < s.calls.length
  · obtain ⟨_, o', hhas, hnever'⟩ := h.descends call hold
    exact ⟨hinvoked, o', hhas.stays hdeeds hinvoked, hnever'⟩
  · have hmem := ((invoke_invokes s o request).mem_iff call).mpr ⟨Nat.le_of_not_lt hold, hlt⟩
    have hcall := (List.mem_singleton.mp hmem).symm
    exact ⟨hinvoked, o, .of_invoke h.regular hget ho hcall (i := 0) .refl, hnever⟩

/-- A tick ends all calls. -/
theorem tick_ends (h : s.Tame compiled) {call : Nat} (hlt : call < s.calls.length) :
    (s.tick.outcomeOf call).isSome = true := by
  obtain ⟨_, o, hhas, hnever⟩ := h.descends call hlt
  have hn : compiled.root.operations.length < 4 * (s.depth + 1) := by
    have := h.depth
    omega
  refine (h.reachable.tick_ends h.hasScheduler hlt hn).resolve_right fun hheld => ?_
  have htick := tick_deeds h.sited
  have hlater := (hhas.stays htick (h.regular.deeds htick)).lt_of_isHeldUp hnever h.gates hheld
  exact absurd hlater (Nat.not_lt.mpr (Operation.ncard_le_length hhas.mem))

/-- Whoever waits for a call gets its outcome. -/
theorem await (h : s.Tame compiled) {future : Future}
    (hlt : ∀ call, future = .call call → call < s.calls.length) :
    ((s.await future).1).isSome = true ∧ ((s.await future).2).Tame compiled := by
  rw [Session.await, waitFor]
  cases future with
  | settled => exact ⟨rfl, h⟩
  | call call =>
    have hpolled := h.poll call
    dsimp only [pollFuture, result]
    split
    · exact ⟨rfl, hpolled⟩
    · have hlt' := (poll_fosters h.sited call).lt (hlt call rfl)
      have hpoll := (poll_steps hpolled.tick.sited call).steps
      exact ⟨hpoll.continues.ended (hpolled.tick_ends hlt'), hpolled.tick.poll call⟩

end Tame

end Session
end OperationTree
