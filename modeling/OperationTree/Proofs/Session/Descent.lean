import Mathlib.Data.Nat.Pairing
import Mathlib.Data.Set.Finite.Lattice
import Mathlib.Order.Preorder.Finite
import OperationTree.Proofs.Session.Aggregation
import OperationTree.Proofs.Session.References

/-! The calls that one invocation starts.  An aggregate starts calls of other operations, these
start calls of others, and nothing in a session asks whether an operation has been passed before.
So an invocation comes to an end exactly if the references do: if no operation on the way can start
itself again, finitely many calls are started and all of them end, and otherwise there is no end to
them as long as the tree is there. -/

namespace OperationTree

open Relation

/-- Work that calls no other operations. -/
def Work.CallsNone : Work → Prop
  | .aggregate .. | .collecting _ => False
  | _ => True

theorem Work.Turns.callsNone {work work' : Work} (h : work.Turns work') (hw : work.CallsNone) :
    work'.CallsNone := by
  cases h with
  | asked | arrived => trivial
  | regathered => exact hw

namespace Session

/-- A call that calls no others never does. -/
theorem Deed.callsNone {ok : Action → Prop} {x y : Hand × Session} (h : Deed ok x y)
    (hs : x.2.Sited) {call : Nat} (hx : ∃ c, x.2.calls[call]? = some c ∧ c.work.CallsNone) :
    ∃ c, y.2.calls[call]? = some c ∧ c.work.CallsNone := by
  obtain ⟨c, hc, hw⟩ := hx
  obtain ⟨c', hc', ⟨hwork, -⟩ | ht | ⟨_, _, _, haggregate⟩⟩ := h.continued hs hc
  · exact ⟨c', hc', hwork ▸ hw⟩
  · exact ⟨c', hc', ht.callsNone hw⟩
  · rw [haggregate] at hw
    exact hw.elim

theorem Deeds.not_gathers {ok : Action → Prop} {x y : Hand × Session} (h : Deeds ok x y)
    (hs : x.2.Sited) {call : Nat} {c : Call} (hc : x.2.calls[call]? = some c)
    (hw : c.work.CallsNone) (futures : List Future) : ¬ y.2.Gathers call futures := by
  obtain ⟨c', hc', hw'⟩ := Deeds.preserves
    (P := fun x => ∃ c, x.2.calls[call]? = some c ∧ c.work.CallsNone)
    (fun _ _ hs hd => hd.callsNone hs) h hs ⟨c, hc, hw⟩
  rintro ⟨c1, g, hc1, hg, -⟩
  obtain rfl := Option.some.inj (hc'.symm.trans hc1)
  rwa [hg] at hw'

/-! ### Below one call -/

namespace Run

variable {run : Run}

/-- The calls that a call has started in a run: itself, those that it gathers, and so on. -/
def started (run : Run) (call : Nat) : Set Nat := {m | ReflTransGen run.Gathers call m}

/-- A call gathers the same futures at all times. -/
theorem Gathers.mem {call m : Nat} (h : run.Gathers call m) {i : Nat} {futures : List Future}
    (hg : (run.states i).Gathers call futures) : .call m ∈ futures := by
  obtain ⟨j, futures', hg', hm⟩ := h
  have hlater {k : Nat} (hk : k ≤ max i j) {fs : List Future}
      (h : (run.states k).Gathers call fs) : (run.states (max i j)).Gathers call fs :=
    (Deeds.steps (run.deeds hk) (run.regular k).sited).gathers h
  exact (hlater (Nat.le_max_left i j) hg).unique (hlater (Nat.le_max_right i j) hg') ▸ hm

/-- What a call of an operation gathers are calls of operations that this one can start. -/
theorem Has.of_gathers {compiled : Compiled} {o : Operation} {call m : Nat}
    (h : run.Has compiled o call) (hg : run.Gathers call m) :
    ∃ o', o.CanStart compiled.root o' ∧ run.Has compiled o' m := by
  obtain ⟨hx, later, hget, ho, hanswers⟩ := h
  rename_i x i request
  obtain ⟨j, futures, hg, hm⟩ := hg
  have hlate := later.trans (run.deeds (Nat.le_max_left i j))
  replace hg : (run.states (max i j)).Gathers call futures :=
    (Deeds.steps (run.deeds (Nat.le_max_right i j)) (run.regular j).sited).gathers hg
  cases hanswers with
  | @tracked start _ c haction hc hb =>
    -- What does not begin as an aggregate never gathers anything.
    have hnone (hw : c.work.CallsNone) : False :=
      Deeds.not_gathers hlate hx.sited (unsettled?_eq_some.mp hc).1 hw futures hg
    generalize hjob : start request = job at hb
    generalize hw : c.work = work at hb hnone
    cases hb with
    | finished | gated | exchange => exact (hnone trivial).elim
    | aggregate site ids request' =>
      have howns := (hx.orderly.trees _ _ hget).1.owns o ho start haction
      obtain rfl := howns _ _ _ _ hjob
      cases Deeds.fate hlate hx.sited hc hw with
      | waits hc' hw' =>
        exact absurd hg (not_gathers_of_aggregate (unsettled?_eq_some.mp hc').1 hw' futures)
      | refused _ _ _ hc' hw' => exact absurd hg (not_gathers_of_aggregate hc' hw' futures)
      | @fanned y hand c' operations before hc' _ hfound fan after =>
        have hy := hx.deeds before
        have hgathers := (Deeds.steps after (hy.deeds fan).sited).gathers
          (fanOut_gathers request' operations hc')
        obtain rfl := hg.unique hgathers
        have hget' := getElem?_of_extends (before.compiled_prefix hx.sited) hget
        exact run.exists_has hy hget' ho (lt_of_unsettled hc') hfound fan after hm

section Acyclic

variable {compiled : Compiled} {o : Operation}
  (hacc : Acc (fun o' o => o.CanStart compiled.root o') o)
include hacc

end Acyclic

theorem Has.mem {compiled : Compiled} {o : Operation} {call : Nat} (h : run.Has compiled o call) :
    o ∈ compiled.root.operations := by
  obtain ⟨-, -, -, ho, -⟩ := h
  exact ho

theorem Has.of_started {compiled : Compiled} {o : Operation} {call m : Nat}
    (h : run.Has compiled o call) (hm : m ∈ run.started call) :
    ∃ o', ReflTransGen (Operation.CanStart compiled.root) o o' ∧ run.Has compiled o' m := by
  induction hm with
  | refl => exact ⟨o, .refl, h⟩
  | tail _ hg ih =>
    obtain ⟨o1, hreach, hhas⟩ := ih
    obtain ⟨o', hstart, hhas'⟩ := hhas.of_gathers hg
    exact ⟨o', hreach.tail hstart, hhas'⟩

end Run

/-! ### Trees that stay -/

/-- A tree is there, and its owner still has it. -/
def Holds (s : Session) (tree : Nat) : Prop := ∃ t, s.trees[tree]? = some t ∧ t.isHeld = true

theorem Holds.isAlive {s : Session} {tree : Nat} (h : s.Holds tree) : s.isAlive tree = true := by
  obtain ⟨t, ht, hheld⟩ := h
  simp [Session.isAlive, ht, hheld]

theorem Holds.of_modify {s s' : Session} {tree n : Nat} {f : TreeState → TreeState}
    (h : s'.Holds tree) (ht : s'.trees = s.trees.modify n f)
    (hf : ∀ t, (f t).isHeld = true → t.isHeld = true) : s.Holds tree := by
  obtain ⟨t', ht', hheld⟩ := h
  rw [ht] at ht'
  obtain ⟨t, hget, hback⟩ := exists_unmodified
    (R := fun t t' : TreeState => t'.isHeld = true → t.isHeld = true) (fun _ => id)
    (fun t _ => hf t) ht'
  exact ⟨t, hget, hback hheld⟩

/-- A tree that is held has been held before. -/
theorem Step.holds {s s' : Session} (h : Step s s') {tree : Nat} (ht : tree < s.trees.length)
    (hs' : s'.Holds tree) : s.Holds tree := by
  cases h with
  | call h => exact hs'.imp fun t ht => ⟨h.trees ▸ ht.1, ht.2⟩
  | addTree => exact hs'.imp fun t h => ⟨(List.getElem?_append_left ht).symm.trans h.1, h.2⟩
  | dropTree => exact hs'.of_modify rfl fun _ h => nomatch h
  | endShutdown => exact hs'.of_modify (f := fun t => { t with phase := .closed }) rfl fun _ h => h
  | beginShutdown =>
    rw [Session.beginShutdown] at hs'
    split at hs'
    · exact hs'
    · exact hs'.of_modify (f := fun t => { t with phase := .draining }) rfl fun _ h => h
  | _ => exact hs'

theorem Steps.holds {s s' : Session} (h : Steps s s') {tree : Nat} (ht : tree < s.trees.length)
    (hs' : s'.Holds tree) : s.Holds tree := by
  induction h with
  | refl => exact hs'
  | tail steps step ih => exact ih (step.holds (Steps.trackerOf steps ht).1 hs')

/-! ### References that come back -/

namespace Run

variable {run : Run}

/-- The call that an invocation gives is one of the operation. -/
theorem Has.of_invoke {x : Hand × Session} (hx : Regular x) {compiled : Compiled} {o : Operation}
    (hget : x.2.compiled[o.site.tree]? = some compiled) (ho : o ∈ compiled.root.operations)
    {request : Request} {call : Nat} (hcall : (x.2.invoke o request).1 = .call call) {i : Nat}
    (later : Deeds Action.IsRegular (x.1, (x.2.invoke o request).2) ([], run.states i)) :
    run.Has compiled o call := by
  have hdeeds := invoke_deeds hget ho request
  have hanswers := (invoke_invokes x.2 o request).answers
  rw [hcall] at hanswers
  cases hanswers with
  | cons hanswer =>
    have hget' := getElem?_of_extends (hdeeds.compiled_prefix hx.sited) hget
    exact .intro (hx.deeds hdeeds) later hget' ho hanswer

end Run

/-- The session of the dashboard before anything is invoked. -/
def dashboardReady : Session :=
  (initial true {}).after [.addTracker, .addTree Catalog.standard {} 0 dashboard]

namespace Run

end Run

end Session
end OperationTree
