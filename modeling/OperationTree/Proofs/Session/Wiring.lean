import OperationTree.Proofs.Session.Deed
import OperationTree.Proofs.Session.Strand

/-! The wiring of a session.  The strands of its calls are wired whatever is done: no deed loses the
end of a call that is gathered. -/

namespace OperationTree

/-- The place of a call among those that are dealt with. -/
def Waiter.callPlace? : Waiter × Nat → Option (Nat × Nat)
  | (.call number, place) => some (number, place)
  | _ => none

def Work.gathering? : Work → Option Gathering
  | .collecting g => some g
  | _ => none

def Call.strand (c : Call) : Strand where
  gathering := c.work.gathering?
  outcome := c.outcome
  waiters := c.waiters.filterMap Waiter.callPlace?

namespace Session

open Strand Function

/-- What the wiring knows of a call; nothing, if there is no such call. -/
def strand (s : Session) (n : Nat) : Strand := s.calls[n]?.elim {} Call.strand

/-- The places of calls in a hand. -/
def Hand.places (hand : Hand) : List (Nat × Nat) := hand.filterMap Waiter.callPlace?

/-- The wiring of a session with some places in hand. -/
def Wired (x : Hand × Session) : Prop := Strand.Wired x.1.places x.2.strand

@[simp] theorem places_append (hand hand' : Hand) :
    Hand.places (hand ++ hand') = hand.places ++ hand'.places :=
  List.filterMap_append ..

@[simp] theorem places_call (hand : Hand) (a p : Nat) :
    Hand.places ((.call a, p) :: hand) = (a, p) :: hand.places :=
  rfl

/-! ### The strands of changed sessions -/

section Strands

variable {s s' : Session}

theorem strand_eq {n : Nat} {c : Call} (hc : s.calls[n]? = some c) : s.strand n = c.strand := by
  rw [strand, hc]
  rfl

theorem strand_congr (h : s'.calls = s.calls) : s'.strand = s.strand := by
  funext n
  rw [strand, strand, h]

theorem strand_append {c : Call} (h : s'.calls = s.calls ++ [c]) (hc : c.strand = {}) :
    s'.strand = s.strand := by
  funext n
  rw [strand, strand, h, List.getElem?_append]
  split
  · rfl
  · next hn =>
    rw [List.getElem?_singleton, List.getElem?_eq_none (Nat.le_of_not_lt hn)]
    split
    · exact hc
    · rfl

theorem strand_modify {k : Nat} {c : Call} {f : Call → Call}
    (hm : s'.calls = s.calls.modify k f) (hk : s.calls[k]? = some c) :
    s'.strand = update s.strand k (f c).strand := by
  funext n
  rw [strand, hm, List.getElem?_modify]
  by_cases hn : n = k
  · subst hn
    simp [hk]
  · rw [update_of_ne hn, strand]
    simp [Ne.symm hn]

theorem strand_modify_same {k : Nat} {f : Call → Call} (hm : s'.calls = s.calls.modify k f)
    (hf : ∀ c, s.calls[k]? = some c → (f c).strand = c.strand) : s'.strand = s.strand := by
  cases hk : s.calls[k]? with
  | none => exact strand_congr (hm.trans (List.modify_eq_self (List.getElem?_eq_none_iff.mp hk)))
  | some c => rw [strand_modify hm hk, hf c hk, ← strand_eq hk, update_eq_self]

/-- The work of a call that gathers nothing changes to other work of that kind. -/
theorem strand_setWork {k : Nat} {c : Call} {work : Work} (hc : s.unsettled? k = some c)
    (hm : s'.calls = s.calls.modify k fun c => { c with work })
    (hw : work.gathering? = c.work.gathering?) : s'.strand = s.strand := by
  refine strand_modify_same hm fun c' hc' => ?_
  obtain rfl := Option.some.inj ((unsettled?_eq_some.mp hc).1.symm.trans hc')
  simp [Call.strand, hw]

theorem gathering?_iff {a : Nat} {g : Gathering} :
    s.gathering? (.call a) = some g ↔
      (s.strand a).gathering = some g ∧ (s.strand a).outcome = none := by
  constructor
  · intro hg
    obtain ⟨c, hc, hw⟩ := gathering?_call hg
    obtain ⟨hget, hopen⟩ := unsettled?_eq_some.mp hc
    rw [strand_eq hget]
    exact ⟨by rw [Call.strand, hw]; rfl, hopen⟩
  · rintro ⟨hg, ho⟩
    cases hget : s.calls[a]? with
    | none =>
      rw [strand, hget] at hg
      cases hg
    | some c =>
      rw [strand_eq hget] at hg ho
      have hw : c.work = .collecting g := by
        cases hw : c.work with
        | collecting g' =>
          rw [Call.strand, hw] at hg
          rw [Option.some.inj hg]
        | _ =>
          rw [Call.strand, hw] at hg
          cases hg
      exact gathering?_eq_some (unsettled?_eq_some.mpr ⟨hget, ho⟩) hw

theorem strand_setGathering {a : Nat} {g g' : Gathering} (hg : s.gathering? (.call a) = some g) :
    (s.setGathering g' (.call a)).strand = regathered s.strand a g' := by
  obtain ⟨c, hc, -⟩ := gathering?_call hg
  have hget := (unsettled?_eq_some.mp hc).1
  rw [regathered, strand_eq hget]
  exact strand_modify (f := fun c => { c with work := .collecting g' }) rfl hget

theorem strand_finish {k : Nat} {c : Call} (hc : s.unsettled? k = some c) (outcome : Outcome) :
    (s.finish k c outcome).strand = ended s.strand k outcome := by
  have hget := (unsettled?_eq_some.mp hc).1
  funext n
  by_cases hn : n = k
  · subst hn
    rw [ended, update_self, strand_eq hget]
    refine strand_eq (c := { c with outcome := some outcome }) ?_
    simp [finish, (List.getElem?_eq_some_iff.mp hget).1]
  · rw [ended_of_ne _ _ _ _ hn, strand, strand]
    simp [finish, List.getElem?_set_ne (Ne.symm hn)]

theorem strand_result (future : Future) : Strand.result s.strand future = s.result future := by
  cases future with
  | settled => rfl
  | call k =>
    rw [Strand.result, Session.result, outcomeOf, strand]
    cases s.calls[k]? <;> rfl

theorem start_strand (tracker : Nat) (job : Job) : (s.start tracker job).2.strand = s.strand :=
  strand_append (start_starts s tracker job).calls (by cases job <;> rfl)

theorem invokeAll_strand (s : Session) (request : Request) (operations : List Operation) :
    (s.invokeAll request operations).2.strand = s.strand := by
  induction operations generalizing s with
  | nil => rfl
  | cons o rest ih =>
    refine (ih (s.invoke o request).2).trans ?_
    rw [invoke]
    split
    · rfl
    · exact start_strand _ _

end Strands

/-! ### Gathering -/

theorem addWaiter_strand {s : Session} {number : Nat} {c : Call} (hget : s.calls[number]? = some c)
    (a place : Nat) : (s.addWaiter number (.call a, place)).strand =
      update s.strand number { c.strand with waiters := c.strand.waiters ++ [(a, place)] } := by
  rw [strand_modify (f := fun c => { c with waiters := c.waiters ++ [(.call a, place)] }) rfl hget]
  simp [Call.strand, Waiter.callPlace?]

/-- The places of a call among futures that are counted from some place on. -/
theorem exists_place_cons {future : Future} {rest : List Future} {k place p : Nat} :
    (∃ i, p = place + i ∧ (future :: rest)[i]? = some (.call k)) ↔
      (p = place ∧ future = .call k) ∨ ∃ i, p = place + 1 + i ∧ rest[i]? = some (.call k) := by
  constructor
  · rintro ⟨i, rfl, hi⟩
    cases i with
    | zero => exact .inl ⟨rfl, by simpa using hi⟩
    | succ i => exact .inr ⟨i, by omega, by simpa using hi⟩
  · rintro (⟨rfl, rfl⟩ | ⟨i, rfl, hi⟩)
    · exact ⟨0, rfl, rfl⟩
    · exact ⟨i + 1, by omega, by simpa using hi⟩

/-- After a call has made itself known, only the waiters of the calls behind its futures differ. -/
theorem watch_strand (a place : Nat) (s : Session) (futures : List Future)
    (hf : ∀ k, .call k ∈ futures → k < s.calls.length) (k : Nat) :
    ((watch (.call a) place s futures).strand k).gathering = (s.strand k).gathering ∧
    ((watch (.call a) place s futures).strand k).outcome = (s.strand k).outcome ∧
    ∀ b p, (b, p) ∈ ((watch (.call a) place s futures).strand k).waiters ↔
      (b, p) ∈ (s.strand k).waiters ∨
        b = a ∧ ∃ i, p = place + i ∧ futures[i]? = some (.call k) := by
  induction futures generalizing place s with
  | nil => exact ⟨rfl, rfl, fun b p => by simp [watch]⟩
  | cons future rest ih =>
    have hrest : ∀ k, .call k ∈ rest → k < s.calls.length := fun k hk => hf k (by simp [hk])
    simp only [exists_place_cons]
    cases future with
    | settled outcome =>
      obtain ⟨hg, ho, hw⟩ := ih (place + 1) s hrest
      exact ⟨hg, ho, fun b p => (hw b p).trans (by simp)⟩
    | call number =>
      obtain ⟨c, hget⟩ : ∃ c, s.calls[number]? = some c :=
        ⟨_, List.getElem?_eq_getElem (hf number (by simp))⟩
      have hadd := addWaiter_strand hget a place
      obtain ⟨hg, ho, hw⟩ := ih (place + 1) (s.addWaiter number (.call a, place))
        (by simpa [addWaiter] using hrest)
      rw [watch, hg, ho]
      by_cases hk : k = number
      · subst hk
        rw [hadd, update_self, strand_eq hget]
        refine ⟨rfl, rfl, fun b p => (hw b p).trans ?_⟩
        rw [hadd, update_self, List.mem_append, List.mem_singleton, Prod.mk.injEq]
        simp only [and_true]
        rw [or_assoc, ← and_or_left]
      · rw [hadd, update_of_ne hk]
        refine ⟨rfl, rfl, fun b p => (hw b p).trans ?_⟩
        rw [hadd, update_of_ne hk]
        simp [Ne.symm hk]

theorem gather_wired {hand : Hand} {s : Session} {a : Nat} {c : Call} {futures : List Future}
    (h : Wired (hand, s)) (hc : s.unsettled? a = some c) (hw : c.work.gathering? = none)
    (hf : ∀ k, .call k ∈ futures → a < k ∧ k < s.calls.length) :
    Wired (hand, s.gather (.call a) futures) := by
  have hget := (unsettled?_eq_some.mp hc).1
  have hset : (s.setGathering { futures } (.call a)).strand =
      update s.strand a { s.strand a with gathering := some { futures } } := by
    rw [strand_eq hget]
    exact strand_modify (f := fun c => { c with work := .collecting { futures } }) rfl hget
  have hwatch := watch_strand a 0 (s.setGathering { futures } (.call a)) futures
    (by simpa [setGathering, setWork] using fun k hk => (hf k hk).2)
  have houtcome : ∀ k, ((s.setGathering { futures } (.call a)).strand k).outcome =
      (s.strand k).outcome := fun k => hset ▸ regathered_outcome s.strand a k { futures }
  have hwaiters : ∀ k, ((s.setGathering { futures } (.call a)).strand k).waiters =
      (s.strand k).waiters := fun k => hset ▸ regathered_waiters s.strand a k { futures }
  refine Strand.Wired.gather a futures h ?_ ?_ ?_ ?_ (fun k hk => (hf k hk).1) ?_
  · rw [strand_eq hget]
    exact hw
  · rw [gather, (hwatch a).1, hset, update_self]
  · intro b hb
    rw [gather, (hwatch b).1, hset, update_of_ne hb]
  · intro k
    rw [gather, (hwatch k).2.1, houtcome]
  · intro k b p
    rw [gather, (hwatch k).2.2, hwaiters]
    simp

/-! ### Every deed keeps the wiring -/

theorem Wired.congr {hand : Hand} {s s' : Session} (h : Wired (hand, s))
    (hs : s'.strand = s.strand) : Wired (hand, s') := by
  rw [Wired, hs]
  exact h

section Regather

variable {hand : Hand} {s : Session} {a place : Nat} {g : Gathering}
  (hg : s.gathering? (.call a) = some g)
include hg

theorem Wired.push (h : Wired ((.call a, place) :: hand, s)) (ha : g.accepts place = true) :
    Wired (hand, s.setGathering (g.push place) (.call a)) := by
  rw [Wired, strand_setGathering hg]
  obtain ⟨hgathering, -⟩ := gathering?_iff.mp hg
  obtain ⟨g0, hg0, hlt⟩ := h.held a place (by simp)
  obtain rfl := Option.some.inj (hgathering.symm.trans hg0)
  obtain ⟨hnodup, hbound⟩ := h.due a g hgathering
  refine Strand.Wired.regather h hgathering rfl ⟨?_, fun p hp => ?_⟩ (fun _ => .inl) ?_ ?_
  · refine List.nodup_append.mpr ⟨hnodup, by simp, ?_⟩
    rintro q hq _ hlast rfl
    exact (Gathering.accepts_iff.mp ha).1 (List.mem_singleton.mp hlast ▸ hq)
  · rcases List.mem_append.mp hp with hp | hp
    · exact hbound p hp
    · rwa [List.mem_singleton.mp hp]
  · exact fun b p hmem => .inl (List.mem_cons_of_mem _ hmem)
  · intro b p hp haccepts
    have hsplit : b = a → (g.accepts p = true ∧ p ≠ place) := fun hb =>
      Gathering.accepts_push.mp (haccepts hb)
    refine ⟨fun hmem => ?_, fun hb => (hsplit hb).1⟩
    rcases List.mem_cons.mp hmem with heq | hmem
    · obtain ⟨rfl, rfl⟩ := Prod.mk.inj heq
      exact (hsplit rfl).2 rfl
    · exact hp hmem

theorem Wired.pop (h : Wired (hand, s)) {due : List Nat} (hd : g.due = place :: due) :
    Wired ((.call a, place) :: hand, s.setGathering { g with due } (.call a)) := by
  rw [Wired, strand_setGathering hg]
  obtain ⟨hgathering, -⟩ := gathering?_iff.mp hg
  obtain ⟨hnodup, hbound⟩ := h.due a g hgathering
  rw [hd, List.nodup_cons] at hnodup
  rw [hd, List.forall_mem_cons] at hbound
  refine Strand.Wired.regather h hgathering rfl ⟨hnodup.2, hbound.2⟩ (fun _ => .inl) ?_ ?_
  · intro b p hmem
    rcases List.mem_cons.mp hmem with heq | hmem
    · obtain ⟨rfl, rfl⟩ := Prod.mk.inj heq
      exact .inr ⟨rfl, hbound.1⟩
    · exact .inl hmem
  · intro b p hp ha
    rw [places_call, List.mem_cons, not_or] at hp
    refine ⟨hp.2, fun hb => ?_⟩
    have hne : p ≠ place := fun heq => hp.1 (by rw [hb, heq])
    obtain ⟨hdue, htaken⟩ := Gathering.accepts_iff.mp (ha hb)
    refine Gathering.accepts_iff.mpr ⟨?_, htaken⟩
    rw [hd]
    exact List.not_mem_cons_of_ne_of_not_mem hne hdue

theorem Wired.take (h : Wired (hand, s))
    (hr : ∀ future, g.futures[place]? = some future → (s.result future).isSome = true) :
    Wired (hand, s.setGathering (g.take place) (.call a)) := by
  rw [Wired, strand_setGathering hg]
  obtain ⟨hgathering, -⟩ := gathering?_iff.mp hg
  refine Strand.Wired.regather h hgathering rfl (h.due a g hgathering) (fun p hp => ?_)
    (fun b p => .inl) fun b p hp ha => ⟨hp, fun hb => (Gathering.accepts_take.mp (ha hb)).1⟩
  rcases List.mem_cons.mp hp with rfl | hp
  · refine .inr fun future hf => ?_
    rw [strand_result]
    exact hr future hf
  · exact .inl hp

end Regather

theorem Nudge.wired {x y : Hand × Session} (h : Nudge x y) (hx : Wired x) : Wired y := by
  cases h with
  | queue => exact hx.congr (strand_congr rfl)
  | @heed hand s call c hc =>
    have hplaces : Hand.places c.waiters = (s.strand call).waiters := by
      rw [strand_eq hc]
      rfl
    refine Strand.Wired.heed hx (by simp) fun a p hmem => ?_
    rw [places_append, hplaces, List.mem_append] at hmem
    exact hmem.elim (hx.told call a p) (hx.held a p)
  | @push hand s waiter place g hg ha =>
    cases waiter with
    | call => exact hx.push hg ha
    | drain => exact hx.congr (strand_congr rfl)
    | shutdown => cases hg
  | @leave hand s waiter place hleave =>
    cases waiter with
    | call a =>
      refine Strand.Wired.leave (a := a) (p := place) hx fun g f hg ho hw ha hf => ?_
      rw [strand_result]
      exact hleave a g rfl (gathering?_iff.mpr ⟨hg, ho⟩) hw ha f hf
    | drain | shutdown => exact hx

theorem Move.wired {x y : Hand × Session} (h : Move x y) (hx : Wired x) : Wired y := by
  cases h with
  | nudge h => exact h.wired hx
  | @pop hand s waiter g place due hg hd =>
    cases waiter with
    | call => exact hx.pop hg hd
    | drain => exact hx.congr (strand_congr rfl)
    | shutdown => cases hg
  | @take hand s waiter g place hg hr =>
    cases waiter with
    | call => exact hx.take hg hr
    | drain => exact hx.congr (strand_congr rfl)
    | shutdown => cases hg
  | @invoke hand s o request ho =>
    rw [Wired, Session.invoke]
    split
    · exact hx
    · exact hx.congr (start_strand _ _)
  | keep => exact hx.congr (strand_congr rfl)
  | @fanOut hand s call c site ids request operations hc hw =>
    have hopen := unsettled?_of_extends (invokeAll_calls s request operations) hc
    refine gather_wired (hx.congr (invokeAll_strand s request operations)) hopen (by rw [hw]; rfl)
      fun k hk => ?_
    obtain ⟨hle, hlt⟩ := ((invokeAll_invokes s request operations).mem_iff k).mp hk
    exact ⟨Nat.lt_of_lt_of_le (lt_of_unsettled hc) hle, hlt⟩
  | ask _ hc hw =>
    exact hx.congr (strand_setWork hc rfl (by rw [hw]; rfl))
  | @finish hand s call c outcome hc =>
    have hplaces : Hand.places c.waiters = (s.strand call).waiters := by
      rw [strand_eq (unsettled?_eq_some.mp hc).1]
      rfl
    rw [Wired, strand_finish hc, places_append, hplaces]
    exact Strand.Wired.finish call hx outcome
  | release =>
    exact hx.congr
      (strand_modify_same (f := fun c => { c with isHeld := false }) rfl fun _ _ => rfl)

theorem Deed.wired {ok : Action → Prop} {x y : Hand × Session} (h : Deed ok x y)
    (hx : Wired x) : Wired y := by
  cases h with
  | move h => exact h.wired hx
  | arrive _ hc hw => exact hx.congr (strand_setWork hc rfl (by rw [hw]; rfl))
  | start => exact hx.congr (start_strand _ _)
  | addTree => exact hx.congr (strand_congr rfl)
  | watch hand s call drain place =>
    refine hx.congr (strand_modify_same
      (f := fun c => { c with waiters := c.waiters ++ [(.drain drain, place)] }) rfl fun c _ => ?_)
    simp [Call.strand, Waiter.callPlace?]
  | aside _ _ ha => exact hx.congr (strand_congr ha.calls)

end Session
end OperationTree
