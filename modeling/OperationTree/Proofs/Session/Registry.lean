import Mathlib.Data.List.Sort
import OperationTree.Proofs.Session.Deed
import OperationTree.Proofs.Session.Ledger

/-! What a registry shows in every session that can be reached: its ids ascend and are those of its
unsettled calls, the last id counts the calls that have been registered, and nothing but a call's
own end, or the end of the whole registry, takes its entry away. -/

namespace OperationTree.Session

def ledger (s : Session) : Ledger where
  trackers := s.trackers
  marks := s.calls.map Call.mark

theorem ledger_congr {s s' : Session} (hc : s'.calls = s.calls) (ht : s'.trackers = s.trackers) :
    s'.ledger = s.ledger := by
  rw [ledger, ledger, hc, ht]

/-- Changes of a call that do not concern its registry. -/
theorem ledger_modify {s s' : Session} {call : Nat} {f : Call → Call}
    (hc : s'.calls = s.calls.modify call f) (ht : s'.trackers = s.trackers)
    (hf : ∀ c, (f c).mark = c.mark) : s'.ledger = s.ledger := by
  rw [ledger, ledger, hc, ht, map_modify_eq hf]

theorem ledger_setGathering (s : Session) (g : Gathering) (waiter : Waiter) :
    (s.setGathering g waiter).ledger = s.ledger := by
  cases waiter with
  | call number =>
    exact ledger_modify (f := fun c => { c with work := .collecting g }) rfl rfl fun _ => rfl
  | drain | shutdown => rfl

theorem CallStep.ledger {s s' : Session} (h : CallStep s s') :
    s'.ledger = s.ledger ∨ s.ledger.Step s'.ledger := by
  cases h with
  | queue | spawn | openGate | keep => exact .inl rfl
  | @register tracker work ht =>
    obtain ⟨t, hget, hheld⟩ := isTracking_iff.mp ht
    have hlast : (s.tracker tracker).lastId = t.lastId := by simp [Session.tracker, hget]
    have hstep := Ledger.Step.register (l := s.ledger) hget hheld
    refine .inr ?_
    simpa [Session.ledger, Session.register, Call.mark, hlast] using hstep
  | addWaiter call waiter =>
    exact .inl (ledger_modify (f := fun c => { c with waiters := c.waiters ++ [waiter] }) rfl rfl
      fun _ => rfl)
  | regather | collect => exact .inl (ledger_setGathering s _ _)
  | @ask call c e =>
    exact .inl (ledger_modify
      (f := fun c => { c with work := .answered (e.perform s.outside).1 }) rfl rfl fun _ => rfl)
  | @finish call c outcome hc =>
    obtain ⟨hget, hopen⟩ := unsettled?_eq_some.mp hc
    have hstep := Ledger.Step.finish (l := s.ledger) (k := call) (m := c.mark)
      (by simp [Session.ledger, hget]) (by simp [Call.mark, hopen])
    refine .inr ?_
    simpa [Session.ledger, Session.finish, Call.mark, Mark.close, List.map_set] using hstep
  | release call =>
    exact .inl (ledger_modify (f := fun c => { c with isHeld := false }) rfl rfl fun _ => rfl)

/-- A step of a session is at most one step of its ledger. -/
theorem Step.ledger {s s' : Session} (h : Step s s') :
    s'.ledger = s.ledger ∨ s.ledger.Step s'.ledger := by
  cases h with
  | call h => exact h.ledger
  | spawn | change | settleGate | addTree | dropTree | addDrain | beginDrain | endDrain
  | addShutdown | dropShutdown | closeAll | endShutdown | endClosing => exact .inl rfl
  | @arrive call c outcome =>
    exact .inl
      (ledger_modify (f := fun c => { c with work := .ready outcome }) rfl rfl fun _ => rfl)
  | addTracker => exact .inr (.addTracker s.ledger)
  | @discardTracker tracker => exact .inr (.discard s.ledger tracker)
  | beginShutdown =>
    refine .inl (ledger_congr ?_ ?_) <;> (rw [Session.beginShutdown]; split <;> rfl)

theorem Attained.sound {s : Session} (h : s.Attained) : s.ledger.Sound :=
  h.invariant (P := fun s => s.ledger.Sound) (fun _ _ => Ledger.Sound.initial)
    fun _ _ _ step hsound => step.ledger.elim (fun heq => heq ▸ hsound) fun h => h.sound hsound

/-! ### What a registry shows -/

/-- The calls that have been registered in a tracker, in that order. -/
def registered (s : Session) (tracker : Nat) : List Call :=
  s.calls.filter fun c => c.tracker == tracker

/-- A tracker shows exactly its unsettled calls, in the order in which they were registered. -/
structure Shows (s : Session) (n : Nat) (t : Tracker) : Prop where
  lastId : t.lastId = (s.registered n).length
  numbered : (s.registered n).map Call.id = List.range' 1 t.lastId
  ascending : t.ids.Pairwise (· < ·)
  mem_ids : ∀ i, i ∈ t.ids ↔ 1 ≤ i ∧ ∃ c, (s.registered n)[i - 1]? = some c ∧ c.outcome = none
  size : t.size = t.ids.length

/-- What may become of a tracker `t` of `s` that is `t'` in `s'`. -/
structure Outlasts (s s' : Session) (n : Nat) (t t' : Tracker) : Prop where
  lastId : t.lastId ≤ t'.lastId
  /-- An id that has left does not return. -/
  gone : ∀ i, i ≤ t.lastId → i ∉ t.ids → i ∉ t'.ids
  /-- Only the end of a call takes its own entry away. -/
  stays : ∀ i call, (i, call) ∈ t.entries → s'.outcomeOf call = none → (i, call) ∈ t'.entries
  /-- Calls of other trackers change nothing. -/
  own : (s'.registered n).map (·.outcome.isNone) = (s.registered n).map (·.outcome.isNone) → t' = t

theorem registered_ids (s : Session) (n : Nat) :
    (s.registered n).map Call.id = s.ledger.ids n := by
  rw [registered, Ledger.ids, ledger, List.map_map, List.filter_map, List.map_map]
  rfl

theorem getElem?_marks {s : Session} {k n i : Nat} :
    s.ledger.marks[k]? = some ⟨n, i, true⟩ ↔
      ∃ c, s.calls[k]? = some c ∧ c.tracker = n ∧ c.id = i ∧ c.outcome = none := by
  simp [ledger, Call.mark]

theorem registered_id {s : Session} {n last j : Nat} {c : Call}
    (hnum : (s.registered n).map Call.id = List.range' 1 last)
    (hj : (s.registered n)[j]? = some c) : c.id = j + 1 := by
  have hlt : j < last := by
    have hlen := congrArg List.length hnum
    have := (List.getElem?_eq_some_iff.mp hj).1
    simp only [List.length_map, List.length_range'] at hlen
    omega
  have hget := congrArg (·[j]?) hnum
  simp only [List.getElem?_map, hj, Option.map_some, List.getElem?_range' hlt,
    Option.some.injEq] at hget
  omega

theorem shows_of_sound {s : Session} (hs : s.ledger.Sound) {n : Nat} {t : Tracker}
    (ht : s.trackers[n]? = some t) (hheld : t.isHeld = true) : s.Shows n t := by
  have hnum := (registered_ids s n).trans (hs.numbered n t ht)
  refine ⟨?_, hnum, hs.ascending t (List.mem_of_getElem? ht), fun i => ?_, ?_⟩
  · simpa using (congrArg List.length hnum).symm
  · rw [Tracker.ids, List.mem_map]
    constructor
    · rintro ⟨⟨i, k⟩, hmem, rfl⟩
      obtain ⟨c, hc, hcn, rfl, hopen⟩ := getElem?_marks.mp ((hs.held n t ht hheld i k).mp hmem)
      have hreg : c ∈ s.registered n :=
        List.mem_filter.mpr ⟨List.mem_of_getElem? hc, by simpa using hcn⟩
      obtain ⟨j, hj⟩ := List.mem_iff_getElem?.mp hreg
      have hid := registered_id hnum hj
      exact ⟨by omega, c, by simpa [hid] using hj, hopen⟩
    · rintro ⟨hpos, c, hc, hopen⟩
      have hid := registered_id hnum hc
      obtain ⟨hmem, hcn⟩ := List.mem_filter.mp (List.mem_of_getElem? hc)
      obtain ⟨k, hk⟩ := List.mem_iff_getElem?.mp hmem
      refine ⟨(i, k), (hs.held n t ht hheld i k).mpr (getElem?_marks.mpr ?_), rfl⟩
      exact ⟨c, hk, by simpa using hcn, by omega, hopen⟩
  · rw [Tracker.size, Tracker.ids, List.length_map]

section Outlasts

variable {s s' : Session} (hs : s.ledger.Sound) (hs' : s'.ledger.Sound)
  (hcalls : s.CallsContinue s') {n : Nat} {t t' : Tracker} (ht : s.trackers[n]? = some t)
  (hheld : t.isHeld = true) (ht' : s'.trackers[n]? = some t') (hheld' : t'.isHeld = true)

include hs hcalls ht in
/-- A call with an id that is old is one of the old calls. -/
theorem call_of_id {i : Nat} (hpos : 1 ≤ i) (hi : i ≤ t.lastId) :
    ∃ (k : Nat) (c c' : Call), s.calls[k]? = some c ∧ s'.calls[k]? = some c' ∧ c.Continues c' ∧
      c.tracker = n ∧ c.id = i := by
  have hmem : i ∈ s.ledger.ids n := by
    rw [hs.numbered n t ht, List.mem_range'_1]
    omega
  obtain ⟨m, hm, hplace⟩ := List.mem_map.mp (Ledger.mem_ids.mp hmem)
  obtain ⟨c, hc, rfl⟩ := List.mem_map.mp hm
  obtain ⟨k, hk⟩ := List.mem_iff_getElem?.mp hc
  obtain ⟨c', hk', hcc⟩ := hcalls k c hk
  exact ⟨k, c, c', hk, hk', hcc, congrArg Prod.fst hplace, congrArg Prod.snd hplace⟩

include hs hs' hcalls ht hheld ht' hheld' in
/-- An entry that the later tracker has under an old id is an old entry. -/
theorem entry_of_later {i k : Nat} (hi : i ≤ t.lastId) (hmem : (i, k) ∈ t'.entries) :
    (i, k) ∈ t.entries := by
  obtain ⟨hpos, -⟩ := hs'.entry_id_le ht' hheld' (List.mem_map_of_mem (f := Prod.fst) hmem)
  obtain ⟨j, c, c', hj, hj', hcc, hcn, hci⟩ := call_of_id hs hcalls ht hpos hi
  have hmark := (hs'.held n t' ht' hheld' i k).mp hmem
  obtain rfl : j = k :=
    hs'.unique (m := c'.mark) (by simp [ledger, hj']) hmark
      (by simp [Mark.place, Call.mark, hcc.tracker, hcc.id, hcn, hci])
  obtain ⟨d, hd, -, -, hopen⟩ := getElem?_marks.mp hmark
  obtain rfl := Option.some.inj (hj'.symm.trans hd)
  refine (hs.held n t ht hheld i j).mpr (getElem?_marks.mpr ⟨c, hj, hcn, hci, ?_⟩)
  cases ho : c.outcome with
  | none => rfl
  | some outcome =>
    rw [(hcc.ended outcome ho).1] at hopen
    cases hopen

include hs hs' hcalls ht hheld ht' hheld' in
theorem entry_stays {i k : Nat} (hmem : (i, k) ∈ t.entries) (ho : s'.outcomeOf k = none) :
    (i, k) ∈ t'.entries := by
  obtain ⟨c, hc, hn, hi, -⟩ := getElem?_marks.mp ((hs.held n t ht hheld i k).mp hmem)
  obtain ⟨c', hc', hcc⟩ := hcalls k c hc
  refine (hs'.held n t' ht' hheld' i k).mpr (getElem?_marks.mpr ⟨c', hc', ?_, ?_, ?_⟩)
  · exact hcc.tracker.trans hn
  · exact hcc.id.trans hi
  · simpa [Session.outcomeOf, hc'] using ho

include hs hs' hcalls ht ht' in
theorem lastId_le : t.lastId ≤ t'.lastId := by
  rcases Nat.eq_zero_or_pos t.lastId with hzero | hpos
  · omega
  · obtain ⟨k, c, c', -, hk', hcc, hcn, hci⟩ := call_of_id hs hcalls ht hpos (Nat.le_refl _)
    have hmark : s'.ledger.marks[k]? = some ⟨n, t.lastId, c'.outcome.isNone⟩ := by
      simp [ledger, Call.mark, hk', hcc.tracker, hcc.id, hcn, hci]
    exact (hs'.id_le ht' hmark).2

section Same

variable
  (hown : (s'.registered n).map (·.outcome.isNone) = (s.registered n).map (·.outcome.isNone))
include hs hs' ht hheld ht' hheld' hown

theorem lastId_eq : t'.lastId = t.lastId := by
  rw [(shows_of_sound hs ht hheld).lastId, (shows_of_sound hs' ht' hheld').lastId]
  simpa using congrArg List.length hown

theorem mem_ids_later {i : Nat} (hi : i ∈ t.ids) : i ∈ t'.ids := by
  obtain ⟨hpos, c, hc, hopen⟩ := ((shows_of_sound hs ht hheld).mem_ids i).mp hi
  have hget := congrArg (·[i - 1]?) hown
  simp only [List.getElem?_map, hc, Option.map_some, Option.map_eq_some_iff] at hget
  obtain ⟨c', hc', heq⟩ := hget
  refine ((shows_of_sound hs' ht' hheld').mem_ids i).mpr ⟨hpos, c', hc', ?_⟩
  simpa [hopen] using heq

include hcalls

theorem mem_entries_iff (entry : Nat × Nat) : entry ∈ t'.entries ↔ entry ∈ t.entries := by
  obtain ⟨i, k⟩ := entry
  constructor
  · intro hmem
    have hle := (hs'.entry_id_le ht' hheld' (List.mem_map_of_mem (f := Prod.fst) hmem)).2
    rw [lastId_eq hs hs' ht hheld ht' hheld' hown] at hle
    exact entry_of_later hs hs' hcalls ht hheld ht' hheld' hle hmem
  · intro hmem
    have hi : i ∈ t.ids := List.mem_map_of_mem (f := Prod.fst) hmem
    -- The later tracker has an entry under the same id, which is this one.
    obtain ⟨⟨i', k'⟩, hmem', rfl⟩ :=
      List.mem_map.mp (mem_ids_later hs hs' ht hheld ht' hheld' hown hi)
    have hle := (hs.entry_id_le ht hheld hi).2
    have hback := entry_of_later hs hs' hcalls ht hheld ht' hheld' hle hmem'
    obtain rfl : k = k' := hs.unique ((hs.held n t ht hheld _ _).mp hmem)
      ((hs.held n t ht hheld _ _).mp hback) rfl
    exact hmem'

/-- A tracker is the same again if the same calls of its own are open. -/
theorem tracker_eq : t' = t := by
  have hasc : ∀ {t : Tracker}, t.ids.Pairwise (· < ·) →
      t.entries.Pairwise fun a b => a.1 < b.1 := List.pairwise_map.mp
  have hsorted := hasc (hs.ascending t (List.mem_of_getElem? ht))
  have hsorted' := hasc (hs'.ascending t' (List.mem_of_getElem? ht'))
  have : Std.Irrefl fun a b : Nat × Nat => a.1 < b.1 := ⟨fun _ => Nat.lt_irrefl _⟩
  have : Std.Antisymm fun a b : Nat × Nat => a.1 < b.1 :=
    ⟨fun _ _ h h' => absurd h (Nat.lt_asymm h')⟩
  have hentries : t'.entries = t.entries :=
    hsorted'.eq_of_mem_iff hsorted (mem_entries_iff hs hs' hcalls ht hheld ht' hheld' hown)
  have hlast := lastId_eq hs hs' ht hheld ht' hheld' hown
  obtain ⟨_, _, _⟩ := t
  obtain ⟨_, _, _⟩ := t'
  rw [Tracker.mk.injEq]
  exact ⟨hlast, hentries, hheld'.trans hheld.symm⟩

end Same

include hs hs' hcalls ht hheld ht' hheld' in
theorem outlasts_of_sound : s.Outlasts s' n t t' where
  lastId := lastId_le hs hs' hcalls ht ht'
  gone i hi hgone hmem := by
    obtain ⟨entry, hentry, rfl⟩ := List.mem_map.mp hmem
    have hold := entry_of_later hs hs' hcalls ht hheld ht' hheld' hi hentry
    exact hgone (List.mem_map_of_mem hold)
  stays _ _ := entry_stays hs hs' hcalls ht hheld ht' hheld'
  own := tracker_eq hs hs' hcalls ht hheld ht' hheld'

end Outlasts

/-! ### Registering and ending one call -/

/-- A call that is started is the last that has been registered, and open. -/
theorem start_registered (s : Session) (n : Nat) (job : Job) :
    ∃ c, (s.start n job).2.registered n = s.registered n ++ [c] ∧ c.outcome = none := by
  have hwork : (s.workOf job).2.calls = s.calls := by cases job <;> rfl
  refine ⟨⟨n, ((s.workOf job).2.tracker n).lastId + 1, (s.workOf job).1, none, true, []⟩, ?_, rfl⟩
  simp only [start, track]
  split <;> simp [registered, spawn, register, hwork]

/-- The outcome with which a call ends as soon as it is polled, unless that depends on others. -/
def immediate? (s : Session) (c : Call) : Option Outcome :=
  match c.work with
  | .ready outcome => some outcome
  | .gate gate => s.gateOutcome gate
  | .exchange e => e.refusal?.map .error
  | .answered _ | .aggregate .. | .collecting _ => none

theorem settle_outcomeOf {s : Session} {call : Nat} {c : Call} (outcome : Outcome)
    (hc : s.unsettled? call = some c) : (s.settle call outcome).outcomeOf call = some outcome := by
  obtain ⟨hget, -⟩ := unsettled?_eq_some.mp hc
  rw [settle, hc]
  refine (wake_steps _ _).undisturbed.calls.outcomeOf ?_
  simp [finish, outcomeOf, (List.getElem?_eq_some_iff.mp hget).1]

theorem advance_immediate {s : Session} {c : Call} {outcome : Outcome}
    (ho : s.immediate? c = some outcome) (pollCall : Session → Nat → Session) (call : Nat) :
    advance pollCall s call c.work = s.settle call outcome := by
  rw [immediate?] at ho
  split at ho
  · next hw => rw [hw, advance, Option.some.inj ho]
  · next hw => rw [hw, advance, ho]
  · next hw =>
    obtain ⟨fault, hfault, rfl⟩ := Option.map_eq_some_iff.mp ho
    rw [hw, advance, hfault]
  all_goals cases ho

theorem poll_immediate {s : Session} (hd : 1 ≤ s.depth) {call : Nat} {c : Call} {outcome : Outcome}
    (hc : s.unsettled? call = some c) (ho : s.immediate? c = some outcome) :
    (s.poll call).outcomeOf call = some outcome := by
  rw [poll_unsettled hd hc, advance_immediate ho, settle_outcomeOf outcome hc]

theorem await_immediate {s : Session} (hd : 1 ≤ s.depth) {call : Nat} {c : Call}
    {outcome : Outcome} (hc : s.unsettled? call = some c) (ho : s.immediate? c = some outcome) :
    (s.await (.call call)).1 = some outcome := by
  have hresult : (s.poll call).result (.call call) = some outcome := poll_immediate hd hc ho
  simp only [await, waitFor, pollFuture, hresult]

/-- In every session that can be reached a registry shows its last id and the ids of its unsettled
calls, and keeps doing so: registering adds one call, an id that has left stays away, an entry
leaves with its own call only, and other registries do not matter.  A call that can end does so when
it is polled or waited for, whether its registry is still there or not. -/
theorem Reachable.registry_exact {s : Session} (h : s.Reachable) :
    (∀ (n : Nat) (t : Tracker), s.trackers[n]? = some t → t.isHeld = true →
      s.Shows n t ∧
      (∀ job, ∃ c, (s.perform (.start n job)).registered n = s.registered n ++ [c] ∧
        c.outcome = none) ∧
      ∀ (actions : List Action) (t' : Tracker), (s.after actions).trackers[n]? = some t' →
        t'.isHeld = true → s.Outlasts (s.after actions) n t t') ∧
    ∀ (call : Nat) (c : Call) (outcome : Outcome), s.unsettled? call = some c →
      s.immediate? c = some outcome →
      (s.perform (.poll call)).outcomeOf call = some outcome ∧
        (s.await (.call call)).1 = some outcome := by
  refine ⟨fun n t ht hheld => ⟨shows_of_sound h.attained.sound ht hheld, fun job => ?_, ?_⟩, ?_⟩
  · rw [perform, if_pos (isTracking_iff.mpr ⟨t, ht, hheld⟩)]
    exact start_registered s n job
  · intro actions t' ht' hheld'
    have hcalls := (after_steps h.attained.sited actions).continues
    have hlater := (h.after actions).attained.sound
    exact outlasts_of_sound h.attained.sound hlater hcalls ht hheld ht' hheld'
  · intro call c outcome hc ho
    exact ⟨poll_immediate h.attained.depth_pos hc ho, await_immediate h.attained.depth_pos hc ho⟩

/-- Two calls in a registry, of which the first has ended, and a call that can end in a registry
that is gone. -/
def twoRegistries : Session :=
  (initial true {}).after
    [.addTracker, .addTracker, .start 0 (.finished (.ok .null)), .start 0 .gated, .start 1 .gated,
      .poll 0, .discardTracker 1, .settleGate 1 (.ok .null)]

theorem registry_exact_twoRegistries :
    (∃ t, twoRegistries.trackers[0]? = some t ∧ t.ids = [2] ∧ t.lastId = 2 ∧
      twoRegistries.Shows 0 t) ∧
    twoRegistries.isTracking 1 = false ∧
    (twoRegistries.await (.call 2)).1 = some (.ok .null) := by
  have hs : twoRegistries.Reachable := ⟨true, {}, _, rfl⟩
  obtain ⟨htrackers, hcalls⟩ := Reachable.registry_exact hs
  have htracker : twoRegistries.trackers[0]?.map (fun t : Tracker => (t.isHeld, t.ids, t.lastId)) =
      some (true, [2], 2) := by decide +kernel
  obtain ⟨t, ht, heq⟩ := Option.map_eq_some_iff.mp htracker
  obtain ⟨hheld, hids, hlast⟩ := Prod.mk.inj heq |>.imp id Prod.mk.inj
  have hcall : (twoRegistries.unsettled? 2).bind twoRegistries.immediate? = some (.ok .null) := rfl
  obtain ⟨c, hc, ho⟩ := Option.bind_eq_some_iff.mp hcall
  exact ⟨⟨t, ht, hids, hlast, (htrackers 0 t ht hheld).1⟩, by decide +kernel,
    (hcalls 2 c _ hc ho).2⟩

end OperationTree.Session
