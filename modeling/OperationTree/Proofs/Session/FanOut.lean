import Mathlib.Data.List.Forall2
import OperationTree.Proofs.Session.CallStep

/-! Starting calls, one or several at once.  An aggregate calls all the operations that it has
found, in their order and with one request, before anything else is done: `invokeAll_invokes` says
which calls that makes, and `fanOut_answers` that they are there when the aggregate begins to gather
them. -/

namespace OperationTree

theorem exists_of_forall₂ {α β : Type} {R : α → β → Prop} {xs : List α} {ys : List β}
    (h : List.Forall₂ R xs ys) {y : β} (hy : y ∈ ys) : ∃ x ∈ xs, R x y := by
  obtain ⟨i, hi, rfl⟩ := List.mem_iff_getElem.mp hy
  have hlt : i < xs.length := h.length_eq ▸ hi
  exact ⟨xs[i], List.getElem_mem hlt, h.get hlt hi⟩

/-- A job that has become the work of a call. -/
inductive Job.Begins : Job → Work → Prop
  | finished (outcome : Outcome) : Begins (.finished outcome) (.ready outcome)
  | gated (gate : Nat) : Begins .gated (.gate gate)
  | exchange (e : Exchange) : Begins (.exchange e) (.exchange e)
  | aggregate (site : Site) (ids : List String) (request : Request) :
    Begins (.aggregate site ids request) (.aggregate site ids request)

def Future.number? : Future → Option Nat
  | .settled _ => none
  | .call number => some number

/-- A call without those who gather it. -/
def Call.bare (c : Call) : Call := { c with waiters := [] }

section Bare

variable {c c' : Call} (h : c'.bare = c.bare)
include h

theorem Call.tracker_of_bare : c'.tracker = c.tracker :=
  (congrArg Call.tracker h : c'.bare.tracker = c.bare.tracker)

theorem Call.work_of_bare : c'.work = c.work :=
  (congrArg Call.work h : c'.bare.work = c.bare.work)

theorem Call.outcome_of_bare : c'.outcome = c.outcome :=
  (congrArg Call.outcome h : c'.bare.outcome = c.bare.outcome)

end Bare

namespace Session

/-- The call that is made of a job. -/
def begun (s : Session) (tracker : Nat) (job : Job) : Call where
  tracker
  id := (s.tracker tracker).lastId + 1
  work := (s.workOf job).1

/-- Starting a job puts its call behind the calls that are there. -/
structure Starts (s : Session) (tracker : Nat) (job : Job) (s' : Session) : Prop where
  calls : s'.calls = s.calls ++ [s.begun tracker job]
  trees : s'.trees = s.trees
  resolved : s'.resolved = s.resolved

theorem start_starts (s : Session) (tracker : Nat) (job : Job) :
    s.Starts tracker job (s.start tracker job).2 := by
  simp only [start, track]
  split <;> cases job <;> exact ⟨rfl, rfl, rfl⟩

theorem start_number (s : Session) (tracker : Nat) (job : Job) :
    (s.start tracker job).1 = s.calls.length := by
  cases job <;> rfl

theorem begun_begins (s : Session) (tracker : Nat) (job : Job) :
    job.Begins (s.begun tracker job).work := by
  cases job <;> constructor

/-- What a caller keeps of an operation called with a request: the error of a missing module, or a
call that has the operation's job and has not ended. -/
inductive Answers (s : Session) (request : Request) (o : Operation) : Future → Prop
  | unavailable {module : Option String} (ho : o.action = .unavailable module) :
    Answers s request o (.settled (.error (.moduleUnavailable module)))
  | tracked {start : Request → Job} {k : Nat} {c : Call} (ho : o.action = .tracked start)
    (hc : s.unsettled? k = some c) (hb : (start request).Begins c.work)
    (ht : c.tracker = s.trackerOf o.site.tree) : Answers s request o (.call k)

theorem trackerOf_congr {s s' : Session} (ht : s'.trees = s.trees) (tree : Nat) :
    s'.trackerOf tree = s.trackerOf tree := by
  rw [trackerOf, trackerOf, ht]

theorem Answers.of_extends {s s' : Session} {request : Request} {o : Operation} {future : Future}
    (h : s.Answers request o future) (hc : s.calls <+: s'.calls) (ht : s'.trees = s.trees) :
    s'.Answers request o future := by
  cases h with
  | unavailable ho => exact .unavailable ho
  | tracked ho hopen hb htracker =>
    exact .tracked ho (unsettled?_of_extends hc hopen) hb
      (htracker.trans (trackerOf_congr ht _).symm)

/-- Operations that have been called with a request, one after the other.  The new calls are those
of the futures, in that order, and there are no others. -/
structure Invokes (s : Session) (request : Request) (operations : List Operation)
    (futures : List Future) (s' : Session) : Prop where
  calls : s.calls <+: s'.calls
  trees : s'.trees = s.trees
  resolved : s'.resolved = s.resolved
  answers : List.Forall₂ (s'.Answers request) operations futures
  numbers : futures.filterMap Future.number? =
    List.range' s.calls.length (s'.calls.length - s.calls.length)

theorem invoke_invokes (s : Session) (o : Operation) (request : Request) :
    s.Invokes request [o] [(s.invoke o request).1] (s.invoke o request).2 := by
  rw [invoke]
  split
  · next module ho =>
    exact ⟨List.prefix_rfl, rfl, rfl, .cons (.unavailable ho) .nil, by simp [Future.number?]⟩
  · next start ho =>
    have hstarts := start_starts s (s.trackerOf o.site.tree) (start request)
    have hopen : (s.start (s.trackerOf o.site.tree) (start request)).2.unsettled? s.calls.length =
        some (s.begun (s.trackerOf o.site.tree) (start request)) :=
      unsettled?_eq_some.mpr ⟨by simp [hstarts.calls], rfl⟩
    refine ⟨by rw [hstarts.calls]; exact List.prefix_append _ _, hstarts.trees, hstarts.resolved,
      .cons ?_ .nil, ?_⟩
    · dsimp only
      rw [start_number]
      exact .tracked ho hopen (begun_begins _ _ _) (trackerOf_congr hstarts.trees _).symm
    · simp [start_number, hstarts.calls, Future.number?]

namespace Invokes

variable {s s1 s2 : Session} {request : Request} {operations operations' : List Operation}
  {futures futures' : List Future}

theorem nil (s : Session) (request : Request) : s.Invokes request [] [] s :=
  ⟨List.prefix_rfl, rfl, rfl, .nil, by simp⟩

theorem append (h : s.Invokes request operations futures s1)
    (h' : s1.Invokes request operations' futures' s2) :
    s.Invokes request (operations ++ operations') (futures ++ futures') s2 where
  calls := h.calls.trans h'.calls
  trees := h'.trees.trans h.trees
  resolved := h'.resolved.trans h.resolved
  answers :=
    List.rel_append (h.answers.imp fun _ _ ha => ha.of_extends h'.calls h'.trees) h'.answers
  numbers := by
    have hle := h.calls.length_le
    have hle' := h'.calls.length_le
    have hsum : s2.calls.length - s.calls.length =
        (s1.calls.length - s.calls.length) + (s2.calls.length - s1.calls.length) := by omega
    rw [List.filterMap_append, h.numbers, h'.numbers, hsum, ← List.range'_append_1,
      Nat.add_sub_cancel' hle]

theorem mem_iff (h : s.Invokes request operations futures s1) (k : Nat) :
    .call k ∈ futures ↔ s.calls.length ≤ k ∧ k < s1.calls.length := by
  have hle := h.calls.length_le
  have hmem : .call k ∈ futures ↔ k ∈ futures.filterMap Future.number? := by
    rw [List.mem_filterMap]
    constructor
    · exact fun hk => ⟨.call k, hk, rfl⟩
    · rintro ⟨future, hf, hk⟩
      cases future with
      | settled => cases hk
      | call j => exact Option.some.inj hk ▸ hf
  rw [hmem, h.numbers, List.mem_range'_1]
  omega

/-- A call after the operations have been called is an old one, or that of one of them. -/
theorem origin (h : s.Invokes request operations futures s1) {n : Nat} {c : Call}
    (hc : s1.calls[n]? = some c) : s.calls[n]? = some c ∨
      s.calls.length ≤ n ∧ c.outcome = none ∧ ∃ o ∈ operations, ∃ start,
        o.action = .tracked start ∧ (start request).Begins c.work := by
  have hlt := (List.getElem?_eq_some_iff.mp hc).1
  by_cases hn : n < s.calls.length
  · obtain ⟨more, heq⟩ := h.calls
    rw [← heq, List.getElem?_append_left hn] at hc
    exact .inl hc
  · obtain ⟨o, ho, hanswer⟩ :=
      exists_of_forall₂ h.answers ((h.mem_iff n).mpr ⟨Nat.le_of_not_lt hn, hlt⟩)
    cases hanswer with
    | tracked haction hopen hb =>
      obtain ⟨hget, houtcome⟩ := unsettled?_eq_some.mp hopen
      obtain rfl := Option.some.inj (hget.symm.trans hc)
      exact .inr ⟨Nat.le_of_not_lt hn, houtcome, o, ho, _, haction, hb⟩

end Invokes

theorem invokeAll_invokes (s : Session) (request : Request) (operations : List Operation) :
    s.Invokes request operations (s.invokeAll request operations).1
      (s.invokeAll request operations).2 := by
  induction operations generalizing s with
  | nil => exact .nil s request
  | cons o rest ih => exact (invoke_invokes s o request).append (ih _)

/-! ### Gathering what has been called -/

/-- A call calls operations with a request and gathers their futures. -/
def fanOut (s : Session) (call : Nat) (request : Request) (operations : List Operation) :
    Session :=
  (s.invokeAll request operations).2.gather (.call call) (s.invokeAll request operations).1

/-- What `watch` changes of a session are the waiters of calls. -/
structure WatchedFrom (s s' : Session) : Prop where
  calls : s'.calls.map Call.bare = s.calls.map Call.bare
  trees : s'.trees = s.trees
  resolved : s'.resolved = s.resolved

theorem watch_watchedFrom (waiter : Waiter) (place : Nat) (s : Session) (futures : List Future) :
    s.WatchedFrom (watch waiter place s futures) := by
  induction futures generalizing place s with
  | nil => exact ⟨rfl, rfl, rfl⟩
  | cons future rest ih =>
    cases future with
    | settled => exact ih _ s
    | call number =>
      have hrest := ih (place + 1) (s.addWaiter number (waiter, place))
      have hbare : (s.addWaiter number (waiter, place)).calls.map Call.bare =
          s.calls.map Call.bare :=
        map_modify_eq (f := fun c => { c with waiters := c.waiters ++ [(waiter, place)] })
          (fun _ => rfl) s.calls number
      exact ⟨hrest.calls.trans hbare, hrest.trees, hrest.resolved⟩

theorem getElem?_of_bare {calls calls' : List Call}
    (h : calls'.map Call.bare = calls.map Call.bare) {n : Nat} {c : Call}
    (hc : calls[n]? = some c) : ∃ c', calls'[n]? = some c' ∧ c'.bare = c.bare := by
  have hget := congrArg (·[n]?) h
  simpa [hc] using hget

section FanOut

variable (s : Session) (call : Nat) (request : Request) (operations : List Operation)

theorem fanOut_watchedFrom :
    ((s.invokeAll request operations).2.setGathering
      { futures := (s.invokeAll request operations).1 } (.call call)).WatchedFrom
      (s.fanOut call request operations) :=
  watch_watchedFrom _ _ _ _

theorem fanOut_trees : (s.fanOut call request operations).trees = s.trees :=
  (fanOut_watchedFrom s call request operations).trees.trans
    (invokeAll_invokes s request operations).trees

theorem fanOut_resolved : (s.fanOut call request operations).resolved = s.resolved :=
  (fanOut_watchedFrom s call request operations).resolved.trans
    (invokeAll_invokes s request operations).resolved

theorem fanOut_length :
    (s.fanOut call request operations).calls.length =
      (s.invokeAll request operations).2.calls.length := by
  have hlen := congrArg List.length (fanOut_watchedFrom s call request operations).calls
  simpa [setGathering, setWork] using hlen

variable {s call}

/-- The call that has called operations gathers them. -/
theorem fanOut_self {c : Call} (hc : s.unsettled? call = some c) :
    ∃ c', (s.fanOut call request operations).unsettled? call = some c' ∧
      c'.work = .collecting { futures := (s.invokeAll request operations).1 } := by
  have hopen := unsettled?_of_extends (invokeAll_calls s request operations) hc
  obtain ⟨hget, houtcome⟩ := unsettled?_eq_some.mp hopen
  obtain ⟨c', hc', hbare⟩ := getElem?_of_bare (fanOut_watchedFrom s call request operations).calls
    (n := call)
    (c := { c with work := .collecting { futures := (s.invokeAll request operations).1 } })
    (by simp [setGathering, setWork, hget])
  exact ⟨c', unsettled?_eq_some.mpr ⟨hc', (Call.outcome_of_bare hbare).trans houtcome⟩,
    Call.work_of_bare hbare⟩

variable {request operations}

/-- Other calls are not changed by what a call gathers. -/
theorem fanOut_other {n : Nat} {c : Call} (hn : n ≠ call)
    (hc : (s.invokeAll request operations).2.calls[n]? = some c) :
    ∃ c', (s.fanOut call request operations).calls[n]? = some c' ∧ c'.bare = c.bare :=
  getElem?_of_bare (fanOut_watchedFrom s call request operations).calls
    (by simp [setGathering, setWork, hc, Ne.symm hn])

theorem fanOut_answers (hcall : call < s.calls.length) :
    List.Forall₂ ((s.fanOut call request operations).Answers request) operations
      (s.invokeAll request operations).1 := by
  have hinvokes := invokeAll_invokes s request operations
  obtain ⟨hlength, hanswers⟩ := List.forall₂_iff_zip.mp hinvokes.answers
  refine List.forall₂_iff_zip.mpr ⟨hlength, fun hmem => ?_⟩
  cases hanswers hmem with
  | unavailable ho => exact .unavailable ho
  | @tracked start k c ho hopen hb ht =>
    obtain ⟨hget, houtcome⟩ := unsettled?_eq_some.mp hopen
    obtain ⟨hle, -⟩ := (hinvokes.mem_iff k).mp (List.of_mem_zip hmem).2
    have hn : k ≠ call := by omega
    obtain ⟨c', hc', hbare⟩ := fanOut_other hn hget
    refine .tracked (c := c') ho ?_ ?_ ?_
    · exact unsettled?_eq_some.mpr ⟨hc', (Call.outcome_of_bare hbare).trans houtcome⟩
    · rwa [Call.work_of_bare hbare]
    · rw [Call.tracker_of_bare hbare, ht]
      exact (trackerOf_congr ((fanOut_trees ..).trans hinvokes.trees.symm) _).symm

end FanOut

end Session
end OperationTree
