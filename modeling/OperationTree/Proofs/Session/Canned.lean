import OperationTree.Proofs.Session.Evolution
import OperationTree.Proofs.Session.Regular
import OperationTree.Proofs.Session.Snapshot
import OperationTree.Proofs.Tree.Canned

/-! Calls of canned operations.  The response is the whole work of such a call from its start on, so
whatever is done to the session, nobody outside is asked for it and no other operation is called,
and the call ends with the response when it is polled for the first time. -/

namespace OperationTree.Session

theorem start_outside (s : Session) (tracker : Nat) (job : Job) :
    (s.start tracker job).2.outside = s.outside := by
  simp only [start, track]
  split <;> cases job <;> rfl

/-! ### Calls whose outcome is there -/

/-- A call that has its outcome as its work, and has not ended in any other way. -/
def IsReady (s : Session) (call : Nat) (outcome : Outcome) : Prop :=
  ∃ c, s.calls[call]? = some c ∧ c.work = .ready outcome ∧
    ∀ found, c.outcome = some found → found = outcome

theorem Deed.isReady {ok : Action → Prop} {x y : Hand × Session} (h : Deed ok x y)
    (hs : x.2.Sited) {call : Nat} {outcome : Outcome} (hx : x.2.IsReady call outcome) :
    y.2.IsReady call outcome := by
  obtain ⟨c, hc, hw, ho⟩ := hx
  obtain ⟨c', hc', ⟨hwork, hended⟩ | ht | ⟨_, _, _, haggregate⟩⟩ := h.continued hs hc
  · refine ⟨c', hc', hwork.trans hw, fun found hfound => ?_⟩
    rcases hended with hsame | ⟨found', hfound', hallows⟩
    · exact ho found (hsame ▸ hfound)
    · obtain rfl := Option.some.inj (hfound.symm.trans hfound')
      rwa [hw] at hallows
  · rw [hw] at ht
    nomatch ht
  · cases hw.symm.trans haggregate

theorem Deeds.isReady {ok : Action → Prop} {x y : Hand × Session} (h : Deeds ok x y)
    (hs : x.2.Sited) {call : Nat} {outcome : Outcome} (hx : x.2.IsReady call outcome) :
    y.2.IsReady call outcome :=
  Deeds.preserves (P := fun x => x.2.IsReady call outcome) (fun _ _ hs hd => hd.isReady hs) h hs hx

/-- A call that gives its value without help: it never has any other work than this value and never
ends with anything else.  Whoever waits for it gets the value with the first poll, and this poll
asks nobody outside and starts no call. -/
structure GivesAlone (s : Session) (call : Nat) (value : Json) : Prop where
  isReady : s.IsReady call (.ok value)
  await : s.await (.call call) = (some (.ok value), s.poll call)
  outside : (s.poll call).outside = s.outside
  calls : (s.poll call).calls.length = s.calls.length

theorem IsReady.givesAlone {s : Session} (hd : 1 ≤ s.depth) {call : Nat} {value : Json}
    (h : s.IsReady call (.ok value)) : s.GivesAlone call value := by
  obtain ⟨c, hc, hw, ho⟩ := h
  have hpoll : (s.poll call).outcomeOf call = some (.ok value) ∧
      (s.poll call).outside = s.outside ∧ (s.poll call).calls.length = s.calls.length := by
    cases houtcome : c.outcome with
    | none =>
      have hopen := unsettled?_eq_some.mpr ⟨hc, houtcome⟩
      rw [poll_unsettled hd hopen, hw, advance]
      have hends := settle_endsAlone hopen (.ok value)
      exact ⟨settle_outcomeOf _ hopen, hends.outside, hends.length⟩
    | some found =>
      obtain rfl := ho found houtcome
      have hended : s.outcomeOf call = some (.ok value) := by simp [outcomeOf, hc, houtcome]
      rw [poll_settled hended]
      exact ⟨hended, rfl, rfl⟩
  refine ⟨⟨c, hc, hw, ho⟩, ?_, hpoll.2.1, hpoll.2.2⟩
  have hresult : (s.poll call).result (.call call) = some (.ok value) := hpoll.1
  simp only [await, waitFor, pollFuture, hresult]

/-! ### Canned operations -/

/-- A canned operation of any definition, called in any session with any request, asks nobody
outside, calls no other operation and never fails: it gives the truthy response that its node has
for the request. -/
theorem canned_invocation {catalog : Catalog} (hcatalog : catalog.CansByHttpOnly)
    {settings : Settings} {tree : Nat} {root : Members} {keys : List String} {o : Operation}
    (ho : (Compiled.ofDefinition catalog settings tree (.object root)).root.follow? keys =
      some (.operation o)) (hcanned : o.isCanned = true) (request : Request) {s : Session}
    (hs : s.Attained)
    (htree : s.compiled[tree]? = some (.ofDefinition catalog settings tree (.object root))) :
    ∃ value, Definition.Responds catalog settings root keys request value ∧
      value.truthy = true ∧
      (s.invoke o request).1 = .call s.calls.length ∧
      (s.invoke o request).2.outside = s.outside ∧
      (s.invoke o request).2.calls.length = s.calls.length + 1 ∧
      ∀ hand y, Deeds (fun _ => True) (hand, (s.invoke o request).2) y →
        y.2.GivesAlone s.calls.length value := by
  obtain ⟨start, value, haction, hstart, hresponds⟩ :=
    Compiled.canned_action hcatalog ho hcanned request
  have hsite : o.site.tree < s.trees.length := by
    have hlt := (List.getElem?_eq_some_iff.mp htree).1
    rw [((Compiled.operation_iff catalog settings tree root).2.1 keys o ho).site]
    simpa [compiled] using hlt
  have hsteps := invoke_steps hs.sited request hsite
  have hinvoke : s.invoke o request =
      (.call s.calls.length, (s.start (s.trackerOf o.site.tree) (.finished (.ok value))).2) := by
    rw [invoke, haction, ← hstart, ← start_number s (s.trackerOf o.site.tree)]
  have hstarts := start_starts s (s.trackerOf o.site.tree) (.finished (.ok value))
  refine ⟨value, hresponds, hresponds.truthy, by rw [hinvoke], ?_, ?_, fun hand y hdeeds => ?_⟩
  · rw [hinvoke, start_outside]
  · rw [hinvoke, hstarts.calls, List.length_append, List.length_singleton]
  · have hready : (s.invoke o request).2.IsReady s.calls.length (.ok value) := by
      rw [hinvoke]
      refine ⟨_, by rw [hstarts.calls, List.getElem?_concat_length], rfl, fun _ hfound => ?_⟩
      cases hfound
    have hlater := (hs.steps hsteps.steps).steps (Deeds.steps hdeeds (hsteps.sited hs.sited))
    exact (Deeds.isReady hdeeds (hsteps.sited hs.sited) hready).givesAlone hlater.depth_pos

/-- A user with a response by URL, and an empty default response. -/
def cannedUser : Members :=
  [("asyncModule", .string "http"),
    ("user", .object [("operationDetails", .object [("url", .string "/users/:id")]),
      ("smartMockResponse", .object [("/users/7", .string "Ada")]), ("mockResponse", .null)])]

/-- A session with this tree. -/
def cannedSession : Session :=
  (initial true {}).after [.addTracker, .addTree .standard {} 0 (.object cannedUser)]

theorem canned_invocation_user :
    ∃ o, cannedSession.operationAt? 0 "user" = some o ∧ o.isCanned = true ∧
      Definition.Responds .standard {} cannedUser ["user"]
        { params := some [("id", .ofNat 7)] } (.string "Ada") ∧
      (cannedSession.invoke o { params := some [("id", .ofNat 7)] }).2.GivesAlone 0
        (.string "Ada") := by
  have hs : cannedSession.Reachable := ⟨true, {}, _, rfl⟩
  have htree : cannedSession.compiled[0]? =
      some (.ofDefinition .standard {} 0 (.object cannedUser)) := rfl
  obtain ⟨o, ho, hat, hcanned, hawait⟩ : ∃ o,
      (Compiled.ofDefinition .standard {} 0 (.object cannedUser)).root.follow? ["user"] =
        some (.operation o) ∧ cannedSession.operationAt? 0 "user" = some o ∧ o.isCanned = true ∧
      ((cannedSession.invoke o { params := some [("id", .ofNat 7)] }).2.await (.call 0)).1 =
        some (.ok (.string "Ada")) := ⟨_, rfl, rfl, rfl, rfl⟩
  obtain ⟨value, hresponds, -, -, -, -, hlater⟩ :=
    canned_invocation (Catalog.standardWith_cansByHttpOnly {}) ho hcanned
      { params := some [("id", .ofNat 7)] } hs.attained htree
  have hgives := hlater [] _ .refl
  obtain rfl : value = .string "Ada" :=
    Except.ok.inj (Option.some.inj ((congrArg Prod.fst hgives.await).symm.trans hawait))
  exact ⟨o, hat, hcanned, hresponds, hgives⟩

end OperationTree.Session
