import OperationTree.Proofs.Session.Deed

/-! Where the calls of a session come from.  After a deed a call is as it was, or its work has gone
on, or it has called the operations that it was to call, or it has been started, or it has ended
with an outcome that its work allows.  It follows that a call that gathers others never ends but
with what its futures come to. -/

namespace OperationTree

/-- Work that has gone on without calling anything. -/
inductive Work.Turns : Work → Work → Prop
  | asked (e : Exchange) (outcome : Outcome) : Turns (.exchange e) (.answered outcome)
  | arrived (outcome : Outcome) : Turns (.answered outcome) (.ready outcome)
  | regathered {g g' : Gathering} (hf : g'.futures = g.futures) :
    Turns (.collecting g) (.collecting g')

theorem Work.Turns.ne_aggregate {work work' : Work} (h : work.Turns work') (site : Site)
    (ids : List String) (request : Request) : work' ≠ .aggregate site ids request := by
  cases h <;> nofun

namespace Session

/-- How a call of `s'` was in `s`, from which a deed has led to `s'`. -/
inductive Origin (ok : Action → Prop) (s s' : Session) (n : Nat) (c' : Call) : Prop
  | same {c : Call} (hc : s.calls[n]? = some c) (hw : c'.work = c.work)
    (ho : c'.outcome = c.outcome)
  | turned {c : Call} (hc : s.unsettled? n = some c) (ht : c.work.Turns c'.work)
    (ho : c'.outcome = none)
  | fanned {c : Call} {site : Site} {ids : List String} {request : Request}
    {operations : List Operation} (hc : s.unsettled? n = some c)
    (hw : c.work = .aggregate site ids request)
    (hfound : s.resolved.lookup site = some operations) (hs : s' = s.fanOut n request operations)
    (hw' : c'.work = .collecting { futures := (s.invokeAll request operations).1 })
    (ho : c'.outcome = none)
  | started {job : Job} (hn : s.calls.length ≤ n) (ho : c'.outcome = none)
    (hb : job.Begins c'.work)
    (hj : (∃ o start request, s.Offers o ∧ o.action = .tracked start ∧ job = start request) ∨
      ∃ tracker, ok (.start tracker job))
  | ended {c : Call} {outcome : Outcome} (hc : s.unsettled? n = some c) (hw : c'.work = c.work)
    (ho : c'.outcome = some outcome) (ha : s.Allows c.work outcome)

section Origin

variable {ok : Action → Prop} {s s' : Session} {n : Nat} {c' : Call}

theorem origin_congr (hs : s'.calls = s.calls) (hc : s'.calls[n]? = some c') :
    Origin ok s s' n c' :=
  .same (hs ▸ hc) rfl rfl

theorem origin_modify {k : Nat} {f : Call → Call} (hm : s'.calls = s.calls.modify k f)
    (hw : ∀ c, (f c).work = c.work) (ho : ∀ c, (f c).outcome = c.outcome)
    (hc : s'.calls[n]? = some c') : Origin ok s s' n c' := by
  rw [hm] at hc
  obtain ⟨c, hget, hwork, houtcome⟩ := exists_unmodified
    (R := fun c c' : Call => c'.work = c.work ∧ c'.outcome = c.outcome) (fun _ => ⟨rfl, rfl⟩)
    (fun c _ => ⟨hw c, ho c⟩) hc
  exact .same hget hwork houtcome

/-- The work of a call goes on. -/
theorem origin_setWork {k : Nat} {c : Call} {work : Work} (hc : s.unsettled? k = some c)
    (hm : s'.calls = s.calls.modify k fun c => { c with work }) (ht : c.work.Turns work)
    (hc' : s'.calls[n]? = some c') : Origin ok s s' n c' := by
  obtain ⟨hget, hopen⟩ := unsettled?_eq_some.mp hc
  rw [hm] at hc'
  rcases getElem?_modify_eq_some hc' with ⟨rfl, c1, hc1, rfl⟩ | ⟨-, hold⟩
  · obtain rfl := Option.some.inj (hget.symm.trans hc1)
    exact .turned hc ht hopen
  · exact .same hold rfl rfl

theorem origin_setGathering {waiter : Waiter} {g g' : Gathering}
    (hg : s.gathering? waiter = some g) (hf : g'.futures = g.futures)
    (hc : (s.setGathering g' waiter).calls[n]? = some c') :
    Origin ok s (s.setGathering g' waiter) n c' := by
  cases waiter with
  | call a =>
    obtain ⟨c, hopen, hw⟩ := gathering?_call hg
    exact origin_setWork hopen rfl (by rw [hw]; exact .regathered hf) hc
  | drain | shutdown => exact origin_congr rfl hc

theorem origin_start {tracker : Nat} {job : Job}
    (hj : (∃ o start request, s.Offers o ∧ o.action = .tracked start ∧ job = start request) ∨
      ∃ tracker, ok (.start tracker job))
    (hc : (s.start tracker job).2.calls[n]? = some c') :
    Origin ok s (s.start tracker job).2 n c' := by
  rw [(start_starts s tracker job).calls] at hc
  rcases getElem?_append_eq_some.mp hc with hold | ⟨rfl, rfl⟩
  · exact .same hold rfl rfl
  · exact .started (Nat.le_refl _) rfl (begun_begins s tracker job) hj

theorem origin_fanOut {call : Nat} {c : Call} {site : Site} {ids : List String}
    {request : Request} {operations : List Operation} (hopen : s.unsettled? call = some c)
    (hw : c.work = .aggregate site ids request)
    (hfound : s.resolved.lookup site = some operations)
    (hc : (s.fanOut call request operations).calls[n]? = some c') :
    Origin ok s (s.fanOut call request operations) n c' := by
  have hlt := (List.getElem?_eq_some_iff.mp hc).1
  rw [fanOut_length] at hlt
  by_cases hn : n = call
  · subst hn
    obtain ⟨c1, hopen1, hw1⟩ := fanOut_self request operations hopen
    obtain ⟨hget, houtcome⟩ := unsettled?_eq_some.mp hopen1
    obtain rfl := Option.some.inj (hget.symm.trans hc)
    exact .fanned hopen hw hfound rfl hw1 houtcome
  · obtain ⟨c1, hc1, hbare⟩ := fanOut_other hn (List.getElem?_eq_getElem hlt)
    obtain rfl := Option.some.inj (hc1.symm.trans hc)
    have hwork := Call.work_of_bare hbare
    have houtcome := Call.outcome_of_bare hbare
    rcases (invokeAll_invokes s request operations).origin (List.getElem?_eq_getElem hlt) with
      hold | ⟨hle, ho, o, hmem, start, haction, hb⟩
    · exact .same hold hwork houtcome
    · exact .started hle (houtcome.trans ho) (hwork ▸ hb)
        (.inl ⟨o, start, request, offers_of_lookup hfound hmem, haction, rfl⟩)

theorem Move.origin {hand hand' : Hand} (h : Move (hand, s) (hand', s'))
    (hc : s'.calls[n]? = some c') : Origin ok s s' n c' := by
  cases h with
  | nudge h =>
    cases h with
    | queue | heed | leave => exact origin_congr rfl hc
    | push hg => exact origin_setGathering hg rfl hc
  | pop hg => exact origin_setGathering hg rfl hc
  | take _ hg _ => exact origin_setGathering hg rfl hc
  | @invoke _ _ o request ho =>
    rw [Session.invoke] at hc ⊢
    split at hc
    · exact origin_congr rfl hc
    · next start heq => exact origin_start (.inl ⟨o, start, request, ho, heq, rfl⟩) hc
  | keep => exact origin_congr rfl hc
  | fanOut _ hopen hw hfound => exact origin_fanOut hopen hw hfound hc
  | ask _ hopen hw => exact origin_setWork hopen rfl (by rw [hw]; exact .asked _ _) hc
  | @finish _ _ call c outcome hopen ha =>
    have hget := (unsettled?_eq_some.mp hopen).1
    by_cases hn : call = n
    · subst hn
      obtain rfl : { c with outcome := some outcome } = c' := by
        simpa [Session.finish, (List.getElem?_eq_some_iff.mp hget).1] using hc
      exact .ended hopen rfl rfl ha
    · exact .same (by simpa [Session.finish, List.getElem?_set_ne hn] using hc) rfl rfl
  | release =>
    exact origin_modify (f := fun c => { c with isHeld := false }) rfl (fun _ => rfl)
      (fun _ => rfl) hc

theorem Deed.origin {hand hand' : Hand} (h : Deed ok (hand, s) (hand', s'))
    (hc : s'.calls[n]? = some c') : Origin ok s s' n c' := by
  cases h with
  | move h => exact h.origin hc
  | arrive _ hopen hw => exact origin_setWork hopen rfl (by rw [hw]; exact .arrived _) hc
  | start _ _ ha => exact origin_start (.inr ⟨_, ha⟩) hc
  | addTree => exact origin_congr rfl hc
  | watch _ _ _ drain place =>
    exact origin_modify (f := fun c => { c with waiters := c.waiters ++ [(.drain drain, place)] })
      rfl (fun _ => rfl) (fun _ => rfl) hc
  | aside _ _ ha => exact origin_congr ha.calls hc

end Origin

/-! ### How calls that gather others end -/

theorem Concludes.later {s s' : Session} (h : s.CallsContinue s') {futures : List Future}
    {outcome : Outcome} (hs : s.Concludes futures outcome) : s'.Concludes futures outcome := by
  rcases hs with ⟨results, hresults, rfl⟩ | ⟨e, rfl, he⟩
  · have htells : (Progress.complete results).Tells s futures := hresults
    exact .inl ⟨results, htells.later h, rfl⟩
  · have htells : (Progress.failed e).Tells s futures := he
    exact .inr ⟨e, rfl, htells.later h⟩

/-- Every call that has gathered others and ended has come to what its futures have come to. -/
def Judged (s : Session) : Prop :=
  ∀ (n : Nat) (c : Call) (g : Gathering) (outcome : Outcome), s.calls[n]? = some c →
    c.work = .collecting g → c.outcome = some outcome → s.Concludes g.futures outcome

theorem Deed.judged {ok : Action → Prop} {x y : Hand × Session} (h : Deed ok x y)
    (hs : x.2.Sited) (hx : x.2.Judged) : y.2.Judged := by
  intro n c' g outcome hc hw ho
  have hlater := (h.steps hs).continues
  cases h.origin hc with
  | same hget hw' ho' => exact (hx n _ g outcome hget (hw' ▸ hw) (ho' ▸ ho)).later hlater
  | turned _ _ ho' | fanned _ _ _ _ _ ho' | started _ ho' => cases ho.symm.trans ho'
  | ended _ hw' ho' ha =>
    obtain rfl := Option.some.inj (ho.symm.trans ho')
    rw [← hw', hw] at ha
    exact ha.later hlater

end Session
end OperationTree
