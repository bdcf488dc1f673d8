import OperationTree.Proofs.Session.Shutdown

/-! Closing modules.  A shutdown that gets past its drain asks every instance of its tree to close,
once and in load order.  Nothing keeps two shutdowns of one tree from doing so, since only a tree
that is closed already turns a shutdown away, and that only when it is first polled.  So each module
is closed at most once, and none is asked after the tree is closed, exactly in those runs in which
at most one shutdown gets past its drain. -/

namespace OperationTree

namespace Docket

variable {d : Docket}

def closingsOf (d : Docket) (tree : Nat) : List Closing := d.closings.filter fun c => c.tree == tree

/-- All closings of a tree belong to one shutdown. -/
def HasOneCloser (d : Docket) (tree : Nat) : Prop :=
  ∀ c ∈ d.closingsOf tree, ∀ c' ∈ d.closingsOf tree, c.shutdown = c'.shutdown

theorem mem_closingsOf {c : Closing} {t : Nat} :
    c ∈ d.closingsOf t ↔ c ∈ d.closings ∧ c.tree = t := by
  simp [closingsOf]

theorem mem_asked {c : Closing} {n t : Nat} (hc : c ∈ d.asked n t) :
    c.shutdown = n ∧ c.tree = t := by
  obtain ⟨i, -, rfl⟩ := List.mem_map.mp hc
  exact ⟨rfl, rfl⟩

/-- A shutdown that has asked one instance has asked all. -/
theorem Sound.closingsBy_eq (hd : d.Sound) {c : Closing} (hc : c ∈ d.closings) :
    d.closingsBy c.shutdown = d.asked c.shutdown c.tree := by
  obtain ⟨sd, hn, htree⟩ := hd.listed c hc
  have hmem : c ∈ d.closingsBy c.shutdown := List.mem_filter.mpr ⟨hc, beq_self_eq_true _⟩
  have hasked := hd.asking _ sd hn
  rw [htree] at hasked
  cases hstage : sd.stage with
  | fresh | draining =>
    rw [hstage] at hasked
    have hnone : d.closingsBy c.shutdown = [] := hasked
    rw [hnone] at hmem
    cases hmem
  | closing =>
    rw [hstage] at hasked
    exact hasked
  | finished =>
    rw [hstage] at hasked
    rcases hasked with hnone | hall
    · rw [hnone] at hmem
      cases hmem
    · exact hall

/-- With one closer, the closings of a tree are one for each instance. -/
theorem Sound.closingsOf_eq (hd : d.Sound) {t : Nat} (hone : d.HasOneCloser t) {c : Closing}
    (hc : c ∈ d.closingsOf t) : d.closingsOf t = d.asked c.shutdown t := by
  obtain ⟨hmem, htree⟩ := mem_closingsOf.mp hc
  have hall := hd.closingsBy_eq hmem
  rw [htree] at hall
  rw [← hall, closingsOf, closingsBy]
  refine List.filter_congr fun c' hc' => ?_
  rw [Bool.eq_iff_iff, beq_iff_eq, beq_iff_eq]
  refine ⟨fun h => hone c' (mem_closingsOf.mpr ⟨hc', h⟩) c hc, fun h => ?_⟩
  have hby : c' ∈ d.closingsBy c.shutdown := List.mem_filter.mpr ⟨hc', by rw [h, beq_self_eq_true]⟩
  rw [hall] at hby
  exact (mem_asked hby).2

theorem Sound.keys_nodup (hd : d.Sound) (n t : Nat) : ((d.asked n t).map Closing.key).Nodup := by
  rw [asked_keys]
  cases ht : d.trees[t]? with
  | none => exact .nil
  | some entry => exact hd.distinct entry (List.mem_of_getElem? ht)

/-- Each instance of a tree is closed at most once if and only if one shutdown closes them all. -/
theorem Sound.count_le_one_iff (hd : d.Sound) (t : Nat) :
    (∀ key, ((d.closingsOf t).map Closing.key).count key ≤ 1) ↔ d.HasOneCloser t := by
  rw [← List.nodup_iff_count_le_one]
  constructor
  · intro hnodup c hc c' hc'
    obtain ⟨hmem, htree⟩ := mem_closingsOf.mp hc
    obtain ⟨hmem', htree'⟩ := mem_closingsOf.mp hc'
    -- The instance that `c` asks is also asked by the shutdown of `c'`.
    have hby : c ∈ d.closingsBy c.shutdown := List.mem_filter.mpr ⟨hmem, beq_self_eq_true _⟩
    rw [hd.closingsBy_eq hmem, htree] at hby
    obtain ⟨i, hi, hci⟩ := List.mem_map.mp hby
    have hother : (Session.closing c'.shutdown t i).outline ∈ d.closingsBy c'.shutdown := by
      rw [hd.closingsBy_eq hmem', htree']
      exact List.mem_map_of_mem hi
    have hmem2 := mem_closingsOf.mpr ⟨(List.mem_filter.mp hother).1, rfl⟩
    have heq := List.inj_on_of_nodup_map hnodup hc hmem2 (congrArg Closing.key hci).symm
    show c.shutdown = (Session.closing c'.shutdown t i).outline.shutdown
    rw [heq]
  · intro hone
    cases hcs : d.closingsOf t with
    | nil => exact .nil
    | cons c rest =>
      have hc : c ∈ d.closingsOf t := hcs ▸ List.mem_cons_self
      rw [← hcs, hd.closingsOf_eq hone hc]
      exact hd.keys_nodup _ t

end Docket

namespace Session

/-- The keys of the instances of a tree that have been asked to close, in that order. -/
def closedKeys (s : Session) (tree : Nat) : List String :=
  (s.closings.filter fun c => c.tree == tree).map Closing.key

/-- All closings of a tree belong to one shutdown. -/
def HasOneCloser (s : Session) (tree : Nat) : Prop :=
  ∀ c ∈ s.closings, ∀ c' ∈ s.closings, c.tree = tree → c'.tree = tree → c.shutdown = c'.shutdown

/-- In a run no instance of a tree is asked to close twice, and none once the tree is closed. -/
def ClosesOnce (s : Session) (actions : List Action) (tree : Nat) : Prop :=
  (∀ key, ((s.after actions).closedKeys tree).count key ≤ 1) ∧
  ∀ (k : Nat) (t : TreeState), (s.after (actions.take k)).trees[tree]? = some t →
    t.phase = .closed →
    (s.after (actions.take (k + 1))).closedKeys tree = (s.after (actions.take k)).closedKeys tree

theorem closedKeys_docket (s : Session) (t : Nat) :
    (s.docket.closingsOf t).map Closing.key = s.closedKeys t := by
  rw [Docket.closingsOf, closedKeys, docket, List.filter_map, List.map_map]
  rfl

theorem hasOneCloser_docket (s : Session) (t : Nat) :
    s.docket.HasOneCloser t ↔ s.HasOneCloser t := by
  simp only [Docket.HasOneCloser, Docket.mem_closingsOf, docket, HasOneCloser, List.mem_map]
  constructor
  · intro h c hc c' hc' ht ht'
    exact h c.outline ⟨⟨c, hc, rfl⟩, ht⟩ c'.outline ⟨⟨c', hc', rfl⟩, ht'⟩
  · rintro h _ ⟨⟨c, hc, rfl⟩, ht⟩ _ ⟨⟨c', hc', rfl⟩, ht'⟩
    exact h c hc c' hc' ht ht'

/-- Closings are added behind those that there are. -/
theorem Steps.closings {s s' : Session} (h : Steps s s') :
    s.docket.closings <+: s'.docket.closings := by
  induction h with
  | refl => exact List.prefix_rfl
  | tail _ step ih =>
    refine ih.trans ?_
    rcases step.docket with heq | hstep
    · exact congrArg Docket.closings heq ▸ List.prefix_rfl
    · exact hstep.closings

theorem HasOneCloser.earlier {s s' : Session} (h : Steps s s') {t : Nat}
    (hone : s'.docket.HasOneCloser t) : s.docket.HasOneCloser t := by
  intro c hc c' hc'
  obtain ⟨hmem, ht⟩ := Docket.mem_closingsOf.mp hc
  obtain ⟨hmem', ht'⟩ := Docket.mem_closingsOf.mp hc'
  exact hone c (Docket.mem_closingsOf.mpr ⟨h.closings.subset hmem, ht⟩) c'
    (Docket.mem_closingsOf.mpr ⟨h.closings.subset hmem', ht'⟩)

/-- With one closer, nothing of a closed tree is closed any more. -/
theorem closedKeys_of_closed {s s' : Session} (hs : s.Attained) (h : Steps s s') {t : Nat}
    {tree : TreeState} (ht : s.trees[t]? = some tree) (hclosed : tree.phase = .closed)
    (hone : s'.docket.HasOneCloser t) : s'.closedKeys t = s.closedKeys t := by
  have hd := hs.docket_sound
  have hd' := (hs.steps h).docket_sound
  have hlt := (List.getElem?_eq_some_iff.mp ht).1
  have hphase : s.docket.phase t = .closed := by
    rw [phase_docket, phaseOf, ht]
    exact hclosed
  obtain ⟨n, sd, hn, htree, -, hall⟩ := hd.closer t (by rwa [length_docket]) hphase
  have hasked := (h.trees hlt).2.2 n
  rw [← closedKeys_docket, ← closedKeys_docket]
  cases hcs : s'.docket.closingsOf t with
  | nil =>
    have hsub := h.closings.sublist.filter fun c => c.tree == t
    rw [← Docket.closingsOf, ← Docket.closingsOf, hcs] at hsub
    rw [List.sublist_nil.mp hsub]
  | cons c rest =>
    -- A shutdown has asked every instance of the closed tree, and it is the only one.
    have hc : c ∈ s'.docket.closingsOf t := hcs ▸ List.mem_cons_self
    have hkeys :
        (s'.docket.closingsOf t).map Closing.key = (s.docket.asked n t).map Closing.key := by
      rw [hd'.closingsOf_eq hone hc, Docket.asked_keys, ← hasked, Docket.asked_keys]
    rw [← hcs, hkeys]
    cases hfirst : s.docket.asked n t with
    | nil =>
      rw [hfirst, hcs] at hkeys
      cases hkeys
    | cons c' more =>
      have hby : c' ∈ s.docket.closingsBy n := by rw [hall, hfirst]; exact List.mem_cons_self
      have hof : c' ∈ s.docket.closingsOf t := Docket.mem_closingsOf.mpr
        ⟨(List.mem_filter.mp hby).1, (Docket.mem_asked (hall ▸ hby)).2⟩
      rw [hd.closingsOf_eq (HasOneCloser.earlier h hone) hof, Docket.asked_keys, ← hfirst,
        Docket.asked_keys]

theorem after_take_steps {s : Session} (hs : s.Sited) (actions : List Action) (k : Nat) :
    Steps (s.after (actions.take k)) (s.after actions) := by
  have hsplit := after_append s (actions.take k) (actions.drop k)
  rw [List.take_append_drop] at hsplit
  rw [hsplit]
  exact after_steps ((after_steps hs _).sited hs) _

/-- Modules are closed once, and none is closed after its tree, in exactly those runs in which all
closings of the tree belong to one shutdown. -/
theorem closesOnce_iff (hasScheduler : Bool) (outside : Outside) (actions : List Action)
    (tree : Nat) :
    (initial hasScheduler outside).ClosesOnce actions tree ↔
      ((initial hasScheduler outside).after actions).HasOneCloser tree := by
  have hs := initial_sited hasScheduler outside
  have hreach : ∀ actions, ((initial hasScheduler outside).after actions).Attained :=
    fun actions => Reachable.attained ⟨hasScheduler, outside, actions, rfl⟩
  have hcount := (hreach actions).docket_sound.count_le_one_iff tree
  rw [hasOneCloser_docket, closedKeys_docket] at hcount
  refine ⟨fun h => hcount.mp h.1, fun hone => ⟨hcount.mpr hone, fun k t ht hclosed => ?_⟩⟩
  have hstep : Steps ((initial hasScheduler outside).after (actions.take k))
      ((initial hasScheduler outside).after (actions.take (k + 1))) := by
    have htake := after_take_steps hs (actions.take (k + 1)) k
    rwa [List.take_take, Nat.min_eq_left (Nat.le_succ k)] at htake
  refine closedKeys_of_closed (hreach _) hstep ht hclosed ?_
  exact HasOneCloser.earlier (after_take_steps hs actions (k + 1))
    ((hasOneCloser_docket _ _).mpr hone)

/-- Two shutdowns of a tree, of which the second is polled while the first one waits for a call. -/
def overlapping : List Action :=
  [.addTracker, .addGated 0, .invoke 0 "a" {}, .addShutdown 0, .addShutdown 0, .pollShutdown 0,
    .pollShutdown 1, .settleGate 0 (.ok .null), .pollShutdown 0, .pollShutdown 1]

/-- The second shutdown closes everything again, and does so after the tree is closed. -/
theorem not_closesOnce_overlapping :
    ¬ (initial true {}).ClosesOnce overlapping 0 ∧
    ((initial true {}).after overlapping).closedKeys 0 = ["g", "g"] ∧
    ((initial true {}).after (overlapping.take 9)).closedKeys 0 = ["g"] ∧
    ((initial true {}).after (overlapping.take 9)).phaseOf 0 = .closed := by
  have hkeys : ((initial true {}).after overlapping).closedKeys 0 = ["g", "g"] := by decide +kernel
  refine ⟨fun h => ?_, hkeys, by decide +kernel, by decide +kernel⟩
  have hcount := h.1 "g"
  rw [hkeys] at hcount
  exact absurd hcount (by decide)

end Session
end OperationTree
