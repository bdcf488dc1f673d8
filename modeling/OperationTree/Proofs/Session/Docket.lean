import OperationTree.Proofs.Session.Step

/-! Shutting down.  A `Docket` is what remains of a session when only the phases and instances of
its trees, its shutdowns and its closings are kept.  One shutdown moves at a time, and `Move` says
how far: it lists what happens to its stage, to the phase of its tree and to the closings.
`Docket.Sound` relates the three, and every step of a session is at most one step of its docket. -/

namespace OperationTree

/-- A closing without whether it has ended. -/
def Closing.outline (c : Closing) : Closing := { c with isDone := false }

def Phase.rank : Phase → Nat
  | opened => 0
  | draining => 1
  | closed => 2

/-- The phase that a shutdown in some stage has brought its tree to. -/
def Stage.phase : Stage → Phase
  | fresh => .opened
  | draining _ | closing => .draining
  | finished _ => .closed

/-- Whether a shutdown in some stage is past its drain. -/
def Stage.isPast : Stage → Bool
  | fresh | draining _ => false
  | closing | finished _ => true

/-- The closings that a shutdown in some stage has to its name, when `all` are those it asks for.
One that finds its tree closed ends without any. -/
def Stage.Asked (got all : List Closing) : Stage → Prop
  | fresh | draining _ => got = []
  | closing => got = all
  | finished _ => got = [] ∨ got = all

/-- How a shutdown and the phase of its tree move on, with the closings that it asks for. -/
inductive Move (all : List Closing) : Phase → Stage → Phase → Stage → List Closing → Prop
  | keep (p : Phase) (stage : Stage) : Move all p stage p stage []
  | start {p : Phase} (hp : p ≠ .closed) (drain : Nat) :
    Move all p .fresh .draining (.draining drain) []
  /-- The tree is closed already. -/
  | skip : Move all .closed .fresh .closed (.finished []) []
  | closeAll (p : Phase) (drain : Nat) : Move all p (.draining drain) p .closing all
  | finish (p : Phase) (faults : CloseFaults) :
    Move all p .closing .closed (.finished faults) []

namespace Move

variable {all more : List Closing} {p p' : Phase} {stage stage' : Stage}

theorem rank_le (h : Move all p stage p' stage' more) : p.rank ≤ p'.rank := by
  cases h with
  | keep | skip | closeAll => exact Nat.le_refl _
  | start hp => cases p <;> first | exact absurd rfl hp | decide
  | finish => cases p <;> decide

theorem bound (h : Move all p stage p' stage' more) (hb : stage.phase.rank ≤ p.rank) :
    stage'.phase.rank ≤ p'.rank := by
  cases h with
  | keep | closeAll => exact hb
  | start | skip | finish => exact Nat.le_refl _

theorem reached (h : Move all p stage p' stage' more) :
    stage'.phase = p' ∨ (p' = p ∧ stage'.phase = stage.phase) := by
  cases h with
  | keep | closeAll => exact .inr ⟨rfl, rfl⟩
  | start | skip | finish => exact .inl rfl

theorem asked (h : Move all p stage p' stage' more) {got : List Closing}
    (ha : stage.Asked got all) : stage'.Asked (got ++ more) all := by
  cases h with
  | keep => rwa [List.append_nil]
  | start | closeAll => obtain rfl : got = [] := ha; rfl
  | skip => obtain rfl : got = [] := ha; exact .inl rfl
  | finish => obtain rfl : got = all := ha; exact .inr (List.append_nil _)

/-- A tree that is closed after a move was so before it, or the shutdown has closed it. -/
theorem closed (h : Move all p stage .closed stage' more) :
    (p = .closed ∧ (stage.phase = .closed → stage' = stage ∧ more = [])) ∨
      (stage = .closing ∧ stage'.phase = .closed ∧ more = []) := by
  cases h with
  | keep => exact .inl ⟨rfl, fun _ => ⟨rfl, rfl⟩⟩
  | skip | closeAll => exact .inl ⟨rfl, (nomatch ·)⟩
  | finish => exact .inr ⟨rfl, rfl, rfl⟩

/-- Past its drain a shutdown asks for nothing. -/
theorem more_of_isPast (h : Move all p stage p' stage' more) (hpast : stage.isPast = true) :
    more = [] := by
  cases h with
  | closeAll => cases hpast
  | keep | start | skip | finish => rfl

theorem more_eq (h : Move all p stage p' stage' more) : more = [] ∨ more = all := by
  cases h with
  | closeAll => exact .inr rfl
  | keep | start | skip | finish => exact .inl rfl

end Move

/-- The phases of trees with their instances, the shutdowns, and the closings in order. -/
structure Docket where
  trees : List (Phase × List Instance)
  shutdowns : List Shutdown
  closings : List Closing

namespace Docket

def phase (d : Docket) (tree : Nat) : Phase := (d.trees[tree]?.map Prod.fst).getD .closed

/-- The closings that a shutdown of a tree asks for. -/
def asked (d : Docket) (number tree : Nat) : List Closing :=
  ((d.trees[tree]?.map Prod.snd).getD []).map fun i => (Session.closing number tree i).outline

theorem asked_keys (d : Docket) (n t : Nat) :
    (d.asked n t).map Closing.key =
      ((d.trees[t]?.map Prod.snd).getD []).map Instance.key := by
  rw [asked, List.map_map]
  rfl

def closingsBy (d : Docket) (number : Nat) : List Closing :=
  d.closings.filter fun c => c.shutdown == number

def setPhase (d : Docket) (tree : Nat) (p : Phase) : List (Phase × List Instance) :=
  d.trees.modify tree fun entry => (p, entry.2)

/-- Shutdown `n` moves on. -/
inductive MoveOf (n : Nat) : Docket → Docket → Prop
  | mk {d : Docket} {sd sd' : Shutdown} {p : Phase} {more : List Closing}
    (hn : d.shutdowns[n]? = some sd) (ht : sd'.tree = sd.tree)
    (hm : Move (d.asked n sd.tree) (d.phase sd.tree) sd.stage p sd'.stage more) :
    MoveOf n d ⟨d.setPhase sd.tree p, d.shutdowns.set n sd', d.closings ++ more⟩

/-- What can happen to a docket. -/
inductive Step : Docket → Docket → Prop
  | addTree (d : Docket) {instances : List Instance} (hk : (instances.map Instance.key).Nodup) :
    Step d { d with trees := d.trees ++ [(.opened, instances)] }
  | addShutdown {d : Docket} {tree : Nat} (ht : tree < d.trees.length) :
    Step d { d with shutdowns := d.shutdowns ++ [{ tree }] }
  | move {d d' : Docket} {n : Nat} (h : MoveOf n d d') : Step d d'

/-- How phases, shutdowns and closings belong together.  A tree is in the phase to which the
furthest of its shutdowns has brought it, and a shutdown has asked for all closings or for none. -/
structure Sound (d : Docket) : Prop where
  distinct : ∀ entry ∈ d.trees, (entry.2.map Instance.key).Nodup
  placed : ∀ sd ∈ d.shutdowns, sd.tree < d.trees.length
  listed : ∀ c ∈ d.closings, ∃ sd, d.shutdowns[c.shutdown]? = some sd ∧ sd.tree = c.tree
  bound : ∀ sd ∈ d.shutdowns, sd.stage.phase.rank ≤ (d.phase sd.tree).rank
  reached : ∀ t < d.trees.length, d.phase t = .opened ∨
    ∃ (n : Nat) (sd : Shutdown), d.shutdowns[n]? = some sd ∧ sd.tree = t ∧
      sd.stage.phase = d.phase t
  asking : ∀ (n : Nat) (sd : Shutdown), d.shutdowns[n]? = some sd →
    sd.stage.Asked (d.closingsBy n) (d.asked n sd.tree)
  closer : ∀ t < d.trees.length, d.phase t = .closed →
    ∃ (n : Nat) (sd : Shutdown), d.shutdowns[n]? = some sd ∧ sd.tree = t ∧
      sd.stage.phase = .closed ∧ d.closingsBy n = d.asked n t

theorem initial_sound : Sound ⟨[], [], []⟩ := by
  constructor <;> simp

variable {d : Docket}

/-! ### New trees and shutdowns -/

theorem sound_addTree (hd : d.Sound) {instances : List Instance}
    (hk : (instances.map Instance.key).Nodup) :
    Sound { d with trees := d.trees ++ [(.opened, instances)] } := by
  have hphase : ∀ t < d.trees.length,
      phase { d with trees := d.trees ++ [(.opened, instances)] } t = d.phase t := fun t ht => by
    rw [phase, phase, List.getElem?_append_left ht]
  have hasked : ∀ n t, t < d.trees.length →
      asked { d with trees := d.trees ++ [(.opened, instances)] } n t = d.asked n t :=
    fun n t ht => by rw [asked, asked, List.getElem?_append_left ht]
  have hnew : phase { d with trees := d.trees ++ [(.opened, instances)] } d.trees.length =
      .opened := by
    simp [phase]
  have hcases : ∀ t < (d.trees ++ [(Phase.opened, instances)]).length,
      t < d.trees.length ∨ t = d.trees.length := fun t ht => by
    rw [List.length_append, List.length_singleton] at ht
    omega
  constructor
  case distinct =>
    intro entry hentry
    rcases List.mem_append.mp hentry with hold | hlast
    · exact hd.distinct entry hold
    · obtain rfl := List.mem_singleton.mp hlast
      exact hk
  case placed =>
    intro sd hsd
    have := hd.placed sd hsd
    rw [List.length_append]
    omega
  case listed => exact hd.listed
  case bound =>
    intro sd hsd
    rw [hphase _ (hd.placed sd hsd)]
    exact hd.bound sd hsd
  case reached =>
    intro t ht
    rcases hcases t ht with hlt | rfl
    · rw [hphase t hlt]
      exact hd.reached t hlt
    · exact .inl hnew
  case asking =>
    intro n sd hn
    rw [hasked _ _ (hd.placed sd (List.mem_of_getElem? hn))]
    exact hd.asking n sd hn
  case closer =>
    intro t ht hclosed
    rcases hcases t ht with hlt | rfl
    · rw [hphase t hlt] at hclosed
      obtain ⟨n, sd, hn, htree, hstage, hall⟩ := hd.closer t hlt hclosed
      exact ⟨n, sd, hn, htree, hstage, by rw [hasked n t hlt]; exact hall⟩
    · rw [hnew] at hclosed
      cases hclosed

/-- Nothing has been closed in the name of a shutdown that is not there. -/
theorem closingsBy_eq_nil (hd : d.Sound) {n : Nat} (hn : d.shutdowns.length ≤ n) :
    d.closingsBy n = [] := by
  refine List.filter_eq_nil_iff.mpr fun c hc heq => ?_
  obtain ⟨sd, hsd, -⟩ := hd.listed c hc
  have := (List.getElem?_eq_some_iff.mp hsd).1
  rw [beq_iff_eq] at heq
  omega

theorem sound_addShutdown (hd : d.Sound) {tree : Nat} (ht : tree < d.trees.length) :
    Sound { d with shutdowns := d.shutdowns ++ [{ tree }] } := by
  have hold : ∀ {n : Nat} {sd : Shutdown}, d.shutdowns[n]? = some sd →
      (d.shutdowns ++ [({ tree := tree } : Shutdown)])[n]? = some sd :=
    Session.getElem?_of_extends (List.prefix_append _ _)
  have hmem : ∀ sd ∈ d.shutdowns ++ [({ tree := tree } : Shutdown)],
      sd ∈ d.shutdowns ∨ sd = { tree := tree } := by simp
  constructor
  case distinct => exact hd.distinct
  case placed =>
    intro sd hsd
    rcases hmem sd hsd with hin | rfl
    · exact hd.placed sd hin
    · exact ht
  case listed =>
    intro c hc
    obtain ⟨sd, hn, htree⟩ := hd.listed c hc
    exact ⟨sd, hold hn, htree⟩
  case bound =>
    intro sd hsd
    rcases hmem sd hsd with hin | rfl
    · exact hd.bound sd hin
    · exact Nat.zero_le _
  case reached =>
    intro t hlt
    refine (hd.reached t hlt).imp id ?_
    rintro ⟨n, sd, hn, hrest⟩
    exact ⟨n, sd, hold hn, hrest⟩
  case asking =>
    intro n sd hn
    rcases Session.getElem?_append_eq_some.mp hn with hin | ⟨rfl, rfl⟩
    · exact hd.asking n sd hin
    · exact closingsBy_eq_nil hd (Nat.le_refl _)
  case closer =>
    intro t hlt hclosed
    obtain ⟨n, sd, hn, hrest⟩ := hd.closer t hlt hclosed
    exact ⟨n, sd, hold hn, hrest⟩

/-! ### Moves -/

theorem getElem?_setPhase (t u : Nat) (p : Phase) :
    (d.setPhase t p)[u]? = d.trees[u]?.map fun entry => if t = u then (p, entry.2) else entry := by
  rw [setPhase, List.getElem?_modify]
  split <;> rfl

section Move

variable {n : Nat} {sd sd' : Shutdown} {p : Phase} {more : List Closing}

theorem asked_move (m t : Nat) :
    asked ⟨d.setPhase sd.tree p, d.shutdowns.set n sd', d.closings ++ more⟩ m t = d.asked m t := by
  rw [asked, asked, getElem?_setPhase]
  cases d.trees[t]? with
  | none => rfl
  | some entry => by_cases h : sd.tree = t <;> simp [h]

theorem phase_move {t : Nat} (ht : t < d.trees.length) :
    phase ⟨d.setPhase sd.tree p, d.shutdowns.set n sd', d.closings ++ more⟩ t =
      if sd.tree = t then p else d.phase t := by
  rw [phase, phase, getElem?_setPhase, List.getElem?_eq_getElem ht]
  by_cases h : sd.tree = t <;> simp [h]

variable (hd : d.Sound) (hn : d.shutdowns[n]? = some sd) (ht : sd'.tree = sd.tree)
  (hm : Move (d.asked n sd.tree) (d.phase sd.tree) sd.stage p sd'.stage more)

include hn in
theorem getElem?_shutdowns_move {m : Nat} {x : Shutdown} :
    (d.shutdowns.set n sd')[m]? = some x ↔
      (m = n ∧ x = sd') ∨ (m ≠ n ∧ d.shutdowns[m]? = some x) := by
  rw [List.getElem?_set]
  split
  · next h =>
    subst h
    simp [(List.getElem?_eq_some_iff.mp hn).1, eq_comm]
  · next h => simp [Ne.symm h]

include hm in
theorem shutdown_of_mem_more {c : Closing} (hc : c ∈ more) : c.shutdown = n ∧ c.tree = sd.tree := by
  rcases hm.more_eq with rfl | rfl
  · cases hc
  · obtain ⟨i, -, rfl⟩ := List.mem_map.mp hc
    exact ⟨rfl, rfl⟩

include hm in
/-- A move adds to the closings of its own shutdown only. -/
theorem closingsBy_move (m : Nat) :
    closingsBy ⟨d.setPhase sd.tree p, d.shutdowns.set n sd', d.closings ++ more⟩ m =
      d.closingsBy m ++ if m = n then more else [] := by
  rw [closingsBy, closingsBy, List.filter_append]
  congr 1
  split
  · next h =>
    exact List.filter_eq_self.mpr fun c hc => by simp [(shutdown_of_mem_more hm hc).1, h]
  · next h =>
    exact List.filter_eq_nil_iff.mpr fun c hc => by
      simp [(shutdown_of_mem_more hm hc).1, Ne.symm h]

include hn in
/-- Another shutdown than the one that moves is as it was. -/
theorem getElem?_kept {m : Nat} {x : Shutdown} (hx : d.shutdowns[m]? = some x) (hm : m ≠ n) :
    (d.shutdowns.set n sd')[m]? = some x :=
  (getElem?_shutdowns_move hn).mpr (.inr ⟨hm, hx⟩)

include hn in
theorem getElem?_moved : (d.shutdowns.set n sd')[n]? = some sd' :=
  (getElem?_shutdowns_move hn).mpr (.inl ⟨rfl, rfl⟩)

include hn in
/-- The shutdown of a tree that is not the one of the shutdown that moves. -/
theorem ne_of_tree_ne {m t : Nat} {x : Shutdown} (hx : d.shutdowns[m]? = some x)
    (htree : x.tree = t) (hne : sd.tree ≠ t) : m ≠ n := by
  rintro rfl
  obtain rfl := Option.some.inj (hn.symm.trans hx)
  exact hne htree

include hd hn ht hm

theorem listed_move {c : Closing} (hc : c ∈ d.closings ++ more) :
    ∃ x, (d.shutdowns.set n sd')[c.shutdown]? = some x ∧ x.tree = c.tree := by
  have hself := @getElem?_moved d n sd sd' hn
  rcases List.mem_append.mp hc with hold | hnew
  · obtain ⟨x, hx, htree⟩ := hd.listed c hold
    by_cases hcn : c.shutdown = n
    · obtain rfl := Option.some.inj (hn.symm.trans (hcn ▸ hx))
      exact ⟨sd', hcn ▸ hself, ht.trans htree⟩
    · exact ⟨x, getElem?_kept hn hx hcn, htree⟩
  · obtain ⟨hcn, htree⟩ := shutdown_of_mem_more hm hnew
    exact ⟨sd', hcn ▸ hself, ht.trans htree.symm⟩

theorem bound_move {x : Shutdown} (hx : x = sd' ∨ x ∈ d.shutdowns) :
    x.stage.phase.rank ≤
      (phase ⟨d.setPhase sd.tree p, d.shutdowns.set n sd', d.closings ++ more⟩ x.tree).rank := by
  have hmem := List.mem_of_getElem? hn
  rcases hx with rfl | hin
  · rw [phase_move (ht ▸ hd.placed sd hmem), if_pos ht.symm]
    exact hm.bound (hd.bound sd hmem)
  · rw [phase_move (hd.placed x hin)]
    split
    · next heq => exact Nat.le_trans (heq ▸ hd.bound x hin) hm.rank_le
    · exact hd.bound x hin

theorem reached_move {t : Nat} (hlt : t < d.trees.length) :
    (if sd.tree = t then p else d.phase t) = .opened ∨
      ∃ (m : Nat) (x : Shutdown), (d.shutdowns.set n sd')[m]? = some x ∧ x.tree = t ∧
        x.stage.phase = if sd.tree = t then p else d.phase t := by
  by_cases heq : sd.tree = t
  · subst heq
    rw [if_pos rfl]
    rcases hm.reached with hnew | ⟨rfl, hstage⟩
    · exact .inr ⟨n, sd', getElem?_moved hn, ht, hnew⟩
    · refine (hd.reached _ hlt).imp id ?_
      rintro ⟨m, x, hx, htree, hphase⟩
      by_cases hmn : m = n
      · subst hmn
        obtain rfl := Option.some.inj (hn.symm.trans hx)
        exact ⟨m, sd', getElem?_moved hn, ht, hstage.trans hphase⟩
      · exact ⟨m, x, getElem?_kept hn hx hmn, htree, hphase⟩
  · rw [if_neg heq]
    refine (hd.reached t hlt).imp id ?_
    rintro ⟨m, x, hx, htree, hphase⟩
    exact ⟨m, x, getElem?_kept hn hx (ne_of_tree_ne hn hx htree heq), htree, hphase⟩

theorem closer_move {t : Nat} (hlt : t < d.trees.length)
    (hclosed : (if sd.tree = t then p else d.phase t) = .closed) :
    ∃ (m : Nat) (x : Shutdown), (d.shutdowns.set n sd')[m]? = some x ∧ x.tree = t ∧
      x.stage.phase = .closed ∧ (d.closingsBy m ++ if m = n then more else []) = d.asked m t := by
  by_cases heq : sd.tree = t
  · subst heq
    rw [if_pos rfl] at hclosed
    subst hclosed
    rcases hm.closed with ⟨hclosed, hsame⟩ | ⟨hclosing, hstage, rfl⟩
    · obtain ⟨m, x, hx, htree, hphase, hall⟩ := hd.closer _ hlt hclosed
      by_cases hmn : m = n
      · subst hmn
        obtain rfl := Option.some.inj (hn.symm.trans hx)
        obtain ⟨hstage, rfl⟩ := hsame hphase
        exact ⟨m, sd', getElem?_moved hn, ht, hstage ▸ hphase, by simpa using hall⟩
      · exact ⟨m, x, getElem?_kept hn hx hmn, htree, hphase, by simpa [hmn] using hall⟩
    · have hgot := hd.asking n sd hn
      rw [hclosing] at hgot
      have hgot : d.closingsBy n = d.asked n sd.tree := hgot
      exact ⟨n, sd', getElem?_moved hn, ht, hstage, by simpa using hgot⟩
  · rw [if_neg heq] at hclosed
    obtain ⟨m, x, hx, htree, hphase, hall⟩ := hd.closer t hlt hclosed
    have hmn := ne_of_tree_ne hn hx htree heq
    exact ⟨m, x, getElem?_kept hn hx hmn, htree, hphase, by simpa [hmn] using hall⟩

theorem sound_move :
    Sound ⟨d.setPhase sd.tree p, d.shutdowns.set n sd', d.closings ++ more⟩ := by
  have hlen : (d.setPhase sd.tree p).length = d.trees.length := List.length_modify ..
  have hcases : ∀ x ∈ d.shutdowns.set n sd', x = sd' ∨ x ∈ d.shutdowns :=
    fun x hx => (List.mem_or_eq_of_mem_set hx).symm
  constructor
  case distinct =>
    intro entry hentry
    obtain ⟨u, hu⟩ := List.mem_iff_getElem?.mp hentry
    rw [getElem?_setPhase] at hu
    obtain ⟨old, hold, rfl⟩ := Option.map_eq_some_iff.mp hu
    have hkeys := hd.distinct old (List.mem_of_getElem? hold)
    split <;> exact hkeys
  case placed =>
    intro x hx
    rw [hlen]
    rcases hcases x hx with rfl | hin
    · exact ht ▸ hd.placed sd (List.mem_of_getElem? hn)
    · exact hd.placed x hin
  case listed =>
    intro c hc
    exact listed_move hd hn ht hm hc
  case bound =>
    intro x hx
    exact bound_move hd hn ht hm (hcases x hx)
  case reached =>
    intro t hlt
    rw [hlen] at hlt
    rw [phase_move hlt]
    exact reached_move hd hn ht hm hlt
  case asking =>
    intro m x hx
    rw [asked_move, closingsBy_move hm]
    rcases (getElem?_shutdowns_move hn).mp hx with ⟨rfl, rfl⟩ | ⟨hne, hx⟩
    · rw [if_pos rfl, ht]
      exact hm.asked (hd.asking m sd hn)
    · rw [if_neg hne, List.append_nil]
      exact hd.asking m x hx
  case closer =>
    intro t hlt hclosed
    rw [hlen] at hlt
    rw [phase_move hlt] at hclosed
    simp only [asked_move, closingsBy_move hm]
    exact closer_move hd hn ht hm hlt hclosed

end Move

theorem Step.sound {d' : Docket} (h : d.Step d') (hd : d.Sound) : d'.Sound := by
  cases h with
  | addTree hk => exact sound_addTree hd hk
  | addShutdown ht => exact sound_addShutdown hd ht
  | move h =>
    obtain ⟨hn, ht, hm⟩ := h
    exact sound_move hd hn ht hm

/-! ### What steps keep -/

/-- The phase of a tree moves forward only. -/
theorem Step.rank_le {d' : Docket} (h : d.Step d') {t : Nat} (ht : t < d.trees.length) :
    (d.phase t).rank ≤ (d'.phase t).rank := by
  cases h with
  | addTree =>
    refine Nat.le_of_eq ?_
    rw [phase, phase, List.getElem?_append_left ht]
  | addShutdown => exact Nat.le_refl _
  | move h =>
    obtain ⟨-, -, hm⟩ := h
    rw [phase_move ht]
    split
    · next heq => exact heq ▸ hm.rank_le
    · exact Nat.le_refl _

theorem Step.asked_eq {d' : Docket} (h : d.Step d') (n : Nat) {t : Nat} (ht : t < d.trees.length) :
    d'.asked n t = d.asked n t := by
  cases h with
  | addTree => rw [asked, asked, List.getElem?_append_left ht]
  | addShutdown => rfl
  | move h =>
    obtain ⟨-, -, -⟩ := h
    exact asked_move n t

theorem Step.closings {d' : Docket} (h : d.Step d') : d.closings <+: d'.closings := by
  cases h with
  | addTree | addShutdown => exact List.prefix_rfl
  | move h =>
    obtain ⟨-, -, -⟩ := h
    exact List.prefix_append _ _

theorem Step.length_le {d' : Docket} (h : d.Step d') : d.trees.length ≤ d'.trees.length := by
  cases h with
  | addTree => simp
  | addShutdown => exact Nat.le_refl _
  | move h =>
    obtain ⟨-, -, -⟩ := h
    exact Nat.le_of_eq (List.length_modify ..).symm

/-- A shutdown that is past its drain asks for nothing any more. -/
theorem Step.closingsBy_eq {d' : Docket} (h : d.Step d') {n : Nat} {sd : Shutdown}
    (hn : d.shutdowns[n]? = some sd) (hpast : sd.stage.isPast = true) :
    d'.closingsBy n = d.closingsBy n := by
  cases h with
  | addTree | addShutdown => rfl
  | @move _ m h =>
    obtain ⟨hm, -, hmove⟩ := h
    rw [closingsBy_move hmove]
    split
    · next heq =>
      subst heq
      obtain rfl := Option.some.inj (hn.symm.trans hm)
      rw [hmove.more_of_isPast hpast, List.append_nil]
    · exact List.append_nil _

/-- No shutdown but `n` has moved, and no phase but that of its tree has changed. -/
structure OnlyMoves (n : Nat) (d d' : Docket) : Prop where
  length : d'.trees.length = d.trees.length
  tree : ∀ sd', d'.shutdowns[n]? = some sd' →
    ∃ sd, d.shutdowns[n]? = some sd ∧ sd.tree = sd'.tree
  others : ∀ m, m ≠ n → d'.shutdowns[m]? = d.shutdowns[m]?
  phase : ∀ t < d.trees.length, (∀ sd, d.shutdowns[n]? = some sd → sd.tree ≠ t) →
    d'.phase t = d.phase t

theorem OnlyMoves.refl (n : Nat) (d : Docket) : OnlyMoves n d d :=
  ⟨rfl, fun sd h => ⟨sd, h, rfl⟩, fun _ _ => rfl, fun _ _ _ => rfl⟩

theorem OnlyMoves.trans {n : Nat} {d1 d2 d3 : Docket} (h1 : OnlyMoves n d1 d2)
    (h2 : OnlyMoves n d2 d3) : OnlyMoves n d1 d3 where
  length := h2.length.trans h1.length
  tree sd3 hn3 := by
    obtain ⟨sd2, hn2, htree2⟩ := h2.tree sd3 hn3
    obtain ⟨sd1, hn1, htree1⟩ := h1.tree sd2 hn2
    exact ⟨sd1, hn1, htree1.trans htree2⟩
  others m hm := (h2.others m hm).trans (h1.others m hm)
  phase t ht hne := by
    refine (h2.phase t (h1.length ▸ ht) fun sd2 hn2 => ?_).trans (h1.phase t ht hne)
    obtain ⟨sd1, hn1, htree1⟩ := h1.tree sd2 hn2
    exact htree1 ▸ hne sd1 hn1

theorem MoveOf.only {d' : Docket} {n : Nat} (h : MoveOf n d d') : OnlyMoves n d d' := by
  obtain ⟨hn, htree, -⟩ := h
  refine ⟨List.length_modify .., fun x hx => ?_, fun m hm => ?_, fun t ht hne => ?_⟩
  · rcases (getElem?_shutdowns_move hn).mp hx with ⟨-, rfl⟩ | ⟨hne, -⟩
    · exact ⟨_, hn, htree.symm⟩
    · exact absurd rfl hne
  · exact List.getElem?_set_ne (Ne.symm hm)
  · rw [phase_move ht, if_neg (hne _ hn)]

end Docket
end OperationTree
