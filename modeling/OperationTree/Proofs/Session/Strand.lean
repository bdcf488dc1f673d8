import Mathlib.Logic.Function.Basic
import OperationTree.Session.State

/-! How calls that gather others hear of them.  A `Strand` is what the wiring needs to know of a
call: what it gathers, its outcome, and the places where it is gathered itself.  `Wired` says that a
place of a wide gathering that is neither due nor taken is one whose future has not settled, except
for the places that somebody deals with at the moment. -/

namespace OperationTree

namespace Gathering

theorem accepts_iff {g : Gathering} {place : Nat} :
    g.accepts place = true ↔ place ∉ g.due ∧ place ∉ g.taken := by
  simp [accepts]

theorem accepts_push {g : Gathering} {place other : Nat} :
    (g.push other).accepts place = true ↔ g.accepts place = true ∧ place ≠ other := by
  rw [accepts_iff, accepts_iff, push, List.mem_append, List.mem_singleton, not_or]
  exact and_right_comm

theorem accepts_take {g : Gathering} {place other : Nat} :
    (g.take other).accepts place = true ↔ g.accepts place = true ∧ place ≠ other := by
  rw [accepts_iff, accepts_iff, take, List.mem_cons, not_or, and_comm (a := place ≠ other),
    and_assoc]

end Gathering

structure Strand where
  /-- What the call gathers, or has gathered. -/
  gathering : Option Gathering := none
  outcome : Option Outcome := none
  /-- The calls that gather the call, each with its place there. -/
  waiters : List (Nat × Nat) := []

namespace Strand

/-- A place of what a call gathers. -/
def Seats (strands : Nat → Strand) (call place : Nat) : Prop :=
  ∃ g, (strands call).gathering = some g ∧ place < g.futures.length

def result (strands : Nat → Strand) : Future → Option Outcome
  | .settled outcome => some outcome
  | .call number => (strands number).outcome

open Function

/-- The strands when what a call gathers has become `g`. -/
def regathered (strands : Nat → Strand) (call : Nat) (g : Gathering) : Nat → Strand :=
  update strands call { strands call with gathering := some g }

/-- The strands when a call has ended. -/
def ended (strands : Nat → Strand) (call : Nat) (outcome : Outcome) : Nat → Strand :=
  update strands call { strands call with outcome := some outcome }

section Updates

variable (strands : Nat → Strand) (a k : Nat) (g : Gathering) (outcome : Outcome)

@[simp] theorem regathered_self : (regathered strands a g a).gathering = some g := by
  rw [regathered, update_self]

theorem regathered_of_ne (h : k ≠ a) : regathered strands a g k = strands k :=
  update_of_ne h _ _

@[simp] theorem regathered_outcome :
    (regathered strands a g k).outcome = (strands k).outcome := by
  by_cases h : k = a
  · subst h; rw [regathered, update_self]
  · rw [regathered_of_ne _ _ _ _ h]

@[simp] theorem regathered_waiters :
    (regathered strands a g k).waiters = (strands k).waiters := by
  by_cases h : k = a
  · subst h; rw [regathered, update_self]
  · rw [regathered_of_ne _ _ _ _ h]

@[simp] theorem ended_self : (ended strands a outcome a).outcome = some outcome := by
  rw [ended, update_self]

theorem ended_of_ne (h : k ≠ a) : ended strands a outcome k = strands k :=
  update_of_ne h _ _

@[simp] theorem ended_gathering :
    (ended strands a outcome k).gathering = (strands k).gathering := by
  by_cases h : k = a
  · subst h; rw [ended, update_self]
  · rw [ended_of_ne _ _ _ _ h]

@[simp] theorem ended_waiters : (ended strands a outcome k).waiters = (strands k).waiters := by
  by_cases h : k = a
  · subst h; rw [ended, update_self]
  · rw [ended_of_ne _ _ _ _ h]

end Updates

theorem result_congr {strands strands' : Nat → Strand}
    (h : ∀ k, (strands' k).outcome = (strands k).outcome) (future : Future) :
    result strands' future = result strands future := by
  cases future with
  | settled => rfl
  | call k => exact h k

/-- What a call gathers after that of `a` has become `g'`. -/
theorem regathered_cases {strands : Nat → Strand} {a b : Nat} {g g' : Gathering}
    (h : (regathered strands a g' b).gathering = some g) :
    (b = a ∧ g = g') ∨ (b ≠ a ∧ (strands b).gathering = some g) := by
  by_cases hb : b = a
  · subst hb
    rw [regathered_self] at h
    exact .inl ⟨rfl, (Option.some.inj h).symm⟩
  · rw [regathered_of_ne _ _ _ _ hb] at h
    exact .inr ⟨hb, h⟩

theorem Seats.regathered {strands : Nat → Strand} {a b p : Nat} {g g' : Gathering}
    (hg : (strands a).gathering = some g) (hf : g'.futures = g.futures)
    (h : Seats strands b p) : Seats (regathered strands a g') b p := by
  obtain ⟨g1, hg1, hp⟩ := h
  by_cases hb : b = a
  · subst hb
    obtain rfl := Option.some.inj (hg.symm.trans hg1)
    exact ⟨g', regathered_self .., hf ▸ hp⟩
  · exact ⟨g1, by rw [regathered_of_ne _ _ _ _ hb, hg1], hp⟩

/-- What is known of the wiring while some places are dealt with. -/
structure Wired (hand : List (Nat × Nat)) (strands : Nat → Strand) : Prop where
  heard : ∀ a g p k, (strands a).gathering = some g → g.futures[p]? = some (.call k) →
    (a, p) ∈ (strands k).waiters
  told : ∀ k a p, (a, p) ∈ (strands k).waiters → Seats strands a p
  /-- Calls are gathered by earlier calls. -/
  ordered : ∀ k a p, (a, p) ∈ (strands k).waiters → a < k
  held : ∀ a p, (a, p) ∈ hand → Seats strands a p
  due : ∀ a g, (strands a).gathering = some g →
    g.due.Nodup ∧ ∀ p ∈ g.due, p < g.futures.length
  /-- A result that has been taken is there. -/
  taken : ∀ a g p future, (strands a).gathering = some g → p ∈ g.taken →
    g.futures[p]? = some future → (result strands future).isSome = true
  /-- A place that is neither due, nor taken, nor in hand has not settled. -/
  missed : ∀ a g p future, (strands a).gathering = some g → (strands a).outcome = none →
    g.isWide = true → g.futures[p]? = some future → g.accepts p = true → (a, p) ∉ hand →
    result strands future = none

namespace Wired

variable {hand hand' : List (Nat × Nat)} {strands : Nat → Strand}

theorem initial : Wired [] fun _ => {} := by
  constructor <;> simp

/-- More places may be in hand, if they are places. -/
theorem heed (h : Wired hand strands) (hsub : hand ⊆ hand')
    (hseats : ∀ a p, (a, p) ∈ hand' → Seats strands a p) : Wired hand' strands :=
  ⟨h.heard, h.told, h.ordered, hseats, h.due, h.taken, fun a g p f hg ho hw hf ha hp =>
    h.missed a g p f hg ho hw hf ha fun hmem => hp (hsub hmem)⟩

/-- A place may be put down when there is nothing to know of it. -/
theorem leave {a p : Nat} (h : Wired ((a, p) :: hand) strands)
    (hleave : ∀ g future, (strands a).gathering = some g → (strands a).outcome = none →
      g.isWide = true → g.accepts p = true → g.futures[p]? = some future →
      result strands future = none) : Wired hand strands where
  heard := h.heard
  told := h.told
  ordered := h.ordered
  held b q hmem := h.held b q (List.mem_cons_of_mem _ hmem)
  due := h.due
  taken := h.taken
  missed b g q f hg ho hw hf ha hq := by
    by_cases heq : (b, q) = (a, p)
    · obtain ⟨rfl, rfl⟩ := Prod.mk.inj heq
      exact hleave g f hg ho hw ha hf
    · exact h.missed b g q f hg ho hw hf ha fun hmem =>
        (List.mem_cons.mp hmem).elim heq hq

/-- What is due or taken at one who gathers changes. -/
theorem regather {a : Nat} {g g' : Gathering} (h : Wired hand strands)
    (hg : (strands a).gathering = some g) (hf : g'.futures = g.futures)
    (hdue : g'.due.Nodup ∧ ∀ p ∈ g'.due, p < g.futures.length)
    (htaken : ∀ p ∈ g'.taken, p ∈ g.taken ∨
      ∀ future, g.futures[p]? = some future → (result strands future).isSome = true)
    (hheld : ∀ b p, (b, p) ∈ hand' → (b, p) ∈ hand ∨ b = a ∧ p < g.futures.length)
    (hmissed : ∀ b p, (b, p) ∉ hand' → (b = a → g'.accepts p = true) →
      (b, p) ∉ hand ∧ (b = a → g.accepts p = true)) :
    Wired hand' (regathered strands a g') where
  heard b g1 p k hb hk := by
    rw [regathered_waiters]
    rcases regathered_cases hb with ⟨rfl, rfl⟩ | ⟨-, hb⟩
    · exact h.heard b g p k hg (hf ▸ hk)
    · exact h.heard b g1 p k hb hk
  told k b p hmem := by
    rw [regathered_waiters] at hmem
    exact (h.told k b p hmem).regathered hg hf
  ordered k b p hmem := by
    rw [regathered_waiters] at hmem
    exact h.ordered k b p hmem
  held b p hmem := by
    rcases hheld b p hmem with hmem | ⟨rfl, hp⟩
    · exact (h.held b p hmem).regathered hg hf
    · exact Seats.regathered hg hf ⟨g, hg, hp⟩
  due b g1 hb := by
    rcases regathered_cases hb with ⟨rfl, rfl⟩ | ⟨-, hb⟩
    · exact ⟨hdue.1, fun p hp => hf ▸ hdue.2 p hp⟩
    · exact h.due b g1 hb
  taken b g1 p f hb hp hfuture := by
    rw [result_congr (regathered_outcome strands a · g')]
    rcases regathered_cases hb with ⟨rfl, rfl⟩ | ⟨-, hb⟩
    · rw [hf] at hfuture
      exact (htaken p hp).elim (h.taken b g p f hg · hfuture) fun hr => hr f hfuture
    · exact h.taken b g1 p f hb hp hfuture
  missed b g1 p f hb ho hw hfuture ha hp := by
    rw [regathered_outcome] at ho
    rw [result_congr (regathered_outcome strands a · g')]
    rcases regathered_cases hb with ⟨rfl, rfl⟩ | ⟨hne, hb⟩
    · obtain ⟨hp, ha⟩ := hmissed b p hp fun _ => ha
      have hwide : g.isWide = true := by rwa [Gathering.isWide, hf] at hw
      exact h.missed b g p f hg ho hwide (hf ▸ hfuture) (ha rfl) hp
    · exact h.missed b g1 p f hb ho hw hfuture ha (hmissed b p hp fun heq => absurd heq hne).1

theorem result_ended {k : Nat} {outcome : Outcome} {future : Future}
    (h : (result strands future).isSome = true) :
    (result (ended strands k outcome) future).isSome = true := by
  cases future with
  | settled => rfl
  | call j =>
    by_cases hj : j = k
    · subst hj
      rw [result, ended_self]
      rfl
    · rwa [result, ended_of_ne _ _ _ _ hj]

/-- A call ends, and all who gather it are to be told. -/
theorem finish (k : Nat) (h : Wired hand strands) (outcome : Outcome) :
    Wired ((strands k).waiters ++ hand) (ended strands k outcome) where
  heard a g p j hg hj := by
    rw [ended_gathering] at hg
    rw [ended_waiters]
    exact h.heard a g p j hg hj
  told j a p hmem := by
    rw [ended_waiters] at hmem
    obtain ⟨g, hg, hp⟩ := h.told j a p hmem
    exact ⟨g, by rwa [ended_gathering], hp⟩
  ordered j a p hmem := by
    rw [ended_waiters] at hmem
    exact h.ordered j a p hmem
  held a p hmem := by
    obtain ⟨g, hg, hp⟩ : Seats strands a p :=
      (List.mem_append.mp hmem).elim (h.told k a p) (h.held a p)
    exact ⟨g, by rwa [ended_gathering], hp⟩
  due a g hg := by
    rw [ended_gathering] at hg
    exact h.due a g hg
  taken a g p f hg hp hf := by
    rw [ended_gathering] at hg
    exact result_ended (h.taken a g p f hg hp hf)
  missed a g p f hg ho hw hf ha hp := by
    rw [List.mem_append, not_or] at hp
    rw [ended_gathering] at hg
    have hne : a ≠ k := by
      rintro rfl
      rw [ended_self] at ho
      cases ho
    rw [ended_of_ne _ _ _ _ hne] at ho
    have hmissed := h.missed a g p f hg ho hw hf ha hp.2
    cases f with
    | settled => exact hmissed
    | call j =>
      -- The place would have to be told if the call that ends stood there.
      have hj : j ≠ k := fun heq => hp.1 (heq ▸ h.heard a g p j hg hf)
      rw [result, ended_of_ne _ _ _ _ hj]
      exact hmissed

/-- A call begins to gather others, which are told. -/
theorem gather {strands' : Nat → Strand} (a : Nat) (futures : List Future)
    (h : Wired hand strands) (hnone : (strands a).gathering = none)
    (hgathers : (strands' a).gathering = some { futures })
    (hothers : ∀ b, b ≠ a → (strands' b).gathering = (strands b).gathering)
    (houtcome : ∀ k, (strands' k).outcome = (strands k).outcome)
    (hlater : ∀ k, .call k ∈ futures → a < k)
    (hwaiters : ∀ k b p, (b, p) ∈ (strands' k).waiters ↔
      (b, p) ∈ (strands k).waiters ∨ b = a ∧ futures[p]? = some (.call k)) :
    Wired hand strands' := by
  have hgathering : ∀ b g, (strands' b).gathering = some g →
      (b = a ∧ g = { futures }) ∨ (b ≠ a ∧ (strands b).gathering = some g) := by
    intro b g hb
    by_cases hba : b = a
    · subst hba
      exact .inl ⟨rfl, Option.some.inj (hb.symm.trans hgathers)⟩
    · exact .inr ⟨hba, (hothers b hba).symm.trans hb⟩
  have hseats : ∀ b p, Seats strands b p → Seats strands' b p := by
    rintro b p ⟨g, hg, hp⟩
    have hba : b ≠ a := by
      rintro rfl
      rw [hnone] at hg
      cases hg
    exact ⟨g, (hothers b hba).trans hg, hp⟩
  constructor
  case heard =>
    intro b g p k hb hk
    rw [hwaiters]
    rcases hgathering b g hb with ⟨rfl, rfl⟩ | ⟨-, hb⟩
    · exact .inr ⟨rfl, hk⟩
    · exact .inl (h.heard b g p k hb hk)
  case told =>
    intro k b p hmem
    rcases (hwaiters k b p).mp hmem with hmem | ⟨rfl, hk⟩
    · exact hseats b p (h.told k b p hmem)
    · exact ⟨_, hgathers, (List.getElem?_eq_some_iff.mp hk).1⟩
  case ordered =>
    intro k b p hmem
    rcases (hwaiters k b p).mp hmem with hmem | ⟨rfl, hk⟩
    · exact h.ordered k b p hmem
    · exact hlater k (List.mem_of_getElem? hk)
  case held => exact fun b p hmem => hseats b p (h.held b p hmem)
  case due =>
    intro b g hb
    rcases hgathering b g hb with ⟨rfl, rfl⟩ | ⟨-, hb⟩
    · exact ⟨List.nodup_range, fun p hp => List.mem_range.mp hp⟩
    · exact h.due b g hb
  case taken =>
    intro b g p f hb hp hf
    rw [result_congr houtcome]
    rcases hgathering b g hb with ⟨rfl, rfl⟩ | ⟨-, hb⟩
    · cases hp
    · exact h.taken b g p f hb hp hf
  case missed =>
    intro b g p f hb ho hw hf ha hp
    rw [result_congr houtcome]
    rcases hgathering b g hb with ⟨rfl, rfl⟩ | ⟨-, hb⟩
    · -- At first every place is due.
      have hlt := (List.getElem?_eq_some_iff.mp hf).1
      simp [Gathering.accepts, hlt] at ha
    · exact h.missed b g p f hb ((houtcome b).symm.trans ho) hw hf ha hp

end Wired
end Strand
end OperationTree
