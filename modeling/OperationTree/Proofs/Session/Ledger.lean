import OperationTree.Proofs.Session.Step

/-! The registries.  A registry has to know three things of a call: its tracker, its id, and whether
it is open.  A `Ledger` is what remains of a session when only this is kept of the calls, every step
of a session is at most one step of its ledger, and `Ledger.Sound` says how the entries of trackers
and the calls belong together.  What a program sees of a registry follows from it, whatever the
order of registering, polling and letting go. -/

namespace OperationTree

/-- What a registry has to know of a call. -/
structure Mark where
  tracker : Nat
  id : Nat
  isOpen : Bool

namespace Mark

def place (m : Mark) : Nat × Nat := (m.tracker, m.id)

def close (m : Mark) : Mark := { m with isOpen := false }

@[simp] theorem place_close (m : Mark) : m.close.place = m.place := rfl

end Mark

def Call.mark (c : Call) : Mark where
  tracker := c.tracker
  id := c.id
  isOpen := c.outcome.isNone

/-- Trackers, and the marks of all calls in the order in which they were registered. -/
structure Ledger where
  trackers : List Tracker
  marks : List Mark

namespace Ledger

/-- The ids of a tracker's calls, in the order in which they were registered. -/
def ids (l : Ledger) (tracker : Nat) : List Nat :=
  ((l.marks.map Mark.place).filter fun place => place.1 == tracker).map Prod.snd

/-- What can happen to a ledger. -/
inductive Step : Ledger → Ledger → Prop
  | register {l : Ledger} {n : Nat} {t : Tracker} (ht : l.trackers[n]? = some t)
    (hheld : t.isHeld = true) :
    Step l ⟨l.trackers.modify n (·.insert l.marks.length), l.marks ++ [⟨n, t.lastId + 1, true⟩]⟩
  | finish {l : Ledger} {k : Nat} {m : Mark} (hm : l.marks[k]? = some m) (ho : m.isOpen = true) :
    Step l ⟨l.trackers.modify m.tracker (·.erase m.id), l.marks.set k m.close⟩
  | addTracker (l : Ledger) : Step l ⟨l.trackers ++ [({} : Tracker)], l.marks⟩
  | discard (l : Ledger) (n : Nat) : Step l ⟨l.trackers.modify n Tracker.discard, l.marks⟩

/-- The entries of a tracker that is held are its open calls, and its ids count its calls. -/
structure Sound (l : Ledger) : Prop where
  numbered : ∀ (n : Nat) (t : Tracker), l.trackers[n]? = some t →
    l.ids n = List.range' 1 t.lastId
  placed : ∀ m ∈ l.marks, m.tracker < l.trackers.length
  distinct : (l.marks.map Mark.place).Nodup
  ascending : ∀ t ∈ l.trackers, t.ids.Pairwise (· < ·)
  held : ∀ (n : Nat) (t : Tracker), l.trackers[n]? = some t → t.isHeld = true →
    ∀ i k, (i, k) ∈ t.entries ↔ l.marks[k]? = some ⟨n, i, true⟩

variable {l : Ledger}

theorem mem_ids {n i : Nat} : i ∈ l.ids n ↔ (n, i) ∈ l.marks.map Mark.place := by
  simp [ids]

namespace Sound

/-- No two calls of a tracker have the same id. -/
theorem unique (hl : l.Sound) {j k : Nat} {m m' : Mark} (hj : l.marks[j]? = some m)
    (hk : l.marks[k]? = some m') (h : m.place = m'.place) : j = k := by
  have hlt : j < (l.marks.map Mark.place).length := by
    simpa using (List.getElem?_eq_some_iff.mp hj).1
  refine (List.getElem?_inj hlt hl.distinct).mp ?_
  simp [hj, hk, h]

theorem id_le (hl : l.Sound) {k n i : Nat} {isOpen : Bool} {t : Tracker}
    (ht : l.trackers[n]? = some t) (hk : l.marks[k]? = some ⟨n, i, isOpen⟩) :
    1 ≤ i ∧ i ≤ t.lastId := by
  have hmem : i ∈ l.ids n := mem_ids.mpr (List.mem_map.mpr ⟨_, List.mem_of_getElem? hk, rfl⟩)
  rw [hl.numbered n t ht, List.mem_range'_1] at hmem
  omega

theorem entry_id_le (hl : l.Sound) {n i : Nat} {t : Tracker} (ht : l.trackers[n]? = some t)
    (hheld : t.isHeld = true) (hi : i ∈ t.ids) : 1 ≤ i ∧ i ≤ t.lastId := by
  obtain ⟨⟨j, k⟩, hmem, rfl⟩ := List.mem_map.mp hi
  exact hl.id_le ht ((hl.held n t ht hheld j k).mp hmem)

theorem initial : Sound ⟨[], []⟩ := by
  constructor <;> simp

end Sound

theorem mem_modify {trackers : List Tracker} {n : Nat} {f : Tracker → Tracker} {t : Tracker}
    (h : t ∈ trackers.modify n f) :
    (∃ old, trackers[n]? = some old ∧ t = f old) ∨ t ∈ trackers := by
  obtain ⟨m, hm⟩ := List.mem_iff_getElem?.mp h
  exact (Session.getElem?_modify_eq_some hm).imp And.right fun hold => List.mem_of_getElem? hold.2

/-! ### Registering -/

section Register

variable (hl : l.Sound) {n : Nat} {t : Tracker} (ht : l.trackers[n]? = some t)

theorem ids_append (trackers : List Tracker) (n i m : Nat) :
    ids ⟨trackers, l.marks ++ [⟨n, i, true⟩]⟩ m = l.ids m ++ if n = m then [i] else [] := by
  simp only [ids, List.map_append, List.filter_append]
  by_cases h : n = m <;> simp [Mark.place, h]

include hl ht

/-- The next id has not been given away. -/
theorem next_place_free : (n, t.lastId + 1) ∉ l.marks.map Mark.place := fun hmem => by
  rw [← mem_ids, hl.numbered n t ht, List.mem_range'_1] at hmem
  omega

theorem insert_ascending (hheld : t.isHeld = true) (k : Nat) :
    (t.insert k).ids.Pairwise (· < ·) := by
  rw [Tracker.ids, Tracker.insert, List.map_append]
  refine List.pairwise_append.mpr ⟨hl.ascending t (List.mem_of_getElem? ht), by simp, ?_⟩
  intro a ha b hb
  obtain rfl : b = t.lastId + 1 := by simpa using hb
  have := hl.entry_id_le ht hheld ha
  omega

theorem sound_register (hheld : t.isHeld = true) :
    Sound ⟨l.trackers.modify n (·.insert l.marks.length),
      l.marks ++ [⟨n, t.lastId + 1, true⟩]⟩ := by
  constructor
  case numbered =>
    intro m t' ht'
    rw [ids_append]
    rcases Session.getElem?_modify_eq_some ht' with ⟨rfl, old, hold, rfl⟩ | ⟨hm, hold⟩
    · obtain rfl := Option.some.inj (ht.symm.trans hold)
      rw [hl.numbered m t ht, if_pos rfl, Tracker.insert, List.range'_concat, Nat.one_mul,
        Nat.add_comm 1]
    · rw [hl.numbered m t' hold, if_neg (Ne.symm hm), List.append_nil]
  case placed =>
    intro m hm
    rw [List.length_modify]
    rcases List.mem_append.mp hm with hold | hlast
    · exact hl.placed m hold
    · obtain rfl := List.mem_singleton.mp hlast
      exact (List.getElem?_eq_some_iff.mp ht).1
  case distinct =>
    rw [List.map_append, List.nodup_append]
    refine ⟨hl.distinct, by simp, ?_⟩
    intro a ha b hb heq
    obtain rfl : b = (n, t.lastId + 1) := by simpa [Mark.place] using hb
    exact next_place_free hl ht (heq ▸ ha)
  case ascending =>
    intro t' ht'
    rcases mem_modify ht' with ⟨old, hold, rfl⟩ | hold
    · obtain rfl := Option.some.inj (ht.symm.trans hold)
      exact insert_ascending hl ht hheld _
    · exact hl.ascending t' hold
  case held =>
    intro m t' ht' hheld' i k
    rw [Session.getElem?_append_eq_some]
    rcases Session.getElem?_modify_eq_some ht' with ⟨rfl, old, hold, rfl⟩ | ⟨hm, hold⟩
    · obtain rfl := Option.some.inj (ht.symm.trans hold)
      rw [Tracker.insert, List.mem_append, hl.held m t ht hheld i k]
      refine or_congr_right ?_
      simp only [List.mem_singleton, Prod.mk.injEq, Mark.mk.injEq]
      rw [and_comm, eq_comm (a := i)]
      simp
    · rw [hl.held m t' hold hheld' i k]
      refine (or_iff_left fun hlast => hm ?_).symm
      exact (congrArg Mark.tracker hlast.2).symm

end Register

/-! ### Finishing -/

section Finish

variable {k : Nat} {m : Mark} (hm : l.marks[k]? = some m)

include hm in
theorem places_finish : (l.marks.set k m.close).map Mark.place = l.marks.map Mark.place :=
  Session.map_set_eq hm m.place_close

/-- The mark of the call itself is closed, and the others stay as they are. -/
theorem getElem?_marks_finish {n i j : Nat} :
    (l.marks.set k m.close)[j]? = some ⟨n, i, true⟩ ↔
      l.marks[j]? = some ⟨n, i, true⟩ ∧ k ≠ j := by
  rw [List.getElem?_set]
  split
  · next h => simp [h, Mark.close]
  · next h => simp [h]

include hm in
/-- Erasing the id of a call takes its entry from the tracker, and no other. -/
theorem mem_erase (hl : l.Sound) {t : Tracker} (ht : l.trackers[m.tracker]? = some t)
    (hheld : t.isHeld = true) {i j : Nat} :
    (i, j) ∈ (t.erase m.id).entries ↔ (i, j) ∈ t.entries ∧ k ≠ j := by
  rw [Tracker.erase, List.mem_filter, bne_iff_ne]
  refine and_congr_right fun hmem => not_congr ?_
  have hj := (hl.held m.tracker t ht hheld i j).mp hmem
  constructor
  · intro hi
    exact hl.unique hm hj (Prod.ext rfl hi.symm)
  · rintro rfl
    exact (congrArg Mark.id (Option.some.inj (hm.symm.trans hj))).symm

include hm in
theorem sound_finish (hl : l.Sound) :
    Sound ⟨l.trackers.modify m.tracker (·.erase m.id), l.marks.set k m.close⟩ := by
  have hplaces := places_finish hm
  constructor
  case numbered =>
    intro n t' ht'
    rw [ids, hplaces]
    rcases Session.getElem?_modify_eq_some ht' with ⟨rfl, old, hold, rfl⟩ | ⟨-, hold⟩
    · exact hl.numbered m.tracker old hold
    · exact hl.numbered n t' hold
  case placed =>
    intro m' hm'
    rw [List.length_modify]
    rcases List.mem_or_eq_of_mem_set hm' with hold | rfl
    · exact hl.placed m' hold
    · exact hl.placed m (List.mem_of_getElem? hm)
  case distinct =>
    rw [hplaces]
    exact hl.distinct
  case ascending =>
    intro t' ht'
    rcases mem_modify ht' with ⟨old, hold, rfl⟩ | hold
    · have hasc := hl.ascending old (List.mem_of_getElem? hold)
      exact hasc.sublist (List.filter_sublist.map Prod.fst)
    · exact hl.ascending t' hold
  case held =>
    intro n t' ht' hheld i j
    rw [getElem?_marks_finish]
    rcases Session.getElem?_modify_eq_some ht' with ⟨rfl, old, hold, rfl⟩ | ⟨hn, hold⟩
    · rw [mem_erase hm hl hold hheld, hl.held m.tracker old hold hheld i j]
    · rw [hl.held n t' hold hheld i j]
      refine (and_iff_left_of_imp fun hj hk => hn ?_).symm
      subst hk
      exact (congrArg Mark.tracker (Option.some.inj (hm.symm.trans hj))).symm

end Finish

/-! ### New trackers, and those that are let go -/

theorem sound_addTracker (hl : l.Sound) :
    Sound ⟨l.trackers ++ [({} : Tracker)], l.marks⟩ := by
  -- The new tracker has no entry, and no call has been registered in it.
  have hfree : ∀ m ∈ l.marks, m.tracker ≠ l.trackers.length := by
    intro m hm h
    have := hl.placed m hm
    omega
  constructor
  case numbered =>
    intro n t ht
    rcases Session.getElem?_append_eq_some.mp ht with hold | ⟨rfl, rfl⟩
    · exact hl.numbered n t hold
    · rw [ids, List.filter_eq_nil_iff.mpr]
      · rfl
      · intro place hplace
        obtain ⟨m, hm, rfl⟩ := List.mem_map.mp hplace
        simpa [Mark.place] using hfree m hm
  case placed =>
    intro m hm
    have := hl.placed m hm
    rw [List.length_append, List.length_singleton]
    omega
  case distinct => exact hl.distinct
  case ascending =>
    intro t ht
    rcases List.mem_append.mp ht with hold | hnew
    · exact hl.ascending t hold
    · obtain rfl := List.mem_singleton.mp hnew
      exact .nil
  case held =>
    intro n t ht hheld i k
    rcases Session.getElem?_append_eq_some.mp ht with hold | ⟨rfl, rfl⟩
    · exact hl.held n t hold hheld i k
    · refine ⟨(nomatch ·), fun hk => ?_⟩
      exact absurd rfl (hfree _ (List.mem_of_getElem? hk))

theorem sound_discard (hl : l.Sound) (n : Nat) :
    Sound ⟨l.trackers.modify n Tracker.discard, l.marks⟩ := by
  constructor
  case numbered =>
    intro m t ht
    rcases Session.getElem?_modify_eq_some ht with ⟨rfl, old, hold, rfl⟩ | ⟨-, hold⟩
    · exact hl.numbered m old hold
    · exact hl.numbered m t hold
  case placed =>
    intro m hm
    simpa only [List.length_modify] using hl.placed m hm
  case distinct => exact hl.distinct
  case ascending =>
    intro t ht
    rcases mem_modify ht with ⟨old, -, rfl⟩ | hold
    · exact .nil
    · exact hl.ascending t hold
  case held =>
    intro m t ht hheld i k
    rcases Session.getElem?_modify_eq_some ht with ⟨-, old, -, rfl⟩ | ⟨-, hold⟩
    · cases hheld
    · exact hl.held m t hold hheld i k

theorem Step.sound {l' : Ledger} (h : l.Step l') (hl : l.Sound) : l'.Sound := by
  cases h with
  | register ht hheld => exact sound_register hl ht hheld
  | finish hm _ => exact sound_finish hm hl
  | addTracker => exact sound_addTracker hl
  | discard n => exact sound_discard hl n

/-- Every entry is that of a call. -/
def IsBounded (l : Ledger) : Prop :=
  ∀ t ∈ l.trackers, ∀ entry ∈ t.entries, entry.2 < l.marks.length

theorem Step.isBounded {l' : Ledger} (h : l.Step l') (hl : l.IsBounded) : l'.IsBounded := by
  intro t' ht' entry hentry
  cases h with
  | register ht =>
    rw [List.length_append, List.length_singleton]
    rcases mem_modify ht' with ⟨old, hold, rfl⟩ | hold
    · rcases List.mem_append.mp hentry with hmem | hlast
      · exact Nat.lt_succ_of_lt (hl old (List.mem_of_getElem? hold) entry hmem)
      · rw [List.mem_singleton.mp hlast]
        exact Nat.lt_succ_self _
    · exact Nat.lt_succ_of_lt (hl t' hold entry hentry)
  | finish =>
    rw [List.length_set]
    rcases mem_modify ht' with ⟨old, hold, rfl⟩ | hold
    · exact hl old (List.mem_of_getElem? hold) entry (List.mem_filter.mp hentry).1
    · exact hl t' hold entry hentry
  | addTracker =>
    rcases List.mem_append.mp ht' with hold | hnew
    · exact hl t' hold entry hentry
    · rw [List.mem_singleton.mp hnew] at hentry
      cases hentry
  | discard =>
    rcases mem_modify ht' with ⟨old, -, rfl⟩ | hold
    · cases hentry
    · exact hl t' hold entry hentry

end Ledger
end OperationTree
