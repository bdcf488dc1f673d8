import Mathlib.Data.List.Induction
import OperationTree.Aggregate
import OperationTree.Proofs.Json.Keys

/-! Merging the results of an aggregate.  Members are inserted one by one, so that a key stands
where it has appeared first and has the value that was inserted last.  Merging objects is inserting
the members of all of them, and members that have been put together before may be inserted in place
of those from which they were. -/

namespace OperationTree

namespace Members

theorem ofList_append (members later : Members) :
    ofList (members ++ later) = (ofList members).extend later :=
  List.foldl_append

/-- The keys of members that are inserted stand in the order in which they appear first. -/
theorem keys_extend (members other : Members) :
    (members.extend other).keys =
      members.keys ++ (other.keys.removeAll members.keys).eraseDups := by
  unfold extend
  induction other generalizing members with
  | nil => simp [keys, List.removeAll]
  | cons member rest ih =>
    obtain ⟨key, value⟩ := member
    have hcons : keys ((key, value) :: rest) = key :: keys rest := rfl
    rw [List.foldl_cons, ih, keys_insert, hcons]
    by_cases hkey : key ∈ members.keys
    · simp [hkey, List.removeAll]
    · -- The key itself is the first occurrence, and later ones are passed over.
      have hrest : (keys rest).removeAll (members.keys ++ [key]) =
          ((keys rest).removeAll members.keys).filter fun other => !other == key := by
        rw [List.removeAll, List.removeAll, List.filter_filter]
        refine List.filter_congr fun other _ => ?_
        simp [Bool.and_comm, Bool.beq_eq_decide_eq]
      have hfirst : (key :: keys rest).removeAll members.keys =
          key :: (keys rest).removeAll members.keys := by
        simp [List.removeAll, hkey]
      rw [if_neg hkey, hrest, hfirst, List.eraseDups_cons, List.append_assoc,
        List.singleton_append]

theorem keys_ofList (members : Members) : (ofList members).keys = members.keys.eraseDups := by
  have hnone : members.keys.removeAll [] = members.keys := by simp [List.removeAll]
  rw [ofList, keys_extend]
  exact congrArg List.eraseDups hnone

/-! ### Inserting members that have been put together -/

theorem insert_insert_self (members : Members) (key : String) (value other : Json) :
    (members.insert key other).insert key value = members.insert key value := by
  induction members with
  | nil => simp [insert]
  | cons member rest ih =>
    obtain ⟨name, old⟩ := member
    by_cases hname : name = key <;> simp [insert, hname, ih]

/-- A key that is there keeps its place, whatever other key is inserted before. -/
theorem insert_comm {members : Members} {key name : String} (hne : name ≠ key)
    (hkey : key ∈ members.keys) (value other : Json) :
    (members.insert name other).insert key value =
      (members.insert key value).insert name other := by
  induction members with
  | nil => cases hkey
  | cons member rest ih =>
    obtain ⟨first, old⟩ := member
    by_cases hfirst : first = key
    · subst hfirst
      simp [insert, Ne.symm hne]
    · have hrest : key ∈ keys rest := (List.mem_cons.mp hkey).resolve_left (Ne.symm hfirst)
      by_cases hname : first = name <;> simp [insert, hfirst, hname, hne, ih hrest]

theorem extend_insert_of_mem {members other : Members} {key : String} (hkey : key ∈ members.keys)
    (hnew : key ∉ other.keys) (value : Json) :
    (members.extend other).insert key value = (members.insert key value).extend other := by
  unfold extend
  induction other generalizing members with
  | nil => rfl
  | cons member rest ih =>
    obtain ⟨hne, hrest⟩ := not_or.mp (fun h => hnew (List.mem_cons.mpr h))
    have hkept : key ∈ (members.insert member.1 member.2).keys := by
      rw [keys_insert]
      split
      · exact hkey
      · exact List.mem_append_left _ hkey
    rw [List.foldl_cons, List.foldl_cons, ih hkept hrest, insert_comm (Ne.symm hne) hkey]

theorem extend_insert (members : Members) {other : Members} (h : other.Distinct) (key : String)
    (value : Json) : members.extend (other.insert key value) =
      (members.extend other).insert key value := by
  induction other generalizing members with
  | nil => rfl
  | cons member rest ih =>
    obtain ⟨name, old⟩ := member
    obtain ⟨hnew, hrest⟩ := List.nodup_cons.mp h
    by_cases hname : name = key
    · subst hname
      have hthere : name ∈ (members.insert name old).keys :=
        mem_keys_of_get? (by rw [get?_insert, if_pos rfl])
      have hlater := extend_insert_of_mem hthere hnew value
      rw [insert_insert_self] at hlater
      rw [insert, if_pos rfl]
      exact hlater.symm
    · rw [insert, if_neg hname]
      exact ih (members.insert name old) hrest

/-- Members put together are as good as those from which they were. -/
theorem extend_ofList (members other : Members) :
    members.extend (ofList other) = members.extend other := by
  induction other using List.reverseRecOn with
  | nil => rfl
  | append_singleton other member ih =>
    have hlast : ofList (other ++ [member]) = (ofList other).insert member.1 member.2 :=
      ofList_append other [member]
    rw [hlast, extend_insert members (Distinct.ofList other), ih, extend, extend,
      List.foldl_append]
    rfl

theorem ofList_ofList (members : Members) : ofList (ofList members) = ofList members :=
  extend_ofList [] members

end Members

namespace Aggregate

/-- The members that the objects among values have together: the keys in the order in which they
appear first, each with the value of the last object that has it. -/
structure IsMergeOf (members : Members) (results : List Json) : Prop where
  keys : members.keys = ((results.filterMap Json.asObject?).flatMap Members.keys).eraseDups
  values : ∀ key value, members.get? key = some value ↔ ∃ before last after,
    results = before ++ last :: after ∧ last.get? key = some value ∧
      ∀ result ∈ after, result.get? key = none

theorem merged_eq (results : List Json) :
    merged results = Members.ofList (results.filterMap Json.asObject?).flatten :=
  List.foldl_flatten.symm

theorem merged_append (results later : List Json) :
    merged (results ++ later) = (merged results).extend (merged later) := by
  rw [merged_eq, merged_eq, merged_eq, Members.extend_ofList, List.filterMap_append,
    List.flatten_append, Members.ofList_append]

/-- The value of a key is that of the last of the objects that have it. -/
theorem get?_merged {results : List Json}
    (h : ∀ members : Members, .object members ∈ results → members.Distinct) (key : String) :
    (merged results).get? key = results.reverse.findSome? (Json.get? · key) := by
  induction results using List.reverseRecOn with
  | nil => rfl
  | append_singleton results result ih =>
    have hresults := ih fun members hmem => h members (List.mem_append_left _ hmem)
    rw [List.reverse_append, List.reverse_singleton, List.singleton_append, List.findSome?_cons,
      ← hresults, merged_append]
    cases result with
    | object members =>
      have hlast : merged [.object members] = Members.ofList members := rfl
      rw [hlast, Members.extend_ofList, Members.get?_extend _ (h members (by simp))]
      cases hget : Json.get? (.object members) key <;>
        · rw [Json.get?] at hget
          rw [hget]
          rfl
    | _ => rfl

theorem merged_isMergeOf {results : List Json}
    (h : ∀ members : Members, .object members ∈ results → members.Distinct) :
    IsMergeOf (merged results) results where
  keys := by
    rw [merged_eq, Members.keys_ofList, List.flatMap_def, Members.keys, List.map_flatten]
    rfl
  values key value := by
    rw [get?_merged h, List.findSome?_eq_some_iff]
    constructor
    · rintro ⟨after, last, before, heq, hlast, hnone⟩
      refine ⟨before.reverse, last, after.reverse, ?_, hlast, fun result hmem => ?_⟩
      · rw [← List.reverse_reverse results, heq]
        simp
      · exact hnone result (List.mem_reverse.mp hmem)
    · rintro ⟨before, last, after, rfl, hlast, hnone⟩
      refine ⟨after.reverse, last, before.reverse, by simp, hlast, fun result hmem => ?_⟩
      exact hnone result (List.mem_reverse.mp hmem)

theorem merge_eq_error_iff {results : List Json} :
    merge results = .error .aggregate ↔ ∀ result ∈ results, result.isObject = false := by
  have hany : (∀ result ∈ results, result.isObject = false) ↔
      results.any Json.isObject = false := by simp
  rw [merge, hany]
  cases results.any Json.isObject <;> simp

theorem merge_eq_ok {results : List Json} (h : ∃ result ∈ results, result.isObject = true) :
    merge results = .ok (.object (merged results)) :=
  if_pos (List.any_eq_true.mpr h)

theorem merge_filter (results : List Json) :
    merge (results.filter Json.isObject) = merge results := by
  have hobjects : (results.filter Json.isObject).filterMap Json.asObject? =
      results.filterMap Json.asObject? := by
    rw [List.filterMap_filter]
    refine congrArg (List.filterMap · results) (funext fun result => ?_)
    cases result <;> rfl
  have hany : (results.filter Json.isObject).any Json.isObject = results.any Json.isObject := by
    rw [List.any_filter]
    simp
  rw [merge, merge, merged, merged, hobjects, hany]

/-- What has been merged can stand for the values from which it was. -/
theorem merge_append {results later : List Json}
    (h : ∃ result ∈ results, result.isObject = true) :
    merge (results ++ later) = merge [.object (merged results), .object (merged later)] := by
  have hfirst : merged [.object (merged results)] = merged results := by
    rw [merged_eq results]
    exact Members.ofList_ofList _
  have hsecond : (merged results).extend (merged [.object (merged later)]) =
      (merged results).extend (merged later) :=
    Members.extend_ofList _ _
  have htogether : merged (results ++ later) =
      merged ([.object (merged results)] ++ [.object (merged later)]) := by
    rw [merged_append, merged_append, hfirst, hsecond]
  obtain ⟨result, hmem, hobject⟩ := h
  rw [merge_eq_ok ⟨result, List.mem_append_left _ hmem, hobject⟩, htogether]
  exact (merge_eq_ok ⟨_, List.mem_cons_self, rfl⟩).symm

/-- Merging fails exactly if no value is an object.  Otherwise it gives the members that the objects
have together, and merging in parts comes to the same as merging at once. -/
theorem merge_of_objects (results later : List Json)
    (h : ∀ members : Members, .object members ∈ results → members.Distinct) :
    (merge results = .error .aggregate ↔ ∀ result ∈ results, result.isObject = false) ∧
    ((∃ result ∈ results, result.isObject = true) →
      ∃ members, merge results = .ok (.object members) ∧ IsMergeOf members results) ∧
    merge (results.filter Json.isObject) = merge results ∧
    ((∃ result ∈ results, result.isObject = true) →
      (∃ result ∈ later, result.isObject = true) →
      ∃ first second, merge results = .ok first ∧ merge later = .ok second ∧
        merge (results ++ later) = merge [first, second]) := by
  refine ⟨merge_eq_error_iff, fun hobject => ?_, merge_filter results, fun hobject hlater => ?_⟩
  · exact ⟨merged results, merge_eq_ok hobject, merged_isMergeOf h⟩
  · exact ⟨_, _, merge_eq_ok hobject, merge_eq_ok hlater, merge_append hobject⟩

/-- Objects that share keys, with other values between them. -/
def overlappingObjects : List Json :=
  [.object [("a", .string "1"), ("b", .string "1")], .string "x",
    .object [("c", .null), ("b", .string "2")], .array []]

theorem merge_of_objects_overlapping :
    (∃ members : Members, merge overlappingObjects = .ok (.object members) ∧
      IsMergeOf members overlappingObjects ∧ members.keys = ["a", "b", "c"]) ∧
    ∃ first second, merge overlappingObjects = .ok first ∧
      merge [.object [("d", .null), ("a", .string "3")]] = .ok second ∧
      merge (overlappingObjects ++ [.object [("d", .null), ("a", .string "3")]]) =
        merge [first, second] := by
  have hdistinct : ∀ members : Members, .object members ∈ overlappingObjects →
      members.Distinct := by
    intro members hmem
    simp only [overlappingObjects, List.mem_cons, Json.object.injEq, reduceCtorEq, false_or,
      List.not_mem_nil, or_false] at hmem
    rcases hmem with rfl | rfl <;> decide
  obtain ⟨-, hmerged, -, hparts⟩ :=
    merge_of_objects overlappingObjects [.object [("d", .null), ("a", .string "3")]] hdistinct
  have hobject : ∃ result ∈ overlappingObjects, result.isObject = true :=
    ⟨_, List.mem_cons_self, rfl⟩
  obtain ⟨members, hmembers, htogether⟩ := hmerged hobject
  exact ⟨⟨members, hmembers, htogether, htogether.keys.trans (by decide +kernel)⟩,
    hparts hobject ⟨_, List.mem_cons_self, rfl⟩⟩

end Aggregate
end OperationTree
