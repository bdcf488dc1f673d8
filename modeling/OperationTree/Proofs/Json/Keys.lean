import OperationTree.Json.Reader

/-! What holds of every object that keys lead to inside a value.  In a value that was read from a
text no object has a key twice, since a repeated key replaces the value of the first. -/

namespace OperationTree
namespace Json

mutual

/-- Whether all objects that keys lead to pass a test, the value itself included. -/
def everyObject (test : Members → Bool) : Json → Bool
  | object members => test members && everyMember test members
  | _ => true

def everyMember (test : Members → Bool) : List (String × Json) → Bool
  | [] => true
  | (_, value) :: rest => value.everyObject test && everyMember test rest

end

/-- No object has a key twice. -/
def HasDistinctKeys (value : Json) : Prop := value.everyObject (fun node => node.keys.Nodup) = true

instance (value : Json) : Decidable value.HasDistinctKeys :=
  inferInstanceAs (Decidable (value.everyObject (fun node => node.keys.Nodup) = true))

theorem everyMember_iff {test : Members → Bool} {members : Members} :
    everyMember test members = true ↔
      ∀ member ∈ members, member.2.everyObject test = true := by
  induction members with
  | nil => simp [everyMember]
  | cons member rest ih =>
    rw [everyMember, Bool.and_eq_true, ih, List.forall_mem_cons]

end Json

namespace Members

instance (members : Members) : Decidable members.Distinct :=
  inferInstanceAs (Decidable members.keys.Nodup)

/-- Inserting members one by one brings in no other values. -/
theorem mem_insert {members : Members} {key : String} {value : Json} {member : String × Json}
    (h : member ∈ members.insert key value) : member ∈ members ∨ member.2 = value := by
  induction members with
  | nil => exact .inr (by rw [List.mem_singleton.mp h])
  | cons first rest ih =>
    obtain ⟨k, v⟩ := first
    rw [insert] at h
    split at h
    · rcases List.mem_cons.mp h with rfl | h
      · exact .inr rfl
      · exact .inl (List.mem_cons_of_mem _ h)
    · rcases List.mem_cons.mp h with rfl | h
      · exact .inl (List.mem_cons_self ..)
      · exact (ih h).imp_left (List.mem_cons_of_mem _)

theorem contains_keys (members : Members) (key : String) :
    members.keys.contains key = (members.get? key).isSome := by
  induction members with
  | nil => rfl
  | cons member rest ih =>
    obtain ⟨name, value⟩ := member
    by_cases h : name = key
    · simp [keys, get?, h]
    · rw [get?, if_neg h, ← ih]
      simp [keys, Ne.symm h]

theorem get?_eq_none_iff {members : Members} {key : String} :
    members.get? key = none ↔ key ∉ members.keys := by
  rw [← Option.not_isSome_iff_eq_none, ← contains_keys, List.contains_iff_mem]

theorem get?_append (members later : Members) (key : String) :
    get? (members ++ later) key = (members.get? key).or (later.get? key) := by
  induction members with
  | nil => rfl
  | cons member rest ih =>
    rw [List.cons_append, get?, get?, ih]
    split <;> rfl

/-- The order of members with different keys does not matter. -/
theorem Distinct.get?_perm {members members' : Members} (h : members.Distinct)
    (hperm : members'.Perm members) (key : String) : members'.get? key = members.get? key := by
  have h' : members'.Distinct := (hperm.map Prod.fst).nodup_iff.mpr h
  refine Option.ext fun value => ⟨fun hget => ?_, fun hget => ?_⟩
  · exact h.get?_of_mem (hperm.subset (mem_of_get? hget))
  · exact h'.get?_of_mem (hperm.symm.subset (mem_of_get? hget))

theorem mem_keys_extend {members other : Members} {key : String} :
    key ∈ (members.extend other).keys ↔ key ∈ members.keys ∨ key ∈ other.keys := by
  unfold extend
  induction other generalizing members with
  | nil => simp [keys]
  | cons first rest ih =>
    have hinsert : key ∈ (members.insert first.1 first.2).keys ↔
        key ∈ members.keys ∨ key = first.1 := by
      rw [keys_insert]
      split
      · next hmem => exact ⟨.inl, fun h => h.elim id (· ▸ hmem)⟩
      · simp
    have hcons : keys (first :: rest) = first.1 :: keys rest := rfl
    rw [List.foldl_cons, ih, hinsert, or_assoc, hcons, List.mem_cons]

/-- Of members that are put over others each takes the place of the one with its key. -/
theorem get?_extend (members : Members) {other : Members} (h : other.Distinct) (key : String) :
    (members.extend other).get? key = (other.get? key).or (members.get? key) := by
  unfold extend
  induction other generalizing members with
  | nil => rfl
  | cons first rest ih =>
    obtain ⟨name, value⟩ := first
    obtain ⟨hnew, hrest⟩ := List.nodup_cons.mp h
    rw [List.foldl_cons, ih (members.insert name value) hrest, get?_insert, get?]
    by_cases hname : name = key
    · have hnone : get? rest key = none := get?_eq_none_iff.mpr (hname ▸ hnew)
      rw [hnone, if_pos hname, if_pos hname]
      rfl
    · rw [if_neg hname, if_neg hname]

theorem extend_forall {P : Json → Prop} {members : Members} (hmembers : ∀ m ∈ members, P m.2)
    {other : Members} (hother : ∀ m ∈ other, P m.2) : ∀ m ∈ members.extend other, P m.2 := by
  unfold extend
  induction other generalizing members with
  | nil => exact hmembers
  | cons first rest ih =>
    obtain ⟨hfirst, hrest⟩ := List.forall_mem_cons.mp hother
    refine ih (fun m hm => ?_) hrest
    rcases mem_insert hm with hm | hm
    · exact hmembers m hm
    · exact hm ▸ hfirst

end Members

namespace Json

namespace Reader

theorem forall_items {α : Type} {P : α → Prop} {item : List Char → Option (α × List Char)}
    (hitem : ∀ cs x rest, item cs = some (x, rest) → P x) {close : Char} {fuel : Nat}
    {cs : List Char} {xs : List α} {rest : List Char}
    (h : items item close fuel cs = some (xs, rest)) : ∀ x ∈ xs, P x := by
  induction fuel generalizing cs xs rest with
  | zero => cases h
  | succ fuel ih =>
    rw [items] at h
    split at h
    · cases h
    · next x after hfirst =>
      have hx := hitem _ _ _ hfirst
      split at h
      · cases h
      · split at h
        · obtain ⟨⟨ys, more⟩, hys, heq⟩ := Option.map_eq_some_iff.mp h
          obtain ⟨rfl, -⟩ := Prod.mk.inj heq
          exact List.forall_mem_cons.mpr ⟨hx, ih hys⟩
        · split at h
          · obtain ⟨rfl, -⟩ := Prod.mk.inj (Option.some.inj h)
            exact List.forall_mem_singleton.mpr hx
          · cases h

theorem forall_container {α : Type} {P : α → Prop} {item : List Char → Option (α × List Char)}
    (hitem : ∀ cs x rest, item cs = some (x, rest) → P x) {close : Char} {cs : List Char}
    {xs : List α} {rest : List Char} (h : container item close cs = some (xs, rest)) :
    ∀ x ∈ xs, P x := by
  rw [container] at h
  split at h
  · cases h
  · split at h
    · obtain ⟨rfl, -⟩ := Prod.mk.inj (Option.some.inj h)
      simp
    · exact forall_items hitem h

theorem member_value {α : Type} {purpose : Purpose}
    {field : String → List Char → Option (α × List Char)} {cs : List Char} {x : String × α}
    {rest : List Char} (h : member purpose field cs = some (x, rest)) :
    ∃ key cs', field key cs' = some (x.2, rest) := by
  rw [member] at h
  split at h
  · split at h
    · cases h
    · split at h
      · obtain ⟨⟨y, after⟩, hy, heq⟩ := Option.map_eq_some_iff.mp h
        obtain ⟨rfl, rfl⟩ := Prod.mk.inj heq
        exact ⟨_, _, hy⟩
      · cases h
  · cases h

/-- A property that a value has if its parts have it. -/
structure IsInherited (P : Json → Prop) : Prop where
  null : P null
  bool : ∀ b, P (bool b)
  string : ∀ s, P (string s)
  number : ∀ (numeral : Numeral) n, numeral.number? = some n → P (number n)
  array : ∀ xs, (∀ x ∈ xs, P x) → P (array xs)
  object : ∀ members : Members, members.Distinct → (∀ member ∈ members, P member.2) →
    P (object members)

variable {P : Json → Prop} {purpose : Purpose} {depth : Nat} {cs : List Char} {v : Json}
  {rest : List Char}

theorem IsInherited.scalar (hP : IsInherited P) (h : scalar purpose cs = some (v, rest)) :
    P v := by
  rw [Reader.scalar] at h
  split at h
  · obtain ⟨rfl, -⟩ := Prod.mk.inj (Option.some.inj h)
    exact hP.null
  · obtain ⟨rfl, -⟩ := Prod.mk.inj (Option.some.inj h)
    exact hP.bool true
  · obtain ⟨rfl, -⟩ := Prod.mk.inj (Option.some.inj h)
    exact hP.bool false
  · obtain ⟨_, -, heq⟩ := Option.map_eq_some_iff.mp h
    obtain ⟨rfl, -⟩ := Prod.mk.inj heq
    exact hP.string _
  · split at h
    · cases h
    · split at h
      · next hnumber =>
        obtain ⟨rfl, -⟩ := Prod.mk.inj (Option.some.inj h)
        exact hP.number _ _ hnumber
      · obtain ⟨rfl, -⟩ := Prod.mk.inj (Option.some.inj h)
        exact hP.null
      · cases h

theorem IsInherited.value (hP : IsInherited P) (h : value purpose depth cs = some (v, rest)) :
    P v := by
  induction depth generalizing cs v rest with
  | zero => exact hP.scalar h
  | succ depth ih =>
    rw [Reader.value] at h
    split at h
    · obtain ⟨⟨items, after⟩, hitems, heq⟩ := Option.map_eq_some_iff.mp h
      obtain ⟨rfl, -⟩ := Prod.mk.inj heq
      exact hP.array _ (forall_container (fun _ _ _ => ih) hitems)
    · obtain ⟨⟨members, after⟩, hmembers, heq⟩ := Option.map_eq_some_iff.mp h
      obtain ⟨rfl, -⟩ := Prod.mk.inj heq
      refine hP.object _ (Members.Distinct.ofList members)
        (Members.extend_forall (by simp) (forall_container (fun cs x rest hx => ?_) hmembers))
      obtain ⟨_, _, hfield⟩ := member_value hx
      exact ih hfield
    · exact hP.scalar h

/-- Every value that was read from a text has such a property. -/
theorem IsInherited.of_parse? (hP : IsInherited P) {text : String} (h : parse? text = some v) :
    P v := by
  rw [parse?, parseWithin?, whole] at h
  split at h
  · cases h
  · next hread =>
    split at h
    · obtain rfl := Option.some.inj h
      exact hP.value hread
    · cases h

end Reader

end Json
end OperationTree
