import OperationTree.Numeric.Double

/-! JSON values.  An object lists its members in order; putting a member whose key is there already
keeps the position and replaces the value, so the keys that `Members.insert` builds are distinct. -/

namespace OperationTree

/-- A JSON number: an integer that fits 64 bits, signed or unsigned, or any other number rounded to
binary64. -/
inductive Number where
  | int (value : Int)
  | double (value : Double)
  deriving DecidableEq, Repr

def Number.isZero : Number → Bool
  | int n => n == 0
  | double x => x.isZero

inductive Json where
  | null
  | bool (value : Bool)
  | number (value : Number)
  | string (value : String)
  | array (items : List Json)
  | object (members : List (String × Json))
  deriving Inhabited, Repr

/-- The members of an object, in order. -/
abbrev Members := List (String × Json)

namespace Json

/-- An integer as a JSON number. -/
def ofInt (n : Int) : Json := number (.int n)

def ofNat (n : Nat) : Json := ofInt n

/-- Octets as an array of numbers. -/
def ofOctets (bytes : List UInt8) : Json := array (bytes.map fun b => ofNat b.toNat)

def isNull : Json → Bool
  | null => true
  | _ => false

def isObject : Json → Bool
  | object _ => true
  | _ => false

def asBool? : Json → Option Bool
  | bool b => some b
  | _ => none

def asString? : Json → Option String
  | string s => some s
  | _ => none

def asArray? : Json → Option (List Json)
  | array items => some items
  | _ => none

def asObject? : Json → Option Members
  | object members => some members
  | _ => none

end Json

namespace Members

def get? : Members → String → Option Json
  | [], _ => none
  | (k, v) :: rest, key => if k = key then some v else get? rest key

def keys (members : Members) : List String := members.map Prod.fst

def contains (members : Members) (key : String) : Bool := members.keys.contains key

/-- Replaces the value of `key` where it stands, or appends the member. -/
def insert : Members → String → Json → Members
  | [], key, value => [(key, value)]
  | (k, v) :: rest, key, value =>
    if k = key then (k, value) :: rest else (k, v) :: insert rest key value

/-- Inserts the members of `other` one by one. -/
def extend (members other : Members) : Members :=
  other.foldl (fun acc member => acc.insert member.1 member.2) members

/-- The object with the given members inserted one by one. -/
def ofList (members : List (String × Json)) : Members := extend [] members

/-- No two members have the same key. -/
def Distinct (members : Members) : Prop := members.keys.Nodup

theorem get?_insert (members : Members) (key : String) (value : Json) (other : String) :
    (members.insert key value).get? other =
      if key = other then some value else members.get? other := by
  induction members with
  | nil => simp [insert, get?]
  | cons member rest ih =>
    obtain ⟨k, v⟩ := member
    by_cases hk : k = key
    · subst hk
      by_cases h : k = other <;> simp [insert, get?, h]
    · by_cases h : k = other
      · subst h
        simp [insert, get?, hk, Ne.symm hk]
      · simp [insert, get?, hk, h, ih]

theorem keys_insert (members : Members) (key : String) (value : Json) :
    (members.insert key value).keys =
      if key ∈ members.keys then members.keys else members.keys ++ [key] := by
  induction members with
  | nil => simp [insert, keys]
  | cons member rest ih =>
    obtain ⟨k, v⟩ := member
    by_cases hk : k = key
    · simp [insert, keys, hk]
    · have hcons : ∀ l : Members, keys ((k, v) :: l) = k :: keys l := fun _ => rfl
      simp only [insert, hk, if_false, hcons, ih, List.mem_cons, Ne.symm hk, false_or]
      split <;> simp

theorem mem_of_get? {members : Members} {key : String} {value : Json}
    (h : members.get? key = some value) : (key, value) ∈ members := by
  induction members with
  | nil => cases h
  | cons member rest ih =>
    obtain ⟨k, v⟩ := member
    rw [get?] at h
    split at h
    · next hk => simp [← hk, Option.some.inj h]
    · exact List.mem_cons_of_mem _ (ih h)

theorem mem_keys_of_get? {members : Members} {key : String} {value : Json}
    (h : members.get? key = some value) : key ∈ members.keys :=
  List.mem_map_of_mem (f := Prod.fst) (mem_of_get? h)

theorem Distinct.get?_of_mem {members : Members} (h : members.Distinct) {key : String}
    {value : Json} (hmem : (key, value) ∈ members) : members.get? key = some value := by
  induction members with
  | nil => cases hmem
  | cons member rest ih =>
    obtain ⟨k, v⟩ := member
    rw [Distinct, keys, List.map_cons, List.nodup_cons] at h
    rw [get?]
    rcases List.mem_cons.mp hmem with heq | hrest
    · obtain ⟨rfl, rfl⟩ := Prod.mk.inj heq
      exact if_pos rfl
    · have hkey : key ∈ rest.map Prod.fst := List.mem_map_of_mem (f := Prod.fst) hrest
      rw [if_neg fun heq : k = key => h.1 (heq ▸ hkey), ih h.2 hrest]

theorem Distinct.insert {members : Members} (h : members.Distinct) (key : String) (value : Json) :
    (members.insert key value).Distinct := by
  unfold Distinct
  rw [keys_insert]
  split
  · exact h
  · next hk => exact List.nodup_append.2 ⟨h, by simp, by rintro a ha b hb rfl; simp_all⟩

theorem Distinct.extend {members : Members} (h : members.Distinct) (other : Members) :
    (members.extend other).Distinct := by
  unfold Members.extend
  induction other generalizing members with
  | nil => exact h
  | cons member rest ih => exact ih (h.insert member.1 member.2)

theorem Distinct.ofList (members : List (String × Json)) : (Members.ofList members).Distinct :=
  (show Distinct [] from .nil).extend members

end Members

namespace Json

/-- The member `key` of an object; any other value has no members. -/
def get? : Json → String → Option Json
  | object members, key => Members.get? members key
  | _, _ => none

/-- The member `key`, when it is a string. -/
def string? (value : Json) (key : String) : Option String := (value.get? key).bind asString?

/-- The member `key`, when it is an object. -/
def object? (value : Json) (key : String) : Option Members := (value.get? key).bind asObject?

end Json
end OperationTree
