import OperationTree.Proofs.Json.Numerals
import OperationTree.Proofs.Json.Keys

/-! Reading back the compact text of a value.  `Json.reread?` says what comes of it: the same value
with each number read back from its own text, unless the containers nest too deep.  So a value
survives exactly if it nests no deeper than the reader allows and all of its numbers are exact. -/

namespace OperationTree

namespace Members

theorem insert_of_not_mem {members : Members} {key : String} (h : key ∉ members.keys)
    (value : Json) : members.insert key value = members ++ [(key, value)] := by
  induction members with
  | nil => rfl
  | cons member rest ih =>
    obtain ⟨hne, hrest⟩ : ¬key = member.1 ∧ key ∉ keys rest := by simpa [keys] using h
    rw [insert, if_neg (Ne.symm hne), ih hrest, List.cons_append]

/-- Members with different keys are put one behind the other. -/
theorem extend_eq_append {members other : Members} (h : Distinct (members ++ other)) :
    members.extend other = members ++ other := by
  unfold extend
  induction other generalizing members with
  | nil => exact (List.append_nil members).symm
  | cons member rest ih =>
    have hassoc : members ++ member :: rest = members ++ [member] ++ rest := by simp
    have hnew : member.1 ∉ members.keys := by
      rw [Distinct, keys, List.map_append, List.map_cons] at h
      exact fun hmem => (List.nodup_append.mp h).2.2 _ hmem _ (List.mem_cons_self ..) rfl
    rw [hassoc] at h ⊢
    rw [List.foldl_cons, insert_of_not_mem hnew, ih h]

theorem ofList_eq_self {members : Members} (h : members.Distinct) : ofList members = members :=
  extend_eq_append h

end Members

namespace Json

/-- What holds of a value if it holds of its items and members first. -/
theorem induction {P : Json → Prop} (null : P null) (bool : ∀ b, P (bool b))
    (number : ∀ n, P (number n)) (string : ∀ s, P (string s))
    (array : ∀ items, (∀ x ∈ items, P x) → P (array items))
    (object : ∀ members, (∀ member ∈ members, P member.2) → P (object members)) :
    (value : Json) → P value
  | .null => null
  | .bool b => bool b
  | .number n => number n
  | .string s => string s
  | .array items => array items fun x _ =>
    Json.induction null bool number string array object x
  | .object members => object members fun member h =>
    have := List.sizeOf_lt_of_mem h
    have : sizeOf member = 1 + sizeOf member.1 + sizeOf member.2 := rfl
    Json.induction null bool number string array object member.2

/-- Values as they are built: no object has a key twice, and integers fit 64 bits. -/
inductive IsSound : Json → Prop
  | null : IsSound null
  | bool (b : Bool) : IsSound (bool b)
  | number {n : Number} (h : n.Fits) : IsSound (number n)
  | string (s : String) : IsSound (string s)
  | array {items : List Json} (h : ∀ x ∈ items, IsSound x) : IsSound (array items)
  | object {members : Members} (distinct : members.Distinct)
    (h : ∀ member ∈ members, IsSound member.2) : IsSound (object members)

/-- Values whose containers nest at most `depth` deep and whose numbers are all exact. -/
inductive Survives : (depth : Nat) → Json → Prop
  | null {depth : Nat} : Survives depth null
  | bool {depth : Nat} (b : Bool) : Survives depth (bool b)
  | number {depth : Nat} {n : Number} (h : n.IsExact) : Survives depth (number n)
  | string {depth : Nat} (s : String) : Survives depth (string s)
  | array {depth : Nat} {items : List Json} (h : ∀ x ∈ items, Survives depth x) :
    Survives (depth + 1) (array items)
  | object {depth : Nat} {members : Members} (h : ∀ member ∈ members, Survives depth member.2) :
    Survives (depth + 1) (object members)

mutual

/-- The value with its numbers read back, if its containers nest at most `depth` deep. -/
def reread? (depth : Nat) : Json → Option Json
  | number n => n.reread?.map number
  | array items => if depth = 0 then none else (rereadItems? (depth - 1) items).map array
  | object members => if depth = 0 then none else (rereadMembers? (depth - 1) members).map object
  | value => some value

def rereadItems? (depth : Nat) : List Json → Option (List Json)
  | [] => some []
  | x :: rest =>
    match reread? depth x with
    | none => none
    | some y => (rereadItems? depth rest).map (y :: ·)

def rereadMembers? (depth : Nat) : List (String × Json) → Option (List (String × Json))
  | [] => some []
  | (k, x) :: rest =>
    match reread? depth x with
    | none => none
    | some y => (rereadMembers? depth rest).map ((k, y) :: ·)

end

theorem rereadItems?_eq (depth : Nat) (items : List Json) :
    rereadItems? depth items = items.mapM' (reread? depth) := by
  induction items with
  | nil => rfl
  | cons x rest ih =>
    rw [rereadItems?, ih, List.mapM'_cons]
    cases reread? depth x with
    | none => rfl
    | some y => cases rest.mapM' (reread? depth) <;> rfl

/-- A member with its value read back. -/
def rereadMember? (depth : Nat) (member : String × Json) : Option (String × Json) :=
  (member.2.reread? depth).map (member.1, ·)

theorem rereadMembers?_eq (depth : Nat) (members : List (String × Json)) :
    rereadMembers? depth members = members.mapM' (rereadMember? depth) := by
  induction members with
  | nil => rfl
  | cons member rest ih =>
    rw [rereadMembers?, ih, List.mapM'_cons, rereadMember?]
    cases reread? depth member.2 with
    | none => rfl
    | some y => cases rest.mapM' (rereadMember? depth) <;> rfl

theorem rereadMember?_key {depth : Nat} {member member' : String × Json}
    (h : rereadMember? depth member = some member') : member'.1 = member.1 := by
  obtain ⟨x, -, rfl⟩ := Option.map_eq_some_iff.mp h
  rfl

theorem mapM'_cons_eq_some {α β : Type} {f : α → Option β} {x : α} {xs : List α} {ys : List β}
    (h : (x :: xs).mapM' f = some ys) :
    ∃ y more, f x = some y ∧ xs.mapM' f = some more ∧ ys = y :: more := by
  rw [List.mapM'_cons] at h
  obtain ⟨y, hy, h⟩ := Option.bind_eq_some_iff.mp h
  obtain ⟨more, hmore, h⟩ := Option.bind_eq_some_iff.mp h
  exact ⟨y, more, hy, hmore, (Option.some.inj h).symm⟩

/-- The keys stay as they are. -/
theorem keys_reread {depth : Nat} {members members' : Members}
    (h : members.mapM' (rereadMember? depth) = some members') : members'.keys = members.keys := by
  induction members generalizing members' with
  | nil =>
    obtain rfl : [] = members' := Option.some.inj h
    rfl
  | cons member rest ih =>
    obtain ⟨first, more, hfirst, hmore, rfl⟩ := mapM'_cons_eq_some h
    have hkeys := ih hmore
    simp only [Members.keys, List.map_cons] at hkeys ⊢
    rw [rereadMember?_key hfirst, hkeys]

/-- The value of each key is read back. -/
theorem get?_reread {depth : Nat} {members members' : Members}
    (h : members.mapM' (rereadMember? depth) = some members') {key : String} {x : Json}
    (hget : members.get? key = some x) :
    ∃ y, x.reread? depth = some y ∧ members'.get? key = some y := by
  induction members generalizing members' with
  | nil => cases hget
  | cons member rest ih =>
    obtain ⟨first, more, hfirst, hmore, rfl⟩ := mapM'_cons_eq_some h
    obtain ⟨y, hy, rfl⟩ := Option.map_eq_some_iff.mp hfirst
    rw [Members.get?] at hget ⊢
    split at hget
    · next hkey =>
      obtain rfl := Option.some.inj hget
      exact ⟨y, hy, if_pos hkey⟩
    · next hkey =>
      rw [if_neg hkey]
      exact ih hmore hget

theorem mapM'_eq_self {α : Type} {f : α → Option α} {xs : List α} :
    xs.mapM' f = some xs ↔ ∀ x ∈ xs, f x = some x := by
  induction xs with
  | nil => simp
  | cons x xs ih =>
    rw [List.mapM'_cons, List.forall_mem_cons, ← ih]
    cases f x with
    | none => simp
    | some y => cases xs.mapM' f <;> simp

/-- What is read back of an object is an object with the values of its members read back. -/
theorem reread?_object {depth : Nat} {members : Members} {value : Json}
    (h : (object members).reread? depth = some value) :
    depth ≠ 0 ∧ ∃ members', value = object members' ∧
      members.mapM' (rereadMember? (depth - 1)) = some members' := by
  rw [reread?, rereadMembers?_eq] at h
  split at h
  · cases h
  · next hdepth =>
    obtain ⟨members', hmembers, rfl⟩ := Option.map_eq_some_iff.mp h
    exact ⟨hdepth, members', rfl, hmembers⟩

theorem survives_number {depth : Nat} {n : Number} :
    (number n).Survives depth ↔ n.IsExact :=
  ⟨fun h => by cases h; assumption, .number⟩

theorem survives_array {depth : Nat} {items : List Json} :
    (array items).Survives depth ↔ depth ≠ 0 ∧ ∀ x ∈ items, x.Survives (depth - 1) := by
  constructor
  · rintro ⟨⟩
    exact ⟨Nat.succ_ne_zero _, by assumption⟩
  · cases depth with
    | zero => exact fun h => absurd rfl h.1
    | succ depth => exact fun h => .array h.2

theorem survives_object {depth : Nat} {members : Members} :
    (object members).Survives depth ↔
      depth ≠ 0 ∧ ∀ member ∈ members, member.2.Survives (depth - 1) := by
  constructor
  · rintro ⟨⟩
    exact ⟨Nat.succ_ne_zero _, by assumption⟩
  · cases depth with
    | zero => exact fun h => absurd rfl h.1
    | succ depth => exact fun h => .object h.2

theorem rereadMember?_eq_self {depth : Nat} {member : String × Json} :
    rereadMember? depth member = some member ↔ member.2.reread? depth = some member.2 := by
  rw [rereadMember?]
  cases member.2.reread? depth <;> simp [Prod.ext_iff]

/-- A value is read back as it is exactly if it survives. -/
theorem reread?_eq_self {value : Json} {depth : Nat} :
    value.reread? depth = some value ↔ value.Survives depth := by
  induction value using Json.induction generalizing depth with
  | null => exact ⟨fun _ => .null, fun _ => rfl⟩
  | bool b => exact ⟨fun _ => .bool b, fun _ => rfl⟩
  | string s => exact ⟨fun _ => .string s, fun _ => rfl⟩
  | number n =>
    rw [reread?, survives_number, Number.IsExact]
    simp
  | array items ih =>
    rw [reread?, survives_array, rereadItems?_eq]
    split
    · next h => simp [h]
    · next h =>
      rw [and_iff_right h, ← forall₂_congr fun x hx => ih x hx, ← mapM'_eq_self]
      simp
  | object members ih =>
    rw [reread?, survives_object, rereadMembers?_eq]
    split
    · next h => simp [h]
    · next h =>
      rw [and_iff_right h, ← forall₂_congr fun m hm => rereadMember?_eq_self.trans (ih m hm),
        ← mapM'_eq_self]
      simp

/-! ### Reading what was printed -/

/-- Texts with commas between. -/
def joined {α : Type} (text : α → List Char) : List α → List Char
  | [] => []
  | [x] => text x
  | x :: rest => text x ++ ',' :: joined text rest

theorem compactItems_eq (items : List Json) : compactItems items = joined compactChars items := by
  induction items with
  | nil => rfl
  | cons x rest ih =>
    cases rest with
    | nil => rfl
    | cons y rest => rw [compactItems, joined, ih] <;> simp

/-- The text of a member. -/
def memberChars (member : String × Json) : List Char :=
  quoted member.1.toList ++ ':' :: member.2.compactChars

theorem compactMembers_eq (members : List (String × Json)) :
    compactMembers members = joined memberChars members := by
  induction members with
  | nil => rfl
  | cons member rest ih =>
    cases rest with
    | nil => rfl
    | cons other rest => rw [compactMembers, joined, ih, memberChars] <;> simp

namespace Reader

/-- What stands behind an item within a container: a comma or the closing bracket. -/
def Follows (close : Char) (rest : List Char) : Prop :=
  ∃ c more, rest = c :: more ∧ (c = ',' ∨ c = close)

/-- Items are read one by one up to the closing bracket. -/
theorem items_joined {α β : Type} {item : List Char → Option (β × List Char)}
    {text : α → List Char} {result : α → Option β} {close : Char} (hclose : close ≠ ',')
    (hblank : isBlank close = false) {xs : List α} (hne : xs ≠ [])
    (hitem : ∀ x ∈ xs, ∀ rest, Follows close rest →
      item (text x ++ rest) = (result x).map (·, rest))
    {fuel : Nat} (hfuel : xs.length ≤ fuel) (rest : List Char) :
    items item close fuel (joined text xs ++ close :: rest) =
      (xs.mapM' result).map (·, rest) := by
  induction xs generalizing fuel with
  | nil => exact absurd rfl hne
  | cons x xs ih =>
    obtain ⟨hx, hxs⟩ := List.forall_mem_cons.mp hitem
    obtain ⟨fuel, rfl⟩ : ∃ n, fuel = n + 1 := ⟨fuel - 1, by simp at hfuel; omega⟩
    have hskip {c : Char} (hc : isBlank c = false) (more : List Char) :
        skipBlanks (c :: more) = c :: more := List.dropWhile_cons_of_neg (by simp [hc])
    cases xs with
    | nil =>
      rw [joined, items, hx _ ⟨close, rest, rfl, .inr rfl⟩, List.mapM'_cons]
      cases result x with
      | none => rfl
      | some y => simp [hskip hblank, hclose]
    | cons y ys =>
      have hcomma : isBlank ',' = false := rfl
      have hmore := ih (by simp) hxs (Nat.le_of_succ_le_succ hfuel)
      rw [joined, List.append_assoc, List.cons_append, items, hx _ ⟨',', _, rfl, .inl rfl⟩,
        List.mapM'_cons]
      · cases result x with
        | none => rfl
        | some z =>
          simp only [Option.map_some, hskip hcomma, if_true, hmore]
          cases List.mapM' result (y :: ys) <;> rfl
      · simp

theorem length_joined {α : Type} (text : α → List Char) (xs : List α) :
    xs.length ≤ (joined text xs).length + 1 := by
  induction xs with
  | nil => exact Nat.zero_le _
  | cons x xs ih =>
    cases xs with
    | nil => simp
    | cons y ys =>
      rw [joined]
      · simp only [List.length_cons, List.length_append] at ih ⊢
        omega
      · simp

/-- How the text of a value starts: neither with a blank nor with a closing bracket. -/
def Starts (cs : List Char) : Prop :=
  ∃ c more, cs = c :: more ∧ isBlank c = false ∧ c ≠ ']' ∧ c ≠ '\x7d'

/-- A container is read from its items to its closing bracket. -/
theorem container_joined {α β : Type} {item : List Char → Option (β × List Char)}
    {text : α → List Char} {result : α → Option β} {close : Char}
    (hclose : close = ']' ∨ close = '\x7d') {xs : List α}
    (hstarts : ∀ x ∈ xs, Starts (text x))
    (hitem : ∀ x ∈ xs, ∀ rest, Follows close rest →
      item (text x ++ rest) = (result x).map (·, rest)) (rest : List Char) :
    container item close (joined text xs ++ close :: rest) =
      (xs.mapM' result).map (·, rest) := by
  have hblank : isBlank close = false := by rcases hclose with rfl | rfl <;> rfl
  have hcomma : close ≠ ',' := by rcases hclose with rfl | rfl <;> decide
  cases xs with
  | nil =>
    have hskip : skipBlanks (close :: rest) = close :: rest :=
      List.dropWhile_cons_of_neg (by simp [hblank])
    simp [container, joined, hskip]
  | cons x xs =>
    have hfuel : (x :: xs).length ≤ (joined text (x :: xs) ++ close :: rest).length := by
      have hlength := length_joined text (x :: xs)
      rw [List.length_append]
      exact Nat.le_trans hlength (Nat.add_le_add_left (Nat.succ_pos rest.length) _)
    have hitems := items_joined hcomma hblank (List.cons_ne_nil x xs) hitem hfuel rest
    obtain ⟨c, more, htext, hc, hne, hne'⟩ := hstarts x (List.mem_cons_self ..)
    obtain ⟨later, hlater⟩ : ∃ later, joined text (x :: xs) ++ close :: rest = c :: later := by
      cases xs <;> simp [joined, htext]
    have hskip : skipBlanks (c :: later) = c :: later := List.dropWhile_cons_of_neg (by simp [hc])
    have hother : c ≠ close := by rcases hclose with rfl | rfl <;> assumption
    rw [hlater] at hitems ⊢
    rw [container, hskip]
    simp only [hother, if_false, hitems]

theorem starts_chars (n : Number) :
    ∃ c more, n.chars = c :: more ∧ (c.isDigit = true ∨ c = '-') := by
  obtain ⟨c, cs, hwhole⟩ := List.exists_cons_of_ne_nil n.spelling_isValid.whole.1
  have hc := n.spelling_isValid.whole.2 c (by simp [hwhole])
  rw [← Number.chars_spelling, Numeral.Spelling.chars, hwhole]
  cases n.spelling.negative with
  | true => exact ⟨'-', _, rfl, .inr rfl⟩
  | false => exact ⟨c, _, rfl, .inl hc⟩

/-- The characters with which a number starts are none of the others that start a value. -/
theorem ne_of_numeric {c : Char} (hc : c.isDigit = true ∨ c = '-') :
    isBlank c = false ∧ c ≠ ']' ∧ c ≠ '\x7d' ∧ c ≠ '[' ∧ c ≠ '\x7b' ∧ c ≠ '"' ∧ c ≠ 'n' ∧ c ≠ 't' ∧
      c ≠ 'f' := by
  rcases hc with hc | rfl
  · have hne {d : Char} (hd : d.isDigit = false) : c ≠ d := by
      rintro rfl
      rw [hd] at hc
      cases hc
    have hblank : isBlank c = false := by
      simp [isBlank, hne (d := ' ') rfl, hne (d := '\n') rfl, hne (d := '\t') rfl,
        hne (d := '\r') rfl]
    exact ⟨hblank, hne rfl, hne rfl, hne rfl, hne rfl, hne rfl, hne rfl, hne rfl, hne rfl⟩
  · decide

theorem starts_compactChars (value : Json) : Starts value.compactChars := by
  cases value with
  | null => exact ⟨_, _, rfl, by decide⟩
  | bool b => cases b <;> exact ⟨_, _, rfl, by decide⟩
  | string s => exact ⟨_, _, rfl, by decide⟩
  | array items => exact ⟨_, _, rfl, by decide⟩
  | object members => exact ⟨_, _, rfl, by decide⟩
  | number n =>
    obtain ⟨c, more, hchars, hc⟩ := starts_chars n
    obtain ⟨hblank, hclose, hclose', -⟩ := ne_of_numeric hc
    exact ⟨c, more, hchars, hblank, hclose, hclose'⟩

theorem starts_memberChars (member : String × Json) : Starts (memberChars member) :=
  ⟨_, _, rfl, by decide⟩

theorem ends_of_follows {close : Char} (hclose : close = ']' ∨ close = '\x7d') {rest : List Char}
    (h : Follows close rest) : Numeral.Ends rest := by
  obtain ⟨c, more, rfl, hc⟩ := h
  rintro _ ⟨⟩
  rcases hclose with rfl | rfl <;> rcases hc with rfl | rfl <;> decide

theorem value_number (n : Number) (depth : Nat) {rest : List Char} (hrest : Numeral.Ends rest) :
    value .value depth (n.chars ++ rest) = (n.reread?.map number).map (·, rest) := by
  obtain ⟨numeral, hscan, hnumber⟩ := n.scan_chars hrest
  obtain ⟨c, more, hchars, hc⟩ := starts_chars n
  obtain ⟨hblank, -, -, hopen, hopen', hquote, hn, ht, hf⟩ := ne_of_numeric hc
  rw [hchars, List.cons_append] at hscan ⊢
  have hskip : skipBlanks (c :: (more ++ rest)) = c :: (more ++ rest) :=
    List.dropWhile_cons_of_neg (by simp [hblank])
  have hscalar : scalar .value (c :: (more ++ rest)) = (n.reread?.map number).map (·, rest) := by
    rw [scalar, hskip]
    split
    · next h => exact absurd (List.cons.inj h).1 hn
    · next h => exact absurd (List.cons.inj h).1 ht
    · next h => exact absurd (List.cons.inj h).1 hf
    · next h => exact absurd (List.cons.inj h).1 hquote
    · rw [hscan, ← hnumber]
      simp only
      cases numeral.number? <;> rfl
  cases depth with
  | zero => exact hscalar
  | succ depth =>
    rw [value, hskip]
    split
    · next h => exact absurd (List.cons.inj h).1 hopen
    · next h => exact absurd (List.cons.inj h).1 hopen'
    · exact hscalar

theorem value_string (s : String) (depth : Nat) (rest : List Char) :
    value .value depth (quoted s.toList ++ rest) = some (string s, rest) := by
  have hchars : chars .value (s.toList.flatMap escaped ++ ['"'] ++ rest) =
      some (s.toList, rest) := by
    rw [List.append_assoc, List.singleton_append, chars_quoted]
  have hscalar : scalar .value (quoted s.toList ++ rest) = some (string s, rest) := by
    have hread : scalar .value (quoted s.toList ++ rest) =
        (chars .value (s.toList.flatMap escaped ++ ['"'] ++ rest)).map
          fun read => (string (String.ofList read.1), read.2) := rfl
    simp only [hread, hchars, Option.map_some, String.ofList_toList]
  cases depth <;> exact hscalar

theorem member_memberChars {depth : Nat} {m : String × Json} {rest : List Char}
    (hvalue : value .value depth (m.2.compactChars ++ rest) =
      (m.2.reread? depth).map (·, rest)) :
    member .value (fun _ => value .value depth) (memberChars m ++ rest) =
      (rereadMember? depth m).map (·, rest) := by
  have hkey : chars .value (m.1.toList.flatMap escaped ++ ['"'] ++
      ':' :: (m.2.compactChars ++ rest)) =
      some (m.1.toList, ':' :: (m.2.compactChars ++ rest)) := by
    rw [List.append_assoc, List.singleton_append, chars_quoted]
  have hchars : memberChars m ++ rest =
      '"' :: (m.1.toList.flatMap escaped ++ ['"'] ++ ':' :: (m.2.compactChars ++ rest)) := by
    simp [memberChars, quoted]
  have hquote (cs : List Char) : skipBlanks ('"' :: cs) = '"' :: cs := rfl
  have hcolon (cs : List Char) : skipBlanks (':' :: cs) = ':' :: cs := rfl
  rw [hchars, member]
  simp only [hquote, hkey, hcolon, hvalue, String.ofList_toList, rereadMember?]
  cases m.2.reread? depth <;> rfl

/-- The text of a value is read to its end, and gives the value with its numbers read back. -/
theorem value_compactChars {v : Json} (h : v.IsSound) (depth : Nat) {rest : List Char}
    (hrest : Numeral.Ends rest) :
    value .value depth (v.compactChars ++ rest) = (v.reread? depth).map (·, rest) := by
  induction h generalizing depth rest with
  | null => cases depth <;> rfl
  | bool b => cases b <;> cases depth <;> rfl
  | number _ => exact value_number _ depth hrest
  | string s => exact value_string s depth rest
  | @array items _ ih =>
    cases depth with
    | zero => rfl
    | succ depth =>
      have hread := container_joined (.inl rfl) (fun x _ => starts_compactChars x)
        (fun x hx more hmore => ih x hx depth (ends_of_follows (.inl rfl) hmore)) rest
      have hvalue : value .value (depth + 1) ((array items).compactChars ++ rest) =
          (container (value .value depth) ']' (joined compactChars items ++ ']' :: rest)).map
            fun read => (array read.1, read.2) := by
        rw [compactChars, List.cons_append, List.append_assoc, List.singleton_append,
          compactItems_eq]
        rfl
      rw [hvalue, hread, reread?, if_neg (Nat.succ_ne_zero depth), Nat.add_sub_cancel,
        rereadItems?_eq]
      cases items.mapM' (reread? depth) <;> rfl
  | @object members hdistinct _ ih =>
    cases depth with
    | zero => rfl
    | succ depth =>
      have hread := container_joined (.inr rfl) (fun m _ => starts_memberChars m)
        (fun m hm _ hmore =>
          member_memberChars (ih m hm depth (ends_of_follows (.inr rfl) hmore)))
        rest
      have hvalue : value .value (depth + 1) ((object members).compactChars ++ rest) =
          (container (member .value fun _ => value .value depth) '\x7d'
            (joined memberChars members ++ '\x7d' :: rest)).map
            fun read => (object (Members.ofList read.1), read.2) := by
        rw [compactChars, List.cons_append, List.append_assoc, List.singleton_append,
          compactMembers_eq]
        rfl
      rw [hvalue, hread, reread?, if_neg (Nat.succ_ne_zero depth), Nat.add_sub_cancel,
        rereadMembers?_eq]
      cases hmembers : members.mapM' (rereadMember? depth) with
      | none => rfl
      | some members' =>
        have hkeys : Members.Distinct members' := by
          rw [Members.Distinct, keys_reread hmembers]
          exact hdistinct
        simp only [Option.map_some, Members.ofList_eq_self hkeys]

end Reader

/-- Reading the compact text of a value gives the value with its numbers read back. -/
theorem parseWithin?_compact {v : Json} (h : v.IsSound) (depth : Nat) :
    parseWithin? depth v.compact = v.reread? depth := by
  have hend : Numeral.Ends [] := by simp [Numeral.Ends]
  have hread := Reader.value_compactChars h depth hend
  rw [List.append_nil] at hread
  rw [parseWithin?, compact, String.toList_ofList, Reader.whole, hread]
  cases v.reread? depth <;> rfl

/-! ### What is read is sound -/

theorem fits_of_number? {numeral : Numeral} {n : Number} (h : numeral.number? = some n) :
    n.Fits := by
  have hdouble (h : numeral.double?.map Number.double = some n) : n.Fits := by
    obtain ⟨x, -, rfl⟩ := Option.map_eq_some_iff.mp h
    trivial
  rw [Numeral.number?] at h
  split at h
  · split at h
    · next hfits =>
      obtain rfl := Option.some.inj h
      exact ⟨by omega, by omega⟩
    · exact hdouble h
  · split at h
    · next hfits =>
      obtain rfl := Option.some.inj h
      exact ⟨by omega, by omega⟩
    · exact hdouble h

theorem isSound_isInherited : Reader.IsInherited IsSound where
  null := .null
  bool := .bool
  string := .string
  number _ _ h := .number (fits_of_number? h)
  array _ h := .array h
  object _ hdistinct h := .object hdistinct h

/-- Every value that was read from a text is sound. -/
theorem isSound_of_parse? {text : String} {v : Json} (h : parse? text = some v) : v.IsSound :=
  isSound_isInherited.of_parse? h

end Json
end OperationTree
