import Mathlib.Tactic.SplitIfs
import OperationTree.Json.Printer
import OperationTree.Json.Reader

/-! What a printed JSON text tells of the value.  A quoted text is read back character by character,
whatever it holds, and the compact text of a value ends where the brackets that it opens are closed:
quotes and brackets within strings never look like those around them. -/

namespace OperationTree.Json

/-- Characters that open or close a string or a container. -/
def isMark (c : Char) : Bool := c == '"' || c == '[' || c == ']' || c == '\x7b' || c == '\x7d'

/-- A text without quotes and brackets. -/
def IsUnmarked (cs : List Char) : Prop := ∀ c ∈ cs, isMark c = false

namespace IsUnmarked

theorem nil : IsUnmarked [] := fun _ hc => nomatch hc

theorem cons {c : Char} {cs : List Char} (hc : isMark c = false) (hcs : IsUnmarked cs) :
    IsUnmarked (c :: cs) :=
  List.forall_mem_cons.mpr ⟨hc, hcs⟩

theorem append {cs ds : List Char} (hcs : IsUnmarked cs) (hds : IsUnmarked ds) :
    IsUnmarked (cs ++ ds) :=
  List.forall_mem_append.mpr ⟨hcs, hds⟩

theorem take {cs : List Char} (h : IsUnmarked cs) (n : Nat) : IsUnmarked (cs.take n) :=
  fun c hc => h c (List.mem_of_mem_take hc)

theorem drop {cs : List Char} (h : IsUnmarked cs) (n : Nat) : IsUnmarked (cs.drop n) :=
  fun c hc => h c (List.mem_of_mem_drop hc)

end IsUnmarked

/-- What holds of sixteen digits and of the star holds of every digit. -/
theorem forall_digitChar {p : Char → Prop} (hdigit : ∀ n < 16, p (Nat.digitChar n)) (hstar : p '*')
    (n : Nat) : p (Nat.digitChar n) := by
  by_cases hn : n < 16
  · exact hdigit n hn
  · have hother : Nat.digitChar n = '*' := by
      rw [Nat.digitChar]
      repeat rw [if_neg (by omega)]
    exact hother ▸ hstar

/-! ### Numbers -/

theorem isUnmarked_digitChars (digits : List Nat) : IsUnmarked (Decimal.digitChars digits) :=
  List.forall_mem_map.mpr fun n _ =>
    forall_digitChar (p := fun c => isMark c = false) (by decide) rfl n

theorem isUnmarked_toDigits (n : Nat) : IsUnmarked (Nat.toDigits 10 n) := by
  intro c hc
  have hdigit := Nat.isDigit_of_mem_toDigits (by decide) (by decide) hc
  simp only [isMark, Bool.or_eq_false_iff, beq_eq_false_iff_ne]
  refine ⟨⟨⟨⟨?_, ?_⟩, ?_⟩, ?_⟩, ?_⟩ <;> rintro rfl <;> cases hdigit

theorem isUnmarked_zeros (n : Nat) : IsUnmarked (List.replicate n '0') :=
  fun _ hc => List.eq_of_mem_replicate hc ▸ rfl

theorem isUnmarked_layout (style : Decimal.Layout) (d : Decimal) :
    IsUnmarked (d.layout style) := by
  have hdigits := isUnmarked_digitChars d.digits
  rw [Decimal.layout]
  dsimp only
  split
  · split
    · exact .cons rfl (.cons rfl ((isUnmarked_zeros _).append hdigits))
    · refine ((hdigits.take _).append (isUnmarked_zeros _)).append (.cons rfl ?_)
      split
      · exact .cons rfl .nil
      · exact hdigits.drop _
  · refine ((hdigits.take 1).append ?_).append
      (.cons rfl (.cons (by split <;> rfl) (isUnmarked_toDigits _)))
    split
    · exact .nil
    · exact .cons rfl (hdigits.drop 1)

theorem isUnmarked_chars (n : Number) : IsUnmarked n.chars := by
  cases n with
  | int n =>
    rw [Number.chars]
    split
    · exact .cons rfl (isUnmarked_toDigits _)
    · exact isUnmarked_toDigits _
  | double x =>
    have hsign : IsUnmarked (if x.negative then ['-'] else []) := by
      split
      · exact .cons rfl .nil
      · exact .nil
    rw [Number.chars, Double.text]
    split
    · exact hsign.append (.cons rfl (.cons rfl (.cons rfl .nil)))
    · exact hsign.append (isUnmarked_layout _ _)

/-! ### Strings -/

namespace Reader

theorem codeUnit?_control : ∀ n < 32,
    codeUnit? '0' '0' (Nat.digitChar (n / 16)) (Nat.digitChar (n % 16)) = some n ∧
      isHighSurrogate n = false ∧ isLowSurrogate n = false := by
  decide

/-- Reading undoes the escape of one character. -/
theorem chars_escaped (c : Char) (cs : List Char) :
    chars .value (escaped c ++ cs) = (chars .value cs).map fun (ds, rest) => (c :: ds, rest) := by
  rw [escaped]
  split_ifs with hquote hbackslash _ _ _ _ _ hcontrol
  -- Seven characters have an escape of one letter, other control characters one of four digits.
  iterate 7 subst_vars; rfl
  · obtain ⟨hunit, hhigh, hlow⟩ := codeUnit?_control c.toNat hcontrol
    simp [chars, hunit, hhigh, hlow]
  · rw [List.cons_append, List.nil_append, chars, if_neg hcontrol]
    all_goals simp_all

/-- A quoted text is read back, and what follows it is left. -/
theorem chars_quoted (cs rest : List Char) :
    chars .value (cs.flatMap escaped ++ '"' :: rest) = some (cs, rest) := by
  induction cs with
  | nil => rfl
  | cons c cs ih => rw [List.flatMap_cons, List.append_assoc, chars_escaped, ih, Option.map_some]

end Reader

theorem quoted_injective {cs ds : List Char} (h : quoted cs = quoted ds) : cs = ds := by
  have hread := congrArg (Reader.chars .value) (List.cons.inj h).2
  rw [Reader.chars_quoted, Reader.chars_quoted] at hread
  exact (Prod.mk.inj (Option.some.inj hread)).1

/-! ### Where a text ends -/

/-- What a scan of a text is in the middle of: nothing, a string, or an escape in a string. -/
inductive Region where
  | plain
  | quoted
  | escape
  deriving DecidableEq

/-- The region after a character within a string. -/
def Region.next (c : Char) : Region :=
  if c = '\\' then .escape else if c = '"' then .plain else .quoted

/-- What is left of a text from the first closing bracket on that closes nothing, `depth` open
brackets being given.  Brackets within strings do not count. -/
def dropBalanced : Region → (depth : Nat) → List Char → List Char
  | _, _, [] => []
  | .escape, depth, _ :: rest => dropBalanced .quoted depth rest
  | .quoted, depth, c :: rest => dropBalanced (.next c) depth rest
  | .plain, depth, c :: rest =>
    if c = '"' then dropBalanced .quoted depth rest
    else if c = '[' ∨ c = '\x7b' then dropBalanced .plain (depth + 1) rest
    else if c = ']' ∨ c = '\x7d' then
      match depth with
      | 0 => c :: rest
      | depth + 1 => dropBalanced .plain depth rest
    else dropBalanced .plain depth rest

theorem dropBalanced_cons_of_not_isMark {c : Char} (hc : isMark c = false) (depth : Nat)
    (rest : List Char) :
    dropBalanced .plain depth (c :: rest) = dropBalanced .plain depth rest := by
  simp only [isMark, Bool.or_eq_false_iff, beq_eq_false_iff_ne] at hc
  obtain ⟨⟨⟨⟨hquote, hopen⟩, hclose⟩, hopen'⟩, hclose'⟩ := hc
  cases depth <;> simp [dropBalanced, *]

theorem dropBalanced_unmarked {cs : List Char} (h : IsUnmarked cs) (depth : Nat)
    (rest : List Char) :
    dropBalanced .plain depth (cs ++ rest) = dropBalanced .plain depth rest := by
  induction cs with
  | nil => rfl
  | cons c cs ih =>
    obtain ⟨hc, hcs⟩ := List.forall_mem_cons.mp h
    rw [List.cons_append, dropBalanced_cons_of_not_isMark hc, ih hcs]

theorem Region.next_digitChar (n : Nat) : Region.next (Nat.digitChar n) = .quoted :=
  forall_digitChar (p := fun c => Region.next c = .quoted) (by decide) rfl n

theorem dropBalanced_escaped (c : Char) (depth : Nat) (rest : List Char) :
    dropBalanced .quoted depth (escaped c ++ rest) = dropBalanced .quoted depth rest := by
  rw [escaped]
  split_ifs with hquote hbackslash
  iterate 7 rfl
  · have hunit : ∀ ds, dropBalanced .quoted depth ('\\' :: 'u' :: '0' :: '0' :: ds) =
        dropBalanced .quoted depth ds := fun _ => rfl
    rw [List.cons_append, List.cons_append, List.cons_append, List.cons_append, hunit]
    simp only [List.cons_append, List.nil_append, dropBalanced, Region.next_digitChar]
  · simp [dropBalanced, Region.next, hquote, hbackslash]

theorem dropBalanced_quoted (cs : List Char) (depth : Nat) (rest : List Char) :
    dropBalanced .plain depth (quoted cs ++ rest) = dropBalanced .plain depth rest := by
  have hinner : dropBalanced .quoted depth (cs.flatMap escaped ++ '"' :: rest) =
      dropBalanced .plain depth rest := by
    induction cs with
    | nil => rfl
    | cons c cs ih => rw [List.flatMap_cons, List.append_assoc, dropBalanced_escaped, ih]
  have hopen : dropBalanced .plain depth (quoted cs ++ rest) =
      dropBalanced .quoted depth (cs.flatMap escaped ++ '"' :: rest) := by
    cases depth <;> simp [quoted, dropBalanced]
  exact hopen.trans hinner

mutual

/-- A scan passes over the compact text of a value and is where it was before. -/
theorem dropBalanced_compactChars (depth : Nat) (rest : List Char) : (value : Json) →
    dropBalanced .plain depth (value.compactChars ++ rest) = dropBalanced .plain depth rest
  | null | bool true | bool false => rfl
  | number n => dropBalanced_unmarked (isUnmarked_chars n) depth rest
  | string s => dropBalanced_quoted s.toList depth rest
  | array items => by
    rw [compactChars, List.cons_append, List.append_assoc]
    exact dropBalanced_compactItems (depth + 1) (']' :: rest) items
  | object members => by
    rw [compactChars, List.cons_append, List.append_assoc]
    exact dropBalanced_compactMembers (depth + 1) ('\x7d' :: rest) members

theorem dropBalanced_compactItems (depth : Nat) (rest : List Char) : (items : List Json) →
    dropBalanced .plain depth (compactItems items ++ rest) = dropBalanced .plain depth rest
  | [] => rfl
  | [x] => dropBalanced_compactChars depth rest x
  | x :: y :: more => by
    rw [compactItems, List.append_assoc, dropBalanced_compactChars depth _ x]
    · exact dropBalanced_compactItems depth rest (y :: more)
    · simp

theorem dropBalanced_compactMembers (depth : Nat) (rest : List Char) :
    (members : List (String × Json)) →
      dropBalanced .plain depth (compactMembers members ++ rest) = dropBalanced .plain depth rest
  | [] => rfl
  | [(k, x)] => by
    rw [compactMembers, List.append_assoc, dropBalanced_quoted]
    exact dropBalanced_compactChars depth rest x
  | (k, x) :: member :: more => by
    have hmore := dropBalanced_compactMembers depth rest (member :: more)
    rw [compactMembers, List.append_assoc, List.append_assoc, dropBalanced_quoted]
    · exact (dropBalanced_compactChars depth _ x).trans hmore
    · simp

end

/-- The compact text of a value before a closing bracket can be told from what follows. -/
theorem compactChars_append_inj {value value' : Json} {rest rest' : List Char}
    (h : value.compactChars ++ ']' :: rest = value'.compactChars ++ ']' :: rest') :
    value.compactChars = value'.compactChars ∧ rest = rest' := by
  have hrest : ']' :: rest = ']' :: rest' := by
    have hdrop := congrArg (dropBalanced .plain 0) h
    rwa [dropBalanced_compactChars, dropBalanced_compactChars] at hdrop
  rw [hrest] at h
  exact ⟨List.append_cancel_right h, (List.cons.inj hrest).2⟩

end OperationTree.Json
