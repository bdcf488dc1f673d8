import Mathlib.Data.Nat.Find
import OperationTree.Proofs.Text.Occurrence
import OperationTree.Proofs.Url.Tokens

/-! What the search for a token finds, for names of any characters.  The search looks at one
occurrence of `:name` after the other, and an occurrence that begins within one it has looked at is
hidden from it.  So it finds the leftmost token of a text unless that one is hidden.  This can only
happen to a name that overlaps itself: a beginning of `:name` is also its end, and a word character
stands behind that beginning. -/

namespace OperationTree.Url

open String (utf8Len)
open Text

/-- What stands in a template for a parameter. -/
def tokenOf (name : String) : String := ":" ++ name

/-- The offset of the token that the search for a parameter finds. -/
def findToken? (name text : String) : Option Nat :=
  (splitToken? name.toList text.toList).map fun found => utf8Len found.1

/-- `:name` stands at an offset, and no word character right behind it. -/
def IsTokenAt (name text : String) (i : Nat) : Prop :=
  OccursAt (tokenOf name) text i ∧
    ∀ c, charAt? text (i + (tokenOf name).utf8ByteSize) = some c → isWord c = false

/-- The least offset with a property, or none if no offset has it. -/
def IsFirst (P : Nat → Prop) : Option Nat → Prop
  | none => ∀ i, ¬ P i
  | some i => P i ∧ ∀ j, P j → i ≤ j

/-- The search for a parameter finds its leftmost token, and none only if there is none. -/
def FindsLeftmost (name text : String) : Prop :=
  IsFirst (IsTokenAt name text) (findToken? name text)

/-- The occurrences that the search looks at: from left to right, each one that does not begin
before the end of one it has looked at. -/
def Visits (name text : String) (i : Nat) : Prop :=
  OccursAt (tokenOf name) text i ∧
    ∀ j < i, Visits name text j → j + (tokenOf name).utf8ByteSize ≤ i
termination_by i

/-- A token that the search looks at. -/
def SeesToken (name text : String) (i : Nat) : Prop := Visits name text i ∧ IsTokenAt name text i

/-- An offset lies within an occurrence that the search looks at, behind its beginning. -/
def IsHidden (name text : String) (i : Nat) : Prop :=
  ∃ j < i, Visits name text j ∧ i < j + (tokenOf name).utf8ByteSize

/-- A beginning of `:name` that is also its end has a word character behind it. -/
def OverlapsItself (name : String) : Prop :=
  ∃ border c rest, border ≠ [] ∧ isWord c = true ∧
    (tokenOf name).toList = border ++ c :: rest ∧ border <:+ (tokenOf name).toList

variable {name text : String} {i : Nat}

/-! ### Occurrences of tokens -/

theorem toList_tokenOf (name : String) : (tokenOf name).toList = ':' :: name.toList := by
  rw [tokenOf, String.toList_append]
  rfl

theorem tokenOf_ne (name : String) : tokenOf name ≠ "" := by
  intro h
  have := toList_tokenOf name
  simp [h] at this

theorem utf8ByteSize_tokenOf_pos (name : String) : 0 < (tokenOf name).utf8ByteSize :=
  Nat.pos_of_ne_zero (mt String.utf8ByteSize_eq_zero_iff.mp (tokenOf_ne name))

theorem endsToken_iff_head? {after : List Char} :
    endsToken after = true ↔ ∀ c, after.head? = some c → isWord c = false := by
  cases after with
  | nil => simp [endsToken]
  | cons c rest => simp [endsToken]

/-- Whether an occurrence is a token is seen by what follows it. -/
theorem isTokenAt_iff_endsToken {before after : List Char}
    (h : text.toList = before ++ (tokenOf name).toList ++ after) :
    IsTokenAt name text (utf8Len before) ↔ endsToken after = true := by
  have hoccurs : OccursAt (tokenOf name) text (utf8Len before) :=
    (occursAt_iff (tokenOf_ne name)).mpr ⟨before, after, h, rfl⟩
  rw [IsTokenAt, and_iff_right hoccurs, ← String.utf8Len_toList, ← String.utf8Len_append,
    charAt?_of_toList h, endsToken_iff_head?]

theorem dropLead?_tokenOf {rest after : List Char} :
    dropLead? (':' :: name.toList) rest = some after ↔ rest = (tokenOf name).toList ++ after := by
  rw [toList_tokenOf]
  exact dropLead?_eq_some

theorem visits_iff : Visits name text i ↔ OccursAt (tokenOf name) text i ∧
    ¬ IsHidden name text i := by
  rw [Visits, IsHidden]
  simp only [not_exists, not_and, not_lt]

theorem Visits.occursAt (h : Visits name text i) : OccursAt (tokenOf name) text i :=
  (visits_iff.mp h).1

theorem exists_isFirst {P : Nat → Prop} (h : P i) : ∃ k, IsFirst P (some k) := by
  classical
  exact ⟨Nat.find ⟨i, h⟩, Nat.find_spec ⟨i, h⟩, fun j hj => Nat.find_min' ⟨i, h⟩ hj⟩

/-! ### The search -/

/-- What is known with a part of a text searched: no token has been found, and the occurrences that
have been looked at end at the offset where the search goes on, or before it.  If it does not go on
right behind that part, the last one ends there. -/
structure Searched (name text : String) (part : List Char) (stop : Nat) : Prop where
  rejects : ∀ j < utf8Len part, Visits name text j → ¬ IsTokenAt name text j
  ends : ∀ j < utf8Len part, Visits name text j → j + (tokenOf name).utf8ByteSize ≤ stop
  reaches : stop = utf8Len part ∨
    ∃ j < utf8Len part, Visits name text j ∧ j + (tokenOf name).utf8ByteSize = stop

theorem Searched.nil (name text : String) : Searched name text [] (utf8Len []) where
  rejects _ hj := absurd hj (Nat.not_lt_zero _)
  ends _ hj := absurd hj (Nat.not_lt_zero _)
  reaches := .inl rfl

section Step

variable {part rest : List Char} {c : Char} (htext : text.toList = part ++ c :: rest)
include htext

/-- One more character has been searched. -/
theorem Searched.step {stop stop' : Nat} (h : Searched name text part stop) (hle : stop ≤ stop')
    (hhere : Visits name text (utf8Len part) → ¬ IsTokenAt name text (utf8Len part) ∧
      utf8Len part + (tokenOf name).utf8ByteSize ≤ stop')
    (hreaches : stop' = utf8Len (part ++ [c]) ∨ ∃ j < utf8Len (part ++ [c]),
      Visits name text j ∧ j + (tokenOf name).utf8ByteSize = stop') :
    Searched name text (part ++ [c]) stop' := by
  -- No occurrence begins within the character.
  have hbegins {j : Nat} (hvisits : Visits name text j) (hj : j < utf8Len (part ++ [c])) :
      j < utf8Len part ∨ j = utf8Len part := by
    obtain ⟨before, after, hbefore, rfl⟩ :=
      (occursAt_iff (tokenOf_ne name)).mp hvisits.occursAt
    rw [hbefore, List.append_assoc] at htext
    exact Nat.lt_or_eq_of_le (utf8Len_le_of_lt htext hj)
  refine ⟨fun j hj hvisits => ?_, fun j hj hvisits => ?_, hreaches⟩
  · rcases hbegins hvisits hj with hlt | rfl
    · exact h.rejects j hlt hvisits
    · exact (hhere hvisits).1
  · rcases hbegins hvisits hj with hlt | rfl
    · exact (h.ends j hlt hvisits).trans hle
    · exact (hhere hvisits).2

/-- Nothing is looked at within an occurrence that has been looked at. -/
theorem Searched.within {skip : Nat}
    (h : Searched name text part (utf8Len (part ++ (c :: rest).take (skip + 1)))) :
    Searched name text (part ++ [c]) (utf8Len (part ++ [c] ++ rest.take skip)) := by
  have hstop : part ++ (c :: rest).take (skip + 1) = part ++ [c] ++ rest.take skip := by simp
  rw [hstop] at h
  have hlt : utf8Len part < utf8Len (part ++ [c] ++ rest.take skip) :=
    (utf8Len_lt_concat part c).trans_le (String.utf8Len_le_of_prefix (List.prefix_append _ _))
  obtain heq | ⟨j, hj, hvisits, hends⟩ := h.reaches
  · exact absurd heq hlt.ne'
  · have hhidden : IsHidden name text (utf8Len part) := ⟨j, hj, hvisits, hends ▸ hlt⟩
    exact h.step htext le_rfl (fun hhere => absurd hhidden (visits_iff.mp hhere).2)
      (.inr ⟨j, hj.trans (utf8Len_lt_concat part c), hvisits, hends⟩)

end Step

section Free

variable {part : List Char} (h : Searched name text part (utf8Len part))
include h

theorem Searched.visits (hoccurs : OccursAt (tokenOf name) text (utf8Len part)) :
    Visits name text (utf8Len part) := by
  rw [Visits]
  exact ⟨hoccurs, h.ends⟩

theorem Searched.isFirst_here (htoken : IsTokenAt name text (utf8Len part)) :
    IsFirst (SeesToken name text) (some (utf8Len part)) := by
  refine ⟨⟨h.visits htoken.1, htoken⟩, fun j hj => ?_⟩
  by_contra hlt
  exact h.rejects j (Nat.lt_of_not_le hlt) hj.1 hj.2

variable {rest : List Char} {c : Char} (htext : text.toList = part ++ c :: rest)
include htext

theorem Searched.other (hnone : dropLead? (':' :: name.toList) (c :: rest) = none) :
    Searched name text (part ++ [c]) (utf8Len (part ++ [c] ++ rest.take 0)) := by
  rw [List.take_zero, List.append_nil]
  refine h.step htext (utf8Len_lt_concat part c).le (fun hhere => ?_) (.inl rfl)
  obtain ⟨after, hafter⟩ := (occursAt_utf8Len (tokenOf_ne name) htext).mp hhere.occursAt
  exact absurd (hnone.symm.trans (dropLead?_tokenOf.mpr hafter.symm)) (by simp)

/-- Behind an occurrence that is no token the search goes on at its end. -/
theorem Searched.reject {after : List Char}
    (hdrop : dropLead? (':' :: name.toList) (c :: rest) = some after)
    (hnot : ¬ IsTokenAt name text (utf8Len part)) : Searched name text (part ++ [c])
      (utf8Len (part ++ [c] ++ rest.take name.toList.length)) := by
  have hvisits : Visits name text (utf8Len part) :=
    h.visits ((occursAt_utf8Len (tokenOf_ne name) htext).mpr
      ⟨after, (dropLead?_tokenOf.mp hdrop).symm⟩)
  have hstop : utf8Len (part ++ [c] ++ rest.take name.toList.length) =
      utf8Len part + (tokenOf name).utf8ByteSize := by
    obtain ⟨hc, hrest⟩ : c = ':' ∧ rest = name.toList ++ after :=
      List.cons.inj (dropLead?_eq_some.mp hdrop)
    rw [hc, hrest, List.take_left, ← String.utf8Len_toList, toList_tokenOf, ← String.utf8Len_append,
      List.append_assoc, List.singleton_append]
  rw [hstop]
  exact h.step htext (Nat.le_add_right ..) (fun _ => ⟨hnot, le_rfl⟩)
    (.inr ⟨_, utf8Len_lt_concat part c, hvisits, rfl⟩)

end Free

theorem Searched.isFirst_none (h : Searched name text text.toList i) :
    IsFirst (SeesToken name text) none := by
  rintro j ⟨hvisits, htoken⟩
  refine h.rejects j ?_ hvisits htoken
  obtain ⟨hend, -, -⟩ := hvisits.occursAt.range (tokenOf_ne name)
  have hpos := utf8ByteSize_tokenOf_pos name
  rw [String.utf8Len_toList]
  omega

/-- From behind a part that has been searched the search finds the first token that it looks at. -/
theorem Searched.isFirst {part rest : List Char} {skip : Nat}
    (h : Searched name text part (utf8Len (part ++ rest.take skip)))
    (htext : text.toList = part ++ rest) : IsFirst (SeesToken name text)
      ((splitTokenFrom? name.toList skip rest).map fun found => utf8Len (part ++ found.1)) := by
  -- By induction on what is left of the text: each character keeps what is known of the part.
  induction rest generalizing part skip with
  | nil =>
    rw [List.append_nil] at htext
    rw [splitTokenFrom?]
    exact (htext ▸ h).isFirst_none
  | cons c rest ih =>
    have hgoesOn (skip : Nat)
        (h : Searched name text (part ++ [c]) (utf8Len (part ++ [c] ++ rest.take skip))) :
        IsFirst (SeesToken name text)
          (((splitTokenFrom? name.toList skip rest).map fun found => (c :: found.1, found.2)).map
            fun found => utf8Len (part ++ found.1)) := by
      have hfirst := ih h (by rw [htext, List.append_assoc, List.singleton_append])
      rw [Option.map_map]
      simpa [Function.comp_def] using hfirst
    cases skip with
    | succ skip =>
      rw [splitTokenFrom?]
      exact hgoesOn skip (h.within htext)
    | zero =>
      rw [List.take_zero, List.append_nil] at h
      rw [splitTokenFrom?]
      cases hdrop : dropLead? (':' :: name.toList) (c :: rest) with
      | none => exact hgoesOn 0 (h.other htext hdrop)
      | some after =>
        have htoken : IsTokenAt name text (utf8Len part) ↔ endsToken after = true :=
          isTokenAt_iff_endsToken
            (by rw [htext, dropLead?_tokenOf.mp hdrop, List.append_assoc])
        dsimp only
        split
        · next hends =>
          rw [Option.map_some, List.append_nil]
          exact h.isFirst_here (htoken.mpr hends)
        · next hends => exact hgoesOn _ (h.reject htext hdrop (mt htoken.mp hends))

theorem findToken?_isFirst (name text : String) :
    IsFirst (SeesToken name text) (findToken? name text) := by
  have hnil : Searched name text [] (utf8Len ([] ++ text.toList.take 0)) := Searched.nil name text
  exact hnil.isFirst rfl

/-! ### The range of a token that is found -/

/-- The token at an offset begins and ends between characters, and a value for its parameter takes
the place of its octets and of no others. -/
structure IsReplaced (name text : String) (i : Nat) : Prop where
  start : IsBoundary text i
  stop : IsBoundary text (i + (tokenOf name).utf8ByteSize)
  octets : ∀ value : Json, (substitute text (some [(name, value)])).toByteArray =
    replaceRange text i (i + (tokenOf name).utf8ByteSize) (String.ofList (encodeParam value))

theorem isReplaced_of_findToken? (h : findToken? name text = some i) : IsReplaced name text i := by
  obtain ⟨⟨before, after⟩, hsplit, rfl⟩ := Option.map_eq_some_iff.mp h
  have htext : text.toList = before ++ (tokenOf name).toList ++ after := by
    rw [toList_tokenOf]
    exact splitToken?_eq hsplit
  have hoccurs : OccursAt (tokenOf name) text (utf8Len before) :=
    (occursAt_iff (tokenOf_ne name)).mpr ⟨before, after, htext, rfl⟩
  obtain ⟨-, hstart, hstop⟩ := hoccurs.range (tokenOf_ne name)
  refine ⟨hstart, hstop, fun value => ?_⟩
  have hone : substituteOne text.toList name value = before ++ encodeParam value ++ after := by
    rw [substituteOne, hsplit]
  rw [← toByteArray_replace htext, ← hone]
  rfl

/-! ### Hidden tokens -/

theorem findsLeftmost_iff (name text : String) : FindsLeftmost name text ↔
    ∀ i, IsFirst (IsTokenAt name text) (some i) → ¬ IsHidden name text i := by
  have hsearch := findToken?_isFirst name text
  rw [FindsLeftmost]
  constructor
  · rintro hleftmost i ⟨htoken, hfirst⟩
    cases hfound : findToken? name text with
    | none =>
      rw [hfound] at hleftmost
      exact absurd htoken (hleftmost i)
    | some k =>
      rw [hfound] at hleftmost hsearch
      obtain rfl : k = i := Nat.le_antisymm (hleftmost.2 i htoken) (hfirst k hleftmost.1)
      exact (visits_iff.mp hsearch.1.1).2
  · intro hshown
    -- The leftmost token is looked at.
    have hvisits {i : Nat} (hi : IsFirst (IsTokenAt name text) (some i)) : Visits name text i :=
      visits_iff.mpr ⟨hi.1.1, hshown i hi⟩
    cases hfound : findToken? name text with
    | none =>
      rw [hfound] at hsearch
      intro i htoken
      obtain ⟨k, hk⟩ := exists_isFirst htoken
      exact hsearch k ⟨hvisits hk, hk.1⟩
    | some i =>
      rw [hfound] at hsearch
      refine ⟨hsearch.1.2, fun j hj => ?_⟩
      obtain ⟨k, hk⟩ := exists_isFirst hj
      exact (hsearch.2 k ⟨hvisits hk, hk.1⟩).trans (hk.2 j hj)

/-- What hides the leftmost token is an occurrence of the same name that is none. -/
theorem overlapsItself_of_isHidden (hfirst : IsFirst (IsTokenAt name text) (some i))
    (hhidden : IsHidden name text i) : OverlapsItself name := by
  obtain ⟨j, hji, hvisits, hlt⟩ := hhidden
  obtain ⟨lead, later, hleft, rfl⟩ := (occursAt_iff (tokenOf_ne name)).mp hvisits.occursAt
  obtain ⟨before, after, hright, rfl⟩ := (occursAt_iff (tokenOf_ne name)).mp hfirst.1.1
  -- The token begins behind `shift` in the occurrence that hides it, whose end is `border`.
  have hboth := hleft.symm.trans hright
  rw [List.append_assoc, List.append_assoc] at hboth
  obtain ⟨shift, rfl, hshift⟩ := exists_append_between hboth hji.le
  rw [← String.utf8Len_toList, String.utf8Len_append] at hlt
  obtain ⟨border, hborder, hagain⟩ := exists_append_between hshift.symm (by omega)
  have hlength := congrArg utf8Len hborder
  rw [String.utf8Len_append] at hji hlength
  -- The occurrence that hides it goes on with a word character.
  have hends : ¬ ∀ c, later.head? = some c → isWord c = false := fun hends =>
    absurd (hfirst.2 _ ((isTokenAt_iff_endsToken hleft).mpr (endsToken_iff_head?.mpr hends)))
      (by rw [String.utf8Len_append]; omega)
  simp only [not_forall] at hends
  obtain ⟨c, hhead, hc⟩ := hends
  obtain ⟨rest, rfl⟩ := List.head?_eq_some_iff.mp hhead
  obtain ⟨between, hbetween, hrest⟩ := exists_append_between hagain.symm (by omega)
  cases between with
  | nil =>
    rw [hbetween, List.append_nil] at hlength
    omega
  | cons d more =>
    obtain ⟨rfl, -⟩ := List.cons.inj hrest
    refine ⟨border, c, more, ?_, by simpa using hc, hbetween, shift, hborder.symm⟩
    rintro rfl
    rw [String.utf8Len_nil] at hlength
    omega

/-- In the text of two overlapping occurrences of such a name the second one is a token, and
hidden by the first one. -/
theorem not_findsLeftmost_of_overlapsItself (h : OverlapsItself name) :
    ∃ text, ¬ FindsLeftmost name text := by
  obtain ⟨border, c, rest, hborder, hc, hname, shift, hshift⟩ := h
  let text := String.ofList (shift ++ (tokenOf name).toList)
  have hsecond : text.toList = shift ++ (tokenOf name).toList ++ [] := by simp [text]
  have hfirst : text.toList = [] ++ (tokenOf name).toList ++ c :: rest := by
    calc text.toList = shift ++ (tokenOf name).toList := by rw [hsecond, List.append_nil]
      _ = shift ++ (border ++ c :: rest) := by rw [hname]
      _ = [] ++ (tokenOf name).toList ++ c :: rest := by
        rw [← List.append_assoc, hshift, List.nil_append]
  have htoken : IsTokenAt name text (utf8Len shift) := (isTokenAt_iff_endsToken hsecond).mpr rfl
  have hnot : ¬ IsTokenAt name text 0 := by
    rw [← String.utf8Len_nil, isTokenAt_iff_endsToken hfirst]
    simp [endsToken, hc]
  have hvisits : Visits name text 0 := (Searched.nil name text).visits
    ((occursAt_iff (tokenOf_ne name)).mpr ⟨[], c :: rest, hfirst, rfl⟩)
  have hwithin : utf8Len shift < (tokenOf name).utf8ByteSize := by
    rw [← String.utf8Len_toList, ← hshift, String.utf8Len_append]
    exact Nat.lt_add_of_pos_right (utf8Len_pos hborder)
  obtain ⟨k, hk⟩ := exists_isFirst htoken
  refine ⟨text, fun hleftmost => (findsLeftmost_iff name text).mp hleftmost k hk ?_⟩
  have hpos : 0 < k := by
    refine Nat.pos_of_ne_zero ?_
    rintro rfl
    exact hnot hk.1
  have hle : k ≤ utf8Len shift := hk.2 _ htoken
  exact ⟨0, hpos, hvisits, by omega⟩

theorem not_overlapsItself_of_no_colon (h : ':' ∉ name.toList) : ¬ OverlapsItself name := by
  rintro ⟨border, c, rest, hborder, -, hname, shift, hshift⟩
  cases shift with
  | nil =>
    have hlength := congrArg List.length (hname.symm.trans hshift.symm)
    simp at hlength
  | cons d shift =>
    -- The border begins with the colon of the token and ends within its name.
    obtain ⟨e, border, rfl⟩ := List.exists_cons_of_ne_nil hborder
    rw [toList_tokenOf] at hname hshift
    obtain ⟨rfl, -⟩ := List.cons.inj hname
    obtain ⟨-, hshift⟩ := List.cons.inj hshift
    exact h (hshift ▸ by simp)

theorem findsLeftmost_all_iff (name : String) :
    (∀ text, FindsLeftmost name text) ↔ ¬ OverlapsItself name := by
  constructor
  · intro hleftmost hoverlaps
    obtain ⟨text, hnot⟩ := not_findsLeftmost_of_overlapsItself hoverlaps
    exact hnot (hleftmost text)
  · intro hnot text
    exact (findsLeftmost_iff name text).mpr fun i hfirst hhidden =>
      hnot (overlapsItself_of_isHidden hfirst hhidden)

/-- In every text the search for a parameter finds the first token that it looks at, or none if it
looks at none, and what it finds lies between characters and is what a value takes the place of.  It
finds the leftmost token of the text, or there is none, if and only if that one is not hidden.  This
is so in all texts if and only if the name does not overlap itself, and in particular for names
without colons. -/
theorem findToken?_leftmost_iff (name : String) :
    (∀ text, IsFirst (SeesToken name text) (findToken? name text) ∧
      (∀ i, findToken? name text = some i → IsReplaced name text i) ∧
      (FindsLeftmost name text ↔
        ∀ i, IsFirst (IsTokenAt name text) (some i) → ¬ IsHidden name text i)) ∧
    ((∀ text, FindsLeftmost name text) ↔ ¬ OverlapsItself name) ∧
    (':' ∉ name.toList → ∀ text, FindsLeftmost name text) := by
  refine ⟨fun text => ⟨findToken?_isFirst name text, fun i => isReplaced_of_findToken?,
    findsLeftmost_iff name text⟩, findsLeftmost_all_iff name, fun hcolon => ?_⟩
  exact (findsLeftmost_all_iff name).mpr (not_overlapsItself_of_no_colon hcolon)

/-- Tokens of two colons overlap, but behind a colon no word character makes the first one none. -/
theorem findToken?_leftmost_colons :
    (∀ text, FindsLeftmost ":" text) ∧ findToken? ":" "é:::b" = some 2 := by
  refine ⟨(findToken?_leftmost_iff ":").2.1.mpr ?_, by decide +kernel⟩
  rintro ⟨border, c, rest, -, hc, hname, -⟩
  have hmem : c ∈ (tokenOf ":").toList := by simp [hname]
  obtain rfl : c = ':' := by simpa [toList_tokenOf] using hmem
  exact absurd hc (by decide)

/-- The first `:a:` is none, and the second one begins within it. -/
theorem not_findsLeftmost_overlapping : ¬ ∀ name text, FindsLeftmost name text := by
  intro h
  have hleftmost := h "a:" ":a:a:"
  have hnone : findToken? "a:" ":a:a:" = none := by decide +kernel
  have htoken : IsTokenAt "a:" ":a:a:" (utf8Len [':', 'a']) :=
    (isTokenAt_iff_endsToken (show _ = _ ++ _ ++ [] by decide +kernel)).mpr rfl
  rw [FindsLeftmost, hnone] at hleftmost
  exact hleftmost _ htoken

end OperationTree.Url
