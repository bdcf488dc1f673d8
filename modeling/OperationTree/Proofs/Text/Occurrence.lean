import Mathlib.Data.String.Basic

/-! Where a text occurs in another one, by octets.  In UTF-8 the octets of a text begin and end
between two characters wherever they stand, so an occurrence by octets is one by characters, and a
text with such a range of octets replaced is a text again. -/

namespace OperationTree.Text

open String (utf8Len)

/-- The octets of a part stand in a text from an offset on. -/
def OccursAt (part text : String) (i : Nat) : Prop :=
  text.toByteArray.extract i (i + part.utf8ByteSize) = part.toByteArray

/-- An offset between two characters of a text or at one of its ends. -/
def IsBoundary (text : String) (i : Nat) : Prop := String.Pos.Raw.IsValid text ⟨i⟩

/-- The character that begins at an offset. -/
def charAt? (text : String) (i : Nat) : Option Char := String.Pos.Raw.get? text ⟨i⟩

/-- The octets of a text with those of a range replaced by others. -/
def replaceRange (text : String) (start stop : Nat) (part : String) : ByteArray :=
  text.toByteArray.extract 0 start ++ part.toByteArray ++
    text.toByteArray.extract stop text.utf8ByteSize

variable {part text : String} {i : Nat}

/-! ### Offsets of characters -/

theorem utf8Len_pos {cs : List Char} (h : cs ≠ []) : 0 < utf8Len cs :=
  Nat.pos_of_ne_zero (mt String.utf8Len_eq_zero.mp h)

theorem utf8Len_lt_concat (lead : List Char) (c : Char) :
    utf8Len lead < utf8Len (lead ++ [c]) := by
  rw [String.utf8Len_append]
  exact Nat.lt_add_of_pos_right (utf8Len_pos (List.cons_ne_nil c []))

/-- Of two places in a text the one with the lower offset stands further left. -/
theorem exists_append_between {before after before' after' : List Char}
    (h : before ++ after = before' ++ after') (hle : utf8Len before ≤ utf8Len before') :
    ∃ between, before' = before ++ between ∧ after = between ++ after' := by
  rcases List.append_eq_append_iff.mp h with hleft | ⟨between, rfl, rfl⟩
  · exact hleft
  · rw [String.utf8Len_append] at hle
    obtain rfl : between = [] := String.utf8Len_eq_zero.mp (by omega)
    exact ⟨[], by simp⟩

/-- No character begins within another one. -/
theorem utf8Len_le_of_lt {before after lead rest : List Char} {c : Char}
    (h : before ++ after = lead ++ c :: rest) (hlt : utf8Len before < utf8Len (lead ++ [c])) :
    utf8Len before ≤ utf8Len lead := by
  by_contra hle
  obtain ⟨between, rfl, hrest⟩ := exists_append_between h.symm (Nat.le_of_not_le hle)
  cases between with
  | nil => simp at hle
  | cons d between =>
    obtain ⟨rfl, -⟩ := List.cons.inj hrest
    simp only [String.utf8Len_append, String.utf8Len_cons, String.utf8Len_nil] at hlt
    omega

theorem charAt?_of_toList {before after : List Char} (h : text.toList = before ++ after) :
    charAt? text (utf8Len before) = after.head? := by
  rw [charAt?, ← String.ofList_toList (s := text), h, String.get?_of_valid]

/-! ### Occurrences -/

theorem eq_append_ofList {before after : List Char}
    (h : text.toList = before ++ part.toList ++ after) :
    text = String.ofList before ++ part ++ String.ofList after := by
  rw [← String.toList_inj, h]
  simp

theorem extract_zero {before after : String} (h : text = before ++ after) :
    text.toByteArray.extract 0 before.utf8ByteSize = before.toByteArray := by
  rw [h, String.toByteArray_append]
  exact ByteArray.extract_append_eq_left rfl

theorem extract_rest {before after : String} (h : text = before ++ after) :
    text.toByteArray.extract before.utf8ByteSize text.utf8ByteSize = after.toByteArray := by
  rw [h, String.toByteArray_append]
  exact ByteArray.extract_append_eq_right rfl String.utf8ByteSize_append

theorem occursAt_append {before after : String} (h : text = before ++ part ++ after) :
    OccursAt part text before.utf8ByteSize := by
  have hskip : (before.toByteArray ++ (part.toByteArray ++ after.toByteArray)).extract
      (before.utf8ByteSize + 0) (before.utf8ByteSize + part.utf8ByteSize) =
        (part.toByteArray ++ after.toByteArray).extract 0 part.utf8ByteSize :=
    ByteArray.extract_append_size_add
  rw [OccursAt, h, String.toByteArray_append, String.toByteArray_append, ByteArray.append_assoc]
  exact hskip.trans (ByteArray.extract_append_eq_left rfl)

section

variable (hpart : part ≠ "")
include hpart

/-- An occurrence lies within the text, and it begins and ends between characters. -/
theorem OccursAt.range (h : OccursAt part text i) :
    i + part.utf8ByteSize ≤ text.utf8ByteSize ∧ IsBoundary text i ∧
      IsBoundary text (i + part.utf8ByteSize) := by
  have hpos : 0 < part.utf8ByteSize :=
    Nat.pos_of_ne_zero (mt String.utf8ByteSize_eq_zero_iff.mp hpart)
  have hsize : min (i + part.utf8ByteSize) text.utf8ByteSize - i = part.utf8ByteSize :=
    ByteArray.size_extract.symm.trans (congrArg ByteArray.size h)
  have hend : i + part.utf8ByteSize ≤ text.utf8ByteSize := by omega
  have hvalid : (text.toByteArray.extract i (i + part.utf8ByteSize)).IsValidUTF8 :=
    h.symm ▸ part.isValidUTF8
  rcases (String.Pos.Raw.isValidUTF8_extract_iff ⟨i⟩ ⟨i + part.utf8ByteSize⟩
    (Nat.le_add_right ..) hend).mp hvalid with hsame | hbounds
  · have := congrArg String.Pos.Raw.byteIdx hsame
    simp only at this
    omega
  · exact ⟨hend, hbounds⟩

/-- A part occurs by octets where it occurs by characters. -/
theorem occursAt_iff : OccursAt part text i ↔ ∃ before after : List Char,
    text.toList = before ++ part.toList ++ after ∧ utf8Len before = i := by
  constructor
  · intro h
    obtain ⟨-, hstart, hstop⟩ := h.range hpart
    obtain ⟨before, rest, hrest, hbefore⟩ := String.Pos.Raw.isValid_iff_exists_append.mp hstart
    obtain ⟨through, after, hafter, hthrough⟩ :=
      String.Pos.Raw.isValid_iff_exists_append.mp hstop
    have hi : before.utf8ByteSize = i := congrArg String.Pos.Raw.byteIdx hbefore.symm
    have hj : through.utf8ByteSize = i + part.utf8ByteSize :=
      congrArg String.Pos.Raw.byteIdx hthrough.symm
    have hjoined : through = before ++ part := by
      rw [← String.toByteArray_inj, String.toByteArray_append, ← extract_zero hafter,
        ← extract_zero hrest, hi, hj, ← h]
      exact ByteArray.extract_eq_extract_append_extract i (Nat.zero_le i) (Nat.le_add_right ..)
    refine ⟨before.toList, after.toList, ?_, by rw [String.utf8Len_toList, hi]⟩
    rw [hafter, hjoined, String.toList_append, String.toList_append]
  · rintro ⟨before, after, htext, rfl⟩
    rw [← String.utf8ByteSize_ofList]
    exact occursAt_append (eq_append_ofList htext)

theorem occursAt_utf8Len {lead rest : List Char} (htext : text.toList = lead ++ rest) :
    OccursAt part text (utf8Len lead) ↔ part.toList <+: rest := by
  rw [occursAt_iff hpart]
  constructor
  · rintro ⟨before, after, hbefore, hlen⟩
    rw [hbefore, List.append_assoc] at htext
    obtain ⟨between, rfl, hrest⟩ := exists_append_between htext hlen.le
    rw [String.utf8Len_append] at hlen
    obtain rfl : between = [] := String.utf8Len_eq_zero.mp (by omega)
    exact ⟨after, hrest⟩
  · rintro ⟨after, rfl⟩
    exact ⟨lead, after, by rw [htext, List.append_assoc], rfl⟩

end

/-- Other characters in the place of an occurrence are other octets in the place of its range. -/
theorem toByteArray_replace {before after : List Char}
    (h : text.toList = before ++ part.toList ++ after) (put : List Char) :
    (String.ofList (before ++ put ++ after)).toByteArray =
      replaceRange text (utf8Len before) (utf8Len before + part.utf8ByteSize)
        (String.ofList put) := by
  have htext := eq_append_ofList h
  have hstop : utf8Len before + part.utf8ByteSize =
      (String.ofList before ++ part).utf8ByteSize := by
    rw [String.utf8ByteSize_append, String.utf8ByteSize_ofList]
  rw [replaceRange, hstop, extract_rest htext, ← String.utf8ByteSize_ofList,
    extract_zero (htext.trans String.append_assoc), String.ofList_append, String.ofList_append,
    String.toByteArray_append, String.toByteArray_append]

end OperationTree.Text
