import OperationTree.Proofs.Http.Form

/-! Encoding a text as one component of a URL.  What is written stands for the octets of the text,
so that no two texts are written alike, and it is made of unreserved characters and of escapes.  An
escape is longer than the character it stands for: a text is written as it is only if it needs
none. -/

namespace OperationTree.Url

/-- The characters that stand for themselves. -/
def unreserved : List Char :=
  "ABCDEFGHIJKLMNOPQRSTUVWXYZabcdefghijklmnopqrstuvwxyz0123456789-_.!~*\x27()".toList

def upperHexDigits : List Char := "0123456789ABCDEF".toList

/-- Texts of unreserved characters and of escapes, which are `%` with two upper-case digits. -/
inductive IsEncoded : List Char → Prop
  | nil : IsEncoded []
  | plain {c : Char} {rest : List Char} (hc : c ∈ unreserved) (h : IsEncoded rest) :
    IsEncoded (c :: rest)
  | escape {high low : Char} {rest : List Char} (hhigh : high ∈ upperHexDigits)
    (hlow : low ∈ upperHexDigits) (h : IsEncoded rest) : IsEncoded ('%' :: high :: low :: rest)

theorem isUnreserved_iff {c : Char} : isUnreserved c = true ↔ c ∈ unreserved := by
  constructor
  · intro h
    have hall : ∀ n : Fin 128, isUnreserved (Char.ofNat n) = true →
        Char.ofNat n ∈ unreserved := by decide +kernel
    have hbound := (isInert_bounds (isInert_of_safe (.inl h))).2
    have hc := hall ⟨c.toNat, by omega⟩
    rw [Char.ofNat_toNat] at hc
    exact hc h
  · exact List.all_eq_true.mp (show unreserved.all isUnreserved = true by decide +kernel) c

theorem upperHexDigit_mem {n : Nat} (h : n < 16) : upperHexDigit n ∈ upperHexDigits := by
  have hall : ∀ digit : Fin 16, upperHexDigit digit.val ∈ upperHexDigits := by decide +kernel
  exact hall ⟨n, h⟩

/-! ### The alphabet -/

theorem isEncoded_percentBytes (bytes : List UInt8) {rest : List Char} (h : IsEncoded rest) :
    IsEncoded (bytes.flatMap percentByte ++ rest) := by
  induction bytes with
  | nil => exact h
  | cons b bytes ih =>
    rw [List.flatMap_cons, List.append_assoc]
    exact .escape (upperHexDigit_mem (Form.high_lt b)) (upperHexDigit_mem (Form.low_lt b)) ih

theorem encodeChars_isEncoded (text : List Char) : IsEncoded (encodeChars text) := by
  induction text with
  | nil => exact .nil
  | cons c text ih =>
    rw [encodeChars_cons, encodeChar]
    split
    · next hc => exact .plain (isUnreserved_iff.mp hc) ih
    · exact isEncoded_percentBytes _ ih

/-! ### Decoding -/

theorem octets_percentBytes (bytes : List UInt8) (rest : List Char) :
    Form.octets (bytes.flatMap percentByte ++ rest) = bytes ++ Form.octets rest := by
  induction bytes with
  | nil => rfl
  | cons b bytes ih =>
    rw [List.flatMap_cons, List.append_assoc, Form.octets_percentByte, ih, List.cons_append]

theorem octets_encodeChars (text : List Char) :
    Form.octets (encodeChars text) = text.flatMap String.utf8EncodeChar := by
  induction text with
  | nil => rfl
  | cons c text ih =>
    rw [encodeChars_cons, encodeChar, List.flatMap_cons, ← ih]
    split
    · next hc => exact Form.octets_cons (Form.ne_of_isUnreserved hc (by decide)) _
    · exact octets_percentBytes _ _

theorem octets_encodeComponent (text : String) :
    (Form.octets (encodeComponent text).toList).toByteArray = text.toUTF8 := by
  rw [encodeComponent, String.toList_ofList, octets_encodeChars, String.toUTF8_eq_toByteArray,
    ← String.utf8Encode_toList]
  rfl

theorem encodeComponent_inj {text other : String} :
    encodeComponent text = encodeComponent other ↔ text = other := by
  refine ⟨fun h => ?_, congrArg encodeComponent⟩
  have hbytes := octets_encodeComponent text
  rw [h, octets_encodeComponent, String.toUTF8_eq_toByteArray,
    String.toUTF8_eq_toByteArray] at hbytes
  exact (String.toByteArray_inj.mp hbytes).symm

/-! ### Texts that are written as they are -/

/-- The escapes of a character that needs them are longer than the character. -/
theorem length_encodeChar_lt {c : Char} (h : isUnreserved c = false) :
    1 < (encodeChar c).length := by
  have hpos := List.length_pos_iff.mpr (String.utf8EncodeChar_ne_nil (c := c))
  have hescapes : ((String.utf8EncodeChar c).flatMap percentByte).length =
      (String.utf8EncodeChar c).length * 3 := by
    simp [List.length_flatMap, percentByte, List.map_const']
  rw [encodeChar, h, if_neg Bool.false_ne_true, hescapes]
  omega

theorem encodeChar_of_isUnreserved {c : Char} (h : isUnreserved c = true) : encodeChar c = [c] :=
  if_pos h

theorem length_le_encodeChars (text : List Char) : text.length ≤ (encodeChars text).length := by
  induction text with
  | nil => exact Nat.le_refl 0
  | cons c text ih =>
    rw [encodeChars_cons, List.length_append, List.length_cons]
    cases hc : isUnreserved c with
    | true =>
      rw [encodeChar_of_isUnreserved hc, List.length_singleton]
      omega
    | false =>
      have hlong := length_encodeChar_lt hc
      omega

theorem encodeChars_eq_self_iff {text : List Char} :
    encodeChars text = text ↔ ∀ c ∈ text, c ∈ unreserved := by
  induction text with
  | nil => simp [encodeChars]
  | cons c text ih =>
    rw [encodeChars_cons, List.forall_mem_cons, ← ih, ← isUnreserved_iff]
    cases hc : isUnreserved c with
    | true => simp [encodeChar_of_isUnreserved hc]
    | false =>
      have hlong := length_encodeChar_lt hc
      have hrest := length_le_encodeChars text
      refine ⟨fun h => ?_, fun h => absurd h.1 Bool.false_ne_true⟩
      have hlength := congrArg List.length h
      rw [List.length_append, List.length_cons] at hlength
      omega

theorem encodeComponent_append (text later : String) :
    encodeComponent (text ++ later) = encodeComponent text ++ encodeComponent later := by
  rw [encodeComponent, encodeComponent, encodeComponent, String.toList_append, encodeChars,
    List.flatMap_append, String.ofList_append]
  rfl

/-- An encoded component is safe in a URL and stands for the octets of its text, so that no other
text has it.  It is the text itself exactly if this is unreserved throughout, and the encoding of a
text is that of its parts. -/
theorem encodeComponent_faithful (text other : String) :
    IsEncoded (encodeComponent text).toList ∧
    (Form.octets (encodeComponent text).toList).toByteArray = text.toUTF8 ∧
    (encodeComponent text = encodeComponent other ↔ text = other) ∧
    (encodeComponent text = text ↔ ∀ c ∈ text.toList, c ∈ unreserved) ∧
    encodeComponent (text ++ other) = encodeComponent text ++ encodeComponent other := by
  refine ⟨?_, octets_encodeComponent text, encodeComponent_inj, ?_,
    encodeComponent_append text other⟩
  · rw [encodeComponent, String.toList_ofList]
    exact encodeChars_isEncoded text.toList
  · rw [← encodeChars_eq_self_iff, ← String.toList_inj, encodeComponent, String.toList_ofList]

example : encodeComponent "é 1" = "%C3%A9%201" := by decide +kernel

end OperationTree.Url
