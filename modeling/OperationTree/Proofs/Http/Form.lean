import OperationTree.Payload
import OperationTree.Proofs.Url.Structure
import OperationTree.Text.Hexadecimal

/-! Forms in a body.  `Form.parse?` reads a URL-encoded form: it separates the fields and their keys
and values, takes plus signs for blanks, and undoes the escapes.  The text that is sent for an
object reads back as the members of the object, with the plain text of each value. -/

namespace OperationTree

namespace Form

open Url

/-- The octets that a text stands for: `%` with two hexadecimal digits is one octet, and any other
character is its UTF-8 form. -/
def octets : List Char → List UInt8
  | '%' :: high :: low :: rest =>
    match Text.hexDigit? high, Text.hexDigit? low with
    | some h, some l => UInt8.ofNat (h * 16 + l) :: octets rest
    | _, _ => String.utf8EncodeChar '%' ++ octets (high :: low :: rest)
  | c :: rest => String.utf8EncodeChar c ++ octets rest
  | [] => []

/-- A plus sign stands for a blank. -/
def blanks (text : List Char) : List Char := text.map fun c => if c = '+' then ' ' else c

/-- The text that an encoded one stands for, unless its octets are not UTF-8. -/
def decode? (text : List Char) : Option String :=
  String.fromUTF8? (octets (blanks text)).toByteArray

/-- A field is a key and a value with the first `=` between them. -/
def field? (text : List Char) : Option (String × String) := do
  let key ← decode? (text.takeWhile (· != '='))
  let value ← decode? ((text.dropWhile (· != '=')).drop 1)
  return (key, value)

/-- The fields of a form.  The empty text has none, and any other has `&` between them. -/
def parse? (text : String) : Option (List (String × String)) :=
  if text.isEmpty then some [] else (text.toList.splitOn '&').mapM field?

/-- The text of a value in a form: null and objects have none. -/
def valueText : Json → String
  | .null | .object _ => ""
  | value => value.plain

/-! ### Encoded text with plus signs -/

/-- An octet as it is sent: a blank is a plus sign. -/
def plusOctet (b : UInt8) : List Char := if b = 0x20 then ['+'] else percentByte b

def plusChar (c : Char) : List Char :=
  if isUnreserved c then [c] else (String.utf8EncodeChar c).flatMap plusOctet

def plusChars (text : List Char) : List Char := text.flatMap plusChar

theorem encodeParam_eq (value : Json) :
    encodeParam value = encodeChars (valueText value).toList := by
  cases value with
  | null | object => rfl
  | _ => exact congrArg encodeChars String.toList_ofList.symm

theorem plusBlanks_cons {c : Char} {rest : List Char} (h : ¬ ['%', '2', '0'] <+: c :: rest) :
    Payload.plusBlanks (c :: rest) = c :: Payload.plusBlanks rest := by
  refine Payload.plusBlanks.eq_2 c rest ?_
  rintro after rfl rfl
  exact h ⟨after, rfl⟩

theorem upperHexDigit_reads {n : Nat} (h : n < 16) : upperHexDigit n ≠ '%' ∧
    upperHexDigit n ≠ '+' ∧ Text.hexDigit? (upperHexDigit n) = some n := by
  have hall : ∀ digit : Fin 16, upperHexDigit digit.val ≠ '%' ∧ upperHexDigit digit.val ≠ '+' ∧
      Text.hexDigit? (upperHexDigit digit.val) = some digit.val := by decide +kernel
  exact hall ⟨n, h⟩

section Octet

variable (b : UInt8)

theorem high_lt : b.toNat / 16 < 16 := by
  have := b.toNat_lt
  omega

theorem low_lt : b.toNat % 16 < 16 := Nat.mod_lt _ (by decide)

theorem percentByte_eq_blank (h : percentByte b = ['%', '2', '0']) : b = 0x20 := by
  have hdigit {n m : Nat} (hn : n < 16) (hm : m < 16) (h : upperHexDigit n = upperHexDigit m) :
      n = m := by
    have hread := (upperHexDigit_reads hn).2.2
    rw [h, (upperHexDigit_reads hm).2.2] at hread
    exact (Option.some.inj hread).symm
  simp only [percentByte, List.cons.injEq, and_true, true_and] at h
  have hhigh : b.toNat / 16 = 2 := hdigit (high_lt b) (by decide) (h.1.trans (by decide))
  have hlow : b.toNat % 16 = 0 := hdigit (low_lt b) (by decide) (h.2.trans (by decide))
  refine UInt8.toNat_inj.mp ?_
  change b.toNat = 32
  omega

/-- The text `%20` is the escape of a blank, and no part of other escapes. -/
theorem plusBlanks_percentByte (rest : List Char) :
    Payload.plusBlanks (percentByte b ++ rest) = plusOctet b ++ Payload.plusBlanks rest := by
  rw [plusOctet]
  split
  · next hb => rw [hb]; rfl
  · next hb =>
    have hdigit {n : Nat} (hn : n < 16) (rest : List Char) :
        ¬ ['%', '2', '0'] <+: upperHexDigit n :: rest := fun hprefix =>
      (upperHexDigit_reads hn).1 (List.cons_prefix_cons.mp hprefix).1.symm
    have hescape : ¬ ['%', '2', '0'] <+: percentByte b ++ rest := fun hprefix =>
      hb (percentByte_eq_blank b
        (List.prefix_iff_eq_take.mp hprefix).symm)
    rw [percentByte, List.cons_append, List.cons_append, List.cons_append] at hescape ⊢
    rw [plusBlanks_cons hescape, plusBlanks_cons (hdigit (high_lt b) _),
      plusBlanks_cons (hdigit (low_lt b) _)]
    rfl

end Octet

theorem ne_of_isUnreserved {c d : Char} (h : isUnreserved c = true) (hd : isUnreserved d = false) :
    c ≠ d := by
  rintro rfl
  exact absurd h (by simp [hd])

theorem plusBlanks_encodeChar (c : Char) (rest : List Char) :
    Payload.plusBlanks (encodeChar c ++ rest) = plusChar c ++ Payload.plusBlanks rest := by
  rw [encodeChar, plusChar]
  split
  · next hc =>
    have hnot : ¬ ['%', '2', '0'] <+: c :: rest := fun hprefix =>
      ne_of_isUnreserved hc (by decide) (List.cons_prefix_cons.mp hprefix).1.symm
    exact plusBlanks_cons hnot
  · induction String.utf8EncodeChar c with
    | nil => rfl
    | cons b bytes ih =>
      rw [List.flatMap_cons, List.append_assoc, plusBlanks_percentByte, ih, List.flatMap_cons,
        List.append_assoc]

theorem plusBlanks_encodeChars (text rest : List Char) :
    Payload.plusBlanks (encodeChars text ++ rest) = plusChars text ++ Payload.plusBlanks rest := by
  induction text with
  | nil => rfl
  | cons c text ih =>
    have hplus : plusChars (c :: text) = plusChar c ++ plusChars text := List.flatMap_cons
    rw [encodeChars_cons, List.append_assoc, plusBlanks_encodeChar, ih, hplus, List.append_assoc]

/-- A field as it is sent. -/
def fieldChars (field : String × Json) : List Char :=
  plusChars field.1.toList ++ '=' :: plusChars (valueText field.2).toList

theorem toList_queryString (data : Members) :
    (Payload.queryString data).toList = ['&'].intercalate (data.map fieldChars) := by
  have hfield (field : String × Json) (rest : List Char) : Payload.plusBlanks
      (encodeChars field.1.toList ++ '=' :: encodeParam field.2 ++ rest) =
        fieldChars field ++ Payload.plusBlanks rest := by
    have hsign : ¬ ['%', '2', '0'] <+: '=' :: (encodeChars (valueText field.2).toList ++ rest) :=
      fun hprefix => absurd (List.cons_prefix_cons.mp hprefix).1 (by decide)
    rw [encodeParam_eq, List.append_assoc, List.cons_append, plusBlanks_encodeChars,
      plusBlanks_cons hsign, plusBlanks_encodeChars, fieldChars, List.append_assoc,
      List.cons_append]
  rw [Payload.queryString, String.toList_ofList]
  induction data with
  | nil => rfl
  | cons field rest ih =>
    cases rest with
    | nil => simpa [Payload.queryChars, Payload.plusBlanks] using hfield field []
    | cons next rest =>
      have hand : ¬ ['%', '2', '0'] <+: '&' :: Payload.queryChars (next :: rest) :=
        fun hprefix => absurd (List.cons_prefix_cons.mp hprefix).1 (by decide)
      rw [Payload.queryChars, hfield, plusBlanks_cons hand, ih, List.map_cons, List.map_cons,
        List.map_cons, List.intercalate_cons_cons]
      · simp
      · exact List.cons_ne_nil next rest

/-! ### Reading -/

theorem octets_cons {c : Char} (h : c ≠ '%') (rest : List Char) :
    octets (c :: rest) = String.utf8EncodeChar c ++ octets rest := by
  refine octets.eq_2 c rest ?_
  rintro high low after rfl
  exact absurd rfl h

theorem blanks_eq_self {text : List Char} (h : ∀ c ∈ text, c ≠ '+') : blanks text = text :=
  (List.map_congr_left fun c hc => if_neg (h c hc)).trans (List.map_id' text)

/-- An escape is read as the octet it stands for. -/
theorem octets_percentByte (b : UInt8) (rest : List Char) :
    octets (percentByte b ++ rest) = b :: octets rest := by
  rw [percentByte, List.cons_append, List.cons_append, List.cons_append, octets,
    (upperHexDigit_reads (high_lt b)).2.2, (upperHexDigit_reads (low_lt b)).2.2]
  simp only [Nat.div_add_mod', UInt8.ofNat_toNat, List.nil_append]

theorem octets_plusOctet (b : UInt8) (rest : List Char) :
    octets (blanks (plusOctet b) ++ rest) = b :: octets rest := by
  rw [plusOctet]
  split
  · next hb =>
    rw [hb]
    exact octets_cons (by decide) rest
  · have hhigh := (upperHexDigit_reads (high_lt b)).2.1
    have hlow := (upperHexDigit_reads (low_lt b)).2.1
    have hplus : ∀ c ∈ percentByte b, c ≠ '+' := by
      simpa [percentByte] using ⟨hhigh, hlow⟩
    rw [blanks_eq_self hplus, octets_percentByte]

theorem octets_plusChar (c : Char) (rest : List Char) :
    octets (blanks (plusChar c) ++ rest) = String.utf8EncodeChar c ++ octets rest := by
  rw [plusChar]
  split
  · next hc =>
    have hplus : ∀ d ∈ [c], d ≠ '+' := by simpa using ne_of_isUnreserved hc (by decide)
    rw [blanks_eq_self hplus]
    exact octets_cons (ne_of_isUnreserved hc (by decide)) rest
  · induction String.utf8EncodeChar c with
    | nil => rfl
    | cons b bytes ih =>
      rw [List.flatMap_cons, blanks, List.map_append, List.append_assoc]
      exact (octets_plusOctet b _).trans (congrArg _ ih)

theorem octets_plusChars (text : List Char) :
    octets (blanks (plusChars text)) = text.flatMap String.utf8EncodeChar := by
  induction text with
  | nil => rfl
  | cons c text ih =>
    rw [plusChars, List.flatMap_cons, blanks, List.map_append, List.flatMap_cons, ← ih]
    exact octets_plusChar c _

theorem decode?_plusChars (text : String) : decode? (plusChars text.toList) = some text := by
  have hbytes : (octets (blanks (plusChars text.toList))).toByteArray = text.toByteArray := by
    rw [octets_plusChars, ← String.utf8Encode_toList]
    rfl
  have hvalid : text.toByteArray.IsValidUTF8 := text.isValidUTF8
  rw [decode?, hbytes, String.fromUTF8?, dif_pos hvalid]
  rfl

/-- No sign that separates fields, or a key from its value, is in an encoded text. -/
theorem ne_of_mem_plusChars {c d : Char} {text : List Char} (h : c ∈ plusChars text)
    (hd : d = '&' ∨ d = '=') : c ≠ d := by
  rintro rfl
  obtain ⟨source, -, hc⟩ := List.mem_flatMap.mp h
  rw [plusChar] at hc
  split at hc
  · next hsource =>
    obtain rfl := List.mem_singleton.mp hc
    rcases hd with rfl | rfl <;> exact absurd hsource (by decide)
  · obtain ⟨b, -, hb⟩ := List.mem_flatMap.mp hc
    rw [plusOctet] at hb
    split at hb
    · obtain rfl := List.mem_singleton.mp hb
      rcases hd with hd | hd <;> exact absurd hd (by decide)
    · have hsafe := percentByte_safe hb
      rcases hd with rfl | rfl <;> exact absurd hsafe (by decide)

theorem field?_fieldChars (field : String × Json) :
    field? (fieldChars field) = some (field.1, valueText field.2) := by
  have hkey : ∀ c ∈ plusChars field.1.toList, (c != '=') = true := fun c hc =>
    bne_iff_ne.mpr (ne_of_mem_plusChars hc (.inr rfl))
  have htake : (fieldChars field).takeWhile (· != '=') = plusChars field.1.toList := by
    rw [fieldChars, List.takeWhile_append_of_pos hkey, List.takeWhile_cons]
    simp
  have hdrop : ((fieldChars field).dropWhile (· != '=')).drop 1 =
      plusChars (valueText field.2).toList := by
    rw [fieldChars, List.dropWhile_append_of_pos hkey, List.dropWhile_cons]
    simp
  rw [field?, htake, hdrop, decode?_plusChars, decode?_plusChars]
  rfl

theorem ampersand_not_mem (field : String × Json) : '&' ∉ fieldChars field := by
  rw [fieldChars, List.mem_append, List.mem_cons]
  rintro (hkey | heq | hvalue)
  · exact ne_of_mem_plusChars hkey (.inl rfl) rfl
  · exact absurd heq (by decide)
  · exact ne_of_mem_plusChars hvalue (.inl rfl) rfl

theorem mapM_field? (data : Members) : (data.map fieldChars).mapM field? =
    some (data.map fun field => (field.1, valueText field.2)) := by
  induction data with
  | nil => rfl
  | cons field rest ih =>
    rw [List.map_cons, List.mapM_cons, field?_fieldChars, ih]
    rfl

/-- Reading the form that is sent for an object gives back its keys in order, each with the text of
its value. -/
theorem parse?_queryString (data : Members) :
    parse? (Payload.queryString data) =
      some (data.map fun field => (field.1, valueText field.2)) := by
  have htext := toList_queryString data
  cases data with
  | nil => rfl
  | cons field rest =>
    have hfields : ∀ part ∈ (field :: rest).map fieldChars, '&' ∉ part := by
      intro part hpart
      obtain ⟨own, -, rfl⟩ := List.mem_map.mp hpart
      exact ampersand_not_mem own
    have hsplit := List.splitOn_intercalate '&' hfields (List.cons_ne_nil _ _)
    rw [← htext] at hsplit
    have hne : ¬ (Payload.queryString (field :: rest)).isEmpty = true := by
      intro hempty
      rw [String.isEmpty_iff.mp hempty] at hsplit
      have hnil : [] = fieldChars field := (List.cons.inj hsplit).1
      simp [fieldChars] at hnil
    rw [parse?, if_neg hne, hsplit, mapM_field?]

end Form

end OperationTree
