import Mathlib.Data.List.Basic
import OperationTree.Text.Utf8

/-! UTF-8, as a grammar of octets and as what is decoded.  The grammar gives each character its
shortest form and has none for surrogates and for numbers beyond the last character.  Octets are
decoded if and only if they follow it, and to the text that has them as its UTF-8 form. -/

namespace OperationTree.Utf8

/-- The octets of the character with number `n`: six bits in each octet that continues it, and the
others in the first one.  No character has a longer form than it needs. -/
inductive Form : (octets : List Nat) → (n : Nat) → Prop
  | one {n : Nat} (h : n < 0x80) : Form [n] n
  | two {n x y : Nat} (hn : n = x * 64 + y) (hy : y < 64) (low : 0x80 ≤ n) (high : n < 0x800) :
    Form [0xC0 + x, 0x80 + y] n
  | three {n x y z : Nat} (hn : n = (x * 64 + y) * 64 + z) (hy : y < 64) (hz : z < 64)
    (low : 0x800 ≤ n) (high : n < 0x10000) (scalar : n < 0xD800 ∨ 0xDFFF < n) :
    Form [0xE0 + x, 0x80 + y, 0x80 + z] n
  | four {n x y z w : Nat} (hn : n = ((x * 64 + y) * 64 + z) * 64 + w) (hy : y < 64) (hz : z < 64)
    (hw : w < 64) (low : 0x10000 ≤ n) (high : n ≤ 0x10FFFF) :
    Form [0xF0 + x, 0x80 + y, 0x80 + z, 0x80 + w] n

/-- The octets of characters with the given numbers, one after the other. -/
inductive Forms : (octets numbers : List Nat) → Prop
  | nil : Forms [] []
  | cons {form octets numbers : List Nat} {n : Nat} (h : Form form n)
    (rest : Forms octets numbers) : Forms (form ++ octets) (n :: numbers)

/-- Octets that are the forms of some characters. -/
def IsWellFormed (bytes : List UInt8) : Prop := ∃ numbers, Forms (bytes.map UInt8.toNat) numbers

/-! ### Octets as numbers -/

theorem width?_one {b : UInt8} : width? b = some 1 ↔ b.toNat < 0x80 := by
  simp only [width?, UInt8.lt_iff_toNat_lt, UInt8.reduceToNat]
  grind

theorem width?_two {b : UInt8} : width? b = some 2 ↔ 0xC2 ≤ b.toNat ∧ b.toNat < 0xE0 := by
  simp only [width?, UInt8.lt_iff_toNat_lt, UInt8.reduceToNat]
  grind

theorem width?_three {b : UInt8} : width? b = some 3 ↔ 0xE0 ≤ b.toNat ∧ b.toNat < 0xF0 := by
  simp only [width?, UInt8.lt_iff_toNat_lt, UInt8.reduceToNat]
  grind

theorem width?_four {b : UInt8} : width? b = some 4 ↔ 0xF0 ≤ b.toNat ∧ b.toNat < 0xF5 := by
  simp only [width?, UInt8.lt_iff_toNat_lt, UInt8.reduceToNat]
  grind

theorem isTail_iff {b : UInt8} : isTail b = true ↔ 0x80 ≤ b.toNat ∧ b.toNat < 0xC0 := by
  simp [isTail, UInt8.le_iff_toNat_le, UInt8.lt_iff_toNat_lt]

/-- What follows a first octet is a continuing octet, with bounds of its own where the form would
be too long, that of a surrogate or beyond the last character. -/
theorem canFollow_iff {lead second : UInt8} :
    canFollow lead second = true ↔
      (0x80 ≤ second.toNat ∧ second.toNat < 0xC0) ∧
      (lead.toNat = 0xE0 → 0xA0 ≤ second.toNat) ∧ (lead.toNat = 0xED → second.toNat < 0xA0) ∧
      (lead.toNat = 0xF0 → 0x90 ≤ second.toNat) ∧ (lead.toNat = 0xF4 → second.toNat < 0x90) := by
  simp only [canFollow, ← UInt8.toNat_inj, UInt8.reduceToNat]
  split_ifs <;>
    simp only [Bool.and_eq_true, decide_eq_true_eq, UInt8.le_iff_toNat_le, UInt8.lt_iff_toNat_lt,
      UInt8.reduceToNat, isTail_iff] <;> omega

/-! ### The form of a character -/

theorem Form.isValidChar {octets : List Nat} {n : Nat} (h : Form octets n) : n.isValidChar := by
  cases h with
  | three _ _ _ _ high scalar => exact scalar.imp_right fun h => ⟨h, by omega⟩
  | four _ _ _ _ low high => exact .inr ⟨by omega, by omega⟩
  | _ => exact .inl (by omega)

theorem Form.length_pos {octets : List Nat} {n : Nat} (h : Form octets n) :
    0 < octets.length := by
  cases h <;> exact Nat.succ_pos _

theorem Form.octets_unique {octets octets' : List Nat} {n : Nat} (h : Form octets n)
    (h' : Form octets' n) : octets = octets' := by
  cases h <;> cases h' <;> first | rfl | omega | (congr <;> omega)

theorem form_encodeChar (c : Char) :
    Form ((String.utf8EncodeChar c).map UInt8.toNat) c.toNat := by
  have hvalid : c.toNat.isValidChar := c.valid
  simp only [String.utf8EncodeChar, Char.toNat_val]
  generalize c.toNat = n at hvalid ⊢
  split_ifs
  all_goals
    simp only [List.map_cons, List.map_nil, UInt8.toNat_ofNat', Nat.reducePow]
  · rw [Nat.mod_eq_of_lt (by omega)]
    exact .one (by omega)
  · rw [show (n / 64 % 32 + 192) % 256 = 0xC0 + n / 64 by omega,
      show (n % 64 + 128) % 256 = 0x80 + n % 64 by omega]
    exact .two (by omega) (by omega) (by omega) (by omega)
  · rw [show (n / 4096 % 16 + 224) % 256 = 0xE0 + n / 4096 by omega,
      show (n / 64 % 64 + 128) % 256 = 0x80 + n / 64 % 64 by omega,
      show (n % 64 + 128) % 256 = 0x80 + n % 64 by omega]
    exact .three (by omega) (by omega) (by omega) (by omega) (by omega)
      (hvalid.imp_right fun h => h.1)
  · have hlast : n < 0x110000 := by rcases hvalid with h | h <;> omega
    rw [show (n / 262144 % 8 + 240) % 256 = 0xF0 + n / 262144 by omega,
      show (n / 4096 % 64 + 128) % 256 = 0x80 + n / 4096 % 64 by omega,
      show (n / 64 % 64 + 128) % 256 = 0x80 + n / 64 % 64 by omega,
      show (n % 64 + 128) % 256 = 0x80 + n % 64 by omega]
    exact .four (by omega) (by omega) (by omega) (by omega) (by omega) (by omega)

theorem toNat_ofNat {n : Nat} (h : n.isValidChar) : (Char.ofNat n).toNat = n := by
  rw [Char.ofNat, dif_pos h]
  rfl

/-- The only form of a character is its encoding. -/
theorem Form.eq_encodeChar {bytes : List UInt8} {n : Nat} (h : Form (bytes.map UInt8.toNat) n) :
    bytes = String.utf8EncodeChar (Char.ofNat n) := by
  have hchar := form_encodeChar (Char.ofNat n)
  rw [toNat_ofNat h.isValidChar] at hchar
  exact List.map_injective_iff.mpr (fun _ _ => UInt8.toNat_inj.mp) (h.octets_unique hchar)

/-! ### Decoding -/

theorem tailBits_eq {b : UInt8} {y : Nat} (hb : b.toNat = 0x80 + y) (hy : y < 64) :
    isTail b = true ∧ tailBits b = y :=
  ⟨isTail_iff.mpr (by omega), by rw [tailBits]; omega⟩

/-- The form at the start of some octets is decoded before the others. -/
theorem decodeFrom_form {form : List UInt8} {n : Nat} (h : Form (form.map UInt8.toNat) n)
    (index : Nat) (rest : List UInt8) :
    decodeFrom index (form ++ rest) =
      (decodeFrom (index + form.length) rest).map (Char.ofNat n :: ·) := by
  generalize hoctets : form.map UInt8.toNat = octets at h
  cases h with
  | one h =>
    obtain ⟨a, rfl, ha⟩ : ∃ a, form = [a] ∧ a.toNat = n := by simpa using hoctets
    rw [List.singleton_append, decodeFrom.eq_def]
    simp only [width?_one.mpr (ha ▸ h), ha, List.length_singleton]
  | @two n x y hn hy low high =>
    obtain ⟨a, b, rfl, ha, hb⟩ : ∃ a b, form = [a, b] ∧ a.toNat = 0xC0 + x ∧
        b.toNat = 0x80 + y := by
      simpa [List.map_eq_cons_iff] using hoctets
    have hwidth : width? a = some 2 := width?_two.mpr (by omega)
    have hfollow : canFollow a b = true := canFollow_iff.mpr (by omega)
    rw [List.cons_append, List.singleton_append, decodeFrom.eq_def]
    simp only [hwidth, hfollow, (tailBits_eq hb hy).2, Bool.not_true, Bool.false_eq_true,
      if_false]
    rw [show a.toNat % 32 * 64 + y = n by omega]
    rfl
  | @three n x y z hn hy hz low high scalar =>
    obtain ⟨a, b, c, rfl, ha, hb, hc⟩ : ∃ a b c, form = [a, b, c] ∧ a.toNat = 0xE0 + x ∧
        b.toNat = 0x80 + y ∧ c.toNat = 0x80 + z := by
      simpa [List.map_eq_cons_iff] using hoctets
    have hwidth : width? a = some 3 := width?_three.mpr (by omega)
    have hfollow : canFollow a b = true := canFollow_iff.mpr (by omega)
    rw [List.cons_append, List.cons_append, List.singleton_append, decodeFrom.eq_def]
    simp only [hwidth, hfollow, tailBits_eq hb hy, tailBits_eq hc hz, Bool.not_true,
      Bool.false_eq_true, if_false]
    rw [show a.toNat % 16 * 4096 + y * 64 + z = n by omega]
    rfl
  | @four n x y z w hn hy hz hw low high =>
    obtain ⟨a, b, c, d, rfl, ha, hb, hc, hd⟩ : ∃ a b c d, form = [a, b, c, d] ∧
        a.toNat = 0xF0 + x ∧ b.toNat = 0x80 + y ∧ c.toNat = 0x80 + z ∧ d.toNat = 0x80 + w := by
      simpa [List.map_eq_cons_iff] using hoctets
    have hwidth : width? a = some 4 := width?_four.mpr (by omega)
    have hfollow : canFollow a b = true := canFollow_iff.mpr (by omega)
    rw [List.cons_append, List.cons_append, List.cons_append, List.singleton_append,
      decodeFrom.eq_def]
    simp only [hwidth, hfollow, tailBits_eq hb hy, tailBits_eq hc hz, tailBits_eq hd hw,
      Bool.not_true, Bool.false_eq_true, if_false]
    rw [show a.toNat % 8 * 262144 + y * 4096 + z * 64 + w = n by omega]
    rfl

theorem map_eq_ok {ε α β : Type} {f : α → β} {x : Except ε α} {b : β} (h : x.map f = .ok b) :
    ∃ a, x = .ok a ∧ b = f a := by
  cases x with
  | error e => cases h
  | ok a => exact ⟨a, rfl, (Except.ok.inj h).symm⟩

/-! The forms of octets that pass the checks. -/

theorem form_two {a b : UInt8} (ha : width? a = some 2) (hb : canFollow a b = true) :
    Form ([a, b].map UInt8.toNat) (a.toNat % 32 * 64 + tailBits b) := by
  have hwidth := width?_two.mp ha
  have hfollow := canFollow_iff.mp hb
  have hform : [a, b].map UInt8.toNat = [0xC0 + a.toNat % 32, 0x80 + b.toNat % 64] := by
    simp only [List.map_cons, List.map_nil, List.cons.injEq, and_true]
    omega
  rw [hform, tailBits]
  exact .two rfl (by omega) (by omega) (by omega)

theorem form_three {a b c : UInt8} (ha : width? a = some 3) (hb : canFollow a b = true)
    (hc : isTail c = true) :
    Form ([a, b, c].map UInt8.toNat) (a.toNat % 16 * 4096 + tailBits b * 64 + tailBits c) := by
  have hwidth := width?_three.mp ha
  have hfollow := canFollow_iff.mp hb
  have htail := isTail_iff.mp hc
  have hform : [a, b, c].map UInt8.toNat =
      [0xE0 + a.toNat % 16, 0x80 + b.toNat % 64, 0x80 + c.toNat % 64] := by
    simp only [List.map_cons, List.map_nil, List.cons.injEq, and_true]
    omega
  rw [hform, tailBits, tailBits]
  exact .three (by omega) (by omega) (by omega) (by omega) (by omega) (by omega)

theorem form_four {a b c d : UInt8} (ha : width? a = some 4) (hb : canFollow a b = true)
    (hc : isTail c = true) (hd : isTail d = true) :
    Form ([a, b, c, d].map UInt8.toNat)
      (a.toNat % 8 * 262144 + tailBits b * 4096 + tailBits c * 64 + tailBits d) := by
  have hwidth := width?_four.mp ha
  have hfollow := canFollow_iff.mp hb
  have htail := isTail_iff.mp hc
  have hlast := isTail_iff.mp hd
  have hform : [a, b, c, d].map UInt8.toNat =
      [0xF0 + a.toNat % 8, 0x80 + b.toNat % 64, 0x80 + c.toNat % 64, 0x80 + d.toNat % 64] := by
    simp only [List.map_cons, List.map_nil, List.cons.injEq, and_true]
    omega
  rw [hform, tailBits, tailBits, tailBits]
  exact .four (by omega) (by omega) (by omega) (by omega) (by omega) (by omega)

theorem width?_cases {b : UInt8} {n : Nat} (h : width? b = some n) :
    n = 1 ∨ n = 2 ∨ n = 3 ∨ n = 4 := by
  rw [width?] at h
  grind

/-- What is decoded starts with a form. -/
theorem decodeFrom_cons {index : Nat} {b : UInt8} {rest : List UInt8} {chars : List Char}
    (h : decodeFrom index (b :: rest) = .ok chars) :
    ∃ form n later chars', b :: rest = form ++ later ∧ Form (form.map UInt8.toNat) n ∧
      decodeFrom (index + form.length) later = .ok chars' ∧ chars = Char.ofNat n :: chars' := by
  rw [decodeFrom.eq_def] at h
  simp only at h
  split at h
  · next hb =>
    obtain ⟨chars', hlater, rfl⟩ := map_eq_ok h
    exact ⟨[b], _, rest, chars', rfl, .one (width?_one.mp hb), hlater, rfl⟩
  · next hb =>
    rcases rest with - | ⟨c, later⟩
    · cases h
    simp only at h
    split_ifs at h with hc
    obtain ⟨chars', hlater, rfl⟩ := map_eq_ok h
    exact ⟨[b, c], _, later, chars', rfl, form_two hb (by simpa using hc), hlater, rfl⟩
  · next hb =>
    rcases rest with - | ⟨c, - | ⟨d, later⟩⟩
    · cases h
    · cases h
    simp only at h
    split_ifs at h with hc hd
    obtain ⟨chars', hlater, rfl⟩ := map_eq_ok h
    exact ⟨[b, c, d], _, later, chars', rfl, form_three hb (by simpa using hc) (by simpa using hd),
      hlater, rfl⟩
  · next n hone htwo hthree hb =>
    obtain rfl : n = 4 := by
      rcases width?_cases hb with rfl | rfl | rfl | rfl <;> grind
    rcases rest with - | ⟨c, - | ⟨d, - | ⟨e, later⟩⟩⟩
    · cases h
    · cases h
    · cases h
    simp only at h
    split_ifs at h with hc hd he
    obtain ⟨chars', hlater, rfl⟩ := map_eq_ok h
    exact ⟨[b, c, d, e], _, later, chars', rfl,
      form_four hb (by simpa using hc) (by simpa using hd) (by simpa using he), hlater, rfl⟩
  · cases h

theorem forms_of_decodeFrom {index : Nat} {bytes : List UInt8} {chars : List Char}
    (h : decodeFrom index bytes = .ok chars) :
    Forms (bytes.map UInt8.toNat) (chars.map Char.toNat) := by
  induction hlength : bytes.length using Nat.strongRecOn generalizing index bytes chars with
  | ind length ih =>
    cases bytes with
    | nil =>
      obtain rfl : [] = chars := Except.ok.inj h
      exact .nil
    | cons b rest =>
      obtain ⟨form, n, later, chars', hbytes, hform, hlater, rfl⟩ := decodeFrom_cons h
      have hshorter : later.length < length := by
        have hpos := hform.length_pos
        rw [List.length_map] at hpos
        have hsum := congrArg List.length hbytes
        rw [List.length_append] at hsum
        omega
      rw [hbytes, List.map_append, List.map_cons, toNat_ofNat hform.isValidChar]
      exact .cons hform (ih later.length hshorter hlater rfl)

theorem Forms.eq_encode {octets numbers : List Nat} (h : Forms octets numbers)
    {bytes : List UInt8} {chars : List Char} (hbytes : bytes.map UInt8.toNat = octets)
    (hchars : chars.map Char.toNat = numbers) : bytes = chars.flatMap String.utf8EncodeChar := by
  induction h generalizing bytes chars with
  | nil =>
    obtain rfl := List.map_eq_nil_iff.mp hbytes
    obtain rfl := List.map_eq_nil_iff.mp hchars
    rfl
  | cons hform _ ih =>
    obtain ⟨form, later, rfl, rfl, hlater⟩ := List.map_eq_append_iff.mp hbytes
    obtain ⟨c, chars', rfl, rfl, hchars'⟩ := List.map_eq_cons_iff.mp hchars
    rw [List.flatMap_cons, ← ih hlater hchars', hform.eq_encodeChar, Char.ofNat_toNat]

theorem decodeFrom_encode (chars : List Char) (index : Nat) :
    decodeFrom index (chars.flatMap String.utf8EncodeChar) = .ok chars := by
  induction chars generalizing index with
  | nil => rfl
  | cons c chars ih =>
    rw [List.flatMap_cons, decodeFrom_form (form_encodeChar c), ih, Char.ofNat_toNat]
    rfl

theorem decode_eq_ok {bytes : List UInt8} {text : String} :
    decode bytes = .ok text ↔
      Forms (bytes.map UInt8.toNat) (text.toList.map Char.toNat) := by
  rw [decode]
  constructor
  · intro h
    obtain ⟨chars, hchars, rfl⟩ := map_eq_ok h
    rw [String.toList_ofList]
    exact forms_of_decodeFrom hchars
  · intro h
    rw [h.eq_encode rfl rfl, decodeFrom_encode]
    exact congrArg Except.ok String.ofList_toList

theorem Forms.exists_chars {octets numbers : List Nat} (h : Forms octets numbers) :
    ∃ chars : List Char, chars.map Char.toNat = numbers := by
  induction h with
  | nil => exact ⟨[], rfl⟩
  | @cons _ _ _ n hform _ ih =>
    obtain ⟨chars, rfl⟩ := ih
    exact ⟨Char.ofNat n :: chars, by rw [List.map_cons, toNat_ofNat hform.isValidChar]⟩

/-- Octets can be decoded exactly if they are well-formed. -/
theorem decode_succeeds_iff {bytes : List UInt8} :
    (∃ text, decode bytes = .ok text) ↔ IsWellFormed bytes := by
  constructor
  · rintro ⟨text, h⟩
    exact ⟨_, decode_eq_ok.mp h⟩
  · rintro ⟨_, h⟩
    obtain ⟨chars, rfl⟩ := h.exists_chars
    exact ⟨String.ofList chars, decode_eq_ok.mpr (by rwa [String.toList_ofList])⟩

theorem forms_encode (chars : List Char) :
    Forms ((chars.flatMap String.utf8EncodeChar).map UInt8.toNat) (chars.map Char.toNat) := by
  induction chars with
  | nil => exact .nil
  | cons c chars ih =>
    rw [List.flatMap_cons, List.map_append]
    exact .cons (form_encodeChar c) ih

theorem decode_eq_ok_iff_encode {bytes : List UInt8} {text : String} :
    decode bytes = .ok text ↔ text.toList.flatMap String.utf8EncodeChar = bytes := by
  rw [decode_eq_ok]
  constructor
  · exact fun h => (h.eq_encode rfl rfl).symm
  · rintro rfl
    exact forms_encode text.toList

/-- A text is decoded from its UTF-8 form, and from no other octets. -/
theorem decode_eq_ok_iff {bytes : List UInt8} {text : String} :
    decode bytes = .ok text ↔ text.toUTF8 = bytes.toByteArray := by
  rw [decode_eq_ok_iff_encode, String.toUTF8_eq_toByteArray, ← String.utf8Encode_toList]
  refine ⟨fun h => congrArg List.toByteArray h, fun h => ?_⟩
  have hdata : (text.toList.flatMap String.utf8EncodeChar).toByteArray.data =
      bytes.toByteArray.data := congrArg ByteArray.data h
  rw [List.data_toByteArray, List.data_toByteArray] at hdata
  exact List.toArray_inj hdata

end OperationTree.Utf8
