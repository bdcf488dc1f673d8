import Mathlib.Data.List.Forall2
import OperationTree.Proofs.Text.Utf8
import OperationTree.Text.Hexadecimal
import OperationTree.Transport.Standard

/-! What calls of file operations make of the content of a file.  Every encoding has a way back to
the octets: the digits of `hex` are read in pairs, the characters of `latin1` have the octets as
their numbers, and the text of `utf8` has them as its UTF-8 form.  Only `utf8` can fail, and only
`ascii` loses something. -/

namespace OperationTree

/-! ### Letter case -/

namespace Text

/-- The same character, or the same ASCII letter in the other case. -/
def SameLetter (a b : Char) : Prop :=
  a = b ∨ a.isUpper = true ∧ b.toNat = a.toNat + 32 ∨ b.isUpper = true ∧ a.toNat = b.toNat + 32

/-- The same text but for the case of ASCII letters. -/
def SameLetters (a b : String) : Prop := List.Forall₂ SameLetter a.toList b.toList

theorem isUpper_iff {c : Char} : c.isUpper = true ↔ 65 ≤ c.toNat ∧ c.toNat ≤ 90 := by
  have hupper : c.isUpper = decide ('A'.val ≤ c.val ∧ c.val ≤ 'Z'.val) := rfl
  rw [hupper, decide_eq_true_iff, UInt32.le_iff_toNat_le, UInt32.le_iff_toNat_le]
  rfl

theorem toNat_toLower (c : Char) :
    c.toLower.toNat = if c.isUpper then c.toNat + 32 else c.toNat := by
  by_cases hc : c.isUpper = true
  · have hbounds := isUpper_iff.mp hc
    have hlower : c.toLower.val = c.val + ('a'.val - 'A'.val) :=
      congrArg Char.val (dif_pos (of_decide_eq_true hc))
    have hsum : (c.val + ('a'.val - 'A'.val)).toNat = (c.toNat + 32) % 2 ^ 32 :=
      UInt32.toNat_add c.val 32
    rw [if_pos hc, ← Char.toNat_val, hlower, hsum, Nat.mod_eq_of_lt (by omega)]
  · have hlower : c.toLower = c := dif_neg fun h => hc (decide_eq_true h)
    rw [if_neg hc, hlower]

theorem toLower_eq_iff {a b : Char} : a.toLower = b.toLower ↔ SameLetter a b := by
  rw [SameLetter, ← Char.toNat_inj, ← Char.toNat_inj, toNat_toLower, toNat_toLower]
  have ha := isUpper_iff (c := a)
  have hb := isUpper_iff (c := b)
  by_cases hupper : a.isUpper = true <;> by_cases hother : b.isUpper = true <;>
    simp only [hupper, hother, if_true, if_false, Bool.false_eq_true, true_iff, false_iff,
      true_and, false_and, or_false, false_or] at ha hb ⊢ <;>
    omega

theorem sameLetters_iff {a b : String} : SameLetters a b ↔ a.toLower = b.toLower := by
  have hlower (text : String) : text.toLower.toList = text.toList.map Char.toLower :=
    String.toList_map
  rw [SameLetters, ← String.toList_inj, hlower, hlower, ← List.forall₂_eq_eq_eq,
    List.forall₂_map_left_iff, List.forall₂_map_right_iff]
  simp only [toLower_eq_iff]

end Text

namespace File

theorem Encoding.ofName?_congr {name other : String} (h : Text.SameLetters name other) :
    ofName? name = ofName? other := by
  rw [ofName?, ofName?, Text.sameLetters_iff.mp h]

/-- The names in lower case. -/
def Encoding.names : Encoding → List String
  | utf8 => ["utf8", "utf-8"]
  | latin1 => ["latin1", "binary"]
  | ascii => ["ascii"]
  | hex => ["hex"]

theorem Encoding.ofName?_own {encoding : Encoding} {name own : String} (hown : own ∈ encoding.names)
    (h : Text.SameLetters name own) : ofName? name = some encoding := by
  have hall : ∀ own ∈ encoding.names, ofName? own = some encoding := by
    cases encoding <;> decide +kernel
  rw [ofName?_congr h, hall own hown]

/-! ### Hexadecimal digits -/

def lowerHexDigits : List Char := "0123456789abcdef".toList

/-- The octets that pairs of hexadecimal digits stand for. -/
def hexOctets? : List Char → Option (List UInt8)
  | [] => some []
  | [_] => none
  | high :: low :: rest =>
    match Text.hexDigit? high, Text.hexDigit? low with
    | some h, some l => (hexOctets? rest).map (UInt8.ofNat (h * 16 + l) :: ·)
    | _, _ => none

theorem hexDigit_digitChar {n : Nat} (h : n < 16) :
    Text.hexDigit? (Nat.digitChar n) = some n ∧ Nat.digitChar n ∈ lowerHexDigits := by
  have hall : ∀ digit : Fin 16, Text.hexDigit? (Nat.digitChar digit) = some digit.val ∧
      Nat.digitChar digit ∈ lowerHexDigits := by decide +kernel
  exact hall ⟨n, h⟩

theorem hexOctets?_hexChars (bytes : List UInt8) :
    hexOctets? (bytes.flatMap Encoding.hexChars) = some bytes := by
  induction bytes with
  | nil => rfl
  | cons b bytes ih =>
    have hb := b.toNat_lt
    have hhigh := (hexDigit_digitChar (n := b.toNat / 16) (by omega)).1
    have hlow := (hexDigit_digitChar (n := b.toNat % 16) (by omega)).1
    rw [List.flatMap_cons, Encoding.hexChars, List.cons_append, List.singleton_append, hexOctets?]
    simp only [hhigh, hlow, ih, Option.map_some]
    rw [show b.toNat / 16 * 16 + b.toNat % 16 = b.toNat by omega, UInt8.ofNat_toNat]

theorem mem_lowerHexDigits {bytes : List UInt8} {c : Char}
    (hc : c ∈ bytes.flatMap Encoding.hexChars) : c ∈ lowerHexDigits := by
  obtain ⟨b, -, hb⟩ := List.mem_flatMap.mp hc
  have hlt := b.toNat_lt
  rcases List.mem_pair.mp hb with rfl | rfl
  · exact (hexDigit_digitChar (by omega)).2
  · exact (hexDigit_digitChar (by omega)).2

theorem length_hexChars (bytes : List UInt8) :
    (bytes.flatMap Encoding.hexChars).length = 2 * bytes.length := by
  simp [List.length_flatMap, Encoding.hexChars, List.map_const', Nat.mul_comm]

/-! ### Characters with given numbers -/

theorem map_toNat_ofNat (bytes : List UInt8) {f : UInt8 → Nat} (hf : ∀ b, f b < 256) :
    (bytes.map fun b => Char.ofNat (f b)).map Char.toNat = bytes.map f := by
  rw [List.map_map]
  exact List.map_congr_left fun b _ => Utf8.toNat_ofNat (.inl (by have := hf b; omega))

/-- Dropping the highest bits changes nothing exactly if there are none. -/
theorem map_mod_eq_iff {bytes : List UInt8} :
    (bytes.map fun b => b.toNat % 128) = bytes.map UInt8.toNat ↔ ∀ b ∈ bytes, b < 128 := by
  rw [List.map_inj_left]
  refine forall₂_congr fun b _ => ?_
  simp only [UInt8.lt_iff_toNat_lt, UInt8.reduceToNat]
  omega

end File

/-- The outcome that a job has without any other call: there at once, or through an exchange with
the outside. -/
def Job.outcomeIn? (outside : Outside) : Job → Option Outcome
  | .finished outcome => some outcome
  | .exchange e =>
    match e.refusal? with
    | some fault => some (.error fault)
    | none => some (e.perform outside).1
  | _ => none

namespace Transport

variable {details : Json} {location name : String} {outside : Outside} {bytes : List UInt8}

/-- Without an encoding the content is handed over as it is. -/
theorem fileCall_unencoded (hlocation : details.string? "location" = some location)
    (hfile : outside.files location = .ok bytes) (hnone : details.string? "encoding" = none)
    (request : Request) :
    (fileCall details request).outcomeIn? outside = some (.ok (.ofOctets bytes)) := by
  have hcall : fileCall details request = .exchange (.read location none) := by
    rw [fileCall, hlocation, hnone]
  rw [hcall, Job.outcomeIn?]
  show some (Exchange.readResult outside.files location none) = _
  rw [Exchange.readResult, hfile]
  rfl

/-- With an encoding the call gives the text that it makes of the content, or its fault. -/
theorem fileCall_encoded (hlocation : details.string? "location" = some location)
    (hfile : outside.files location = .ok bytes)
    (hname : details.string? "encoding" = some name) {encoding : File.Encoding}
    (hencoding : File.Encoding.ofName? name = some encoding) (request : Request) :
    (fileCall details request).outcomeIn? outside =
      some (match encoding.decode bytes with
        | .error fault => .error (.transport Exchange.fileName fault.message)
        | .ok text => .ok (.string text)) := by
  have hcall : fileCall details request = .exchange (.read location (some encoding)) := by
    simp only [fileCall, hlocation, hname, hencoding]
  rw [hcall, Job.outcomeIn?]
  show some (Exchange.readResult outside.files location (some encoding)) = _
  rw [Exchange.readResult, hfile]
  simp only [File.decode]
  cases encoding.decode bytes <;> rfl

/-- The content of a file comes back from the result of a call.  Without an encoding this lists the
octets, and `hex`, `latin1` and `utf8` have their ways back to them.  A call fails only if the
content is not the UTF-8 that it should be.  In `ascii` the highest bits are lost, if there are any.
The names of encodings may be written in either letter case. -/
theorem fileCall_lossless (hlocation : details.string? "location" = some location)
    (hfile : outside.files location = .ok bytes) (request : Request) :
    let outcome := (fileCall details request).outcomeIn? outside
    (details.string? "encoding" = none →
      outcome = some (.ok (.array (bytes.map fun b => .ofNat b.toNat)))) ∧
    ∀ name, details.string? "encoding" = some name →
      (Text.SameLetters name "hex" →
        ∃ text, outcome = some (.ok (.string text)) ∧ text.toList.length = 2 * bytes.length ∧
          (∀ c ∈ text.toList, c ∈ File.lowerHexDigits) ∧
          File.hexOctets? text.toList = some bytes) ∧
      (Text.SameLetters name "latin1" ∨ Text.SameLetters name "binary" →
        ∃ text, outcome = some (.ok (.string text)) ∧
          text.toList.map Char.toNat = bytes.map UInt8.toNat) ∧
      (Text.SameLetters name "utf8" ∨ Text.SameLetters name "utf-8" →
        ((∃ value, outcome = some (.ok value)) ↔ Utf8.IsWellFormed bytes) ∧
        ∀ value, outcome = some (.ok value) →
          ∃ text, value = .string text ∧ text.toUTF8 = bytes.toByteArray) ∧
      (Text.SameLetters name "ascii" →
        ∃ text, outcome = some (.ok (.string text)) ∧
          text.toList.map Char.toNat = bytes.map (fun b => b.toNat % 128) ∧
          (text.toList.map Char.toNat = bytes.map UInt8.toNat ↔ ∀ b ∈ bytes, b < 128)) ∧
      ∀ other, Text.SameLetters other name →
        File.Encoding.ofName? other = File.Encoding.ofName? name := by
  refine ⟨fun hnone => fileCall_unencoded hlocation hfile hnone request, fun name hname => ?_⟩
  have hcall {encoding : File.Encoding} (h : File.Encoding.ofName? name = some encoding) :=
    fileCall_encoded hlocation hfile hname h request
  refine ⟨fun hhex => ?_, fun hlatin => ?_, fun hutf => ?_, fun hascii => ?_, fun other h => ?_⟩
  · have hencoding : File.Encoding.ofName? name = some .hex :=
      File.Encoding.ofName?_own (.head _) hhex
    refine ⟨_, hcall hencoding, ?_⟩
    rw [String.toList_ofList]
    exact ⟨File.length_hexChars bytes, fun _ => File.mem_lowerHexDigits,
      File.hexOctets?_hexChars bytes⟩
  · have hencoding : File.Encoding.ofName? name = some .latin1 :=
      hlatin.elim (File.Encoding.ofName?_own (.head _))
        (File.Encoding.ofName?_own (.tail _ (.head _)))
    refine ⟨_, hcall hencoding, ?_⟩
    rw [String.toList_ofList]
    exact File.map_toNat_ofNat bytes UInt8.toNat_lt
  · have hencoding : File.Encoding.ofName? name = some .utf8 :=
      hutf.elim (File.Encoding.ofName?_own (.head _))
        (File.Encoding.ofName?_own (.tail _ (.head _)))
    rw [hcall hencoding, File.Encoding.decode, ← Utf8.decode_succeeds_iff]
    cases hdecode : Utf8.decode bytes with
    | error fault => simp
    | ok text =>
      refine ⟨by simp, fun value hvalue => ⟨text, ?_, Utf8.decode_eq_ok_iff.mp hdecode⟩⟩
      exact (Except.ok.inj (Option.some.inj hvalue)).symm
  · have hencoding : File.Encoding.ofName? name = some .ascii :=
      File.Encoding.ofName?_own (.head _) hascii
    refine ⟨_, hcall hencoding, ?_⟩
    have hnumbers := File.map_toNat_ofNat bytes (f := fun b => b.toNat % 128)
      fun b => by omega
    rw [String.toList_ofList, hnumbers]
    exact ⟨rfl, File.map_mod_eq_iff⟩
  · exact File.Encoding.ofName?_congr h

/-- The octets of two characters, the second of which is an `é`, read as UTF-8. -/
theorem fileCall_lossless_accent :
    let details : Json := .object [("location", .string "menu"), ("encoding", .string "Utf-8")]
    let outside : Outside := { files := fun _ => .ok [0x74, 0xC3, 0xA9] }
    details.string? "location" = some "menu" ∧ outside.files "menu" = .ok [0x74, 0xC3, 0xA9] ∧
    ∃ text : String, (fileCall details {}).outcomeIn? outside = some (.ok (.string text)) ∧
      text.toUTF8 = [0x74, 0xC3, 0xA9].toByteArray := by
  intro details outside
  refine ⟨rfl, rfl, ?_⟩
  have hlocation : details.string? "location" = some "menu" := rfl
  have hfile : outside.files "menu" = .ok [0x74, 0xC3, 0xA9] := rfl
  obtain ⟨-, hnamed⟩ := fileCall_lossless hlocation hfile {}
  obtain ⟨-, -, hutf, -⟩ := hnamed "Utf-8" rfl
  obtain ⟨hsucceeds, hfaithful⟩ := hutf (.inr (Text.sameLetters_iff.mpr (by decide +kernel)))
  have hformed : Utf8.IsWellFormed [0x74, 0xC3, 0xA9] :=
    ⟨[0x74, 0xE9], .cons (.one (by decide)) <| .cons
      (.two (x := 3) (y := 0x29) rfl (by decide) (by decide) (by decide)) .nil⟩
  obtain ⟨value, hvalue⟩ := hsucceeds.mpr hformed
  obtain ⟨text, rfl, htext⟩ := hfaithful value hvalue
  exact ⟨text, hvalue, htext⟩

end Transport
end OperationTree
