import Mathlib.Data.List.DropRight
import Mathlib.Data.List.TakeWhile
import OperationTree.Json.Printer
import OperationTree.Json.Reader
import OperationTree.Proofs.Json.Printing

/-! The numerals that numbers are printed as.  Each of them is read in full, wherever it ends, and
those of integers denote the integers again.  A binary64 number is printed as the shortest decimal
that is nearest to it, but reading rounds more than once: `Number.reread?` is what comes back. -/

namespace OperationTree

namespace Numeral

/-! ### Spelling -/

/-- The characters of a numeral, part by part.  An exponent is written with its sign. -/
structure Spelling where
  negative : Bool
  whole : List Char
  fraction : Option (List Char)
  exponent : Option (Bool × List Char)

/-- Digits, at least one. -/
def IsDigits (cs : List Char) : Prop := cs ≠ [] ∧ ∀ c ∈ cs, c.isDigit = true

/-- What follows a numeral does not go on with it. -/
def Ends (rest : List Char) : Prop :=
  ∀ c ∈ rest.head?, c.isDigit = false ∧ c ≠ '.' ∧ c ≠ 'e' ∧ c ≠ 'E'

namespace Spelling

def fractionChars (s : Spelling) : List Char :=
  match s.fraction with
  | none => []
  | some cs => '.' :: cs

def exponentChars (s : Spelling) : List Char :=
  match s.exponent with
  | none => []
  | some (negative, cs) => 'e' :: (if negative then '-' else '+') :: cs

def chars (s : Spelling) : List Char :=
  (if s.negative then ['-'] else []) ++ (s.whole ++ (s.fractionChars ++ s.exponentChars))

/-- Every part has digits, and only a lone zero starts with zero. -/
structure IsValid (s : Spelling) : Prop where
  whole : IsDigits s.whole
  zero : s.whole.head? = some '0' → s.whole = ['0']
  fraction : ∀ cs ∈ s.fraction, IsDigits cs
  exponent : ∀ part ∈ s.exponent, IsDigits part.2

def numeral (s : Spelling) : Numeral where
  negative := s.negative
  whole := s.whole.map digitValue
  fraction := s.fraction.map (·.map digitValue)
  exponent := s.exponent.map fun (negative, cs) =>
    let n : Int := ofDigits (cs.map digitValue)
    if negative then -n else n

end Spelling

theorem digits_append {cs rest : List Char} (hcs : ∀ c ∈ cs, c.isDigit = true)
    (hrest : ∀ c ∈ rest.head?, c.isDigit = false) :
    digits (cs ++ rest) = (cs.map digitValue, rest) := by
  have hnone : rest.takeWhile Char.isDigit = [] ∧ rest.dropWhile Char.isDigit = rest := by
    cases rest with
    | nil => exact ⟨rfl, rfl⟩
    | cons c rest =>
      have hc := hrest c rfl
      exact ⟨List.takeWhile_cons_of_neg (by simp [hc]), List.dropWhile_cons_of_neg (by simp [hc])⟩
  rw [digits, List.takeWhile_append_of_pos hcs, List.dropWhile_append_of_pos hcs, hnone.1, hnone.2,
    List.append_nil]

theorem IsDigits.digits_append {cs rest : List Char} (h : IsDigits cs)
    (hrest : ∀ c ∈ rest.head?, c.isDigit = false) :
    digits (cs ++ rest) = (cs.map digitValue, rest) ∧ cs.map digitValue ≠ [] :=
  ⟨Numeral.digits_append h.2 hrest, by simpa using h.1⟩

theorem toNat_of_isDigit {c : Char} (hc : c.isDigit = true) :
    digitValue c < 10 ∧ c.toNat = 48 + digitValue c := by
  have hbounds : 48 ≤ c.toNat ∧ c.toNat ≤ 57 := by
    simpa [Char.isDigit, UInt32.le_iff_toNat_le] using hc
  have hvalue : digitValue c = c.toNat - 48 := rfl
  omega

theorem digitValue_eq_zero {c : Char} (hc : c.isDigit = true) (h : digitValue c = 0) : c = '0' := by
  rw [← Char.ofNat_toNat c, (toNat_of_isDigit hc).2, h]

namespace Spelling

variable {s : Spelling} {rest : List Char}

theorem scanFraction_of_head {cs : List Char} (h : ∀ c ∈ cs.head?, c ≠ '.') :
    scanFraction cs = some (none, cs) := by
  rw [scanFraction.eq_def]
  split
  · exact absurd rfl (h '.' rfl)
  · rfl

theorem scanExponent_of_head {cs : List Char} (h : ∀ c ∈ cs.head?, c ≠ 'e' ∧ c ≠ 'E') :
    scanExponent cs = some (none, cs) := by
  rw [scanExponent.eq_def]
  split
  iterate 6 simp at h
  rfl

theorem scanFraction_chars (hs : s.IsValid)
    (hrest : ∀ c ∈ rest.head?, c.isDigit = false ∧ c ≠ '.') :
    scanFraction (s.fractionChars ++ rest) = some (s.numeral.fraction, rest) := by
  rw [fractionChars, numeral]
  cases hfraction : s.fraction with
  | none => exact scanFraction_of_head fun c hc => (hrest c hc).2
  | some cs =>
    obtain ⟨hdigits, hne⟩ := (hs.fraction cs hfraction).digits_append fun c hc => (hrest c hc).1
    simp only [List.cons_append, scanFraction, hdigits, Option.map_some]

theorem scanExponentDigits_chars {negative : Bool} {cs : List Char} (h : IsDigits cs)
    (hrest : ∀ c ∈ rest.head?, c.isDigit = false) :
    scanExponentDigits negative (cs ++ rest) =
      some (some (if negative then -(ofDigits (cs.map digitValue) : Int)
        else ofDigits (cs.map digitValue)), rest) := by
  obtain ⟨hdigits, hne⟩ := h.digits_append hrest
  simp only [scanExponentDigits, hdigits]

theorem scanExponent_chars (hs : s.IsValid) (hrest : Ends rest) :
    scanExponent (s.exponentChars ++ rest) = some (s.numeral.exponent, rest) := by
  rw [exponentChars, numeral]
  cases hexponent : s.exponent with
  | none =>
    exact scanExponent_of_head fun c hc => (hrest c hc).2.2
  | some part =>
    obtain ⟨negative, cs⟩ := part
    have hdigits := hs.exponent _ hexponent
    have hstop : ∀ c ∈ rest.head?, c.isDigit = false := fun c hc => (hrest c hc).1
    cases negative with
    | true => exact scanExponentDigits_chars hdigits hstop
    | false => exact scanExponentDigits_chars hdigits hstop

/-- What follows the digits before the point does not go on with them. -/
theorem head_tail (hrest : Ends rest) :
    (∀ c ∈ (s.exponentChars ++ rest).head?, c.isDigit = false ∧ c ≠ '.') ∧
    ∀ c ∈ (s.fractionChars ++ (s.exponentChars ++ rest)).head?, c.isDigit = false := by
  have hexponent : ∀ c ∈ (s.exponentChars ++ rest).head?, c.isDigit = false ∧ c ≠ '.' := by
    rw [exponentChars]
    split
    · exact fun c hc => ⟨(hrest c hc).1, (hrest c hc).2.1⟩
    · rintro c ⟨⟩
      decide
  refine ⟨hexponent, ?_⟩
  rw [fractionChars]
  split
  · exact fun c hc => (hexponent c hc).1
  · rintro c ⟨⟩
    rfl

theorem scanMagnitude_chars (hs : s.IsValid) (hrest : Ends rest) :
    scanMagnitude s.negative (s.whole ++ (s.fractionChars ++ (s.exponentChars ++ rest))) =
      some (s.numeral, rest) := by
  obtain ⟨hexponent, hfraction⟩ := head_tail (s := s) hrest
  obtain ⟨hdigits, hne⟩ := hs.whole.digits_append hfraction
  rw [scanMagnitude, hdigits]
  split
  · next h => exact absurd (Prod.mk.inj h).1 hne
  · next d ds _ h =>
    -- A zero with digits behind it would be the lone zero.
    obtain ⟨c, cs, hwhole, hc, hcs⟩ := List.map_eq_cons_iff.mp (Prod.mk.inj h).1
    have hzero := digitValue_eq_zero (hs.whole.2 c (by simp [hwhole])) hc
    have hlone := hs.zero (by rw [hwhole, hzero]; rfl)
    rw [hwhole] at hlone
    rw [(List.cons.inj hlone).2] at hcs
    cases hcs
  · next h =>
    obtain ⟨rfl, rfl⟩ := Prod.mk.inj h
    simp only [scanFraction_chars hs hexponent, scanExponent_chars hs hrest, Option.map_some,
      numeral]

/-- A numeral is read in full when nothing goes on with it. -/
theorem scan_chars (hs : s.IsValid) (hrest : Ends rest) :
    scan (s.chars ++ rest) = some (s.numeral, rest) := by
  have hmagnitude := scanMagnitude_chars hs hrest
  rw [chars, List.append_assoc, List.append_assoc, List.append_assoc]
  cases hnegative : s.negative with
  | true =>
    rw [hnegative] at hmagnitude
    exact hmagnitude
  | false =>
    obtain ⟨c, cs, hwhole⟩ := List.exists_cons_of_ne_nil hs.whole.1
    have hc : c.isDigit = true := hs.whole.2 c (by simp [hwhole])
    rw [hnegative, hwhole] at hmagnitude
    rw [hwhole, if_neg Bool.false_ne_true, List.nil_append, List.cons_append, scan.eq_def]
    split
    · next h =>
      obtain ⟨rfl, -⟩ := List.cons.inj h
      cases hc
    · exact hmagnitude

end Spelling

/-! ### The digits of natural numbers -/

theorem isDigits_toDigits (n : Nat) : IsDigits (Nat.toDigits 10 n) :=
  ⟨Nat.toDigits_ne_nil, fun _ => Nat.isDigit_of_mem_toDigits (by decide) (by decide)⟩

theorem digitValue_digitChar {d : Nat} (h : d < 10) : digitValue (Nat.digitChar d) = d := by
  have hall : ∀ digit : Fin 10, digitValue (Nat.digitChar digit) = digit := by decide
  exact hall ⟨d, h⟩

theorem ofDigits_toDigits (n : Nat) : ofDigits ((Nat.toDigits 10 n).map digitValue) = n := by
  induction n using Nat.strongRecOn with
  | ind n ih =>
    rcases Nat.lt_or_ge n 10 with hn | hn
    · rw [Nat.toDigits_of_lt_base hn]
      simp [ofDigits, digitValue_digitChar hn]
    · have hlast := digitValue_digitChar (d := n % 10) (by omega)
      have hfirst := ih (n / 10) (by omega)
      rw [ofDigits] at hfirst
      rw [Nat.toDigits_of_base_le (by decide) hn, List.map_append, ofDigits, List.foldl_append,
        hfirst]
      simp only [List.map_cons, List.map_nil, List.foldl_cons, List.foldl_nil, hlast]
      omega

/-- Only zero is written with a leading zero. -/
theorem head_toDigits {n : Nat} (hn : n ≠ 0) : (Nat.toDigits 10 n).head? ≠ some '0' := by
  induction n using Nat.strongRecOn with
  | ind n ih =>
    rcases Nat.lt_or_ge n 10 with hlt | hge
    · rw [Nat.toDigits_of_lt_base hlt]
      have hall : ∀ digit : Fin 10, digit ≠ 0 → Nat.digitChar digit ≠ '0' := by decide
      simpa using hall ⟨n, hlt⟩ (by simpa [Fin.ext_iff] using hn)
    · have hfirst := ih (n / 10) (by omega) (by omega)
      obtain ⟨c, cs, hcs⟩ :=
        List.exists_cons_of_ne_nil (Nat.toDigits_ne_nil (b := 10) (n := n / 10))
      rw [hcs] at hfirst
      rw [Nat.toDigits_of_base_le (by decide) hge, hcs]
      exact hfirst

/-! ### Printed numbers -/

/-- The numeral of a natural number. -/
def Spelling.ofNat (negative : Bool) (n : Nat) : Spelling :=
  ⟨negative, Nat.toDigits 10 n, none, none⟩

theorem Spelling.ofNat_isValid (negative : Bool) (n : Nat) : (ofNat negative n).IsValid where
  whole := isDigits_toDigits n
  zero h := by
    obtain rfl : n = 0 := Classical.byContradiction fun hn => head_toDigits hn h
    rfl
  fraction _ h := by cases h
  exponent _ h := by cases h

end Numeral

/-! ### Decimals -/

/-- A decimal with digits, of which the first is no zero, or zero itself. -/
structure Decimal.IsNormal (d : Decimal) : Prop where
  nonempty : d.digits ≠ []
  digits : ∀ n ∈ d.digits, n < 10
  leading : d.digits.head? = some 0 → d = ⟨[0], 0⟩

/-- Dropping trailing zeros keeps the first digit. -/
theorem Decimal.ofNat_isNormal {n : Nat} (hn : n ≠ 0) (k : Int) : (ofNat n k).IsNormal := by
  obtain ⟨hne, hdigits⟩ := Numeral.isDigits_toDigits n
  obtain ⟨c, cs, hcs⟩ := List.exists_cons_of_ne_nil hne
  have hlead : Numeral.digitValue c ≠ 0 := fun h => by
    have hzero := Numeral.digitValue_eq_zero (hdigits c (by simp [hcs])) h
    exact Numeral.head_toDigits hn (by rw [hcs, hzero]; rfl)
  have htrimmed : (ofNat n k).digits =
      ((Nat.toDigits 10 n).map Numeral.digitValue).rdropWhile (· == 0) := rfl
  have hfront := List.rdropWhile_prefix (· == 0) ((Nat.toDigits 10 n).map Numeral.digitValue)
  rw [← htrimmed] at hfront
  have hnonempty : (ofNat n k).digits ≠ [] := by
    rw [htrimmed, Ne, List.rdropWhile_eq_nil_iff]
    intro h
    exact hlead (by simpa using h (Numeral.digitValue c) (by simp [hcs]))
  refine ⟨hnonempty, fun d hd => ?_, fun hhead => ?_⟩
  · obtain ⟨c, hc, rfl⟩ := List.mem_map.mp (hfront.subset hd)
    exact (Numeral.toNat_of_isDigit (hdigits c hc)).1
  · obtain ⟨d, ds, hds⟩ := List.exists_cons_of_ne_nil hnonempty
    obtain ⟨more, hmore⟩ := hfront
    rw [hds, hcs] at hmore
    rw [hds] at hhead
    have hfirst : d = Numeral.digitValue c := (List.cons.inj hmore).1
    have hzero : d = 0 := Option.some.inj hhead
    exact absurd (hfirst.symm.trans hzero) hlead

namespace Double

theorem nearestMultiple?_ne_zero {x : Double} (hx : x.isZero = false) {k : Int} {n : Nat}
    (h : x.nearestMultiple? k = some n) : n ≠ 0 := by
  have hsignificand : x.significand ≠ 0 := by simpa [isZero] using hx
  -- The rounding interval of a number that is not zero lies above zero.
  have hlow : 0 < x.interval.low := by
    rw [interval]
    dsimp only
    split <;> omega
  have hscaled : 0 < x.interval.low <<< (x.exponent - 2).toNat * Nat.pow 10 (-k).toNat :=
    Nat.mul_pos (by rw [Nat.shiftLeft_eq]; exact Nat.mul_pos hlow (Nat.two_pow_pos _))
      (Nat.pow_pos (by decide))
  have hoff (i : Interval) {low : Nat} (high : Nat) (h : 0 < low) :
      i.contains low high 0 = false := by
    rw [Interval.contains]
    split <;> simp [Nat.ne_of_gt h]
  rintro rfl
  rw [nearestMultiple?] at h
  dsimp only at h
  split at h
  · next hbelow =>
    rw [Option.some.inj h, Nat.zero_mul, hoff _ _ hscaled] at hbelow
    cases hbelow
  · split at h
    · cases h
    · cases h

theorem shortest_isNormal {x : Double} (hx : x.isZero = false) : x.shortest.IsNormal := by
  rw [shortest]
  cases hfound : (List.range 17).findSome? fun (n : Nat) =>
      (x.nearestMultiple? (floorLog10 x.ratio.1 x.ratio.2 - n)).map fun d =>
        Decimal.ofNat d (floorLog10 x.ratio.1 x.ratio.2 - n) with
  | none => exact ⟨by simp, by simp, fun _ => rfl⟩
  | some d =>
    obtain ⟨n, -, hn⟩ := List.exists_of_findSome?_eq_some hfound
    obtain ⟨m, hm, rfl⟩ := Option.map_eq_some_iff.mp hn
    exact Decimal.ofNat_isNormal (nearestMultiple?_ne_zero hx hm) _

end Double

/-! ### Printed numbers -/

namespace Decimal

theorem isDigit_digitChars {d : Decimal} (h : d.IsNormal) :
    ∀ c ∈ digitChars d.digits, c.isDigit = true := by
  have hall : ∀ digit : Fin 10, (Nat.digitChar digit).isDigit = true := by decide
  rintro c hc
  obtain ⟨n, hn, rfl⟩ := List.mem_map.mp hc
  exact hall ⟨n, h.digits n hn⟩

/-- Only zero is written with a leading zero. -/
theorem eq_zero_of_head {d : Decimal} (h : d.IsNormal)
    (hhead : (digitChars d.digits).head? = some '0') : d = ⟨[0], 0⟩ := by
  have hall : ∀ digit : Fin 10, Nat.digitChar digit = '0' → digit = 0 := by decide
  obtain ⟨n, ns, hns⟩ := List.exists_cons_of_ne_nil h.nonempty
  have hn := h.digits n (by simp [hns])
  rw [digitChars, hns] at hhead
  have hzero : n = 0 := Fin.val_eq_of_eq (hall ⟨n, hn⟩ (Option.some.inj hhead))
  exact h.leading (by rw [hns, hzero]; rfl)

/-- The parts of a decimal's text. -/
def spelling (style : Layout) (d : Decimal) (negative : Bool) : Numeral.Spelling :=
  let chars := digitChars d.digits
  if style.least ≤ d.exponent ∧ d.exponent ≤ style.greatest then
    if d.exponent < 0 then
      ⟨negative, ['0'], some (List.replicate ((-d.exponent).toNat - 1) '0' ++ chars), none⟩
    else
      let whole := d.exponent.toNat + 1
      let fraction := chars.drop whole
      ⟨negative, chars.take whole ++ List.replicate (whole - chars.length) '0',
        some (if fraction.isEmpty then ['0'] else fraction), none⟩
  else
    let fraction := chars.drop 1
    ⟨negative, chars.take 1, if fraction.isEmpty then none else some fraction,
      some (d.exponent < 0, Nat.toDigits 10 d.exponent.natAbs)⟩

theorem chars_spelling (style : Layout) (d : Decimal) (negative : Bool) :
    (d.spelling style negative).chars =
      (if negative then ['-'] else []) ++ d.layout style := by
  rw [spelling, layout, Numeral.Spelling.chars, Numeral.Spelling.fractionChars,
    Numeral.Spelling.exponentChars]
  dsimp only
  split
  · split <;> simp
  · split <;> simp

theorem spelling_isValid {d : Decimal} (h : d.IsNormal) (style : Layout) (negative : Bool) :
    (d.spelling style negative).IsValid := by
  have hdigits := isDigit_digitChars h
  have hzeros (n : Nat) : ∀ c ∈ List.replicate n '0', c.isDigit = true :=
    fun c hc => List.eq_of_mem_replicate hc ▸ rfl
  have hdrop (n : Nat) : ∀ c ∈ (digitChars d.digits).drop n, c.isDigit = true :=
    fun c hc => hdigits c (List.mem_of_mem_drop hc)
  have htake (n : Nat) : ∀ c ∈ (digitChars d.digits).take n, c.isDigit = true :=
    fun c hc => hdigits c (List.mem_of_mem_take hc)
  obtain ⟨c, cs, hchars⟩ : ∃ c cs, digitChars d.digits = c :: cs :=
    List.exists_cons_of_ne_nil (by simp [digitChars, h.nonempty])
  rw [spelling]
  dsimp only
  split
  · split
    · refine ⟨by simp [Numeral.IsDigits], fun _ => rfl, ?_, by simp⟩
      rintro _ ⟨⟩
      exact ⟨by simp [hchars], List.forall_mem_append.mpr ⟨hzeros _, hdigits⟩⟩
    · refine ⟨⟨by simp [hchars], List.forall_mem_append.mpr ⟨htake _, hzeros _⟩⟩, fun hhead => ?_,
        ?_, by simp⟩
      · rw [hchars] at hhead
        rw [eq_zero_of_head h (hchars ▸ hhead)]
        rfl
      · rintro _ ⟨⟩
        split
        · simp [Numeral.IsDigits]
        · next hne => exact ⟨by simpa using hne, hdrop _⟩
  · refine ⟨⟨by simp [hchars], htake 1⟩, fun hhead => ?_, fun fraction hfraction => ?_, ?_⟩
    · rw [hchars] at hhead ⊢
      rw [Option.some.inj hhead]
      rfl
    · split at hfraction
      · cases hfraction
      · next hne =>
        obtain rfl := Option.some.inj hfraction
        exact ⟨by simpa using hne, hdrop _⟩
    · rintro _ ⟨⟩
      exact Numeral.isDigits_toDigits _

end Decimal

namespace Number

/-- The parts of a number's text. -/
def spelling : Number → Numeral.Spelling
  | int n => .ofNat (n < 0) n.natAbs
  | double x =>
    if x.isZero then ⟨x.negative, ['0'], some ['0'], none⟩
    else x.shortest.spelling layout x.negative

theorem chars_spelling (n : Number) : n.spelling.chars = n.chars := by
  cases n with
  | int n =>
    rw [spelling, chars, Numeral.Spelling.ofNat, Numeral.Spelling.chars]
    by_cases hn : n < 0 <;>
      simp [hn, Numeral.Spelling.fractionChars, Numeral.Spelling.exponentChars]
  | double x =>
    rw [spelling, chars, Double.text]
    split
    · rfl
    · exact Decimal.chars_spelling layout x.shortest x.negative

theorem spelling_isValid (n : Number) : n.spelling.IsValid := by
  cases n with
  | int n => exact Numeral.Spelling.ofNat_isValid _ _
  | double x =>
    rw [spelling]
    split
    · exact ⟨by simp [Numeral.IsDigits], fun _ => rfl, by simp [Numeral.IsDigits], by simp⟩
    · next hx => exact Decimal.spelling_isValid (Double.shortest_isNormal (by simpa using hx)) _ _

/-- The number that the text of a number denotes. -/
def reread? (n : Number) : Option Number :=
  match Numeral.scan n.chars with
  | some (numeral, []) => numeral.number?
  | _ => none

theorem reread?_eq (n : Number) : n.reread? = n.spelling.numeral.number? := by
  have hend : Numeral.Ends [] := by simp [Numeral.Ends]
  have halone := Numeral.Spelling.scan_chars n.spelling_isValid hend
  rw [List.append_nil, chars_spelling] at halone
  rw [reread?, halone]

/-- A printed number is read in full when nothing goes on with it. -/
theorem scan_chars (n : Number) {rest : List Char} (hrest : Numeral.Ends rest) :
    ∃ numeral, Numeral.scan (n.chars ++ rest) = some (numeral, rest) ∧
      numeral.number? = n.reread? := by
  refine ⟨n.spelling.numeral, ?_, (reread?_eq n).symm⟩
  rw [← chars_spelling]
  exact Numeral.Spelling.scan_chars n.spelling_isValid hrest

/-- An integer fits 64 bits, signed or unsigned. -/
def Fits : Number → Prop
  | int n => -0x8000000000000000 ≤ n ∧ n < 0x10000000000000000
  | double _ => True

/-- The text of a number denotes the number. -/
def IsExact (n : Number) : Prop := n.reread? = some n

/-- The integers that fit 64 bits are read back as they are. -/
theorem isExact_int {n : Int} : (int n).IsExact ↔ (int n).Fits := by
  have hdigits : (int n).spelling.numeral =
      ⟨n < 0, (Nat.toDigits 10 n.natAbs).map Numeral.digitValue, none, none⟩ := rfl
  rw [IsExact, reread?_eq, hdigits, Numeral.number?, Fits]
  dsimp only
  rw [Numeral.ofDigits_toDigits]
  have hvalue : (if n < 0 then -(n.natAbs : Int) else n.natAbs) = n := by
    split <;> omega
  have hbounds : (if n < 0 then 0 < n.natAbs ∧ n.natAbs ≤ 0x8000000000000000
      else n.natAbs < 0x10000000000000000) ↔
      -0x8000000000000000 ≤ n ∧ n < 0x10000000000000000 := by
    split <;> omega
  simp only [Option.isNone_none, true_and, decide_eq_true_eq, hvalue]
  rw [← hbounds]
  refine ⟨fun h => Classical.byContradiction fun hlarge => ?_, fun h => if_pos h⟩
  rw [if_neg hlarge] at h
  obtain ⟨x, -, hx⟩ := Option.map_eq_some_iff.mp h
  cases hx

end Number
end OperationTree
