import Mathlib.Data.List.TakeWhile
import OperationTree.Proofs.Url.Structure

/-! The tokens of a template.  Every colon begins one: the word behind it is its name, and what
follows up to the next colon its tail.  The search for a parameter goes from colon to colon and
compares the words behind them with the name.  `simultaneous` looks at every token once and fills
the first one of each parameter. -/

namespace OperationTree.Url

/-- A colon with the word behind it, and what stands between that word and the next colon. -/
structure Token where
  name : List Char
  tail : List Char

namespace Token

def text (t : Token) : List Char := ':' :: (t.name ++ t.tail)

/-- The word is as long as it can be, and the next colon has not been passed. -/
structure IsWhole (t : Token) : Prop where
  name : t.name.all isWord = true
  tail : ∀ c ∈ t.tail, c ≠ ':'
  ends : t.tail.takeWhile isWord = []

end Token

/-- What stands before the first colon of a text, and the tokens from there on. -/
def cut : List Char → List Char × List Token
  | [] => ([], [])
  | c :: rest =>
    let found := cut rest
    if c = ':' then
      ([], { name := found.1.takeWhile isWord, tail := found.1.dropWhile isWord } :: found.2)
    else (c :: found.1, found.2)

/-- The value for a token behind others of some names: that of the parameter of its name, if the
token is the first of it. -/
def Token.value? (params : Members) (earlier : List (List Char)) (t : Token) : Option Json :=
  if t.name ∈ earlier then none else params.get? (String.ofList t.name)

/-- The text of tokens that stand behind others of some names, with values in their places. -/
def fill (params : Members) : (earlier : List (List Char)) → List Token → List Char
  | _, [] => []
  | earlier, t :: rest =>
    (match t.value? params earlier with
      | none => ':' :: t.name
      | some value => encodeParam value) ++ t.tail ++ fill params (earlier ++ [t.name]) rest

/-- The template with the parameters substituted at one pass: the first token of every parameter has
given way to the encoded value, and everything else is as it was. -/
def simultaneous (params : Members) (template : List Char) : List Char :=
  (cut template).1 ++ fill params [] (cut template).2

/-- Between two colons there is always a character that belongs to no word. -/
def IsSeparated (template : List Char) : Prop :=
  ∀ before word after, template = before ++ ':' :: word ++ ':' :: after → word.all isWord = false

/-! ### Cutting a text into tokens -/

variable {c : Char} {rest : List Char}

theorem cut_colon (hc : c = ':') : cut (c :: rest) =
    ([], { name := (cut rest).1.takeWhile isWord, tail := (cut rest).1.dropWhile isWord } ::
      (cut rest).2) :=
  if_pos hc

theorem cut_other (hc : c ≠ ':') : cut (c :: rest) = (c :: (cut rest).1, (cut rest).2) :=
  if_neg hc

theorem cut_text (text : List Char) :
    (cut text).1 ++ (cut text).2.flatMap Token.text = text := by
  induction text with
  | nil => rfl
  | cons c rest ih =>
    by_cases hc : c = ':'
    · rw [cut_colon hc, List.flatMap_cons, Token.text, List.takeWhile_append_dropWhile,
        List.nil_append, List.cons_append, ih, hc]
    · rw [cut_other hc, List.cons_append, ih]

theorem cut_lead (text : List Char) : ∀ c ∈ (cut text).1, c ≠ ':' := by
  induction text with
  | nil => simp [cut]
  | cons c rest ih =>
    by_cases hc : c = ':'
    · simp [cut_colon hc]
    · rw [cut_other hc]
      exact List.forall_mem_cons.mpr ⟨hc, ih⟩

theorem takeWhile_dropWhile (text : List Char) :
    (text.dropWhile isWord).takeWhile isWord = [] := by
  induction text with
  | nil => rfl
  | cons c rest ih =>
    rw [List.dropWhile_cons]
    split
    · exact ih
    · next hc => rw [List.takeWhile_cons_of_neg hc]

theorem cut_isWhole (text : List Char) : ∀ t ∈ (cut text).2, t.IsWhole := by
  induction text with
  | nil => simp [cut]
  | cons c rest ih =>
    by_cases hc : c = ':'
    · rw [cut_colon hc]
      refine List.forall_mem_cons.mpr ⟨⟨List.all_takeWhile, ?_, ?_⟩, ih⟩
      · exact fun c hc => cut_lead rest c ((List.dropWhile_sublist _).subset hc)
      · exact takeWhile_dropWhile (cut rest).1
    · rw [cut_other hc]
      exact ih

/-- Text without colons stands before the tokens of what follows. -/
theorem cut_append {lead : List Char} (h : ∀ c ∈ lead, c ≠ ':') (text : List Char) :
    cut (lead ++ text) = (lead ++ (cut text).1, (cut text).2) := by
  induction lead with
  | nil => rfl
  | cons c lead ih =>
    obtain ⟨hc, hlead⟩ := List.forall_mem_cons.mp h
    rw [List.cons_append, cut_other hc, ih hlead, List.cons_append]

theorem cut_suffix (before text : List Char) : (cut text).2 <:+ (cut (before ++ text)).2 := by
  induction before with
  | nil => exact List.suffix_rfl
  | cons c before ih =>
    rw [List.cons_append]
    by_cases hc : c = ':'
    · rw [cut_colon hc]
      exact ih.trans (List.suffix_cons _ _)
    · rw [cut_other hc]
      exact ih

theorem takeWhile_append_of_all {word : List Char} (h : word.all isWord = true)
    (text : List Char) : (word ++ text).takeWhile isWord = word ++ text.takeWhile isWord :=
  List.takeWhile_append_of_pos (List.all_eq_true.mp h)

theorem no_colon_of_all {word : List Char} (h : word.all isWord = true) : ∀ c ∈ word, c ≠ ':' := by
  rintro c hc rfl
  exact absurd (List.all_eq_true.mp h _ hc) (by decide)

/-- The tokens of a separated template do not touch. -/
theorem isSeparated_iff {template : List Char} :
    IsSeparated template ↔ ∀ t ∈ (cut template).2.dropLast, t.tail ≠ [] := by
  constructor
  · intro h t ht htail
    obtain ⟨before, after, hdrop⟩ := List.append_of_mem ht
    have hne : (cut template).2 ≠ [] := by
      intro hnil
      simp [hnil] at ht
    have htext := cut_text template
    rw [← List.dropLast_concat_getLast hne, hdrop, List.append_assoc, List.cons_append] at htext
    cases hnext : after ++ [(cut template).2.getLast hne] with
    | nil => simp at hnext
    | cons t' rest =>
      have hword := h ((cut template).1 ++ before.flatMap Token.text) t.name
        (t'.name ++ t'.tail ++ rest.flatMap Token.text)
        (htext.symm.trans (by simp [hnext, Token.text, htail]))
      have hwhole := cut_isWhole template t (List.dropLast_subset _ ht)
      exact absurd (hwhole.name.symm.trans hword) (by simp)
  · rintro h before word after rfl
    refine Bool.eq_false_iff.mpr fun hword => ?_
    -- The word is a token without a tail, and the second colon begins another one.
    have htouching : (cut (':' :: word ++ ':' :: after)).2 =
        { name := word, tail := [] } :: (cut (':' :: after)).2 := by
      have hlead := List.all_eq_true.mp hword
      rw [List.cons_append, cut_colon rfl, cut_append (no_colon_of_all hword), cut_colon rfl,
        List.append_nil, List.takeWhile_eq_self_iff.mpr hlead, List.dropWhile_eq_nil_iff.mpr hlead]
    have hsuffix := cut_suffix before (':' :: word ++ ':' :: after)
    rw [htouching, cut_colon rfl] at hsuffix
    obtain ⟨front, hfront⟩ := hsuffix
    refine h { name := word, tail := [] } ?_ rfl
    rw [List.append_assoc, ← hfront]
    simp

instance (template : List Char) : Decidable (IsSeparated template) :=
  decidable_of_iff _ isSeparated_iff.symm

theorem IsSeparated.tail_ne_nil {template : List Char} (h : IsSeparated template)
    {before after : List Token} {t t' : Token}
    (hcut : (cut template).2 = before ++ t :: t' :: after) : t.tail ≠ [] :=
  isSeparated_iff.mp h t (by simp [hcut])

/-! ### Finding a token -/

theorem endsToken_iff {text : List Char} :
    endsToken text = true ↔ text.takeWhile isWord = [] := by
  cases text with
  | nil => simp [endsToken]
  | cons c rest => cases hc : isWord c <;> simp [endsToken, hc]

theorem splitTokenFrom?_lead (name : List Char) {lead : List Char} (h : ∀ c ∈ lead, c ≠ ':')
    (text : List Char) {skip : Nat} (hskip : skip ≤ lead.length) :
    splitTokenFrom? name skip (lead ++ text) =
      (splitToken? name text).map fun found => (lead ++ found.1, found.2) := by
  induction lead generalizing skip with
  | nil =>
    obtain rfl := Nat.le_zero.mp hskip
    simp [splitToken?]
  | cons c lead ih =>
    obtain ⟨hc, hlead⟩ := List.forall_mem_cons.mp h
    cases skip with
    | zero =>
      have hnot : dropLead? (':' :: name) (c :: (lead ++ text)) = none := by
        rw [dropLead?, if_neg (Ne.symm hc)]
      rw [List.cons_append, splitTokenFrom?, hnot]
      simp [ih hlead (Nat.zero_le _), Function.comp_def]
    | succ skip =>
      rw [List.cons_append, splitTokenFrom?]
      simp [ih hlead (Nat.le_of_succ_le_succ hskip), Function.comp_def]

theorem splitToken?_lead (name : List Char) {lead : List Char} (h : ∀ c ∈ lead, c ≠ ':')
    (text : List Char) : splitToken? name (lead ++ text) =
      (splitToken? name text).map fun found => (lead ++ found.1, found.2) :=
  splitTokenFrom?_lead name h text (Nat.zero_le _)

/-- At a colon the word behind it is compared with the name. -/
theorem splitToken?_colon {name : List Char} (hname : name.all isWord = true)
    (text : List Char) : splitToken? name (':' :: text) =
      if text.takeWhile isWord = name then some ([], text.drop name.length)
      else (splitToken? name text).map fun found => (':' :: found.1, found.2) := by
  rw [splitToken?, splitTokenFrom?, dropLead?, if_pos rfl]
  cases hdrop : dropLead? name text with
  | none =>
    have hne : text.takeWhile isWord ≠ name := by
      intro heq
      have hsplit : text = name ++ text.dropWhile isWord := by
        rw [← heq, List.takeWhile_append_dropWhile]
      exact absurd (hdrop.symm.trans (dropLead?_eq_some.mpr hsplit)) (by simp)
    rw [if_neg hne]
    rfl
  | some after =>
    obtain rfl := dropLead?_eq_some.mp hdrop
    have hends : (name ++ after).takeWhile isWord = name ↔ endsToken after = true := by
      rw [takeWhile_append_of_all hname, endsToken_iff, List.append_right_eq_self]
    simp only [hends, List.drop_left]
    split
    · rfl
    · -- An occurrence that is passed over as a whole has no colon in it.
      have hcolon := no_colon_of_all hname
      rw [splitTokenFrom?_lead name hcolon after (Nat.le_refl _), ← splitToken?_lead name hcolon]

end OperationTree.Url
