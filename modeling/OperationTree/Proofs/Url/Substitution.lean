import OperationTree.Proofs.Url.Tracing

/-! Substitution and the order of the parameters.  A value can lengthen the word of a token right
before it, so that the token is lost to its parameter or found by another one.  `KeepsApart` says
that this does not happen; then every parameter takes its own token of the template in every order,
and the result is that of one pass.  Where it happens, some order goes wrong. -/

namespace OperationTree.Url

open Traced

/-! ### Neighbours -/

theorem Token.value?_eq_some {params : Members} {earlier : List (List Char)} {t : Token}
    {value : Json} : t.value? params earlier = some value ↔
      t.name ∉ earlier ∧ params.get? (String.ofList t.name) = some value := by
  rw [Token.value?]
  split <;> simp_all

/-- The value of a token lengthens the word of the token right before it.  The shorter or the longer
word is the name of a parameter that has no token further left. -/
def Collides (params : Members) (earlier : List (List Char)) (t t' : Token) : Prop :=
  t.tail = [] ∧ ∃ value, t'.value? params (earlier ++ [t.name]) = some value ∧
    (encodeParam value).takeWhile isWord ≠ [] ∧
    ∃ name ∈ params.keys, name.toList ≠ t'.name ∧ name.toList ∉ earlier ∧
      (name.toList = t.name ∨ name.toList = t.name ++ (encodeParam value).takeWhile isWord)

/-- No value misleads the search for another parameter. -/
def KeepsApart (params : Members) (tokens : List Token) : Prop :=
  ∀ before t t' after, tokens = before ++ t :: t' :: after →
    ¬ Collides params (before.map Token.name) t t'

theorem IsSeparated.keepsApart {template : List Char} (h : IsSeparated template)
    (params : Members) : KeepsApart params (cut template).2 :=
  fun _ _ _ _ hcut hcollides => h.tail_ne_nil hcut hcollides.1

/-- Right behind its word a token without a tail has nothing, or the beginning of a value. -/
theorem takeWhile_touching {params : Members} {earlier : List (List Char)} {t t' : Token}
    {after : List Token} (htail : t.tail = [])
    (hnext : t'.value? params earlier ≠ none →
      (t'.tail ++ fill params (earlier ++ [t'.name]) after).takeWhile isWord = []) :
    (t.tail ++ fill params earlier (t' :: after)).takeWhile isWord =
      ((t'.value? params earlier).map fun v => (encodeParam v).takeWhile isWord).getD [] := by
  rw [htail, List.nil_append, fill]
  cases hvalue : t'.value? params earlier with
  | none =>
    rw [List.cons_append, List.cons_append, List.takeWhile_cons_of_neg (by decide)]
    rfl
  | some value =>
    rw [List.append_assoc, takeWhile_append_of_nil (hnext (by simp [hvalue]))]
    rfl

theorem keepsApart_of_values {params : Members}
    (h : ∀ param ∈ params, (encodeParam param.2).takeWhile isWord = []) (tokens : List Token) :
    KeepsApart params tokens := by
  rintro before t t' after - ⟨-, value, hvalue, hword, -⟩
  exact hword (h _ (Members.mem_of_get? (Token.value?_eq_some.mp hvalue).2))

section Neighbours

theorem value?_of_done {params done : Members}
    (hdone : ∀ name value, done.get? name = some value → params.get? name = some value)
    {earlier : List (List Char)} {t : Token} {value : Json}
    (h : t.value? done earlier = some value) : t.value? params earlier = some value := by
  obtain ⟨hnew, hget⟩ := Token.value?_eq_some.mp h
  exact Token.value?_eq_some.mpr ⟨hnew, hdone _ _ hget⟩

theorem value?_ne_none {params done : Members}
    (hdone : ∀ name value, done.get? name = some value → params.get? name = some value)
    {earlier : List (List Char)} {t : Token} (h : t.value? done earlier ≠ none) :
    t.value? params earlier ≠ none := by
  obtain ⟨value, hvalue⟩ := Option.ne_none_iff_exists'.mp h
  exact Option.ne_none_iff_exists'.mpr ⟨value, value?_of_done hdone hvalue⟩

variable {params : Members} {tokens : List Token} (hwhole : ∀ t ∈ tokens, t.IsWhole)
  (hkeeps : KeepsApart params tokens) {done : Members}
  (hdone : ∀ name value, done.get? name = some value → params.get? name = some value)
include hwhole hkeeps hdone

/-- No word stands right behind the first token of a parameter. -/
theorem takeWhile_behind_first {before after : List Token} {t : Token}
    {earlier : List (List Char)} (htokens : tokens = before ++ t :: after)
    (hearlier : earlier = before.map Token.name) (hparam : t.value? params earlier ≠ none) :
    (t.tail ++ fill done (earlier ++ [t.name]) after).takeWhile isWord = [] := by
  induction after generalizing before t earlier with
  | nil =>
    have ht := hwhole t (by simp [htokens])
    simpa [fill] using ht.ends
  | cons t' after ih =>
    have ht := hwhole t (by simp [htokens])
    by_cases htail : t.tail = []
    · have hshift : tokens = (before ++ [t]) ++ t' :: after := by simp [htokens]
      have hnext : t'.value? done (earlier ++ [t.name]) ≠ none →
          (t'.tail ++ fill done (earlier ++ [t.name] ++ [t'.name]) after).takeWhile isWord = [] :=
        fun hne => ih hshift (by simp [hearlier]) (value?_ne_none hdone hne)
      rw [takeWhile_touching htail hnext]
      cases hvalue : t'.value? done (earlier ++ [t.name]) with
      | none => rfl
      | some value =>
        by_cases hword : (encodeParam value).takeWhile isWord = []
        · exact hword
        · -- Otherwise the value would hide the parameter of the token.
          obtain ⟨own, hown⟩ := Option.ne_none_iff_exists'.mp hparam
          obtain ⟨hfirst, hget⟩ := Token.value?_eq_some.mp hown
          refine absurd ?_ (hkeeps before t t' after htokens)
          refine ⟨htail, value, hearlier ▸ value?_of_done hdone hvalue, hword, _,
            Members.mem_keys_of_get? hget, ?_⟩
          rw [String.toList_ofList]
          refine ⟨fun heq => (Token.value?_eq_some.mp hvalue).1 (by simp [heq]), ?_, .inl rfl⟩
          exact hearlier ▸ hfirst
    · exact ht.takeWhile_tail htail _

/-- Parameters that have been substituted do not mislead the search for another one. -/
theorem isClear_of_keepsApart {name : String} (hparam : name ∈ params.keys)
    (hnew : name ∉ done.keys) : IsClear done [] name.toList tokens := by
  intro before t after htokens hfirst _
  rw [List.nil_append, word]
  have ht := hwhole t (by simp [htokens])
  by_cases htail : t.tail = []
  · cases after with
    | nil => simp [htail, fill]
    | cons t' after =>
      have hshift : tokens = (before ++ [t]) ++ t' :: after := by simp [htokens]
      rw [takeWhile_touching htail fun hne =>
        takeWhile_behind_first hwhole hkeeps hdone hshift (by simp) (value?_ne_none hdone hne)]
      cases hvalue : t'.value? done (before.map Token.name ++ [t.name]) with
      | none => simp
      | some value =>
        by_cases hword : (encodeParam value).takeWhile isWord = []
        · simp [hword]
        · -- The name is neither the shorter nor the longer word.
          have hnot : ¬ (name.toList = t.name ∨
              name.toList = t.name ++ (encodeParam value).takeWhile isWord) := by
            intro hname
            refine hkeeps before t t' after htokens ⟨htail, value, value?_of_done hdone hvalue,
              hword, name, hparam, fun heq => ?_, hfirst, hname⟩
            obtain ⟨-, hget⟩ := Token.value?_eq_some.mp hvalue
            rw [← heq, String.ofList_toList] at hget
            exact hnew (Members.mem_keys_of_get? hget)
          exact ⟨fun heq => absurd (.inr heq.symm) hnot, fun heq => absurd (.inl heq.symm) hnot⟩
  · rw [ht.takeWhile_tail htail, List.append_nil]

end Neighbours

/-! ### Any order -/

section Order

variable {template : List Char} {params order : Members} (hdistinct : params.Distinct)
  (hkeeps : KeepsApart params (cut template).2) (horder : order.Perm params)
include hdistinct hkeeps horder

theorem isClear_of_split {done todo : Members} {name : String} {value : Json}
    (hsplit : order = done ++ (name, value) :: todo) :
    name ∈ params.keys ∧ name ∉ done.keys ∧ IsClear done [] name.toList (cut template).2 := by
  have hmem : name ∈ params.keys := (horder.map Prod.fst).subset (by simp [hsplit])
  have horder' : order.Distinct := (horder.map Prod.fst).nodup_iff.mpr hdistinct
  have hnew : name ∉ done.keys := by
    rw [Members.Distinct, hsplit, Members.keys, List.map_append, List.map_cons] at horder'
    exact fun hold => (List.nodup_append.mp horder').2.2 name hold name (List.mem_cons_self ..) rfl
  have hdone : ∀ other v, done.get? other = some v → params.get? other = some v := by
    intro other v hget
    rw [← hdistinct.get?_perm horder, hsplit, Members.get?_append, hget]
    rfl
  exact ⟨hmem, hnew, isClear_of_keepsApart (cut_isWhole template) hkeeps hdone hmem hnew⟩

variable (hnames : ∀ name ∈ params.keys, IsName name)
include hnames

theorem putAll_filled {done later todo : Members} (hsplit : order = done ++ (later ++ todo)) :
    (filled done template).putAll later = filled (done ++ later) template := by
  induction later generalizing done with
  | nil => rw [List.append_nil]; rfl
  | cons param later ih =>
    obtain ⟨name, value⟩ := param
    obtain ⟨hmem, hnew, hclear⟩ := isClear_of_split hdistinct hkeeps horder hsplit
    have hput := (filled_own (hnames name hmem) hnew hclear).2 value
    have hlater : order = (done ++ [(name, value)]) ++ (later ++ todo) := by simp [hsplit]
    rw [putAll, List.foldl_cons, hput, ← putAll, ih hlater, List.append_assoc,
      List.singleton_append]

theorem takesOwn_of_keepsApart : TakesOwn template order := by
  intro done name value todo hsplit
  obtain ⟨hmem, hnew, hclear⟩ := isClear_of_split hdistinct hkeeps horder hsplit
  have hname := hnames name hmem
  have hfirst : IsClear [] [] name.toList (cut template).2 :=
    isClear_of_keepsApart (cut_isWhole template) hkeeps (fun _ _ h => by cases h) hmem
      List.not_mem_nil
  have hputAll : (filled [] template).putAll done = filled ([] ++ done) template :=
    putAll_filled hdistinct hkeeps horder hnames hsplit
  rw [List.nil_append, filled_nil] at hputAll
  rw [hputAll, (filled_own hname hnew hclear).1, ← filled_nil,
    (filled_own hname List.not_mem_nil hfirst).1]

theorem substituteChars_of_keepsApart :
    substituteChars template order = simultaneous params template := by
  have hputAll : (filled [] template).putAll order = filled ([] ++ order) template :=
    putAll_filled hdistinct hkeeps horder hnames (List.append_nil order).symm
  have hsame : filled order template = filled params template := by
    rw [filled, filled]
    congr 1
    refine fillTraced_congr fun _ t _ _ => ?_
    rw [Token.value?, Token.value?, hdistinct.get?_perm horder]
  rw [List.nil_append, filled_nil, hsame] at hputAll
  rw [← text_filled, ← hputAll, text_putAll, text_ofTemplate]

end Order

/-- Substitution is simultaneous on separated templates: whatever the order of the parameters, the
first token of each of them is replaced by its encoded value, and all else stays as it is. -/
theorem substitute_separated (template : String) (hseparated : IsSeparated template.toList)
    (params : Members) (hdistinct : params.Distinct) (hnames : ∀ name ∈ params.keys, IsName name)
    (order : Members) (horder : order.Perm params) :
    substitute template (some order) = String.ofList (simultaneous params template.toList) := by
  have hkeeps := hseparated.keepsApart params
  rw [substitute, substituteChars_of_keepsApart hdistinct hkeeps horder hnames]

/-- A parameter with two tokens, one without a value, one without a token, and words that are longer
than a name or are none. -/
theorem substitute_separated_reordered :
    let template := "/:id/:ids?x=:x&y=:id#:note"
    let params : Members := [("id", .string "a b"), ("note", .null), ("other", .bool true)]
    let order : Members := [("note", .null), ("id", .string "a b"), ("other", .bool true)]
    IsSeparated template.toList ∧ params.Distinct ∧ order.Perm params ∧
      substitute template (some order) = String.ofList (simultaneous params template.toList) ∧
      substitute template (some order) = "/a%20b/:ids?x=:x&y=:id#" := by
  intro template params order
  have hseparated : IsSeparated template.toList := by decide +kernel
  have hdistinct : params.Distinct := by decide +kernel
  have horder : order.Perm params := .swap ..
  exact ⟨hseparated, hdistinct, horder, substitute_separated template hseparated params hdistinct
    (by decide +kernel) order horder, by decide +kernel⟩

/-! ### An order that goes wrong -/

theorem subset_of_token? {t taken : Traced} {name : List Char} (h : t.token? name = some taken) :
    taken ⊆ t := by
  obtain ⟨found, -, rfl⟩ := Option.map_eq_some_iff.mp h
  exact ((List.take_sublist _ _).trans (List.drop_sublist _ _)).subset

theorem le_of_mem_fillTraced {params : Members} {earlier : List (List Char)} {place n : Nat}
    {tokens : List Token} {c : Char} (h : (c, some n) ∈ fillTraced params earlier place tokens) :
    place ≤ n := by
  induction tokens generalizing earlier place with
  | nil => cases h
  | cons t rest ih =>
    rw [fillTraced, List.mem_append, List.mem_append] at h
    rcases h with h | h | h
    · split at h
      · exact le_of_mem_ofTemplate h
      · simp [ofValue] at h
    · have := le_of_mem_ofTemplate h
      omega
    · have := ih h
      omega

theorem place_isSome_of_ownToken? {name : List Char} {place : Nat} {tokens : List Token}
    {taken : Traced} (h : ownToken? name place tokens = some taken) :
    ∀ c ∈ taken, c.2.isSome = true := by
  induction tokens generalizing place with
  | nil => cases h
  | cons t rest ih =>
    rw [ownToken?] at h
    split at h
    · obtain rfl := Option.some.inj h
      exact fun c hc => place_isSome hc
    · exact ih h

theorem ownToken?_first {name : List Char} {place : Nat} {before after : List Token} {t : Token}
    (ht : t.name = name) (hfirst : name ∉ before.map Token.name) :
    ownToken? name place (before ++ t :: after) =
      some (ofTemplate (place + extent before) (':' :: name)) := by
  induction before generalizing place with
  | nil => simp [ownToken?, ht, extent]
  | cons s before ih =>
    rw [List.map_cons, List.mem_cons, not_or] at hfirst
    obtain ⟨hne, hlater⟩ := hfirst
    rw [List.cons_append, ownToken?, if_neg (Ne.symm hne), ih hlater]
    simp [extent, Nat.add_assoc]

/-- Where the next token has not been filled, a token shows its name. -/
theorem Token.IsWhole.word_eq {params : Members} {earlier : List (List Char)} {t : Token}
    {after : List Token} (h : t.IsWhole)
    (hnext : ∀ t' after', after = t' :: after' → t'.value? params (earlier ++ [t.name]) = none) :
    word params earlier t after = t.name := by
  rw [word, List.append_right_eq_self]
  by_cases htail : t.tail = []
  · cases after with
    | nil => simp [htail, fill]
    | cons t' after =>
      have hvalue := hnext t' after rfl
      rw [takeWhile_touching htail fun hne => absurd hvalue hne, hvalue]
      rfl
  · exact h.takeWhile_tail htail _

theorem keepsApart_singleton (name : String) (value : Json) (tokens : List Token) :
    KeepsApart [(name, value)] tokens := by
  rintro before t t' after - ⟨-, v, hvalue, -, other, hother, hne, -⟩
  obtain ⟨-, hget⟩ := Token.value?_eq_some.mp hvalue
  have hkey := Members.mem_keys_of_get? hget
  rw [Members.keys, List.map_singleton, List.mem_singleton] at hother hkey
  exact hne (by rw [hother, ← hkey, String.toList_ofList])

theorem value?_singleton {name : String} {value : Json} {earlier : List (List Char)} {t : Token}
    (h : t.name ≠ name.toList) : t.value? [(name, value)] earlier = none := by
  rw [← List.nil_append [(name, value)], value?_append (.inr h), Token.value?]
  split <;> rfl

section Collision

variable {template : List Char} {before after : List Token} {t t' : Token}
  (htokens : (cut template).2 = before ++ t :: t' :: after) {first : String} {value : Json}
  (ht' : t'.name = first.toList) (hnew : t'.name ∉ before.map Token.name ++ [t.name])
include htokens ht' hnew

omit htokens in
theorem value?_filled :
    t'.value? [(first, value)] (before.map Token.name ++ [t.name]) = some value :=
  Token.value?_eq_some.mpr ⟨hnew, by simp [ht', Members.get?]⟩

/-- With one parameter substituted, the search for another one passes over what stands left of the
token that has been filled, as it would in the template. -/
theorem token?_filled_singleton {name : String} (hname : IsName name)
    (hleft : name.toList ∉ before.map Token.name) :
    (filled [(first, value)] template).token? name.toList =
      (fillTraced [(first, value)] (before.map Token.name) ((cut template).1.length + extent before)
        (t :: t' :: after)).token? name.toList := by
  have hwhole := cut_isWhole template
  rw [htokens] at hwhole
  have hlead : ∀ c ∈ (ofTemplate 0 (cut template).1).text, c ≠ ':' := by
    rw [text_ofTemplate]
    exact cut_lead template
  rw [filled, token?_lead hlead, htokens, token?_pass hname (fun s hs => hwhole s (by simp [hs]))]
  · rw [List.nil_append]
  · rintro left s right rfl -
    -- The token behind `s` is one of those left of `t'`, which have other names.
    have hword : word [(first, value)] ([] ++ left.map Token.name) s (right ++ t :: t' :: after) =
        s.name := by
      refine (hwhole s (by simp)).word_eq fun s' right' heq => value?_singleton fun hs' => ?_
      rw [← ht'] at hs'
      refine hnew (hs' ▸ ?_)
      cases right with
      | nil =>
        obtain ⟨rfl, -⟩ := List.cons.inj heq
        simp
      | cons u right =>
        obtain ⟨rfl, -⟩ := List.cons.inj heq
        simp
    rw [hword]
    rintro heq
    exact hleft (by simp [heq])

/-- The token right before the one that has been filled shows its name and the value's word. -/
theorem word_eq_of_filled (htail : t.tail = []) :
    word [(first, value)] (before.map Token.name) t (t' :: after) =
      t.name ++ (encodeParam value).takeWhile isWord := by
  have hshift : (cut template).2 = (before ++ [t]) ++ t' :: after := by simp [htokens]
  rw [word, takeWhile_touching htail fun hne => ?_, value?_filled ht' hnew]
  · rfl
  · exact takeWhile_behind_first (cut_isWhole template) (keepsApart_singleton first value _)
      (fun _ _ h => h) hshift (by simp) hne

/-- The longer word is taken for a parameter of its name. -/
theorem token?_ne_own_of_longer (htail : t.tail = [])
    (hword : (encodeParam value).takeWhile isWord ≠ []) {name : String} (hname : IsName name)
    (hleft : name.toList ∉ before.map Token.name)
    (hlonger : name.toList = t.name ++ (encodeParam value).takeWhile isWord) :
    (filled [(first, value)] template).token? name.toList ≠
      ownToken? name.toList (cut template).1.length (cut template).2 := by
  have ht : t.IsWhole := cut_isWhole template t (by simp [htokens])
  have hother : t.name ≠ first.toList := fun heq => hnew (by simp [ht', heq])
  rw [token?_filled_singleton htokens ht' hnew hname hleft,
    token?_hit hname ht (value?_singleton hother)
      ((word_eq_of_filled htokens ht' hnew htail).trans hlonger.symm)]
  intro hown
  -- The first character of the value is among those that are taken.
  cases hvalue : encodeParam value with
  | nil => simp [hvalue] at hword
  | cons c rest =>
    have hmem : (c, none) ∈ (':', some ((cut template).1.length + extent before)) ::
        (ofTemplate ((cut template).1.length + extent before + 1) (t.name ++ t.tail) ++
          fillTraced [(first, value)] (before.map Token.name ++ [t.name])
            ((cut template).1.length + extent before + t.text.length) (t' :: after)).take
              name.toList.length := by
      obtain ⟨k, hk⟩ := Nat.exists_eq_succ_of_ne_zero (mt List.length_eq_zero_iff.mp hword)
      have hlength : name.toList.length =
          (ofTemplate ((cut template).1.length + extent before + 1) (t.name ++ t.tail)).length +
            (k + 1) := by
        simp [hlonger, htail, hk]
      rw [hlength, List.take_length_add_append, fillTraced, value?_filled ht' hnew]
      simp [ofValue, hvalue]
    exact absurd (place_isSome_of_ownToken? hown.symm _ hmem) (by simp)

/-- The shorter word is lost to a parameter of its name. -/
theorem token?_ne_own_of_shorter (htail : t.tail = [])
    (hword : (encodeParam value).takeWhile isWord ≠ []) {name : String} (hname : IsName name)
    (hleft : name.toList ∉ before.map Token.name) (hshorter : name.toList = t.name) :
    (filled [(first, value)] template).token? name.toList ≠
      ownToken? name.toList (cut template).1.length (cut template).2 := by
  have ht : t.IsWhole := cut_isWhole template t (by simp [htokens])
  rw [token?_filled_singleton htokens ht' hnew hname hleft, (search_pass hname ht ?_ _).1,
    htokens, ownToken?_first hshorter.symm hleft]
  · intro hown
    have hmem := subset_of_token? hown (a := (':', some ((cut template).1.length + extent before)))
      (by simp [ofTemplate_cons])
    have hle := le_of_mem_fillTraced hmem
    simp only [Token.text, List.length_cons] at hle
    omega
  · intro _
    rw [word_eq_of_filled htokens ht' hnew htail, hshorter]
    simpa using hword

end Collision

theorem exists_perm_cons_cons {α : Type} {l : List α} {a b : α} (ha : a ∈ l) (hb : b ∈ l)
    (hne : b ≠ a) : ∃ rest, l.Perm (a :: b :: rest) := by
  obtain ⟨left, right, rfl⟩ := List.append_of_mem ha
  have hmem : b ∈ left ++ right := by simpa [hne] using hb
  obtain ⟨left', right', hsplit⟩ := List.append_of_mem hmem
  refine ⟨left' ++ right', List.perm_middle.trans (.cons a ?_)⟩
  exact hsplit ▸ List.perm_middle

theorem isClear_alone (template : List Char) (name : String) :
    IsClear [] [] name.toList (cut template).2 :=
  isClear_of_keepsApart (cut_isWhole template) (keepsApart_singleton name .null _)
    (fun _ _ h => by cases h) (List.mem_singleton.mpr rfl) List.not_mem_nil

/-- In every order each parameter takes its own token and the result is the same, if and only if no
value misleads the search for another parameter. -/
theorem substitution_any_order_iff (template : String) (params : Members)
    (hdistinct : params.Distinct) (hnames : ∀ name ∈ params.keys, IsName name) :
    (∀ order : Members, order.Perm params → TakesOwn template.toList order ∧
      substitute template (some order) = substitute template (some params)) ↔
      KeepsApart params (cut template.toList).2 := by
  constructor
  · intro h before t t' after htokens hcollides
    obtain ⟨htail, value, hvalue, hword, name, hparam, hne, hleft, hname⟩ := hcollides
    obtain ⟨hnew, hget⟩ := Token.value?_eq_some.mp hvalue
    let first := String.ofList t'.name
    have ht' : t'.name = first.toList := String.toList_ofList.symm
    -- The value that misleads comes first, and then the parameter that is misled.
    obtain ⟨⟨other, own⟩, hown, heq⟩ := List.mem_map.mp hparam
    obtain rfl : other = name := heq
    obtain ⟨todo, horder⟩ := exists_perm_cons_cons (Members.mem_of_get? hget) hown
      fun heq => hne (by rw [(Prod.mk.inj heq).1, String.toList_ofList])
    have htakes := (h _ horder.symm).1 [(first, value)] other own todo rfl
    have hfirst := filled_own (hnames first (Members.mem_keys_of_get? hget)) List.not_mem_nil
      (isClear_alone template.toList first)
    have hother := filled_own (hnames other hparam) List.not_mem_nil
      (isClear_alone template.toList other)
    have hput : (ofTemplate 0 template.toList).putAll [(first, value)] =
        filled [(first, value)] template.toList := by
      rw [← filled_nil]
      exact hfirst.2 value
    rw [hput, ← filled_nil, hother.1] at htakes
    rcases hname with hshorter | hlonger
    · exact token?_ne_own_of_shorter htokens ht' hnew htail hword (hnames other hparam) hleft
        hshorter htakes
    · exact token?_ne_own_of_longer htokens ht' hnew htail hword (hnames other hparam) hleft
        hlonger htakes
  · intro hkeeps order horder
    refine ⟨takesOwn_of_keepsApart hdistinct hkeeps horder hnames, ?_⟩
    rw [substitute, substitute, substituteChars_of_keepsApart hdistinct hkeeps horder hnames,
      substituteChars_of_keepsApart hdistinct hkeeps (.refl params) hnames]

/-- Tokens that touch, with values that mislead nothing. -/
theorem substitution_any_order_touching :
    let params : Members := [("b", .string "-2"), ("a", .string "~1")]
    params.Distinct ∧ (∀ name ∈ params.keys, IsName name) ∧ ∀ order : Members,
      order.Perm params → TakesOwn ":a:b".toList order ∧
        substitute ":a:b" (some order) = "~1-2" := by
  intro params
  have hdistinct : params.Distinct := by decide +kernel
  have hnames : ∀ name ∈ params.keys, IsName name := by decide +kernel
  have hkeeps : KeepsApart params (cut ":a:b".toList).2 :=
    keepsApart_of_values (by decide +kernel) _
  have hresult : substitute ":a:b" (some params) = "~1-2" := by decide +kernel
  refine ⟨hdistinct, hnames, fun order horder => ?_⟩
  exact hresult ▸
    (substitution_any_order_iff ":a:b" params hdistinct hnames).mpr hkeeps order horder

/-- Where tokens touch the order of the parameters matters. -/
theorem not_any_order_touching :
    ¬ ∀ (template : String) (params : Members), params.Distinct →
      (∀ name ∈ params.keys, IsName name) → ∀ order : Members, order.Perm params →
        TakesOwn template.toList order ∧
          substitute template (some order) = substitute template (some params) := by
  intro h
  have hsame := (h ":a:b" [("b", .ofInt 2), ("a", .ofInt 1)] (by decide +kernel)
    (by decide +kernel) [("a", .ofInt 1), ("b", .ofInt 2)] (.swap ..)).2
  exact absurd hsame (by decide +kernel)

end OperationTree.Url
