import OperationTree.Proofs.Json.Keys
import OperationTree.Proofs.Url.Tokens

/-! Substitution in a text whose characters are known by their places in the template.  So it can be
said which characters are taken for a token, and whether they come from the template or from a
value.  Where nothing misleads the search, what is taken for the token of a parameter is its first
token in the template, and the text after some parameters is the template with their tokens
filled. -/

namespace OperationTree.Url

/-! ### Texts whose characters are known by their places -/

/-- Characters with the places in the template that they come from; what comes from a value has
none. -/
abbrev Traced := List (Char × Option Nat)

namespace Traced

def text (t : Traced) : List Char := t.map Prod.fst

/-- Characters of a template from a place on. -/
def ofTemplate (place : Nat) (cs : List Char) : Traced :=
  (cs.zipIdx place).map fun (c, n) => (c, some n)

def ofValue (cs : List Char) : Traced := cs.map fun c => (c, none)

/-- The characters that are taken for the token of a name. -/
def token? (t : Traced) (name : List Char) : Option Traced :=
  (splitToken? name t.text).map fun found =>
    (t.drop found.1.length).take (name.length + 1)

/-- Puts a value in the place of the token of a name. -/
def put (t : Traced) (name : List Char) (value : Json) : Traced :=
  match splitToken? name t.text with
  | none => t
  | some (before, _) =>
    t.take before.length ++ ofValue (encodeParam value) ++
      t.drop (before.length + (name.length + 1))

def putAll (t : Traced) (params : Members) : Traced :=
  params.foldl (fun t param => t.put param.1.toList param.2) t

/-- Every parameter takes, at its turn, the very characters that are its first token in the
template, or nothing if it has none there. -/
def TakesOwn (template : List Char) (params : Members) : Prop :=
  ∀ done name value todo, params = done ++ (name, value) :: todo →
    ((ofTemplate 0 template).putAll done).token? name.toList =
      (ofTemplate 0 template).token? name.toList

@[simp] theorem text_append (t t' : Traced) : text (t ++ t') = t.text ++ t'.text :=
  List.map_append

@[simp] theorem text_ofTemplate (place : Nat) (cs : List Char) :
    (ofTemplate place cs).text = cs := by
  rw [text, ofTemplate, List.map_map]
  exact List.zipIdx_map_fst place cs

@[simp] theorem text_ofValue (cs : List Char) : (ofValue cs).text = cs := by
  simp [text, ofValue, Function.comp_def]

theorem length_text (t : Traced) : t.text.length = t.length := List.length_map ..

@[simp] theorem length_ofTemplate (place : Nat) (cs : List Char) :
    (ofTemplate place cs).length = cs.length := by
  simp [ofTemplate]

theorem ofTemplate_append (place : Nat) (cs cs' : List Char) :
    ofTemplate place (cs ++ cs') = ofTemplate place cs ++ ofTemplate (place + cs.length) cs' := by
  simp [ofTemplate, List.zipIdx_append]

theorem ofTemplate_cons (place : Nat) (c : Char) (cs : List Char) :
    ofTemplate place (c :: cs) = (c, some place) :: ofTemplate (place + 1) cs := rfl

theorem le_of_mem_ofTemplate {place n : Nat} {c : Char} {cs : List Char}
    (h : (c, some n) ∈ ofTemplate place cs) : place ≤ n := by
  obtain ⟨⟨c', n'⟩, hmem, heq⟩ := List.mem_map.mp h
  obtain ⟨rfl, hn⟩ := Prod.mk.inj heq
  rw [← Option.some.inj hn]
  exact List.le_snd_of_mem_zipIdx hmem

theorem place_isSome {place : Nat} {cs : List Char} {c : Char × Option Nat}
    (h : c ∈ ofTemplate place cs) : c.2.isSome = true := by
  obtain ⟨c', -, rfl⟩ := List.mem_map.mp h
  rfl

theorem text_put (t : Traced) (name : String) (value : Json) :
    (t.put name.toList value).text = substituteOne t.text name value := by
  cases h : splitToken? name.toList t.text with
  | none => simp only [put, substituteOne, h]
  | some found =>
    obtain ⟨before, after⟩ := found
    have hsplit := splitToken?_eq h
    have hlength : before.length + (name.toList.length + 1) =
        (before ++ ':' :: name.toList).length := by simp
    simp only [put, substituteOne, h, text_append, text_ofValue]
    rw [text, text, List.map_take, List.map_drop, ← text, hlength, hsplit, List.drop_left,
      List.append_assoc before, List.take_left, List.append_assoc]

theorem text_putAll (t : Traced) (params : Members) :
    (t.putAll params).text = substituteChars t.text params := by
  induction params generalizing t with
  | nil => rfl
  | cons param rest ih => exact (ih _).trans (by rw [text_put]; rfl)

/-! ### The search in a traced text -/

section Search

variable {name : List Char}

theorem token?_lead {lead : Traced} (h : ∀ c ∈ lead.text, c ≠ ':') (t : Traced) :
    (lead ++ t).token? name = t.token? name := by
  rw [token?, token?, text_append, splitToken?_lead name h, Option.map_map]
  refine Option.map_congr fun found _ => ?_
  simp [length_text, List.drop_length_add_append]

theorem put_lead {lead : Traced} (h : ∀ c ∈ lead.text, c ≠ ':') (t : Traced) (value : Json) :
    (lead ++ t).put name value = lead ++ t.put name value := by
  rw [put, put, text_append, splitToken?_lead name h]
  cases splitToken? name t.text with
  | none => rfl
  | some found =>
    simp [length_text, List.take_length_add_append, List.drop_length_add_append, Nat.add_assoc]

variable {place : Option Nat} {t : Traced} (hname : name.all isWord = true)
include hname

/-- A token is taken where its name is all of the word behind a colon. -/
theorem token?_of_eq (h : t.text.takeWhile isWord = name) :
    token? ((':', place) :: t) name = some ((':', place) :: t.take name.length) := by
  rw [token?, text, List.map_cons, splitToken?_colon hname, ← text, if_pos h]
  rfl

theorem put_of_eq (h : t.text.takeWhile isWord = name) (value : Json) :
    put ((':', place) :: t) name value =
      ofValue (encodeParam value) ++ t.drop name.length := by
  rw [put, text, List.map_cons, splitToken?_colon hname, ← text, if_pos h]
  simp

/-- Where the word is another one, the search goes on behind the colon. -/
theorem token?_of_ne (h : t.text.takeWhile isWord ≠ name) :
    token? ((':', place) :: t) name = t.token? name := by
  rw [token?, token?, text, List.map_cons, splitToken?_colon hname, ← text, if_neg h,
    Option.map_map]
  rfl

theorem put_of_ne (h : t.text.takeWhile isWord ≠ name) (value : Json) :
    put ((':', place) :: t) name value = (':', place) :: t.put name value := by
  rw [put, put, text, List.map_cons, splitToken?_colon hname, ← text, if_neg h]
  cases splitToken? name t.text with
  | none => rfl
  | some found =>
    have hlength : found.1.length + 1 + (name.length + 1) =
        found.1.length + (name.length + 1) + 1 := by omega
    simp [hlength]

end Search

end Traced

open Traced

/-! ### Templates some of whose tokens are filled -/

/-- The length of tokens in a template. -/
def extent (tokens : List Token) : Nat := (tokens.flatMap Token.text).length

/-- The text of `fill`, with the tokens from a place of the template on. -/
def fillTraced (params : Members) :
    (earlier : List (List Char)) → (place : Nat) → List Token → Traced
  | _, _, [] => []
  | earlier, place, t :: rest =>
    (match t.value? params earlier with
      | none => ofTemplate place (':' :: t.name)
      | some value => ofValue (encodeParam value)) ++
      (ofTemplate (place + (t.name.length + 1)) t.tail ++
        fillTraced params (earlier ++ [t.name]) (place + t.text.length) rest)

/-- The template once some parameters have been substituted. -/
def filled (params : Members) (template : List Char) : Traced :=
  ofTemplate 0 (cut template).1 ++ fillTraced params [] (cut template).1.length (cut template).2

/-- The word behind the colon of a token that has not been filled, with the text behind it. -/
def word (params : Members) (earlier : List (List Char)) (t : Token) (rest : List Token) :
    List Char :=
  t.name ++ (t.tail ++ fill params (earlier ++ [t.name]) rest).takeWhile isWord

theorem text_fillTraced (params : Members) (earlier : List (List Char)) (place : Nat)
    (tokens : List Token) :
    (fillTraced params earlier place tokens).text = fill params earlier tokens := by
  induction tokens generalizing earlier place with
  | nil => rfl
  | cons t rest ih =>
    rw [fillTraced, fill, text_append, text_append, ih]
    cases t.value? params earlier <;> simp

theorem fillTraced_nil (earlier : List (List Char)) (place : Nat) (tokens : List Token) :
    fillTraced [] earlier place tokens = ofTemplate place (tokens.flatMap Token.text) := by
  induction tokens generalizing earlier place with
  | nil => rfl
  | cons t rest ih =>
    have hvalue : t.value? [] earlier = none := by simp [Token.value?, Members.get?]
    rw [fillTraced, hvalue, ih, List.flatMap_cons, ofTemplate_append, Token.text,
      ← List.cons_append, ofTemplate_append, List.append_assoc]
    rfl

theorem filled_nil (template : List Char) : filled [] template = ofTemplate 0 template := by
  conv => rhs; rw [← cut_text template, ofTemplate_append]
  rw [filled, fillTraced_nil, Nat.zero_add]

theorem text_filled (params : Members) (template : List Char) :
    (filled params template).text = simultaneous params template := by
  rw [filled, text_append, text_ofTemplate, text_fillTraced, simultaneous]

/-- Only the values of the tokens matter. -/
theorem fillTraced_congr {params params' : Members} {earlier : List (List Char)} {place : Nat}
    {tokens : List Token}
    (h : ∀ before t after, tokens = before ++ t :: after →
      t.value? params (earlier ++ before.map Token.name) =
        t.value? params' (earlier ++ before.map Token.name)) :
    fillTraced params earlier place tokens = fillTraced params' earlier place tokens := by
  induction tokens generalizing earlier place with
  | nil => rfl
  | cons t rest ih =>
    have hfirst := h [] t rest rfl
    rw [List.map_nil, List.append_nil] at hfirst
    rw [fillTraced, fillTraced, hfirst, ih]
    rintro before s after rfl
    simpa using h (t :: before) s after rfl

/-! ### The search among tokens -/

theorem takeWhile_append_of_nil {text after : List Char} (h : after.takeWhile isWord = []) :
    (text ++ after).takeWhile isWord = text.takeWhile isWord := by
  induction text with
  | nil => exact h
  | cons c rest ih => rw [List.cons_append, List.takeWhile_cons, List.takeWhile_cons, ih]

theorem Token.IsWhole.takeWhile_tail {t : Token} (h : t.IsWhole) (hne : t.tail ≠ [])
    (after : List Char) : (t.tail ++ after).takeWhile isWord = [] := by
  have hends := h.ends
  cases htail : t.tail with
  | nil => exact absurd htail hne
  | cons c rest =>
    rw [htail, List.takeWhile_cons] at hends
    rw [List.cons_append, List.takeWhile_cons]
    split at hends
    · cases hends
    · next hc => rw [if_neg hc]

theorem value_no_colon (value : Json) : ∀ c ∈ encodeParam value, c ≠ ':' := by
  rintro c hc rfl
  exact absurd (encodeParam_safe hc) (by decide)

theorem Token.IsWhole.no_colon {t : Token} (h : t.IsWhole) : ∀ c ∈ t.name ++ t.tail, c ≠ ':' := by
  intro c hc
  rcases List.mem_append.mp hc with hc | hc
  · exact no_colon_of_all h.name c hc
  · exact h.tail c hc

section Search

variable {params : Members} {earlier : List (List Char)} {place : Nat} {t : Token}
  {rest : List Token} {name : List Char}

/-- What stands behind the colon of a token that has not been filled. -/
theorem fillTraced_none (h : t.value? params earlier = none) :
    fillTraced params earlier place (t :: rest) = (':', some place) ::
      (ofTemplate (place + 1) (t.name ++ t.tail) ++
        fillTraced params (earlier ++ [t.name]) (place + t.text.length) rest) := by
  rw [fillTraced, h, ofTemplate_append, ofTemplate_cons, List.append_assoc, List.cons_append,
    Nat.add_assoc place 1, Nat.add_comm 1]

theorem takeWhile_behind (hwhole : t.IsWhole) (place : Nat) :
    (text (ofTemplate (place + 1) (t.name ++ t.tail) ++
      fillTraced params (earlier ++ [t.name]) (place + t.text.length) rest)).takeWhile isWord =
      word params earlier t rest := by
  rw [text_append, text_ofTemplate, text_fillTraced, List.append_assoc,
    takeWhile_append_of_all hwhole.name, word]

variable (hname : name.all isWord = true)
include hname

/-- The search passes over a token that is filled or shows another word. -/
theorem search_pass (hwhole : t.IsWhole)
    (h : t.value? params earlier = none → word params earlier t rest ≠ name) (place : Nat) :
    (fillTraced params earlier place (t :: rest)).token? name =
      (fillTraced params (earlier ++ [t.name]) (place + t.text.length) rest).token? name ∧
    ∀ value, (fillTraced params earlier place (t :: rest)).put name value =
      fillTraced params earlier place [t] ++
        (fillTraced params (earlier ++ [t.name]) (place + t.text.length) rest).put name value := by
  have hfront : fillTraced params earlier place (t :: rest) =
      fillTraced params earlier place [t] ++
        fillTraced params (earlier ++ [t.name]) (place + t.text.length) rest := by
    simp [fillTraced]
  cases hvalue : t.value? params earlier with
  | some value =>
    have hcolon : ∀ c ∈ (fillTraced params earlier place [t]).text, c ≠ ':' := by
      rw [text_fillTraced]
      simp only [fill, hvalue, List.append_nil]
      exact List.forall_mem_append.mpr ⟨value_no_colon value, hwhole.tail⟩
    rw [hfront]
    exact ⟨token?_lead hcolon _, put_lead hcolon _⟩
  | none =>
    have hcolon : ∀ c ∈ (ofTemplate (place + 1) (t.name ++ t.tail)).text, c ≠ ':' := by
      rw [text_ofTemplate]
      exact hwhole.no_colon
    have hne := h hvalue
    rw [← takeWhile_behind hwhole place] at hne
    rw [fillTraced_none hvalue, fillTraced_none hvalue]
    refine ⟨(token?_of_ne hname hne).trans (token?_lead hcolon _), fun value => ?_⟩
    rw [put_of_ne hname hne, put_lead hcolon]
    simp [fillTraced]

theorem token?_pass {front back : List Token} (hwhole : ∀ t ∈ front, t.IsWhole)
    (h : ∀ before t after, front = before ++ t :: after →
      t.value? params (earlier ++ before.map Token.name) = none →
        word params (earlier ++ before.map Token.name) t (after ++ back) ≠ name) :
    (fillTraced params earlier place (front ++ back)).token? name =
      (fillTraced params (earlier ++ front.map Token.name) (place + extent front) back).token?
        name := by
  induction front generalizing earlier place with
  | nil => simp [extent]
  | cons t front ih =>
    obtain ⟨hfirst, hrest⟩ := List.forall_mem_cons.mp hwhole
    have hpass := h [] t front rfl
    rw [List.map_nil, List.append_nil] at hpass
    rw [List.cons_append, (search_pass hname hfirst hpass place).1, ih hrest]
    · simp [extent, Nat.add_assoc]
    · rintro before s after rfl
      simpa using h (t :: before) s after rfl

theorem token?_hit (hwhole : t.IsWhole) (hvalue : t.value? params earlier = none)
    (h : word params earlier t rest = name) :
    (fillTraced params earlier place (t :: rest)).token? name =
      some ((':', some place) :: (ofTemplate (place + 1) (t.name ++ t.tail) ++
        fillTraced params (earlier ++ [t.name]) (place + t.text.length) rest).take
          name.length) := by
  rw [fillTraced_none hvalue, token?_of_eq hname ((takeWhile_behind hwhole place).trans h)]

end Search

/-- The first token of a name, if there is one. -/
def ownToken? (name : List Char) : (place : Nat) → List Token → Option Traced
  | _, [] => none
  | place, t :: rest =>
    if t.name = name then some (ofTemplate place (':' :: name))
    else ownToken? name (place + t.text.length) rest

/-- Up to the first token of a name, the tokens that show the name are those that have it. -/
def IsClear (params : Members) (earlier : List (List Char)) (name : List Char)
    (tokens : List Token) : Prop :=
  ∀ before t after, tokens = before ++ t :: after → name ∉ before.map Token.name →
    t.value? params (earlier ++ before.map Token.name) = none →
      (word params (earlier ++ before.map Token.name) t after = name ↔ t.name = name)

theorem IsClear.tail {params : Members} {earlier : List (List Char)} {name : List Char}
    {t : Token} {rest : List Token} (h : IsClear params earlier name (t :: rest))
    (hne : t.name ≠ name) : IsClear params (earlier ++ [t.name]) name rest := by
  rintro before s after rfl hnew hvalue
  have hshift : earlier ++ [t.name] ++ before.map Token.name =
      earlier ++ (t :: before).map Token.name := by simp
  rw [hshift] at hvalue ⊢
  refine h (t :: before) s after rfl ?_ hvalue
  exact List.not_mem_cons_of_ne_of_not_mem (Ne.symm hne) hnew

/-- One more parameter changes nothing for tokens of other names and later ones of its own. -/
theorem value?_append {params : Members} {earlier : List (List Char)} {t : Token} {name : String}
    (h : t.name ∈ earlier ∨ t.name ≠ name.toList) (value : Json) :
    t.value? (params ++ [(name, value)]) earlier = t.value? params earlier := by
  rw [Token.value?, Token.value?]
  split
  · rfl
  · next hnew =>
    have hne : name ≠ String.ofList t.name := by
      rintro rfl
      exact (h.resolve_left hnew) String.toList_ofList.symm
    simp [Members.get?_append, Members.get?, hne]

/-- Where nothing misleads it, the search finds the parameter's own token, and putting the value
there is what filling the tokens with one more parameter does. -/
theorem search_own {params : Members} {name : String} (hname : IsName name)
    (hnew : name ∉ params.keys) {tokens : List Token} (hwhole : ∀ t ∈ tokens, t.IsWhole)
    {earlier : List (List Char)} (hearlier : name.toList ∉ earlier)
    (hclear : IsClear params earlier name.toList tokens) (place : Nat) :
    (fillTraced params earlier place tokens).token? name.toList =
      ownToken? name.toList place tokens ∧
    ∀ value, (fillTraced params earlier place tokens).put name.toList value =
      fillTraced (params ++ [(name, value)]) earlier place tokens := by
  induction tokens generalizing earlier place with
  | nil => exact ⟨rfl, fun _ => rfl⟩
  | cons t rest ih =>
    obtain ⟨hfirst, hrest⟩ := List.forall_mem_cons.mp hwhole
    have hhead := hclear [] t rest rfl List.not_mem_nil
    rw [List.map_nil, List.append_nil] at hhead
    by_cases ht : t.name = name.toList
    · -- The token is the first one of the name, and it has not been filled.
      have hvalue : t.value? params earlier = none := by
        rw [Token.value?, ht, if_neg hearlier, String.ofList_toList]
        exact Members.get?_eq_none_iff.mpr hnew
      have hword := (hhead hvalue).mpr ht
      refine ⟨?_, fun value => ?_⟩
      · rw [token?_hit hname hfirst hvalue hword, ownToken?, if_pos ht, ofTemplate_append,
          List.append_assoc, ht, ← length_ofTemplate (place + 1) name.toList, List.take_left]
        rfl
      · have hvalue' : t.value? (params ++ [(name, value)]) earlier = some value := by
          rw [Token.value?, ht, if_neg hearlier, String.ofList_toList, Members.get?_append,
            Members.get?_eq_none_iff.mpr hnew]
          simp [Members.get?]
        have hsame : ∀ place, fillTraced (params ++ [(name, value)]) (earlier ++ [t.name]) place
            rest = fillTraced params (earlier ++ [t.name]) place rest := by
          refine fun place => fillTraced_congr fun before s after _ => value?_append ?_ value
          by_cases hs : s.name = name.toList
          · exact .inl (by simp [hs, ht])
          · exact .inr hs
        rw [fillTraced_none hvalue, put_of_eq hname ((takeWhile_behind hfirst place).trans hword),
          fillTraced, hvalue', hsame, ofTemplate_append, List.append_assoc,
          ← length_ofTemplate (place + 1) name.toList, ht, List.drop_left]
        rw [Nat.add_assoc place 1, Nat.add_comm 1]
    · obtain ⟨htoken, hput⟩ :=
        search_pass hname hfirst (fun hvalue => mt (hhead hvalue).mp ht) place
      have hlater : name.toList ∉ earlier ++ [t.name] := by
        simpa using ⟨hearlier, Ne.symm ht⟩
      obtain ⟨ihToken, ihPut⟩ := ih hrest hlater (hclear.tail ht) (place + t.text.length)
      refine ⟨?_, fun value => ?_⟩
      · rw [htoken, ihToken, ownToken?, if_neg ht]
      · rw [hput, ihPut]
        simp [fillTraced, value?_append (.inr ht)]

/-- A template, some of whose tokens are filled, is searched like its tokens. -/
theorem filled_own {params : Members} {name : String} (hname : IsName name)
    (hnew : name ∉ params.keys) {template : List Char}
    (hclear : IsClear params [] name.toList (cut template).2) :
    (filled params template).token? name.toList =
      ownToken? name.toList (cut template).1.length (cut template).2 ∧
    ∀ value, (filled params template).put name.toList value =
      filled (params ++ [(name, value)]) template := by
  have hlead : ∀ c ∈ (ofTemplate 0 (cut template).1).text, c ≠ ':' := by
    rw [text_ofTemplate]
    exact cut_lead template
  obtain ⟨htoken, hput⟩ := search_own hname hnew (cut_isWhole template) List.not_mem_nil hclear
    (cut template).1.length
  refine ⟨?_, fun value => ?_⟩
  · rw [filled, token?_lead hlead, htoken]
  · rw [filled, put_lead hlead, hput, filled]

end OperationTree.Url
