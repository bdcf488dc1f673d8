import OperationTree.Proofs.Url.Defaults

/-! Parameters and the structure of a URL.  Substituting a parameter takes a colon and a word out of
a URL and puts encoded text in their place, and neither of these holds a character that divides the
URL into its parts.  So the parts of a call's URL are those of its template, whatever values the
parameters have. -/

namespace OperationTree

namespace Url

/-- The names of tokens: letters, digits and underscores. -/
def IsName (name : String) : Prop := name.toList.all isWord = true

instance (name : String) : Decidable (IsName name) :=
  inferInstanceAs (Decidable (name.toList.all isWord = true))

/-- The characters that tokens and encoded values are made of. -/
def isInert (c : Char) : Bool := c.isAlphanum || "-_.!~*\x27()%:".toList.contains c

/-- What is left of a URL without the characters that parameters deal in. -/
def skeleton (url : List Char) : List Char := url.filter fun c => !isInert c

/-- The delimiters of URLs, the blank, the controls, and everything beyond ASCII. -/
def IsStructural (c : Char) : Prop :=
  c ∈ ['/', '?', '#', '&', '=', '@'] ∨ c.toNat ≤ 0x20 ∨ 0x7F ≤ c.toNat

/-! ### Encoded values -/

theorem isAlphanum_upperHexDigit {n : Nat} (h : n < 16) : (upperHexDigit n).isAlphanum = true := by
  have hall : ∀ digit : Fin 16, (upperHexDigit digit.val).isAlphanum = true := by decide
  exact hall ⟨n, h⟩

theorem percentByte_safe {b : UInt8} {c : Char} (h : c ∈ percentByte b) :
    isUnreserved c = true ∨ c = '%' := by
  have hb := b.toNat_lt
  have hhigh := isAlphanum_upperHexDigit (n := b.toNat / 16) (by omega)
  have hlow := isAlphanum_upperHexDigit (n := b.toNat % 16) (by omega)
  simp only [percentByte, List.mem_cons, List.not_mem_nil, or_false] at h
  rcases h with rfl | rfl | rfl
  · exact .inr rfl
  · exact .inl (by rw [isUnreserved, hhigh, Bool.true_or])
  · exact .inl (by rw [isUnreserved, hlow, Bool.true_or])

theorem encodeChars_cons (c : Char) (text : List Char) :
    encodeChars (c :: text) = encodeChar c ++ encodeChars text :=
  List.flatMap_cons

/-- An encoded text holds unreserved characters and percent signs only. -/
theorem encodeChars_safe {text : List Char} {c : Char} (h : c ∈ encodeChars text) :
    isUnreserved c = true ∨ c = '%' := by
  obtain ⟨source, -, hc⟩ := List.mem_flatMap.mp h
  rw [encodeChar] at hc
  split at hc
  · next hsource => exact .inl (by rwa [List.mem_singleton.mp hc])
  · obtain ⟨b, -, hb⟩ := List.mem_flatMap.mp hc
    exact percentByte_safe hb

theorem encodeParam_safe {value : Json} {c : Char} (h : c ∈ encodeParam value) :
    isUnreserved c = true ∨ c = '%' := by
  cases value with
  | null | object => cases h
  | _ => exact encodeChars_safe h

/-! ### Tokens -/

theorem dropLead?_eq_some {lead text after : List Char} :
    dropLead? lead text = some after ↔ text = lead ++ after := by
  induction lead generalizing text with
  | nil => simp [dropLead?]
  | cons x lead ih =>
    cases text with
    | nil => simp [dropLead?]
    | cons c text =>
      rw [dropLead?]
      split
      · next hx => rw [ih, hx, List.cons_append, List.cons_inj_right]
      · next hx => simp [Ne.symm hx]

theorem splitTokenFrom?_eq {name : List Char} {skip : Nat} {text before after : List Char}
    (h : splitTokenFrom? name skip text = some (before, after)) :
    text = before ++ ':' :: name ++ after := by
  -- Where the token does not begin, the first character goes before it.
  have hlater {skip c rest before} (ih : ∀ {skip before},
      splitTokenFrom? name skip rest = some (before, after) → rest = before ++ ':' :: name ++ after)
      (h : ((splitTokenFrom? name skip rest).map fun found => (c :: found.1, found.2)) =
        some (before, after)) : c :: rest = before ++ ':' :: name ++ after := by
    obtain ⟨⟨before', after'⟩, hrest, heq⟩ := Option.map_eq_some_iff.mp h
    obtain ⟨rfl, rfl⟩ := Prod.mk.inj heq
    rw [ih hrest]
    rfl
  induction text generalizing skip before with
  | nil => cases skip <;> cases h
  | cons c rest ih =>
    cases skip with
    | succ skip => exact hlater ih h
    | zero =>
      rw [splitTokenFrom?] at h
      split at h
      · exact hlater ih h
      · next found hfound =>
        split at h
        · obtain ⟨rfl, rfl⟩ := Prod.mk.inj (Option.some.inj h)
          exact dropLead?_eq_some.mp hfound
        · exact hlater ih h

/-- A text is what stands before and after a token with the token between. -/
theorem splitToken?_eq {name text before after : List Char}
    (h : splitToken? name text = some (before, after)) :
    text = before ++ ':' :: name ++ after :=
  splitTokenFrom?_eq h

/-! ### Substitution -/

theorem IsName.isWord {name : String} (h : IsName name) {c : Char} (hc : c ∈ name.toList) :
    isWord c = true :=
  List.all_eq_true.mp h c hc

theorem isInert_of_isWord {c : Char} (h : isWord c = true) : isInert c = true := by
  simp only [isWord, Bool.or_eq_true, beq_iff_eq] at h
  rcases h with h | rfl
  · rw [isInert, h, Bool.true_or]
  · decide

theorem isInert_of_safe {c : Char} (h : isUnreserved c = true ∨ c = '%') : isInert c = true := by
  rcases h with h | rfl
  · simp only [isUnreserved, Bool.or_eq_true, List.contains_iff_mem, List.mem_cons,
      List.not_mem_nil, or_false] at h
    rcases h with h | rfl | rfl | rfl | rfl | rfl | rfl | rfl | rfl | rfl
    · rw [isInert, h, Bool.true_or]
    all_goals decide
  · decide

theorem skeleton_append (front back : List Char) :
    skeleton (front ++ back) = skeleton front ++ skeleton back :=
  List.filter_append ..

theorem skeleton_eq_nil {text : List Char} (h : ∀ c ∈ text, isInert c = true) :
    skeleton text = [] :=
  List.filter_eq_nil_iff.mpr fun c hc => by simp [h c hc]

theorem skeleton_token {name : String} (hname : IsName name) :
    skeleton (':' :: name.toList) = [] :=
  skeleton_eq_nil (List.forall_mem_cons.mpr ⟨rfl, fun _ hc => isInert_of_isWord (hname.isWord hc)⟩)

theorem skeleton_encodeParam (value : Json) : skeleton (encodeParam value) = [] :=
  skeleton_eq_nil fun _ hc => isInert_of_safe (encodeParam_safe hc)

theorem skeleton_substituteOne (template : List Char) {name : String} (hname : IsName name)
    (value : Json) : skeleton (substituteOne template name value) = skeleton template := by
  cases hsplit : splitToken? name.toList template with
  | none => rw [substituteOne_of_splitToken? value hsplit]
  | some parts =>
    obtain ⟨before, after⟩ := parts
    simp only [substituteOne, hsplit]
    rw [splitToken?_eq hsplit, skeleton_append, skeleton_append, skeleton_append, skeleton_append,
      skeleton_token hname, skeleton_encodeParam]

theorem skeleton_substituteChars (template : List Char) {params : Members}
    (h : ∀ name ∈ params.keys, IsName name) :
    skeleton (substituteChars template params) = skeleton template := by
  induction params generalizing template with
  | nil => rfl
  | cons param rest ih =>
    obtain ⟨hname, hrest⟩ := List.forall_mem_cons.mp h
    exact (ih _ hrest).trans (skeleton_substituteOne template hname param.2)

theorem count_colon_eq_zero {text : List Char} (h : ∀ c ∈ text, c ≠ ':') : text.count ':' = 0 :=
  List.count_eq_zero.mpr fun hmem => h ':' hmem rfl

theorem count_colon_name {name : String} (hname : IsName name) : name.toList.count ':' = 0 := by
  refine count_colon_eq_zero fun c hc heq => ?_
  have hword := heq ▸ hname.isWord hc
  exact absurd hword (by decide)

theorem count_colon_encodeParam (value : Json) : (encodeParam value).count ':' = 0 := by
  refine count_colon_eq_zero fun c hc heq => ?_
  have hsafe := heq ▸ encodeParam_safe hc
  exact absurd hsafe (by decide)

/-- A parameter that finds a token takes the colons of the token away. -/
theorem count_colon_substituteOne {template before after : List Char} {name : String}
    (value : Json) (hsplit : splitToken? name.toList template = some (before, after)) :
    (substituteOne template name value).count ':' + 1 + name.toList.count ':' =
      template.count ':' := by
  have hone : (substituteOne template name value).count ':' =
      before.count ':' + after.count ':' := by
    simp only [substituteOne, hsplit]
    rw [List.count_append, List.count_append, count_colon_encodeParam, Nat.add_zero]
  rw [hone, splitToken?_eq hsplit, List.count_append, List.count_append, List.count_cons_self]
  omega

/-- Every parameter that finds a token takes one colon away, and no other does. -/
theorem count_colon_substituteChars (template : List Char) {params : Members}
    (h : ∀ name ∈ params.keys, IsName name) :
    (substituteChars template params).count ':' + (filledNames template params).length =
      template.count ':' := by
  induction params generalizing template with
  | nil => rfl
  | cons param rest ih =>
    obtain ⟨name, value⟩ := param
    obtain ⟨hname, hrest⟩ := List.forall_mem_cons.mp h
    have hcount := ih (substituteOne template name value) hrest
    have hcons : substituteChars template ((name, value) :: rest) =
      substituteChars (substituteOne template name value) rest := rfl
    rw [hcons, filledNames]
    cases hsplit : splitToken? name.toList template with
    | none =>
      rw [substituteOne_of_splitToken? value hsplit] at hcount ⊢
      exact hcount
    | some parts =>
      have hone := count_colon_substituteOne value hsplit
      rw [count_colon_name hname] at hone
      simp only [Option.isSome_some, if_true, List.length_cons]
      omega

/-- Inert characters are printable ASCII, the blank apart. -/
theorem isInert_bounds {c : Char} (h : isInert c = true) : 0x20 < c.toNat ∧ c.toNat < 0x7F := by
  rw [isInert, Bool.or_eq_true, List.contains_iff_mem] at h
  rcases h with halpha | hmark
  · delta Char.isAlphanum Char.isAlpha Char.isUpper Char.isLower Char.isDigit at halpha
    simp only [Bool.or_eq_true, Bool.and_eq_true, decide_eq_true_eq, UInt32.le_iff_toNat_le,
      ge_iff_le] at halpha
    change (((65 ≤ c.toNat ∧ c.toNat ≤ 90) ∨ (97 ≤ c.toNat ∧ c.toNat ≤ 122)) ∨
      (48 ≤ c.toNat ∧ c.toNat ≤ 57)) at halpha
    omega
  · have hmarks : "-_.!~*\x27()%:".toList.all
        (fun c => 0x20 < c.toNat && c.toNat < 0x7F) = true := by decide
    simpa using List.all_eq_true.mp hmarks c hmark

theorem isInert_of_isStructural {c : Char} (h : IsStructural c) : isInert c = false := by
  rcases h with h | h
  · simp only [List.mem_cons, List.not_mem_nil, or_false] at h
    rcases h with rfl | rfl | rfl | rfl | rfl | rfl <;> decide
  · refine Bool.eq_false_iff.mpr fun hinert => ?_
    have := isInert_bounds hinert
    omega

/-- Structural characters stand in a text as they stand in its skeleton. -/
theorem filter_skeleton {kept : Char → Bool} (h : ∀ c, kept c = true → IsStructural c)
    (url : List Char) : (skeleton url).filter kept = url.filter kept := by
  rw [skeleton, List.filter_filter]
  refine List.filter_congr fun c _ => ?_
  cases hc : kept c with
  | false => rfl
  | true => simp [isInert_of_isStructural (h c hc)]

end Url

namespace Endpoint

/-- The URL of a call before any parameter is substituted: the overriding URI, or else that of the
details, behind the base. -/
def bareUrl (details : Option Json) (settings : Settings) (r : Request) : List Char :=
  (Url.qualify (settings.baseFor details)
    (r.override?.getD ((details.bind (·.string? "url")).getD ""))).toList

/-- The parameters that are substituted into the URL of a call, in order.  An overriding URI gets
those of the call only. -/
def urlParams (settings : Settings) (r : Request) : Members :=
  (if r.override?.isSome then [] else settings.params) ++ r.params.getD []

theorem toList_callUrl (details : Option Json) (settings : Settings) (r : Request) :
    ((ofDetails details settings).callUrl r).toList =
      Url.substituteChars (bareUrl details settings r) (urlParams settings r) := by
  cases h : r.override? with
  | none =>
    rw [callUrl_ofDetails details settings h, String.toList_ofList, bareUrl, urlParams, h]
    rfl
  | some uri =>
    rw [callUrl, Url.substitute_eq, String.toList_ofList, bareUrl, urlParams, h]
    rfl

theorem forall_keys_urlParams {P : String → Prop} {settings : Settings} {r : Request}
    (hdefaults : ∀ name ∈ settings.params.keys, P name) (hparams : ∀ name ∈ r.paramNames, P name) :
    ∀ name ∈ (urlParams settings r).keys, P name := by
  intro name hname
  rw [urlParams, Members.keys, List.map_append, List.mem_append] at hname
  rcases hname with hname | hname
  · split at hname
    · cases hname
    · exact hdefaults name hname
  · exact hparams name hname

/-- Parameters whose names are words change nothing of a URL but its words: without the characters
of tokens and of encoded values the URL of a call is its template, and of the colons it has lost
those of the tokens that were substituted.  Characters that give a URL its structure appear in it
exactly as in the template, whatever the values are. -/
theorem callUrl_structure (details : Option Json) (settings : Settings) (r : Request)
    (hdefaults : ∀ name ∈ settings.params.keys, Url.IsName name)
    (hparams : ∀ name ∈ r.paramNames, Url.IsName name) :
    let url := ((ofDetails details settings).callUrl r).toList
    let template := bareUrl details settings r
    Url.skeleton url = Url.skeleton template ∧
      url.count ':' + (Url.filledNames template (urlParams settings r)).length =
        template.count ':' ∧
      ∀ kept : Char → Bool, (∀ c, kept c = true → Url.IsStructural c) →
        url.filter kept = template.filter kept := by
  intro url template
  have hurl : url = Url.substituteChars template (urlParams settings r) :=
    toList_callUrl details settings r
  have hnames := forall_keys_urlParams hdefaults hparams
  have hskeleton : Url.skeleton url = Url.skeleton template := by
    rw [hurl, Url.skeleton_substituteChars template hnames]
  refine ⟨hskeleton, ?_, fun kept hkept => ?_⟩
  · rw [hurl, Url.count_colon_substituteChars template hnames]
  · rw [← Url.filter_skeleton hkept, hskeleton, Url.filter_skeleton hkept]

/-- Values that look like parts of a URL, for the user of the defaults and the item of a call. -/
theorem callUrl_structure_item :
    (∀ name ∈ Members.keys [("user", .string "../a?b#c")], Url.IsName name) ∧
      Url.skeleton ((ofDetails itemDetails { params := [("user", .string "../a?b#c")] }).callUrl
          { params := some [("item", .array [.string "é/", .null])] }).toList = ['/', '/'] ∧
      (ofDetails itemDetails { params := [("user", .string "../a?b#c")] }).callUrl
          { params := some [("item", .array [.string "é/", .null])] } =
        "/..%2Fa%3Fb%23c/%C3%A9%2F%2C" :=
  ⟨List.forall_mem_singleton.mpr (by decide),
    (callUrl_structure itemDetails { params := [("user", .string "../a?b#c")] }
      { params := some [("item", .array [.string "é/", .null])] }
      (List.forall_mem_singleton.mpr (by decide)) (List.forall_mem_singleton.mpr (by decide))).1,
    by decide +kernel⟩

end Endpoint

end OperationTree
