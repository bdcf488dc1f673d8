import OperationTree.Endpoint

/-! Default parameters and the parameters of a call.  The defaults are substituted when a tree is
compiled, so they come before everything that a call gives: a token that a default has filled is
gone when the call's value of the same name is substituted.  Only a default that fills nothing gives
way to the call. -/

namespace OperationTree

namespace Url

/-- The names of the parameters that find a token at their turn. -/
def filledNames (template : List Char) : Members → List String
  | [] => []
  | (name, value) :: rest =>
    let later := filledNames (substituteOne template name value) rest
    if (splitToken? name.toList template).isSome then name :: later else later

theorem substituteOne_of_splitToken? {template : List Char} {name : String} (value : Json)
    (h : splitToken? name.toList template = none) :
    substituteOne template name value = template := by
  rw [substituteOne, h]

theorem substituteChars_append (template : List Char) (params later : Members) :
    substituteChars template (params ++ later) =
      substituteChars (substituteChars template params) later :=
  List.foldl_append

/-- Parameters that fill no token may be left out. -/
theorem substituteChars_filter (kept : String → Bool) (template : List Char) (params : Members)
    (h : ∀ name ∈ filledNames template params, kept name = true) :
    substituteChars template (params.filter fun param => kept param.1) =
      substituteChars template params := by
  induction params generalizing template with
  | nil => rfl
  | cons param rest ih =>
    obtain ⟨name, value⟩ := param
    have hcons params : substituteChars template ((name, value) :: params) =
        substituteChars (substituteOne template name value) params := rfl
    rw [filledNames] at h
    cases hsplit : splitToken? name.toList template with
    | none =>
      -- Kept or not, the parameter leaves the template as it is.
      have hsame := substituteOne_of_splitToken? value hsplit
      rw [hsplit, hsame] at h
      have hrest := ih template h
      rw [hcons, hsame, List.filter_cons]
      split
      · rw [hcons, hsame, hrest]
      · exact hrest
    | some parts =>
      rw [hsplit] at h
      obtain ⟨hkept, hlater⟩ := List.forall_mem_cons.mp h
      rw [List.filter_cons, if_pos hkept, hcons, hcons, ih _ hlater]

/-- Parameters that all find no token leave a template as it is. -/
theorem substituteChars_of_filledNames {template : List Char} {params : Members}
    (h : filledNames template params = []) : substituteChars template params = template := by
  have hnone := substituteChars_filter (fun _ => false) template params (by simp [h])
  rw [List.filter_eq_nil_iff.mpr (by simp)] at hnone
  exact hnone.symm

theorem substitute_eq (template : String) (params : Option Members) :
    substitute template params =
      String.ofList (substituteChars template.toList (params.getD [])) := by
  cases params with
  | none => exact String.ofList_toList.symm
  | some params => rfl

end Url

namespace Settings

/-- The settings without the default parameters of some names. -/
def withoutParams (s : Settings) (names : List String) : Settings :=
  { s with params := s.params.filter fun param => !names.contains param.1 }

theorem params?_getD (s : Settings) : s.params?.getD [] = s.params := by
  rw [params?]
  split
  · next h => exact (List.isEmpty_iff.mp h).symm
  · rfl

end Settings

/-- The names of the parameters that a call gives. -/
def Request.paramNames (r : Request) : List String := (r.params.getD []).keys

namespace Endpoint

/-- The template of an operation's URL, behind its base, with no parameters substituted. -/
def templateOf (details : Option Json) (settings : Settings) : List Char :=
  (Url.qualify (settings.baseFor details) ((details.bind (·.string? "url")).getD "")).toList

theorem toList_url_ofDetails (details : Option Json) (settings : Settings) :
    (ofDetails details settings).url.toList =
      Url.substituteChars (templateOf details settings) settings.params := by
  rw [ofDetails, urlOf, Url.substitute_eq, String.toList_ofList, Settings.params?_getD, templateOf]

/-- Without an overriding URI a call's URL is made by one substitution, of the defaults and then of
the call's own parameters. -/
theorem callUrl_ofDetails (details : Option Json) (settings : Settings) {r : Request}
    (h : r.override? = none) :
    (ofDetails details settings).callUrl r =
      String.ofList (Url.substituteChars (templateOf details settings)
        (settings.params ++ r.params.getD [])) := by
  rw [callUrl, h, Option.map_none, Option.getD_none, Url.substitute_eq, toList_url_ofDetails,
    Url.substituteChars_append]

/-- A call's own parameters replace those defaults of the same names that fill no token when the
tree is compiled.  Once the defaults leave none of the call's names a token, the URL is settled,
whatever values the call gives. -/
theorem callUrl_defaults (details : Option Json) (settings : Settings) (r : Request)
    (h : r.override? = none) :
    ((∀ name ∈ Url.filledNames (templateOf details settings) settings.params,
        name ∉ r.paramNames) →
      (ofDetails details settings).callUrl r =
        (ofDetails details (settings.withoutParams r.paramNames)).callUrl r) ∧
    (Url.filledNames (ofDetails details settings).url.toList (r.params.getD []) = [] →
      (ofDetails details settings).callUrl r = (ofDetails details settings).url) := by
  constructor
  · intro hfilled
    have hkept := Url.substituteChars_filter (fun name => !r.paramNames.contains name) _ _
      fun name hname => by simpa using hfilled name hname
    rw [callUrl_ofDetails _ _ h, callUrl_ofDetails _ _ h, Url.substituteChars_append,
      Url.substituteChars_append, ← hkept]
    rfl
  · intro hleft
    rw [callUrl, h, Option.map_none, Option.getD_none, Url.substitute_eq,
      Url.substituteChars_of_filledNames hleft, String.ofList_toList]

/-- The details of an operation on one item of a user. -/
def itemDetails : Option Json := some (.object [("url", .string "/:user/:item")])

/-- Defaults for the user, whom the URL names, and for a page, which it does not. -/
def itemSettings : Settings := { params := [("user", .string "ada"), ("page", .string "1")] }

/-- A call that gives the item and a page uses its own page; one that gives a user does not get
it. -/
theorem callUrl_defaults_item :
    (ofDetails itemDetails itemSettings).callUrl
          { params := some [("item", .string "7"), ("page", .string "2")] } =
        (ofDetails itemDetails (itemSettings.withoutParams ["item", "page"])).callUrl
          { params := some [("item", .string "7"), ("page", .string "2")] } ∧
      (ofDetails itemDetails itemSettings).callUrl { params := some [("user", .string "bob")] } =
        "/ada/:item" :=
  ⟨(callUrl_defaults itemDetails itemSettings _ rfl).1 (by decide),
    ((callUrl_defaults itemDetails itemSettings _ rfl).2 (by decide)).trans (by decide)⟩

/-- A default that fills the only token of its name is not overridden. -/
theorem not_callUrl_withoutParams :
    ¬ ∀ (details : Option Json) (settings : Settings) (r : Request), r.override? = none →
      (ofDetails details settings).callUrl r =
        (ofDetails details (settings.withoutParams r.paramNames)).callUrl r := by
  intro h
  have hsame := h (some (.object [("url", .string "/:id")])) { params := [("id", .string "g")] }
    { params := some [("id", .string "c")] } rfl
  exact absurd hsame (by decide)

end Endpoint

end OperationTree
