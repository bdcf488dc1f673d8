import OperationTree.Proofs.Url.Structure

/-! Overriding a URI by the operation's own.  An overriding URI is put behind the same base as the
URL of the details and gets the parameters of the call, but not the defaults, which have been
substituted into the operation's URL only.  So the operation's own URL, given as the overriding URI,
is the URL of an operation without defaults, and nothing changes for any call exactly if no default
finds a token in it. -/

namespace OperationTree

namespace Url

/-- Whatever the names of the parameters are, each one that finds a token takes a colon away. -/
theorem count_colon_filledNames_le (template : List Char) (params : Members) :
    (substituteChars template params).count ':' + (filledNames template params).length ≤
      template.count ':' := by
  induction params generalizing template with
  | nil => exact Nat.le_refl _
  | cons param rest ih =>
    obtain ⟨name, value⟩ := param
    have hrest := ih (substituteOne template name value)
    have hcons : substituteChars template ((name, value) :: rest) =
      substituteChars (substituteOne template name value) rest := rfl
    rw [hcons, filledNames]
    cases hsplit : splitToken? name.toList template with
    | none =>
      rw [substituteOne_of_splitToken? value hsplit] at hrest ⊢
      exact hrest
    | some parts =>
      have hone := count_colon_substituteOne value hsplit
      simp only [Option.isSome_some, if_true, List.length_cons]
      omega

theorem substituteChars_eq_self_iff {template : List Char} {params : Members} :
    substituteChars template params = template ↔ filledNames template params = [] := by
  refine ⟨fun h => ?_, substituteChars_of_filledNames⟩
  have hcount := count_colon_filledNames_le template params
  rw [h] at hcount
  exact List.length_eq_zero_iff.mp (by omega)

end Url

namespace Settings

/-- The settings with the bases only. -/
def withoutDefaults (s : Settings) : Settings := { s with params := [] }

end Settings

namespace Endpoint

section OwnUrl

variable {details : Option Json} {url : String}
  (hurl : details.bind (·.string? "url") = some url) (hne : url ≠ "") (settings : Settings)
include hurl hne

/-- The operation's own URL as the overriding URI gets the parameters of the call only. -/
theorem callUrl_ownUrl (r : Request) :
    (ofDetails details settings).callUrl { r with uriOverride := some url } =
      String.ofList (Url.substituteChars (templateOf details settings) (r.params.getD [])) := by
  have hoverride : ({ r with uriOverride := some url } : Request).override? = some url := by
    simp [Request.override?, hne]
  rw [callUrl, hoverride, Option.map_some, Option.getD_some, Url.substitute_eq, templateOf, hurl]
  rfl

theorem callUrl_ownUrl_eq {r : Request} (h : r.override? = none) :
    (ofDetails details settings).callUrl { r with uriOverride := some url } =
      (ofDetails details settings.withoutDefaults).callUrl r := by
  rw [callUrl_ownUrl hurl hne, callUrl_ofDetails _ _ h]
  rfl

theorem resolve_ownUrl_eq {r : Request} (h : r.override? = none) :
    (ofDetails details settings).resolve { r with uriOverride := some url } =
      (ofDetails details settings.withoutDefaults).resolve r := by
  rw [resolve, resolve, callUrl_ownUrl_eq hurl hne settings h]
  rfl

/-- A call that overrides the URI by the operation's own sends what it would send without the
override if there were no defaults.  That is the same request for every call if and only if no
default finds a token in the URL. -/
theorem resolve_ownUrl :
    (∀ r : Request, r.override? = none →
      (ofDetails details settings).resolve { r with uriOverride := some url } =
        (ofDetails details settings.withoutDefaults).resolve r) ∧
    ((∀ r : Request, r.override? = none →
      (ofDetails details settings).resolve { r with uriOverride := some url } =
        (ofDetails details settings).resolve r) ↔
      Url.filledNames (templateOf details settings) settings.params = []) := by
  refine ⟨fun _ => resolve_ownUrl_eq hurl hne settings, fun hnoop => ?_, fun hfilled r h => ?_⟩
  · -- A call without parameters shows the operation's URL as the defaults have left it.
    have hcall : (ofDetails details settings).callUrl { uriOverride := some url } =
        (ofDetails details settings).callUrl {} := congrArg Outgoing.url (hnoop {} rfl)
    have hbare := callUrl_ownUrl hurl hne settings {}
    rw [hcall, callUrl_ofDetails _ _ rfl, String.ofList_inj] at hbare
    refine Url.substituteChars_eq_self_iff.mp (Eq.trans ?_ hbare)
    simp
  · have hurls : (ofDetails details settings.withoutDefaults).callUrl r =
        (ofDetails details settings).callUrl r := by
      rw [callUrl_ofDetails _ _ h, callUrl_ofDetails _ _ h, Url.substituteChars_append,
        Url.substituteChars_append, Url.substituteChars_eq_self_iff.mpr hfilled]
      rfl
    rw [resolve_ownUrl_eq hurl hne settings h, resolve, resolve, hurls]
    rfl

end OwnUrl

def ownBaseDetails : Option Json :=
  some (.object [("url", .string "/people/:id"), ("prefixType", .string "auth")])

def ownBaseSettings : Settings :=
  { bases := [("auth", "https://auth.test")], params := [("tenant", .string "acme")] }

/-- A default whose token the URL does not have. -/
theorem resolve_ownUrl_people :
    ((ofDetails ownBaseDetails ownBaseSettings).resolve
        { params := some [("id", .ofNat 7)], uriOverride := some "/people/:id" } =
      (ofDetails ownBaseDetails ownBaseSettings).resolve { params := some [("id", .ofNat 7)] }) ∧
      (ofDetails ownBaseDetails ownBaseSettings).callUrl { params := some [("id", .ofNat 7)] } =
        "https://auth.test/people/7" := by
  have hurl : ownBaseDetails.bind (·.string? "url") = some "/people/:id" := by decide +kernel
  have hnoop := (resolve_ownUrl hurl (by decide) ownBaseSettings).2.mpr (by decide +kernel)
  exact ⟨hnoop { params := some [("id", .ofNat 7)] } rfl, by decide +kernel⟩

/-- A default that finds a token in the URL is missing from the overriding URI. -/
theorem not_resolve_ownUrl_default :
    ¬ ∀ (details : Option Json) (url : String) (settings : Settings) (r : Request),
      details.bind (·.string? "url") = some url → url ≠ "" → r.override? = none →
        (ofDetails details settings).resolve { r with uriOverride := some url } =
          (ofDetails details settings).resolve r := by
  intro h
  have hsame := congrArg Outgoing.url (h (some (.object [("url", .string "/:tenant")])) "/:tenant"
    { params := [("tenant", .string "acme")] } {} (by decide +kernel) (by decide) rfl)
  exact absurd hsame (by decide +kernel)

end Endpoint

end OperationTree
