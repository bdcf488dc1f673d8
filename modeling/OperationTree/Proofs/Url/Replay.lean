import OperationTree.Proofs.Url.Tokens

/-! Sending a finished URL again.  An absolute URL begins with a marker, a word with `://` behind
it, and the colon of a marker begins no token, because no word stands behind it.  So parameters
leave the markers of their templates alone, whatever the values are: behind an absolute base every
URL that a call comes to is absolute.  Given as the overriding URI it needs neither the base nor
parameters any more, and the call sends it as it is. -/

namespace OperationTree

namespace Url

/-- The names of tokens that are found in running text: words of at least one character. -/
def IsWordName (name : String) : Prop := IsName name ∧ name ≠ ""

instance (name : String) : Decidable (IsWordName name) :=
  inferInstanceAs (Decidable (IsName name ∧ name ≠ ""))

theorem IsWordName.toList_ne_nil {name : String} (h : IsWordName name) : name.toList ≠ [] :=
  fun hnil => h.2 (String.toList_eq_nil_iff.mp hnil)

/-- What absolute URLs begin with. -/
def IsMarker (marker : List Char) : Prop :=
  ∃ scheme : List Char, scheme ≠ [] ∧ scheme.all isWord = true ∧ marker = scheme ++ "://".toList

theorem isAbsoluteChars_iff {url : List Char} :
    isAbsoluteChars url = true ↔ ∃ marker rest, IsMarker marker ∧ url = marker ++ rest := by
  constructor
  · intro h
    rw [isAbsoluteChars, Bool.and_eq_true, Bool.not_eq_true', List.isEmpty_eq_false_iff] at h
    obtain ⟨hword, hprefix⟩ := h
    obtain ⟨rest, hrest⟩ := List.isPrefixOf_iff_prefix.mp hprefix
    refine ⟨_, rest, ⟨url.takeWhile isWord, hword, List.all_takeWhile, rfl⟩, ?_⟩
    rw [List.append_assoc]
    exact (hrest ▸ List.takeWhile_append_dropWhile (p := isWord)).symm
  · rintro ⟨_, rest, ⟨scheme, hne, hword, rfl⟩, rfl⟩
    have hall := List.all_eq_true.mp hword
    have htake : (scheme ++ ':' :: '/' :: '/' :: rest).takeWhile isWord = scheme := by
      rw [takeWhile_append_of_all hword, List.takeWhile_cons_of_neg (by decide), List.append_nil]
    have hdrop : (scheme ++ ':' :: '/' :: '/' :: rest).dropWhile isWord =
        ':' :: '/' :: '/' :: rest := by
      rw [List.dropWhile_append_of_pos hall, List.dropWhile_cons_of_neg (by decide)]
    rw [List.append_assoc]
    simp [isAbsoluteChars, htake, hdrop, hne]

theorem isAbsolute_qualify {base : String} (h : isAbsolute base = true) (url : String) :
    isAbsolute (qualify base url) = true := by
  rw [qualify]
  split
  · next hurl => exact hurl
  · obtain ⟨marker, rest, hmarker, hbase⟩ := isAbsoluteChars_iff.mp h
    rw [isAbsolute, String.toList_append]
    exact isAbsoluteChars_iff.mpr
      ⟨marker, rest ++ url.toList, hmarker, by rw [hbase, List.append_assoc]⟩

/-! ### Markers and parameters -/

section Marker

variable {marker : List Char} (h : IsMarker marker)
include h

/-- The search for a token passes over a marker. -/
theorem splitToken?_marker {name : String} (hname : IsWordName name) (text : List Char) :
    splitToken? name.toList (marker ++ text) =
      (splitToken? name.toList text).map fun found => (marker ++ found.1, found.2) := by
  obtain ⟨scheme, -, hword, rfl⟩ := h
  -- No word stands between the colon and the first slash.
  have hcolon : splitToken? name.toList ("://".toList ++ text) =
      (splitToken? name.toList text).map fun found => ("://".toList ++ found.1, found.2) := by
    have hnone : ∀ c ∈ ['/', '/'], c ≠ ':' := by simp
    have hslashes := splitToken?_lead name.toList hnone text
    have hnot : (['/', '/'] ++ text).takeWhile isWord ≠ name.toList :=
      fun heq => hname.toList_ne_nil (heq.symm.trans (List.takeWhile_cons_of_neg (by decide)))
    have hpass := splitToken?_colon hname.1 (['/', '/'] ++ text)
    rw [if_neg hnot, hslashes, Option.map_map] at hpass
    exact hpass
  rw [List.append_assoc, splitToken?_lead _ (no_colon_of_all hword), hcolon, Option.map_map]
  simp [Function.comp_def]

theorem substituteOne_marker {name : String} (hname : IsWordName name) (value : Json)
    (text : List Char) :
    substituteOne (marker ++ text) name value = marker ++ substituteOne text name value := by
  rw [substituteOne, substituteOne, splitToken?_marker h hname]
  cases splitToken? name.toList text with
  | none => rfl
  | some found => simp

/-- Parameters leave a marker as it is and where it is. -/
theorem substituteChars_marker {params : Members} (hnames : ∀ name ∈ params.keys, IsWordName name)
    (text : List Char) :
    substituteChars (marker ++ text) params = marker ++ substituteChars text params := by
  induction params generalizing text with
  | nil => rfl
  | cons param rest ih =>
    obtain ⟨hname, hrest⟩ := List.forall_mem_cons.mp hnames
    have hcons (template : List Char) : substituteChars template (param :: rest) =
        substituteChars (substituteOne template param.1 param.2) rest := rfl
    rw [hcons, hcons, substituteOne_marker h hname, ih hrest]

end Marker

theorem isAbsoluteChars_substituteChars {template : List Char} {params : Members}
    (h : isAbsoluteChars template = true) (hnames : ∀ name ∈ params.keys, IsWordName name) :
    isAbsoluteChars (substituteChars template params) = true := by
  obtain ⟨marker, rest, hmarker, rfl⟩ := isAbsoluteChars_iff.mp h
  exact isAbsoluteChars_iff.mpr
    ⟨marker, _, hmarker, substituteChars_marker hmarker hnames rest⟩

end Url

namespace Endpoint

/-- An absolute overriding URI needs no base, and without parameters nothing is put into it. -/
theorem callUrl_of_absolute (e : Endpoint) {r : Request} {url : String}
    (hurl : Url.isAbsolute url = true) (hover : r.uriOverride = some url)
    (hparams : r.params.getD [] = []) : e.callUrl r = url := by
  have hne : url.isEmpty = false := by
    rw [← Bool.not_eq_true, String.isEmpty_iff]
    rintro rfl
    exact absurd hurl (by decide)
  rw [callUrl, Request.override?, hover, Option.filter_some, hne, Url.substitute_eq, hparams]
  simp [Url.qualify, hurl, Url.substituteChars]

theorem isAbsolute_callUrl {details : Option Json} {settings : Settings} {r : Request}
    (hbase : Url.isAbsolute (ofDetails details settings).base = true)
    (hdefaults : ∀ name ∈ settings.params.keys, Url.IsWordName name)
    (hparams : ∀ name ∈ r.paramNames, Url.IsWordName name) :
    Url.isAbsolute ((ofDetails details settings).callUrl r) = true := by
  rw [Url.isAbsolute, toList_callUrl]
  exact Url.isAbsoluteChars_substituteChars (Url.isAbsolute_qualify hbase _)
    (forall_keys_urlParams hdefaults hparams)

/-- Behind an absolute base the URL of every call is absolute, and every call without parameters
that has this URL as its overriding URI is sent to it.  So a call may be sent again by the URL that
it has come to, and it is the same request. -/
theorem resolve_replayed (details : Option Json) (settings : Settings) (r : Request)
    (hbase : Url.isAbsolute (ofDetails details settings).base = true)
    (hdefaults : ∀ name ∈ settings.params.keys, Url.IsWordName name)
    (hparams : ∀ name ∈ r.paramNames, Url.IsWordName name) :
    let endpoint := ofDetails details settings
    let url := (endpoint.resolve r).url
    Url.isAbsolute url = true ∧
      (∀ again : Request, again.uriOverride = some url → again.params.getD [] = [] →
        (endpoint.resolve again).url = url) ∧
      endpoint.resolve { r with uriOverride := some url, params := none } = endpoint.resolve r := by
  intro endpoint url
  have hurl : Url.isAbsolute url = true := isAbsolute_callUrl hbase hdefaults hparams
  have hagain (again : Request) (hover : again.uriOverride = some url)
      (hnone : again.params.getD [] = []) : (endpoint.resolve again).url = url :=
    callUrl_of_absolute endpoint hurl hover hnone
  refine ⟨hurl, hagain, ?_⟩
  have hsame : endpoint.callUrl { r with uriOverride := some url, params := none } = url :=
    callUrl_of_absolute endpoint hurl rfl rfl
  rw [resolve, hsame]
  rfl

/-- A base with a token in it, a default with a marker of its own, and a port. -/
def tenantSettings : Settings where
  bases := [("default", "https://:tenant.test:8080")]
  params := [("tenant", .string "ftp://a")]

/-- Values that look like URLs change nothing of the marker. -/
theorem resolve_replayed_tenant :
    let endpoint := ofDetails itemDetails tenantSettings
    let r : Request := { params := some [("user", .string "http://:item"), ("item", .ofNat 7)] }
    (endpoint.resolve r).url = "https://ftp%3A%2F%2Fa.test:8080/http%3A%2F%2F%3Aitem/7" ∧
      endpoint.resolve { r with uriOverride := some (endpoint.resolve r).url, params := none } =
        endpoint.resolve r := by
  intro endpoint r
  refine ⟨by decide +kernel, ?_⟩
  exact (resolve_replayed itemDetails tenantSettings r (by decide +kernel) (by decide +kernel)
    (by decide +kernel)).2.2

/-- The empty name would find the colon of a marker. -/
example : Url.substitute "http://host" (some [("", .string "x")]) = "httpx//host" := by
  decide +kernel

end Endpoint

end OperationTree
