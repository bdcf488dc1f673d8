import Mathlib.Data.List.Nodup
import OperationTree.Http.Message
import OperationTree.Proofs.Json.Keys

/-! The headers of a message.  The headers of a call are put over those of the operation by the
exact spelling of their names, and so is the default content type, whereas HTTP takes no account of
the case of letters.  `Endpoint.headers_sentOnce` says when this makes no difference: as long as
names that are the same are spelled alike, every header is sent once, with the call's value. -/

namespace OperationTree

namespace Http

/-- No two of the names are the same up to the case of letters. -/
def NamesDiffer (names : List String) : Prop := (names.map String.toLower).Nodup

instance (names : List String) : Decidable (NamesDiffer names) :=
  inferInstanceAs (Decidable (names.map String.toLower).Nodup)

theorem sameName_iff {a b : String} : sameName a b = true ↔ a.toLower = b.toLower := beq_iff_eq

theorem sameName_congr {a b : String} (h : sameName a b = true) (c : String) :
    sameName a c = sameName b c := by
  rw [sameName, sameName, sameName_iff.mp h]

theorem statesForm_congr {a b : String} (h : sameName a b = true) :
    statesForm a = statesForm b := by
  rw [statesForm, statesForm, sameName_congr h, sameName_congr h]

theorem NamesDiffer.nodup {names : List String} (h : NamesDiffer names) : names.Nodup :=
  List.Nodup.of_map _ h

/-- Names without repetitions differ if those that are the same are spelled alike. -/
theorem namesDiffer_iff {names : List String} (h : names.Nodup) :
    NamesDiffer names ↔ ∀ a ∈ names, ∀ b ∈ names, sameName a b = true → a = b := by
  simp only [NamesDiffer, List.nodup_map_iff_inj_on h, sameName_iff]

/-- Among headers whose names differ there is one of a name only. -/
theorem filter_sameName {headers : List (String × String)}
    (h : NamesDiffer (headers.map Prod.fst)) {header : String × String} (hmem : header ∈ headers) :
    (headers.filter fun other => sameName other.1 header.1) = [header] := by
  induction headers with
  | nil => cases hmem
  | cons first rest ih =>
    obtain ⟨hfirst, hrest⟩ := List.nodup_cons.mp h
    have hother {a b : String × String} (ha : a = first) (hb : b ∈ rest) :
        sameName a.1 b.1 = false ∧ sameName b.1 a.1 = false := by
      subst ha
      have hne : a.1.toLower ≠ b.1.toLower := fun heq =>
        hfirst (heq ▸ List.mem_map_of_mem (List.mem_map_of_mem hb))
      exact ⟨beq_false_of_ne hne, beq_false_of_ne hne.symm⟩
    rcases List.mem_cons.mp hmem with heq | hmem
    · have hnone : (rest.filter fun other => sameName other.1 header.1) = [] :=
        List.filter_eq_nil_iff.mpr fun other ho => by simp [(hother heq ho).2]
      rw [List.filter_cons, hnone, ← heq, if_pos (sameName_iff.mpr rfl)]
    · rw [List.filter_cons, if_neg (by simp [(hother rfl hmem).1]), ih hrest hmem]

namespace Message

/-- Whether a header of some name goes with some content.  A form brings the headers that state
it. -/
def carries (content : Content) (name : String) : Bool := !(content.isForm && statesForm name)

theorem carries_congr (content : Content) {a b : String} (h : sameName a b = true) :
    carries content a = carries content b := by
  rw [carries, carries, statesForm_congr h]

theorem mem_headersFor {content : Content} {headers : Members} {header : String × String} :
    header ∈ headersFor content headers ↔
      (∃ value, (header.1, value) ∈ headers ∧ value.plain = header.2) ∧
        carries content header.1 = true := by
  rw [headersFor, List.mem_filter, List.mem_map]
  refine and_congr_left fun _ => ⟨?_, ?_⟩
  · rintro ⟨⟨name, value⟩, hmem, rfl⟩
    exact ⟨value, hmem, rfl⟩
  · rintro ⟨value, hmem, hvalue⟩
    exact ⟨_, hmem, Prod.ext rfl hvalue⟩

theorem names_headersFor (content : Content) (headers : Members) :
    (headersFor content headers).map Prod.fst = headers.keys.filter (carries content) := by
  rw [headersFor, List.filter_map, List.map_map, Members.keys, List.filter_map]
  rfl

/-- The client's own name comes only where no header names the client. -/
theorem namesDiffer_withAgent {m : Message} (h : NamesDiffer (m.headers.map Prod.fst))
    (agent : String) : NamesDiffer ((m.withAgent agent).headers.map Prod.fst) := by
  rw [withAgent]
  split
  · exact h
  · next hnone =>
    rw [NamesDiffer, List.map_append, List.map_append]
    refine List.nodup_append.mpr ⟨h, by simp, ?_⟩
    rintro lower hlower other hother rfl
    obtain rfl : lower = userAgentHeader.toLower := by simpa using hother
    obtain ⟨name, hname, hsame⟩ := List.mem_map.mp hlower
    obtain ⟨header, hheader, rfl⟩ := List.mem_map.mp hname
    exact hnone (List.any_eq_true.mpr ⟨header, hheader, sameName_iff.mpr hsame⟩)

end Message

end Http

namespace Endpoint

open Http Message Payload

/-- The headers that an operation has itself. -/
def ownHeaders (e : Endpoint) : Members := e.headers.getD []

/-- Whether an operation is given the default content type. -/
def addsType (e : Endpoint) : Bool :=
  (e.method == "PUT" || e.method == "POST") && (contentType? e.ownHeaders).isNone

/-- The headers of a message that a call sends. -/
def sentHeaders (e : Endpoint) (method : Method) (r : Request) : List (String × String) :=
  (Message.ofOutgoing method (e.resolve r)).headers

/-- What a call sends besides its headers. -/
def content (e : Endpoint) (r : Request) : Content := Content.ofPayload (e.resolve r).payload

/-- Names that are the same are spelled alike: the operation has its content type under no other
spelling than the default one, and the call takes up the operation's spelling of the headers that it
replaces.  Headers that do not go with a form do not matter. -/
structure SpellsAlike (e : Endpoint) (r : Request) : Prop where
  type : e.addsType = true → ∀ name ∈ e.ownHeaders.keys,
    sameName name contentTypeHeader = true → name = contentTypeHeader
  call : ∀ name ∈ e.defaultedHeaders.keys, ∀ other ∈ (r.headers.getD []).keys,
    carries (e.content r) name = true → sameName name other = true → name = other

theorem defaultedHeaders_eq (e : Endpoint) :
    e.defaultedHeaders =
      if e.addsType then e.ownHeaders.insert contentTypeHeader (.string jsonType)
      else e.ownHeaders :=
  rfl

theorem contentType?_insert (headers : Members) :
    contentType? (headers.insert contentTypeHeader (.string jsonType)) = some jsonType := by
  rw [contentType?, textHeader?, Members.get?_insert, if_pos rfl]
  rfl

/-- The default content type is never that of a form. -/
theorem isForm_of_addsType {e : Endpoint} (h : e.addsType = true) (r : Request) :
    (e.content r).isForm = false := by
  have htype : contentType? e.defaultedHeaders = some jsonType := by
    rw [defaultedHeaders_eq, if_pos h, contentType?_insert]
  change (Content.ofPayload (Payload.ofCall? e.defaultedHeaders r.payload)).isForm = false
  rw [Payload.ofCall?]
  cases r.payload.filter fun value => !value.isNull with
  | none => rfl
  | some value =>
    rw [Option.map_some, Payload.ofValue.eq_def, htype]
    cases value with
    | object data => rfl
    | _ => rfl

theorem mem_keys_defaultedHeaders {e : Endpoint} {name : String} :
    name ∈ e.defaultedHeaders.keys ↔
      name ∈ e.ownHeaders.keys ∨ e.addsType = true ∧ name = contentTypeHeader := by
  rw [defaultedHeaders_eq]
  split
  · next h =>
    rw [Members.keys_insert]
    split
    · next hmem => exact ⟨.inl, fun hor => hor.elim id fun heq => heq.2 ▸ hmem⟩
    · simp [h]
  · next h => simp [h]

section Sent

variable {e : Endpoint} {r : Request} {method : Method}

theorem names_sentHeaders : (e.sentHeaders method r).map Prod.fst =
    (e.defaultedHeaders.extend (r.headers.getD [])).keys.filter (carries (e.content r)) :=
  names_headersFor _ _

theorem mem_names_sentHeaders {name : String} :
    name ∈ (e.sentHeaders method r).map Prod.fst ↔
      (name ∈ e.defaultedHeaders.keys ∨ name ∈ (r.headers.getD []).keys) ∧
        carries (e.content r) name = true := by
  rw [names_sentHeaders, List.mem_filter, Members.mem_keys_extend]

/-- No header of another spelling than the default one states the type of an operation that is
given the default one. -/
theorem eq_of_mem_defaultedHeaders (he : NamesDiffer e.ownHeaders.keys) (h : e.SpellsAlike r)
    {a b : String} (ha : a ∈ e.defaultedHeaders.keys) (hb : b ∈ e.defaultedHeaders.keys)
    (hsame : sameName a b = true) : a = b := by
  have hsymm : sameName b a = true := sameName_iff.mpr (sameName_iff.mp hsame).symm
  rcases mem_keys_defaultedHeaders.mp ha with ha | ⟨hadds, rfl⟩
  · rcases mem_keys_defaultedHeaders.mp hb with hb | ⟨hadds, rfl⟩
    · exact (namesDiffer_iff he.nodup).mp he a ha b hb hsame
    · exact h.type hadds a ha hsame
  · rcases mem_keys_defaultedHeaders.mp hb with hb | ⟨-, rfl⟩
    · exact (h.type hadds b hb hsymm).symm
    · rfl

variable (he : NamesDiffer e.ownHeaders.keys) (hr : NamesDiffer (r.headers.getD []).keys)
include he

theorem nodup_sentHeaders : ((e.sentHeaders method r).map Prod.fst).Nodup := by
  have hown : e.ownHeaders.Distinct := he.nodup
  have hdefaulted : e.defaultedHeaders.Distinct := by
    rw [defaultedHeaders_eq]
    split
    · exact hown.insert _ _
    · exact hown
  rw [names_sentHeaders]
  exact (hdefaulted.extend _).filter _

include hr

theorem namesDiffer_sentHeaders_iff :
    NamesDiffer ((e.sentHeaders method r).map Prod.fst) ↔ e.SpellsAlike r := by
  rw [namesDiffer_iff (nodup_sentHeaders he)]
  simp only [mem_names_sentHeaders]
  constructor
  · intro h
    refine ⟨fun hadds name hname hsame => ?_, fun name hname other hother hcarries hsame => ?_⟩
    · have hcarries (n : String) : carries (e.content r) n = true := by
        rw [carries, isForm_of_addsType hadds]
        rfl
      exact h name ⟨.inl (mem_keys_defaultedHeaders.mpr (.inl hname)), hcarries _⟩ _
        ⟨.inl (mem_keys_defaultedHeaders.mpr (.inr ⟨hadds, rfl⟩)), hcarries _⟩ hsame
    · exact h name ⟨.inl hname, hcarries⟩ other
        ⟨.inr hother, carries_congr _ hsame ▸ hcarries⟩ hsame
  · rintro h a ⟨ha, hcarries⟩ b ⟨hb, hcarries'⟩ hsame
    rcases ha with ha | ha
    · rcases hb with hb | hb
      · exact eq_of_mem_defaultedHeaders he h ha hb hsame
      · exact h.call a ha b hb hcarries hsame
    · rcases hb with hb | hb
      · exact (h.call b hb a ha hcarries' (sameName_iff.mpr (sameName_iff.mp hsame).symm)).symm
      · exact (namesDiffer_iff hr.nodup).mp hr a ha b hb hsame

/-- A header of the call is sent with its own value, and no other of its name is. -/
theorem filter_sentHeaders (h : e.SpellsAlike r) {header : String × Json}
    (hmem : header ∈ r.headers.getD []) :
    ((e.sentHeaders method r).filter fun other => sameName other.1 header.1) =
      if carries (e.content r) header.1 then [(header.1, header.2.plain)] else [] := by
  have hdiffer : NamesDiffer ((e.sentHeaders method r).map Prod.fst) :=
    (namesDiffer_sentHeaders_iff he hr).mpr h
  split
  · next hcarries =>
    have hget : (e.defaultedHeaders.extend (r.headers.getD [])).get? header.1 = some header.2 := by
      rw [Members.get?_extend _ hr.nodup, Members.Distinct.get?_of_mem hr.nodup hmem]
      rfl
    have hsent : (header.1, header.2.plain) ∈ e.sentHeaders method r :=
      mem_headersFor.mpr ⟨⟨_, Members.mem_of_get? hget, rfl⟩, hcarries⟩
    exact filter_sameName hdiffer hsent
  · next hcarries =>
    refine List.filter_eq_nil_iff.mpr fun other hother hsame => hcarries ?_
    rw [← carries_congr _ hsame]
    exact (mem_headersFor.mp hother).2

/-- A call sends no two headers of one name exactly if names that are the same are spelled alike.
Then of each header that the call gives its own value is sent and no other.  A form is sent without
headers that state its type, which it brings itself, and the client's name is not added to one that
is given. -/
theorem headers_sentOnce (method : Method) :
    (NamesDiffer ((e.sentHeaders method r).map Prod.fst) ↔ e.SpellsAlike r) ∧
      (e.SpellsAlike r → ∀ header ∈ r.headers.getD [],
        ((e.sentHeaders method r).filter fun other => sameName other.1 header.1) =
          if carries (e.content r) header.1 then [(header.1, header.2.plain)] else []) ∧
      ((e.content r).isForm = true → ∀ header ∈ e.sentHeaders method r,
        statesForm header.1 = false) ∧
      ∀ agent, NamesDiffer ((e.sentHeaders method r).map Prod.fst) →
        NamesDiffer
          (((Message.ofOutgoing method (e.resolve r)).withAgent agent).headers.map Prod.fst) := by
  refine ⟨namesDiffer_sentHeaders_iff he hr, fun h header hmem => filter_sentHeaders he hr h hmem,
    fun hform header hmem => ?_, fun agent h => namesDiffer_withAgent h agent⟩
  have hcarries := (mem_headersFor.mp hmem).2
  change carries (e.content r) header.1 = true at hcarries
  rwa [carries, hform, Bool.true_and, Bool.not_eq_true'] at hcarries

end Sent

/-- An operation that posts with a token of its own. -/
def postEndpoint : Endpoint where
  url := "/notes"
  base := ""
  method := "POST"
  headers := some [("Accept", .string "text/plain"), ("Authorization", .string "default")]

theorem headers_sentOnce_post :
    postEndpoint.SpellsAlike { headers := some [("Authorization", .string "call")] } ∧
      ((postEndpoint.sentHeaders .post
          { headers := some [("Authorization", .string "call")] }).filter fun other =>
            sameName other.1 "Authorization") = [("Authorization", "call")] := by
  have hcall : NamesDiffer (Members.keys [("Authorization", .string "call")]) := by decide +kernel
  have h := headers_sentOnce (e := postEndpoint)
    (r := { headers := some [("Authorization", .string "call")] }) (by decide +kernel) hcall .post
  have hspells := h.1.mp (by decide +kernel)
  refine ⟨hspells, (h.2.1 hspells ("Authorization", .string "call") (by simp)).trans ?_⟩
  decide +kernel

/-- Details with a header of their own. -/
def otherCaseDetails : Json :=
  .object [("url", .string "/x"), ("headers", .object [("X-A", .string "op")])]

/-- A header of the call goes out beside the operation's header of the same name, if the name is
written in other letters. -/
theorem not_headers_sentOnce_otherCase :
    ¬ ∀ (details : Json) (settings : Settings) (method : Method) (r : Request),
      let e := ofDetails (some details) settings
      NamesDiffer e.ownHeaders.keys → NamesDiffer (r.headers.getD []).keys →
        NamesDiffer ((e.sentHeaders method r).map Prod.fst) ∧
          ∀ header ∈ r.headers.getD [], ∀ other ∈ e.sentHeaders method r,
            sameName other.1 header.1 = true → other.2 = header.2.plain := by
  intro h
  have hsent := (h otherCaseDetails {} .get { headers := some [("x-a", .string "call")] }
    (by decide +kernel) (by decide +kernel)).1
  have hnames : ((ofDetails (some otherCaseDetails) {}).sentHeaders .get
      { headers := some [("x-a", .string "call")] }).map Prod.fst = ["X-A", "x-a"] := rfl
  have hlower : ["X-A", "x-a"].map String.toLower = ["x-a", "x-a"] := by decide +kernel
  rw [hnames, NamesDiffer, hlower] at hsent
  simp at hsent

end Endpoint
end OperationTree
