import OperationTree.Proofs.Json.Rereading
import OperationTree.Transport.Standard

/-! Requests as JSON texts.  The text of a request is read as the same request, but for a payload
that is null, if and only if the reader can read all of it exactly; and a payload that is null does
whatever one that is left out does. -/

namespace OperationTree.Request

/-- The members of a request's JSON object. -/
def fields (r : Request) : Members :=
  (r.params.map fun x => ("params", Json.object x)).toList ++
    (r.payload.map fun x => ("payload", x)).toList ++
    (r.headers.map fun x => ("headers", Json.object x)).toList ++
    (r.uriOverride.map fun x => ("uriOverride", Json.string x)).toList

/-- The request without a payload that is null. -/
def withoutNull (r : Request) : Request :=
  { r with payload := r.payload.filter fun value => !value.isNull }

/-! ### Reading the fields -/

theorem get?_fields (r : Request) :
    r.fields.get? "params" = r.params.map Json.object ∧ r.fields.get? "payload" = r.payload ∧
      r.fields.get? "headers" = r.headers.map Json.object ∧
      r.fields.get? "uriOverride" = r.uriOverride.map Json.string := by
  obtain ⟨params, payload, headers, uri⟩ := r
  cases params <;> cases payload <;> cases headers <;> cases uri <;>
    simp [fields, Members.get?]

theorem ofFields?_eq_some {params payload headers uri : Option Json} {r : Request} :
    ofFields? params payload headers uri = some r ↔
      optional? Json.asObject? params = some r.params ∧
      optional? some payload = some r.payload ∧
      optional? Json.asObject? headers = some r.headers ∧
      optional? Json.asString? uri = some r.uriOverride := by
  rw [ofFields?]
  simp only [Option.bind_eq_bind, Option.bind_eq_some_iff, Option.pure_def, Option.some.injEq]
  constructor
  · rintro ⟨params, hparams, payload, hpayload, headers, hheaders, uri, huri, rfl⟩
    exact ⟨hparams, hpayload, hheaders, huri⟩
  · rintro ⟨hparams, hpayload, hheaders, huri⟩
    exact ⟨_, hparams, _, hpayload, _, hheaders, _, huri, rfl⟩

theorem ofJson?_object {members : Members} {r : Request} :
    ofJson? (.object members) = some r ↔
      optional? Json.asObject? (members.get? "params") = some r.params ∧
      optional? some (members.get? "payload") = some r.payload ∧
      optional? Json.asObject? (members.get? "headers") = some r.headers ∧
      optional? Json.asString? (members.get? "uriOverride") = some r.uriOverride :=
  ofFields?_eq_some

theorem optional?_some_payload (payload : Option Json) :
    optional? some payload = some (payload.filter fun value => !value.isNull) := by
  cases payload with
  | none => rfl
  | some value => cases value <;> rfl

/-- The JSON object of a request is read as the request without a payload that is null. -/
theorem ofJson?_toJson (r : Request) : ofJson? r.toJson = some r.withoutNull := by
  obtain ⟨hparams, hpayload, hheaders, huri⟩ := get?_fields r
  have hobject (members : Option Members) :
      optional? Json.asObject? (members.map Json.object) = some members := by
    cases members <;> rfl
  have hstring (text : Option String) :
      optional? Json.asString? (text.map Json.string) = some text := by
    cases text <;> rfl
  have hjson : r.toJson = .object r.fields := rfl
  rw [hjson, ofJson?_object, hparams, hpayload, hheaders, huri]
  exact ⟨hobject _, optional?_some_payload _, hobject _, hstring _⟩

theorem eq_object_of_optional? {field : Option Json} {members : Members}
    (h : optional? Json.asObject? field = some (some members)) :
    field = some (.object members) := by
  cases field with
  | none => cases h
  | some value => cases value <;> simp_all [optional?, Json.asObject?]

theorem eq_of_optional?_some {field : Option Json} {value : Json}
    (h : optional? some field = some (some value)) : field = some value := by
  rw [optional?_some_payload] at h
  exact (Option.filter_eq_some_iff.mp (Option.some.inj h)).1

/-! ### Reading the text -/

theorem forall_mem_fields {r : Request} {P : Json → Prop} :
    (∀ member ∈ r.fields, P member.2) ↔
      (∀ x ∈ r.params, P (.object x)) ∧ (∀ x ∈ r.payload, P x) ∧
        (∀ x ∈ r.headers, P (.object x)) ∧ ∀ x ∈ r.uriOverride, P (.string x) := by
  obtain ⟨params, payload, headers, uri⟩ := r
  cases params <;> cases payload <;> cases headers <;> cases uri <;> simp [fields]

theorem distinct_fields (r : Request) : r.fields.Distinct := by
  obtain ⟨params, payload, headers, uri⟩ := r
  cases params <;> cases payload <;> cases headers <;> cases uri <;>
    simp [fields, Members.Distinct, Members.keys]

theorem isSound_toJson {r : Request} :
    r.toJson.IsSound ↔
      (∀ x ∈ r.params, (Json.object x).IsSound) ∧ (∀ x ∈ r.payload, x.IsSound) ∧
        ∀ x ∈ r.headers, (Json.object x).IsSound := by
  have hfields : r.toJson.IsSound ↔ ∀ member ∈ r.fields, member.2.IsSound :=
    ⟨fun h => by cases h; assumption, .object r.distinct_fields⟩
  rw [hfields, forall_mem_fields]
  exact ⟨fun ⟨hparams, hpayload, hheaders, _⟩ => ⟨hparams, hpayload, hheaders⟩,
    fun ⟨hparams, hpayload, hheaders⟩ => ⟨hparams, hpayload, hheaders, fun _ _ => .string _⟩⟩

/-- The fields of a request stand one level below it. -/
theorem survives_toJson {r : Request} {depth : Nat} :
    r.toJson.Survives (depth + 1) ↔
      (∀ x ∈ r.params, (Json.object x).Survives depth) ∧ (∀ x ∈ r.payload, x.Survives depth) ∧
        ∀ x ∈ r.headers, (Json.object x).Survives depth := by
  have hfields : r.toJson.Survives (depth + 1) ↔ ∀ member ∈ r.fields, member.2.Survives depth :=
    ⟨fun h => by cases h; assumption, .object⟩
  rw [hfields, forall_mem_fields]
  exact ⟨fun ⟨hparams, hpayload, hheaders, _⟩ => ⟨hparams, hpayload, hheaders⟩,
    fun ⟨hparams, hpayload, hheaders⟩ => ⟨hparams, hpayload, hheaders, fun _ _ => .string _⟩⟩

/-- Whether the text of a request is read as the request depends on nothing but its nesting and its
numbers. -/
theorem ofText_iff {r : Request} (h : r.toJson.IsSound) :
    (Json.parse? r.text).bind ofJson? = some r.withoutNull ↔
      r.toJson.Survives Json.nestingLimit := by
  have htext : Json.parse? r.text = r.toJson.reread? Json.nestingLimit :=
    Json.parseWithin?_compact h Json.nestingLimit
  rw [htext]
  constructor
  · intro hread
    obtain ⟨w, hw, hr⟩ := Option.bind_eq_some_iff.mp hread
    have hobject : (Json.object r.fields).reread? Json.nestingLimit = some w := hw
    obtain ⟨-, members, rfl, hmembers⟩ := Json.reread?_object hobject
    obtain ⟨hparams, hpayload, hheaders, -⟩ := ofJson?_object.mp hr
    obtain ⟨hparams', hpayload', hheaders', -⟩ := get?_fields r
    refine survives_toJson.mpr ⟨fun x hx => ?_, fun x hx => ?_, fun x hx => ?_⟩ <;>
      rw [← Json.reread?_eq_self]
    · obtain ⟨y, hy, hget⟩ := Json.get?_reread hmembers (hparams'.trans (congrArg _ hx))
      rw [hget] at hparams
      exact Option.some.inj (eq_object_of_optional? (hparams.trans (congrArg some hx))) ▸ hy
    · obtain ⟨y, hy, hget⟩ := Json.get?_reread hmembers (hpayload'.trans hx)
      rw [hget] at hpayload
      cases hnull : x.isNull with
      | true => cases x <;> first | rfl | cases hnull
      | false =>
        have hkept : r.withoutNull.payload = some x := by
          simp [withoutNull, Option.mem_def.mp hx, hnull]
        exact Option.some.inj (eq_of_optional?_some (hpayload.trans (congrArg some hkept))) ▸ hy
    · obtain ⟨y, hy, hget⟩ := Json.get?_reread hmembers (hheaders'.trans (congrArg _ hx))
      rw [hget] at hheaders
      exact Option.some.inj (eq_object_of_optional? (hheaders.trans (congrArg some hx))) ▸ hy
  · intro hsurvives
    rw [Json.reread?_eq_self.mpr hsurvives]
    exact ofJson?_toJson r

/-! ### Building requests -/

/-- Requests as callers come by them: read from JSON, or put together step by step. -/
inductive Built : Request → Prop
  | empty : Built {}
  | read {value : Json} {r : Request} (hvalue : value.IsSound) (h : ofJson? value = some r) :
    Built r
  | param {r : Request} (h : Built r) (name : String) {value : Json} (hvalue : value.IsSound) :
    Built (r.withParam name value)
  | params {r : Request} (h : Built r) {params : Members}
    (hparams : (Json.object params).IsSound) : Built (r.withParams params)
  | payload {r : Request} (h : Built r) {payload : Json} (hpayload : payload.IsSound) :
    Built (r.withPayload payload)
  | header {r : Request} (h : Built r) (name value : String) : Built (r.withHeader name value)
  | uri {r : Request} (h : Built r) (uri : String) : Built (r.withUriOverride uri)

theorem isSound_insert {members : Members} (h : (Json.object members).IsSound) (key : String)
    {value : Json} (hvalue : value.IsSound) : (Json.object (members.insert key value)).IsSound := by
  cases h with
  | object hdistinct hmembers =>
    refine .object (hdistinct.insert key value) fun member hmember => ?_
    rcases Members.mem_insert hmember with h | h
    · exact hmembers member h
    · exact h ▸ hvalue

theorem isSound_getD {members : Option Members} (h : ∀ x ∈ members, (Json.object x).IsSound) :
    (Json.object (members.getD [])).IsSound := by
  cases members with
  | none => exact .object (by decide) (by simp)
  | some x => exact h x rfl

theorem isSound_of_read {value : Json} {r : Request} (hvalue : value.IsSound)
    (h : ofJson? value = some r) : r.toJson.IsSound := by
  have hfields {params payload headers uri : Option Json}
      (hparams : ∀ x ∈ params, x.IsSound) (hpayload : ∀ x ∈ payload, x.IsSound)
      (hheaders : ∀ x ∈ headers, x.IsSound) (h : ofFields? params payload headers uri = some r) :
      r.toJson.IsSound := by
    obtain ⟨hp, hpl, hh, -⟩ := ofFields?_eq_some.mp h
    refine isSound_toJson.mpr ⟨fun x hx => ?_, fun x hx => ?_, fun x hx => ?_⟩
    · exact hparams _ (eq_object_of_optional? (hp.trans (congrArg some hx)))
    · exact hpayload _ (eq_of_optional?_some (hpl.trans (congrArg some hx)))
    · exact hheaders _ (eq_object_of_optional? (hh.trans (congrArg some hx)))
  cases hvalue with
  | @object members _ hmembers =>
    have hget (key : String) : ∀ x ∈ members.get? key, x.IsSound :=
      fun x hx => hmembers _ (Members.mem_of_get? hx)
    exact hfields (hget "params") (hget "payload") (hget "headers") h
  | @array items hitems =>
    have hget (n : Nat) : ∀ x ∈ items[n]?, x.IsSound :=
      fun x hx => hitems x (List.mem_of_getElem? hx)
    rw [ofJson?] at h
    split at h
    · exact hfields (hget 0) (hget 1) (hget 2) h
    · cases h
  | _ => cases h

/-- No request that can be built is anything but sound. -/
theorem Built.isSound {r : Request} (h : Built r) : r.toJson.IsSound := by
  induction h with
  | empty => exact isSound_toJson.mpr ⟨nofun, nofun, nofun⟩
  | read hvalue h => exact isSound_of_read hvalue h
  | param _ name hvalue ih =>
    obtain ⟨hparams, hpayload, hheaders⟩ := isSound_toJson.mp ih
    refine isSound_toJson.mpr ⟨?_, hpayload, hheaders⟩
    rintro _ ⟨⟩
    exact isSound_insert (isSound_getD hparams) name hvalue
  | params _ hnew ih =>
    obtain ⟨-, hpayload, hheaders⟩ := isSound_toJson.mp ih
    refine isSound_toJson.mpr ⟨?_, hpayload, hheaders⟩
    rintro _ ⟨⟩
    exact hnew
  | payload _ hnew ih =>
    obtain ⟨hparams, -, hheaders⟩ := isSound_toJson.mp ih
    refine isSound_toJson.mpr ⟨hparams, ?_, hheaders⟩
    rintro _ ⟨⟩
    exact hnew
  | header _ name value ih =>
    obtain ⟨hparams, hpayload, hheaders⟩ := isSound_toJson.mp ih
    refine isSound_toJson.mpr ⟨hparams, hpayload, ?_⟩
    rintro _ ⟨⟩
    exact isSound_insert (isSound_getD hheaders) name (.string value)
  | @uri r _ uri ih =>
    have hfields : (∀ x ∈ r.params, (Json.object x).IsSound) ∧ (∀ x ∈ r.payload, x.IsSound) ∧
        ∀ x ∈ r.headers, (Json.object x).IsSound := isSound_toJson.mp ih
    exact isSound_toJson.mpr hfields

/-! ### What a payload that is null does -/

theorem resolve_withoutNull (endpoint : Endpoint) (r : Request) :
    endpoint.resolve r.withoutNull = endpoint.resolve r := by
  have hpayload : Payload.ofCall? endpoint.defaultedHeaders r.withoutNull.payload =
      Payload.ofCall? endpoint.defaultedHeaders r.payload := by
    simp [Payload.ofCall?, withoutNull, Option.filter_filter]
  rw [Endpoint.resolve, hpayload]
  rfl

/-- A request is read back from its text, but for a payload that is null, if and only if its JSON
object nests no deeper than the reader allows and all numbers in it are exact.  A payload that is
null makes no difference to any endpoint, and so to no message, canned response or query. -/
theorem ofText_faithful {r : Request} (h : r.toJson.IsSound) :
    ((Json.parse? r.text).bind ofJson? = some r.withoutNull ↔
      r.toJson.Survives Json.nestingLimit) ∧
    (∀ endpoint : Endpoint, endpoint.resolve r.withoutNull = endpoint.resolve r) ∧
    (∀ options context details,
      Transport.httpCall options context details r.withoutNull =
        Transport.httpCall options context details r) ∧
    (∀ context node,
      Transport.httpCanned context node r.withoutNull = Transport.httpCanned context node r) ∧
    ∀ context details parent,
      Transport.sqlCall context details parent r.withoutNull =
        Transport.sqlCall context details parent r := by
  refine ⟨ofText_iff h, fun endpoint => resolve_withoutNull endpoint r, ?_, ?_, ?_⟩
  · intro options context details
    rw [Transport.httpCall]
    cases Http.Method.ofName? (Transport.httpEndpoint details context.settings).method with
    | none => rfl
    | some method => simp only [resolve_withoutNull]
  · intro context node
    simp only [Transport.httpCanned, resolve_withoutNull]
  · intro context details parent
    rw [Transport.sqlCall]
    cases Sql.prepare? details parent <;> rfl

/-- A payload that is null, an empty URI and an integer. -/
theorem ofText_faithful_null :
    let r : Request :=
      { params := some [("id", .ofNat 7)], payload := some .null, uriOverride := some "" }
    r.toJson.IsSound ∧
    (Json.parse? r.text).bind ofJson? =
      some { params := some [("id", .ofNat 7)], uriOverride := some "" } := by
  intro r
  have hseven : (Number.int 7).Fits := ⟨by decide, by decide⟩
  have hsound : r.toJson.IsSound := by
    refine isSound_toJson.mpr ⟨?_, ?_, nofun⟩
    · rintro _ ⟨⟩
      exact .object (by decide) (List.forall_mem_singleton.mpr (.number hseven))
    · rintro _ ⟨⟩
      exact .null
  have hsurvives : r.toJson.Survives Json.nestingLimit := by
    refine survives_toJson.mpr ⟨?_, ?_, nofun⟩
    · rintro _ ⟨⟩
      exact .object (List.forall_mem_singleton.mpr (.number (Number.isExact_int.mpr hseven)))
    · rintro _ ⟨⟩
      exact .null
  exact ⟨hsound, (ofText_faithful hsound).1.mpr hsurvives⟩

/-- A payload of 90.33333333333333. -/
def inexact : Request where
  payload := some (.number (.double ⟨false, 6356643224048981, -46, by decide⟩))

/-- Arrays within each other. -/
def nested : Nat → Json
  | 0 => .null
  | n + 1 => .array [nested n]

/-- A payload as deep as the reader allows, which is one level too deep within a request. -/
def deep : Request where
  payload := some (nested Json.nestingLimit)

theorem nested_isSound (n : Nat) : (nested n).IsSound := by
  induction n with
  | zero => exact .null
  | succ n ih => exact .array (List.forall_mem_singleton.mpr ih)

theorem survives_nested {n depth : Nat} : (nested n).Survives depth ↔ n ≤ depth := by
  induction n generalizing depth with
  | zero => exact ⟨fun _ => Nat.zero_le _, fun _ => .null⟩
  | succ n ih =>
    rw [nested, Json.survives_array, List.forall_mem_singleton, ih]
    omega

theorem ofText_unfaithful :
    (inexact.toJson.IsSound ∧
      (Json.parse? inexact.text).bind ofJson? ≠ some inexact.withoutNull) ∧
    deep.toJson.IsSound ∧ (Json.parse? deep.text).bind ofJson? ≠ some deep.withoutNull := by
  have hinexact : inexact.toJson.IsSound := by
    refine isSound_toJson.mpr ⟨nofun, ?_, nofun⟩
    rintro _ ⟨⟩
    exact .number trivial
  have hdeep : deep.toJson.IsSound := by
    refine isSound_toJson.mpr ⟨nofun, ?_, nofun⟩
    rintro _ ⟨⟩
    exact nested_isSound _
  refine ⟨⟨hinexact, fun h => ?_⟩, hdeep, fun h => ?_⟩
  · obtain ⟨-, hpayload, -⟩ := survives_toJson.mp ((ofText_iff hinexact).mp h)
    have hexact := Json.survives_number.mp (hpayload _ rfl)
    rw [Number.IsExact] at hexact
    revert hexact
    decide +kernel
  · obtain ⟨-, hpayload, -⟩ := survives_toJson.mp ((ofText_iff hdeep).mp h)
    exact absurd (survives_nested.mp (hpayload _ rfl)) (by decide)

end OperationTree.Request
