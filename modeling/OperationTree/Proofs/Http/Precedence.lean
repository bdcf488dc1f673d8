import OperationTree.Proofs.Http.Headers
import OperationTree.Proofs.Merging
import OperationTree.Transport.Standard

/-! What decides the parts of an outgoing request.  Its headers come from the operation, from the
default content type and from the call, later ones over earlier ones, and the order in which their
names stand is that of their first mention (`Endpoint.resolve_headers`).  The body is formed by the
operation's headers alone, so that the call's headers change neither it nor the URL.  The method
matters only where it brings the default content type: canned HTTP operations, which are given no
method in place of a missing one, look up the very request that would be sent
(`Transport.httpCanned_looksUpSent`). -/

namespace OperationTree

namespace Members

theorem eraseDups_of_nodup {names : List String} (h : names.Nodup) : names.eraseDups = names := by
  induction names with
  | nil => rfl
  | cons name rest ih =>
    obtain ⟨hname, hrest⟩ := List.nodup_cons.mp h
    have hother : (rest.filter fun other => !other == name) = rest :=
      List.filter_eq_self.mpr fun other hmem => by
        simpa using fun heq : other = name => hname (heq ▸ hmem)
    rw [List.eraseDups_cons, hother, ih hrest]

/-- New keys stand behind the old ones in their own order. -/
theorem keys_extend_of_distinct (members : Members) {other : Members} (h : other.Distinct) :
    (members.extend other).keys = members.keys ++ other.keys.filter (· ∉ members.keys) := by
  have hnew : (other.keys.removeAll members.keys).Nodup := h.filter _
  rw [keys_extend, eraseDups_of_nodup hnew, List.removeAll]
  simp

end Members

namespace Payload

/-- Headers state no content type exactly if neither of the two that may is a nonempty string. -/
theorem contentType?_eq_none_iff {headers : Members} :
    contentType? headers = none ↔
      ∀ name ∈ [contentTypeHeader, enctypeHeader], ∀ text,
        headers.get? name = some (.string text) → text = "" := by
  have htext (name : String) : textHeader? headers name = none ↔
      ∀ text, headers.get? name = some (.string text) → text = "" := by
    rw [textHeader?]
    cases hget : headers.get? name with
    | none => simp
    | some value => cases value <;> simp [Json.asString?]
  simp [contentType?, htext]

end Payload

namespace Endpoint

open Payload

/-! ### Headers -/

/-- The default content type for operations that are given one. -/
def defaultType? (e : Endpoint) (name : String) : Option Json :=
  if e.addsType = true ∧ name = contentTypeHeader then some (.string jsonType) else none

theorem addsType_iff {e : Endpoint} :
    e.addsType = true ↔
      (e.method = "PUT" ∨ e.method = "POST") ∧ contentType? e.ownHeaders = none := by
  simp [addsType]

/-- The default takes the place of a content type that says nothing, or else stands last. -/
theorem keys_defaultedHeaders (e : Endpoint) :
    e.defaultedHeaders.keys = e.ownHeaders.keys ++
      if e.addsType = true ∧ contentTypeHeader ∉ e.ownHeaders.keys then [contentTypeHeader]
      else [] := by
  rw [defaultedHeaders_eq]
  by_cases hadds : e.addsType = true
  · rw [if_pos hadds, Members.keys_insert]
    by_cases hmem : contentTypeHeader ∈ e.ownHeaders.keys <;> simp [hadds, hmem]
  · simp [hadds]

theorem get?_defaultedHeaders (e : Endpoint) (name : String) :
    e.defaultedHeaders.get? name = (e.defaultType? name).or (e.ownHeaders.get? name) := by
  rw [defaultedHeaders_eq, defaultType?]
  by_cases hadds : e.addsType = true
  · rw [if_pos hadds, Members.get?_insert]
    by_cases hname : name = contentTypeHeader
    · simp [hadds, hname]
    · simp [hadds, hname, Ne.symm hname]
  · simp [hadds]

theorem defaultedHeaders_distinct {e : Endpoint} (h : e.ownHeaders.Distinct) :
    e.defaultedHeaders.Distinct := by
  rw [defaultedHeaders_eq]
  split
  · exact h.insert _ _
  · exact h

/-- The headers of a request and what they depend on.  Their names are those of the operation, then
that of the default content type where the operation puts or posts and states none, then the rest of
the call's; the value of a name is the call's if it has one, else the default, else the operation's.
The call's headers change neither the URL nor the body, and nothing else of the call changes the
headers. -/
theorem resolve_headers (e : Endpoint) (r : Request) (he : e.ownHeaders.Distinct)
    (hr : (r.headers.getD []).Distinct) :
    let adds := (e.method = "PUT" ∨ e.method = "POST") ∧ contentType? e.ownHeaders = none
    let first := e.ownHeaders.keys ++
      if adds ∧ contentTypeHeader ∉ e.ownHeaders.keys then [contentTypeHeader] else []
    (e.resolve r).headers.Distinct ∧
      (e.resolve r).headers.keys = first ++ (r.headers.getD []).keys.filter (· ∉ first) ∧
      (∀ name, (e.resolve r).headers.get? name =
        ((r.headers.getD []).get? name).or
          (if adds ∧ name = contentTypeHeader then some (.string jsonType)
          else e.ownHeaders.get? name)) ∧
      (∀ headers, (e.resolve { r with headers }).url = (e.resolve r).url ∧
        (e.resolve { r with headers }).payload = (e.resolve r).payload) ∧
      ∀ params payload uriOverride,
        (e.resolve { r with params, payload, uriOverride }).headers = (e.resolve r).headers := by
  intro adds first
  have hfirst : e.defaultedHeaders.keys = first := by
    simp only [keys_defaultedHeaders, addsType_iff, first, adds]
  refine ⟨(defaultedHeaders_distinct he).extend _, ?_, fun name => ?_, fun _ => ⟨rfl, rfl⟩,
    fun _ _ _ => rfl⟩
  · rw [resolve, Members.keys_extend_of_distinct _ hr, hfirst]
  · rw [resolve, Members.get?_extend _ hr, get?_defaultedHeaders]
    simp only [defaultType?, addsType_iff, adds]
    split <;> rfl

/-- An operation that posts with a content type that says nothing. -/
def silentEndpoint : Endpoint where
  url := "/notes"
  base := ""
  method := "POST"
  headers := some [("Content-Type", .string ""), ("Accept", .string "text/plain")]

theorem resolve_headers_silent :
    let r : Request := { headers := some [("X-Id", .string "7"), ("Accept", .null)] }
    (silentEndpoint.resolve r).headers.keys = ["Content-Type", "Accept", "X-Id"] ∧
      (silentEndpoint.resolve r).headers.get? "Content-Type" = some (.string jsonType) ∧
      (silentEndpoint.resolve r).headers.get? "Accept" = some .null := by
  intro r
  have hadds : (silentEndpoint.method = "PUT" ∨ silentEndpoint.method = "POST") ∧
      contentType? silentEndpoint.ownHeaders = none :=
    ⟨.inr rfl, rfl⟩
  obtain ⟨-, hkeys, hget, -⟩ :=
    resolve_headers silentEndpoint r (by decide +kernel) (by decide +kernel)
  refine ⟨hkeys.trans ?_, (hget _).trans ?_, hget _⟩
  · rw [if_neg fun h => h.2 (by decide +kernel)]
    decide +kernel
  · rw [if_pos ⟨hadds, rfl⟩]
    rfl

/-! ### The method -/

/-- Of the method no more is used than whether it brings the default content type. -/
theorem resolve_withMethod {e : Endpoint} {method : String}
    (h : (e.withMethod method).addsType = e.addsType) (r : Request) :
    (e.withMethod method).resolve r = { e.resolve r with method } := by
  have hheaders : (e.withMethod method).defaultedHeaders = e.defaultedHeaders := by
    rw [defaultedHeaders_eq, defaultedHeaders_eq, h]
    rfl
  simp only [resolve, hheaders]
  rfl

end Endpoint

namespace Outgoing

/-- A signature tells nothing of the method. -/
theorem signature_method (o : Outgoing) (method : String) :
    ({ o with method } : Outgoing).signature = o.signature := rfl

end Outgoing

theorem Canned.respond_method (c : Canned) (o : Outgoing) (method : String) :
    c.respond { o with method } = c.respond o := rfl

namespace Transport

open Http

/-- The operation that sends differs from its details in its method only, where a missing one makes
it a GET; neither brings a content type. -/
theorem httpEndpoint_resolve (details : Json) (settings : Settings) (r : Request) :
    (httpEndpoint details settings).resolve r =
      { (Endpoint.ofDetails (some details) settings).resolve r with
        method := (httpEndpoint details settings).method } := by
  simp only [httpEndpoint]
  split
  · next h =>
    have hempty : (Endpoint.ofDetails (some details) settings).method = "" := by
      simpa using (Bool.and_eq_true_iff.mp h).1
    refine Endpoint.resolve_withMethod ?_ r
    rw [Endpoint.addsType, Endpoint.addsType, hempty]
    rfl
  · rfl

theorem httpCall_of_ofName? {options : Options} {context : Context} {details : Json}
    {method : Method}
    (h : Method.ofName? (httpEndpoint details context.settings).method = some method)
    (r : Request) :
    httpCall options context details r = .exchange (.send ((Message.ofOutgoing method
      ((httpEndpoint details context.settings).resolve r)).withAgent options.userAgent)) := by
  simp only [httpCall, h]

/-- Details that have no method fail, whatever is asked of them. -/
theorem httpCall_of_ofName?_none {options : Options} {context : Context} {details : Json}
    (h : Method.ofName? (httpEndpoint details context.settings).method = none) (r : Request) :
    httpCall options context details r = .finished (.error (.invalidMethod
      (methodShown (httpEndpoint details context.settings).method))) := by
  simp only [httpCall, h, Job.failing]

/-- Unless the method of an HTTP operation is invalid, its calls send the request that a canned
operation with the same details looks up: URL, headers and body are the same, hence the signature
too, and whatever is canned for a request is given for the one that would be sent. -/
theorem httpCanned_looksUpSent (options : Options) (context : Context) (node : Members)
    (details : Json) (hdetails : Definition.ownDetails node = some details) (r : Request)
    (hmethod : ∀ shown,
      httpCall options context details r ≠ .finished (.error (.invalidMethod shown))) :
    let sent := (httpEndpoint details context.settings).resolve r
    let lookedUp :=
      (Endpoint.ofDetails (Definition.ownDetails node) context.settings).resolve r
    (∃ method : Method, Method.ofName? sent.method = some method ∧
      httpCall options context details r =
        .exchange (.send ((Message.ofOutgoing method sent).withAgent options.userAgent))) ∧
      httpCanned context node r = .finished (.ok ((Canned.ofNode node).respond lookedUp)) ∧
      lookedUp.url = sent.url ∧ lookedUp.headers = sent.headers ∧
      lookedUp.payload = sent.payload ∧ lookedUp.signature = sent.signature ∧
      ∀ canned : Canned, canned.respond lookedUp = canned.respond sent := by
  intro sent lookedUp
  have hsent : sent = { lookedUp with method := sent.method } := by
    have h := httpEndpoint_resolve details context.settings r
    rwa [← hdetails] at h
  have hcanned : httpCanned context node r =
      .finished (.ok ((Canned.ofNode node).respond lookedUp)) := by
    simp only [httpCanned, lookedUp]
  refine ⟨?_, hcanned, ?_, ?_, ?_, ?_, fun canned => ?_⟩
  · cases hname : Method.ofName? (httpEndpoint details context.settings).method with
    | none => exact absurd (httpCall_of_ofName?_none hname r) (hmethod _)
    | some method => exact ⟨method, hname, httpCall_of_ofName? hname r⟩
  all_goals rw [hsent]
  · exact (Outgoing.signature_method ..).symm
  · exact (Canned.respond_method ..).symm

/-- A node with a URL, a header and no method, and a response for a signature. -/
def signedNode : Members :=
  [("operationDetails",
      .object [("url", .string "/users/:id"), ("headers", .object [("A", .string "op")])]),
    ("superMockResponse", .object
      [("URI[\"/users/7\"]Payload[1]Headers[\x7b\"A\":\"op\"\x7d]", .string "found")])]

theorem httpCanned_looksUpSent_signed :
    let details : Json :=
      .object [("url", .string "/users/:id"), ("headers", .object [("A", .string "op")])]
    let context : Context := { settings := {}, site := { tree := 0, keys := [] } }
    let r : Request := { params := some [("id", .string "7")], payload := some (.ofNat 1) }
    (∃ message, httpCall {} context details r = .exchange (.send message) ∧
      message = {
        method := .get
        url := "/users/7"
        headers := [("A", "op"), ("User-Agent", "request-builder/0.1.0")]
        content := .text "1" }) ∧
      ∃ response, httpCanned context signedNode r = .finished (.ok response) ∧
        response.asString? = some "found" := by
  intro details context r
  have hname : Method.ofName? (httpEndpoint details context.settings).method = some .get := by
    decide +kernel
  have hcall := @httpCall_of_ofName? {} context details .get hname r
  obtain ⟨-, hcanned, -⟩ := httpCanned_looksUpSent {} context signedNode details rfl r
    fun shown h => Job.noConfusion (hcall.symm.trans h)
  exact ⟨⟨_, hcall, by decide +kernel⟩, _, hcanned, by decide +kernel⟩

end Transport
end OperationTree
