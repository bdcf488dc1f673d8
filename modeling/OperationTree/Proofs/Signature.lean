import OperationTree.Endpoint
import OperationTree.Proofs.Json.Printing

/-! Signatures tell requests apart by their URL, their body and their headers, whatever texts these
hold: each of the three parts is a printed value, and a printed value shows where it ends. -/

namespace OperationTree

/-- What a request's body contributes to its signature. -/
def Outgoing.payloadText (o : Outgoing) : String :=
  (o.payload.map Payload.signatureText).getD "null"

/-- A body contributes the text of some value. -/
theorem Outgoing.exists_payloadText (o : Outgoing) :
    ∃ value : Json, o.payloadText = value.compact := by
  rw [Outgoing.payloadText]
  cases o.payload with
  | none => exact ⟨.null, rfl⟩
  | some payload =>
    cases payload with
    | text content => exact ⟨.string content, rfl⟩
    | form fields => exact ⟨.object [], rfl⟩
    | raw value => exact ⟨value, rfl⟩

/-- The text between two brackets of a signature, followed by the rest of it, is read back. -/
theorem Json.compact_append_inj {value value' : Json} {rest rest' : String}
    (h : value.compact ++ ("]" ++ rest) = value'.compact ++ ("]" ++ rest')) :
    value.compact = value'.compact ∧ rest = rest' := by
  have hchars := congrArg String.toList h
  simp only [Json.compact, String.toList_append, String.toList_ofList] at hchars
  obtain ⟨hvalue, hrest⟩ := Json.compactChars_append_inj hchars
  exact ⟨congrArg String.ofList hvalue, String.toList_inj.mp hrest⟩

/-- A URL is read back from its quoted text. -/
theorem Json.compact_string_injective {s t : String}
    (h : (Json.string s).compact = (Json.string t).compact) : s = t :=
  String.toList_inj.mp (Json.quoted_injective (String.ofList_injective h))

/-- The signature of a request, with its parts in the order in which they are read. -/
theorem Outgoing.signature_eq (o : Outgoing) :
    o.signature = "URI[" ++ ((Json.string o.url).compact ++ ("]" ++
      ("Payload[" ++ (o.payloadText ++ ("]" ++
        ("Headers[" ++ ((Json.object o.headers).compact ++ ("]" ++ "")))))))) := by
  simp only [Outgoing.signature, Outgoing.payloadText, String.append_assoc, String.append_empty]
  rfl

/-- Two requests have the same signature exactly if their URLs, the texts of their bodies and the
texts of their headers are the same. -/
theorem Outgoing.signature_eq_iff (o o' : Outgoing) :
    o.signature = o'.signature ↔
      o.url = o'.url ∧ (Json.object o.headers).compact = (Json.object o'.headers).compact ∧
        o.payloadText = o'.payloadText := by
  constructor
  · intro h
    obtain ⟨body, hbody⟩ := o.exists_payloadText
    obtain ⟨body', hbody'⟩ := o'.exists_payloadText
    rw [o.signature_eq, o'.signature_eq, hbody, hbody'] at h
    -- Behind each label the next part is read, up to the bracket that closes it.
    obtain ⟨hurl, h⟩ := Json.compact_append_inj (String.append_right_inj _ |>.mp h)
    obtain ⟨hpayload, h⟩ := Json.compact_append_inj (String.append_right_inj _ |>.mp h)
    obtain ⟨hheaders, -⟩ := Json.compact_append_inj (String.append_right_inj _ |>.mp h)
    exact ⟨Json.compact_string_injective hurl, hheaders, by rw [hbody, hbody', hpayload]⟩
  · rintro ⟨hurl, hheaders, hpayload⟩
    rw [o.signature_eq, o'.signature_eq, hurl, hheaders, hpayload]

end OperationTree
