import OperationTree.Proofs.Json.Keys
import OperationTree.Transport.Standard

/-! Values never become part of a statement.  Binding looks at the names of parameters to see which
tokens it replaces, and at their values only to list them beside the text.  So the statement that an
operation sends is settled by the names that are given, and its values stand in the order of their
tokens. -/

namespace OperationTree

namespace Sql

/-- The text of a piece when parameters of some names are given: a question mark for their
tokens. -/
def Piece.shown (given : List String) : Piece → List Char
  | .text c => [c]
  | .token name => if given.contains (String.ofList name) then ['?'] else ':' :: name

/-- The name of a piece that is a token of one of the given names. -/
def Piece.boundName? (given : List String) : Piece → Option String
  | .text _ => none
  | .token name =>
    if given.contains (String.ofList name) then some (String.ofList name) else none

/-- The text of a statement when parameters of some names are given. -/
def boundText (sql : String) (given : List String) : String :=
  String.ofList ((pieces sql.toList).flatMap (Piece.shown given))

/-- The names of the tokens of a statement that are replaced, one for each question mark put. -/
def boundNames (sql : String) (given : List String) : List String :=
  (pieces sql.toList).filterMap (Piece.boundName? given)

/-- The value of a parameter that is given. -/
def valueOf (params : Members) (name : String) : Json := (params.get? name).getD .null

theorem bindPiece_eq (params : Members) (piece : Piece) :
    bindPiece params piece =
      (piece.shown params.keys, (piece.boundName? params.keys).map (valueOf params)) := by
  cases piece with
  | text c => rfl
  | token name =>
    simp only [bindPiece, Piece.shown, Piece.boundName?, Members.contains_keys]
    cases h : params.get? (String.ofList name) with
    | none => rfl
    | some value => simp [valueOf, h]

/-- What binding does: the names that are given settle the text, and each replaced token brings the
value of its name. -/
theorem bind_eq (sql : String) (params : Option Members) :
    bind sql params =
      { sql := boundText sql (params.getD []).keys
        binds := (boundNames sql (params.getD []).keys).map (valueOf (params.getD [])) } := by
  have hpieces : (pieces sql.toList).map (bindPiece (params.getD [])) =
      (pieces sql.toList).map fun piece => (piece.shown (params.getD []).keys,
        (piece.boundName? (params.getD []).keys).map (valueOf (params.getD []))) :=
    List.map_congr_left fun piece _ => bindPiece_eq _ piece
  rw [bind, hpieces, boundText, boundNames, List.flatMap_map, List.filterMap_map,
    List.map_filterMap]
  rfl

/-- The query of a statement when parameters of some names are given, with their values. -/
def Query.binding (statement : String) (given : List String) (params : Members) : Query where
  sql := boundText statement given
  binds := (boundNames statement given).map fun name => Bind.ofJson (valueOf params name)

theorem ofStatement_eq (statement : String) (params : Option Members) :
    Query.ofStatement statement params =
      .binding statement (params.getD []).keys (params.getD []) := by
  rw [Query.ofStatement, bind_eq]
  simp only [List.map_map, Query.binding, Function.comp_def]

section SameNames

variable {given given' : List String} (h : ∀ name, name ∈ given ↔ name ∈ given')
include h

theorem contains_congr (name : String) : given.contains name = given'.contains name := by
  rw [Bool.eq_iff_iff, List.contains_iff_mem, List.contains_iff_mem, h]

theorem binding_congr (statement : String) (params : Members) :
    Query.binding statement given params = .binding statement given' params := by
  have hshown : Piece.shown given = Piece.shown given' := by
    funext piece
    cases piece <;> simp only [Piece.shown, contains_congr h]
  have hname : Piece.boundName? given = Piece.boundName? given' := by
    funext piece
    cases piece <;> simp only [Piece.boundName?, contains_congr h]
  simp only [Query.binding, boundText, boundNames, hshown, hname]

end SameNames

/-- Bound to the same tokens, two lists of values differ only where the values of a token's name
do. -/
theorem exists_of_binds_ne {statement : String} {given : List String} {params params' : Members}
    {i : Nat} (h : (Query.binding statement given params).binds[i]? ≠
      (Query.binding statement given params').binds[i]?) :
    ∃ name, (boundNames statement given)[i]? = some name ∧
      params.get? name ≠ params'.get? name := by
  simp only [Query.binding, List.getElem?_map] at h
  cases hname : (boundNames statement given)[i]? with
  | none => exact absurd (by rw [hname]; rfl) h
  | some name =>
    refine ⟨name, rfl, fun heq => h ?_⟩
    simp only [hname, Option.map_some, valueOf, heq]

end Sql

/-- The parameters that a statement is bound with: those of the call if it gives any object of them,
else the defaults. -/
def Settings.paramsFor (s : Settings) (r : Request) : Members := (r.params.or s.params?).getD []

namespace Transport

open Sql

theorem sqlCall_of_prepare? (context : Context) {details : Json} {parent : Option Json}
    {statement : String} (h : prepare? details parent = some statement) :
    ∃ single, ∀ r, sqlCall context details parent r =
      .exchange (.run (.binding statement (context.settings.paramsFor r).keys
        (context.settings.paramsFor r)) single) := by
  refine ⟨((details.get? "singleRecord").bind Json.asBool?).getD false, fun r => ?_⟩
  simp only [sqlCall, h, ofStatement_eq]
  rfl

/-- Two calls of a database operation whose parameters have the same names send the same statement
with as many values, and a value differs only if the parameter differs whose token stands there.  An
operation that has no statement sends nothing and fails both calls alike. -/
theorem sql_statement_uniform (context : Context) (details : Json) (parent : Option Json)
    (r r' : Request)
    (h : ∀ name, name ∈ (context.settings.paramsFor r).keys ↔
      name ∈ (context.settings.paramsFor r').keys) :
    ∃ call, Transport.sql.call? context details parent = some call ∧
      match prepare? details parent with
      | none => ∃ e, call r = .finished (.error e) ∧ call r' = .finished (.error e)
      | some statement =>
        ∃ (q q' : Query) (single : Bool),
          call r = .exchange (.run q single) ∧ call r' = .exchange (.run q' single) ∧
          q.sql = q'.sql ∧ q.binds.length = q'.binds.length ∧
          ∀ i : Nat, q.binds[i]? ≠ q'.binds[i]? →
            ∃ name, (boundNames statement (context.settings.paramsFor r).keys)[i]? = some name ∧
              (context.settings.paramsFor r).get? name ≠
                (context.settings.paramsFor r').get? name := by
  refine ⟨sqlCall context details parent, rfl, ?_⟩
  split
  · next hnone =>
    simp only [sqlCall, hnone]
    exact ⟨_, rfl, rfl⟩
  · next statement hsome =>
    obtain ⟨single, hcall⟩ := sqlCall_of_prepare? context hsome
    have hcall' := hcall r'
    rw [← binding_congr h] at hcall'
    refine ⟨_, _, single, hcall r, hcall', rfl, ?_, fun i => exists_of_binds_ne⟩
    rw [Query.binding, Query.binding, List.length_map, List.length_map]

/-- An operation that renames a user. -/
def renameDetails : Json :=
  .object [("SQL", .string "UPDATE users SET name = :name WHERE id = :id AND name <> :name")]

def renameContext : Context := { settings := {}, site := { tree := 0, keys := ["rename"] } }

def renameRequest (name : String) : Request :=
  { params := some [("id", .ofNat 1), ("name", .string name)] }

/-- The new name is no part of the statement, and shows only at the places of its token. -/
theorem sql_statement_uniform_rename :
    (∀ name, name ∈ (renameContext.settings.paramsFor (renameRequest "'; DROP TABLE users")).keys ↔
      name ∈ (renameContext.settings.paramsFor (renameRequest "ada")).keys) ∧
    ∃ (call : Request → Job) (q q' : Query) (single : Bool),
      Transport.sql.call? renameContext renameDetails none = some call ∧
        call (renameRequest "'; DROP TABLE users") = .exchange (.run q single) ∧
        call (renameRequest "ada") = .exchange (.run q' single) ∧
        q.sql = q'.sql ∧ q.binds[1]? = q'.binds[1]? := by
  refine ⟨fun _ => Iff.rfl, ?_⟩
  obtain ⟨call, hcall, q, q', single, hq, hq', hsql, -, hdiffer⟩ :=
    sql_statement_uniform renameContext renameDetails none (renameRequest "'; DROP TABLE users")
      (renameRequest "ada") fun _ => Iff.rfl
  refine ⟨call, q, q', single, hcall, hq, hq', hsql, ?_⟩
  refine Decidable.byContradiction fun hne => ?_
  obtain ⟨name, hname, hvalue⟩ := hdiffer 1 hne
  have hid : some "id" = some name := Eq.trans (by decide +kernel) hname
  obtain rfl := Option.some.inj hid
  exact hvalue rfl

end Transport

end OperationTree
