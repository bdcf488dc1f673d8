import OperationTree.Proofs.Session.Likeness

/-! Sessions whose trees offer the same operations.  What happens to a session happens in the same
way to the session with other trees in place of its own, if these offer the same; so it does not
matter whether a definition's modules are inherited or written down. -/

namespace OperationTree
namespace Session

/-- The session with other compiled trees in place of its own. -/
def replace (f : Nat → Compiled → Compiled) (s : Session) : Session :=
  { s with trees := s.trees.mapIdx (TreeState.replace f) }

/-- A session is another one with compiled trees that offer the same operations. -/
def IsLike (s s' : Session) : Prop :=
  ∃ f, (∀ number compiled, Compiled.Offers compiled (f number compiled)) ∧ s' = s.replace f

theorem mirrors_iff_replace {f : Nat → Compiled → Compiled} {s s' : Session} :
    Mirrors true f s s' ↔ s' = s.replace f := by
  have hseen (calls : List Call) : calls.map (Call.seen true) = calls := List.map_id' calls
  constructor
  · rintro ⟨calls, hcalls, rfl⟩
    rw [hseen, hseen] at hcalls
    rw [hcalls, replace]
  · rintro rfl
    exact ⟨s.calls, rfl, rfl⟩

namespace IsLike

variable {s s' : Session}

theorem iff_resembles : s.IsLike s' ↔ Resembles true Compiled.Offers s s' :=
  exists_congr fun _ => and_congr_right fun _ => mirrors_iff_replace.symm

theorem refl (s : Session) : s.IsLike s := by
  refine ⟨fun _ compiled => compiled, fun _ compiled => .refl compiled, ?_⟩
  rw [replace, mapIdx_replace_self fun _ _ => rfl]

theorem addTree (h : s.IsLike s') {catalog : Catalog} {settings : Settings}
    {definition definition' : Json}
    (hoffers : (Compiled.ofDefinition catalog settings s.trees.length definition).Offers
      (Compiled.ofDefinition catalog settings s.trees.length definition')) (tracker : Nat) :
    (s.addTree catalog settings tracker definition).IsLike
      (s'.addTree catalog settings tracker definition') :=
  iff_resembles.mpr
    ((iff_resembles.mp h).addTree .refl rfl rfl hoffers hoffers.operations tracker)

theorem after (h : s.IsLike s') (actions : List Action) :
    (s.after actions).IsLike (s'.after actions) :=
  iff_resembles.mpr ((iff_resembles.mp h).after .refl id actions)

end IsLike

/-! ### Inheriting and writing down -/

open Definition

/-- Inheriting a module means that it is written into every node below.  The definition in which it
is written compiles to the same operations and loads the same transports; and whatever is done to a
session with the one tree or with the other, all calls have the same outcomes and the same is asked
outside. -/
theorem inheritance_is_annotation (options : Http.Options) (settings : Settings)
    {definition : Json} (h : HasPlainModules definition) :
    (∀ root, definition = .object root →
      ∃ root', annotated definition = .object root' ∧ IsAnnotation root root') ∧
    (∀ tree, (Compiled.ofDefinition (.standardWith options) settings tree definition).Offers
      (Compiled.ofDefinition (.standardWith options) settings tree (annotated definition))) ∧
    ∀ (s : Session) (tracker : Nat) (actions : List Action),
      let t := (s.addTree (.standardWith options) settings tracker definition).after actions
      let t' := (s.addTree (.standardWith options) settings tracker (annotated definition)).after
        actions
      t.IsLike t' ∧ t'.calls = t.calls ∧ t'.outside = t.outside := by
  have hoffers (tree : Nat) := Compiled.ofDefinition_annotated
    (Catalog.standardWith_cansByHttpOnly options) settings tree h
  refine ⟨?_, hoffers, fun s tracker actions => ?_⟩
  · rintro root rfl
    exact annotated_isAnnotation h
  · intro t t'
    have hlike : t.IsLike t' :=
      ((IsLike.refl s).addTree (hoffers s.trees.length) tracker).after actions
    refine ⟨hlike, ?_⟩
    obtain ⟨f, -, heq⟩ := hlike
    rw [heq]
    exact ⟨rfl, rfl⟩

/-- A definition whose operation inherits its module, and the same with the module written down. -/
def inheriting : Json :=
  .object [("asyncModule", .string "http"),
    ("users", .object [("get", .object [("operationDetails", .object [("url", .string "/u")])])])]

def written : Json :=
  .object [("asyncModule", .string "http"),
    ("users", .object [
      ("get", .object [("operationDetails", .object [("url", .string "/u")]),
        ("asyncModule", .string "http")]),
      ("asyncModule", .string "http")])]

theorem inheritance_is_annotation_users :
    HasPlainModules inheriting ∧ annotated inheriting = written ∧
      ∀ (s : Session) (request : Request),
        ((s.addTree .standard {} 0 written).perform
            (.invoke s.trees.length "users.get" request)).calls =
          ((s.addTree .standard {} 0 inheriting).perform
            (.invoke s.trees.length "users.get" request)).calls := by
  have hplain : HasPlainModules inheriting := by decide
  have hwritten : annotated inheriting = written := by rfl
  refine ⟨hplain, hwritten, fun s request => ?_⟩
  have h := inheritance_is_annotation {} {} hplain
  rw [hwritten] at h
  exact (h.2.2 s 0 [.invoke s.trees.length "users.get" request]).2.1

end Session
end OperationTree
