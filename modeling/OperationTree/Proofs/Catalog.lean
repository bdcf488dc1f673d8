import Mathlib.Data.List.Basic
import OperationTree.Tree.Compiled

/-! Loading transports.  The instances and the order of their names stand apart, and a load changes
both or neither, so that they always tell the same names (`Loaded.InStep`).  A name is built once,
at its first load, and every load of it gives that instance (`Loaded.loads_once`): the instances of
a tree have different keys, and every name that was asked for has the transport of the catalog. -/

namespace OperationTree
namespace Loaded

/-! ### What one load does -/

/-- A load that builds nothing finds the instance, or finds the name in no catalog; any other builds
a transport of the catalog for a new name. -/
theorem load_cases (catalog : Catalog) (l : Loaded) (name : String) :
    (∃ i, l.find? name = some i ∧ load catalog l name = (some i, l)) ∨
      (l.find? name = none ∧ catalog.find? name = none ∧ load catalog l name = (none, l)) ∨
      ∃ transport, l.find? name = none ∧ catalog.find? name = some transport ∧
        load catalog l name =
          (some (l.build name transport).1, (l.build name transport).2) := by
  rw [load]
  cases hfind : l.find? name with
  | some i => exact .inl ⟨i, rfl, rfl⟩
  | none =>
    cases hcatalog : catalog.find? name with
    | none => exact .inr (.inl ⟨rfl, rfl, rfl⟩)
    | some transport => exact .inr (.inr ⟨transport, rfl, rfl, rfl⟩)

theorem find?_build (l : Loaded) (key : String) (transport : Transport) (name : String) :
    (l.build key transport).2.find? name =
      if name = key then some (l.build key transport).1 else l.find? name := by
  simp only [build, find?, List.lookup_cons]
  split <;> simp_all

/-- What is loaded, name by name, after one more load. -/
theorem find?_load (catalog : Catalog) (l : Loaded) (name other : String) :
    (load catalog l name).2.find? other =
      if other = name then (load catalog l name).1 else l.find? other := by
  obtain ⟨i, hi, hload⟩ | ⟨hnone, -, hload⟩ | ⟨transport, -, -, hload⟩ := load_cases catalog l name
  · rw [hload]
    split
    · next heq => rw [heq, hi]
    · rfl
  · rw [hload]
    split
    · next heq => rw [heq, hnone]
    · rfl
  · rw [hload]
    exact find?_build ..

/-- The names, the instances and the transports that were built are told alike. -/
structure InStep (l : Loaded) : Prop where
  nodup : l.keys.Nodup
  entries : (l.entries.map Prod.fst).Perm l.keys
  built : l.built = l.keys

theorem InStep.empty : InStep {} := ⟨.nil, .nil, rfl⟩

theorem isSome_lookup {entries : List (String × Instance)} {key : String} :
    (entries.lookup key).isSome = true ↔ key ∈ entries.map Prod.fst := by
  rw [Option.isSome_iff_ne_none, ne_eq, List.lookup_eq_none_iff]
  simp

theorem InStep.find?_isSome_iff {l : Loaded} (h : l.InStep) {key : String} :
    (l.find? key).isSome = true ↔ key ∈ l.keys :=
  isSome_lookup.trans h.entries.mem_iff

theorem InStep.not_mem_keys {l : Loaded} (h : l.InStep) {key : String}
    (hkey : l.find? key = none) : key ∉ l.keys := fun hmem => by
  simpa [hkey] using h.find?_isSome_iff.mpr hmem

theorem InStep.size {l : Loaded} (h : l.InStep) : l.size = l.keys.length := by
  rw [← h.entries.length_eq, List.length_map, Loaded.size]

/-- Position by position, the instances are those of the names. -/
theorem InStep.instances {l : Loaded} (h : l.InStep) :
    l.instances.map some = l.keys.map l.find? := by
  have hsome : ∀ keys : List String, (∀ key ∈ keys, (l.find? key).isSome = true) →
      (keys.filterMap l.find?).map some = keys.map l.find? := by
    intro keys
    induction keys with
    | nil => exact fun _ => rfl
    | cons key rest ih =>
      intro hkeys
      obtain ⟨i, hi⟩ := Option.isSome_iff_exists.mp (hkeys key (by simp))
      rw [List.filterMap_cons_some hi, List.map_cons, List.map_cons, hi,
        ih fun other hother => hkeys other (by simp [hother])]
  exact hsome l.keys fun key hkey => h.find?_isSome_iff.mpr hkey

theorem InStep.build {l : Loaded} (h : l.InStep) {key : String} (hkey : l.find? key = none)
    (transport : Transport) : (l.build key transport).2.InStep where
  nodup := by
    refine List.nodup_append.mpr ⟨h.nodup, by simp, ?_⟩
    rintro a ha b hb rfl
    exact h.not_mem_keys hkey (List.mem_singleton.mp hb ▸ ha)
  entries := (h.entries.cons key).trans (List.perm_append_singleton key l.keys).symm
  built := congrArg (· ++ [key]) h.built

theorem InStep.load {l : Loaded} (h : l.InStep) (catalog : Catalog) (name : String) :
    (load catalog l name).2.InStep := by
  obtain ⟨i, -, hload⟩ | ⟨-, -, hload⟩ | ⟨transport, hnew, -, hload⟩ := load_cases catalog l name
  · rwa [hload]
  · rwa [hload]
  · rw [hload]
    exact h.build hnew transport

/-- A new name takes its place behind the others, which keep their instances. -/
theorem InStep.instances_build {l : Loaded} (h : l.InStep) {key : String}
    (hkey : l.find? key = none) (transport : Transport) :
    (l.build key transport).2.instances = l.instances ++ [(l.build key transport).1] := by
  have hold : l.keys.filterMap (l.build key transport).2.find? = l.keys.filterMap l.find? := by
    refine List.filterMap_congr fun other hother => ?_
    rw [find?_build, if_neg]
    rintro rfl
    exact h.not_mem_keys hkey hother
  have hnew : (l.build key transport).2.find? key = some (l.build key transport).1 := by
    rw [find?_build, if_pos rfl]
  have hkeys : (l.build key transport).2.keys = l.keys ++ [key] := rfl
  rw [Loaded.instances, hkeys, List.filterMap_append, hold, List.filterMap_cons_some hnew]
  rfl

/-! ### Any number of loads -/

/-- What every load keeps holds after any number of them. -/
theorem foldl_load_induction {catalog : Catalog} {P : Loaded → Prop}
    (hload : ∀ l name, P l → P (load catalog l name).2) (names : List String) {l : Loaded}
    (h : P l) : P (names.foldl (fun l name => (load catalog l name).2) l) := by
  induction names generalizing l with
  | nil => exact h
  | cons name rest ih => exact ih (hload l name h)

theorem ofNames_inStep (catalog : Catalog) (names : List String) :
    (ofNames catalog names).InStep :=
  foldl_load_induction (fun _ name h => h.load catalog name) names .empty

theorem ofNames_keys_nodup (catalog : Catalog) (names : List String) :
    (ofNames catalog names).keys.Nodup :=
  (ofNames_inStep catalog names).nodup

/-- The transport of the instance for a name. -/
def transport? (l : Loaded) (key : String) : Option Transport :=
  (l.find? key).map Instance.transport

theorem load_transport? (catalog : Catalog) (l : Loaded) (name key : String) :
    (load catalog l name).2.transport? key =
      (l.transport? key).or (if key = name then catalog.find? key else none) := by
  simp only [transport?, find?_load]
  by_cases h : key = name
  · subst h
    obtain ⟨i, hi, hload⟩ | ⟨hnone, hcatalog, hload⟩ | ⟨transport, hnone, hcatalog, hload⟩ :=
      load_cases catalog l key
    · simp [hload, hi]
    · simp [hload, hnone, hcatalog]
    · simp [hload, hnone, hcatalog, build]
  · simp [h]

theorem foldl_load_transport? (catalog : Catalog) (names : List String) (l : Loaded)
    (key : String) :
    (names.foldl (fun l name => (load catalog l name).2) l).transport? key =
      (l.transport? key).or (if key ∈ names then catalog.find? key else none) := by
  induction names generalizing l with
  | nil => simp
  | cons name rest ih =>
    rw [List.foldl_cons, ih, load_transport?, Option.or_assoc]
    congr 1
    by_cases h : key = name
    · subst h
      cases catalog.find? key <;> simp
    · simp [h]

theorem ofNames_transport? (catalog : Catalog) {names : List String} {key : String}
    (h : key ∈ names) : (ofNames catalog names).transport? key = catalog.find? key := by
  rw [ofNames, foldl_load_transport?, if_pos h]
  rfl

/-! ### The names that are loaded -/

theorem InStep.load_keys {l : Loaded} (h : l.InStep) (catalog : Catalog) (name : String) :
    (Loaded.load catalog l name).2.keys =
      if catalog.contains name = true ∧ name ∉ l.keys then l.keys ++ [name] else l.keys := by
  simp only [← h.find?_isSome_iff, Catalog.contains]
  obtain ⟨i, hi, hload⟩ | ⟨hnone, hcatalog, hload⟩ | ⟨transport, hnone, hcatalog, hload⟩ :=
    load_cases catalog l name
  · simp [hload, hi]
  · simp [hload, hcatalog]
  · simp [hload, hnone, hcatalog, Loaded.build]

/-- Names that are loaded already add nothing, and of the others the first occurrence counts. -/
theorem InStep.foldl_load_keys (catalog : Catalog) (names : List String) {l : Loaded}
    (h : l.InStep) :
    (names.foldl (fun l name => (Loaded.load catalog l name).2) l).keys =
      l.keys ++ ((names.filter catalog.contains).filter (· ∉ l.keys)).eraseDups := by
  induction names generalizing l with
  | nil => simp
  | cons name rest ih =>
    rw [List.foldl_cons, ih (h.load catalog name), h.load_keys]
    by_cases hname : catalog.contains name = true
    · by_cases hold : name ∈ l.keys
      · simp [hname, hold]
      · -- The name itself is the first occurrence, and later ones are passed over.
        have hrest : (rest.filter catalog.contains).filter (· ∉ l.keys ++ [name]) =
            ((rest.filter catalog.contains).filter (· ∉ l.keys)).filter fun other =>
              !other == name := by
          rw [List.filter_filter (p := fun other => !other == name)]
          refine List.filter_congr fun other _ => ?_
          by_cases other ∈ l.keys <;> by_cases other = name <;> simp [*]
        rw [if_pos ⟨hname, hold⟩, hrest, List.filter_cons_of_pos hname,
          List.filter_cons_of_pos (by simpa using hold), List.eraseDups_cons]
        simp
    · rw [if_neg fun h => hname h.1, List.filter_cons_of_neg hname]

theorem ofNames_keys (catalog : Catalog) (names : List String) :
    (ofNames catalog names).keys = (names.filter catalog.contains).eraseDups := by
  rw [ofNames, InStep.empty.foldl_load_keys]
  simp

theorem mem_ofNames_keys {catalog : Catalog} {names : List String} {key : String} :
    key ∈ (ofNames catalog names).keys ↔ key ∈ names ∧ catalog.contains key = true := by
  rw [ofNames_keys, List.mem_eraseDups, List.mem_filter]

/-- Every instance has been built once, and from the catalog. -/
structure IsBuiltFrom (catalog : Catalog) (l : Loaded) : Prop where
  built : l.built = l.keys
  transports : l.instances.map (fun i => some i.transport) = l.keys.map catalog.find?

theorem ofNames_isBuiltFrom (catalog : Catalog) (names : List String) :
    (ofNames catalog names).IsBuiltFrom catalog := by
  have hstep := ofNames_inStep catalog names
  refine ⟨hstep.built, ?_⟩
  calc (ofNames catalog names).instances.map (fun i => some i.transport)
      = ((ofNames catalog names).instances.map some).map (Option.map Instance.transport) := by
        rw [List.map_map]
        rfl
    _ = (ofNames catalog names).keys.map (ofNames catalog names).transport? := by
        rw [hstep.instances, List.map_map]
        rfl
    _ = (ofNames catalog names).keys.map catalog.find? :=
        List.map_congr_left fun key hkey => ofNames_transport? catalog (mem_ofNames_keys.mp hkey).1

/-! ### Every instance once -/

/-- The instances carry their names, and how many were built before them. -/
structure IsNumbered (l : Loaded) : Prop where
  inStep : l.InStep
  names : l.instances.map Instance.key = l.keys
  serials : l.instances.map Instance.serial = List.range l.keys.length

theorem ofNames_isNumbered (catalog : Catalog) (names : List String) :
    (ofNames catalog names).IsNumbered := by
  refine foldl_load_induction (fun l name h => ?_) names ⟨.empty, rfl, rfl⟩
  obtain ⟨i, -, hload⟩ | ⟨-, -, hload⟩ | ⟨transport, hnew, -, hload⟩ := load_cases catalog l name
  · rwa [hload]
  · rwa [hload]
  · rw [hload]
    refine ⟨h.inStep.build hnew transport, ?_, ?_⟩
    · rw [h.inStep.instances_build hnew, List.map_append, h.names]
      rfl
    · rw [h.inStep.instances_build hnew, List.map_append, h.serials]
      simp [build, List.range_succ, h.inStep.built]

/-- A name that has its instance or will never have one. -/
def IsSettled (catalog : Catalog) (l : Loaded) (name : String) : Prop :=
  (l.find? name).isSome = true ∨ catalog.find? name = none

theorem load_isSettled (catalog : Catalog) (l : Loaded) (name : String) :
    IsSettled catalog (load catalog l name).2 name := by
  rw [IsSettled, find?_load, if_pos rfl]
  obtain ⟨i, -, hload⟩ | ⟨-, hcatalog, -⟩ | ⟨transport, -, -, hload⟩ := load_cases catalog l name
  · exact .inl (by rw [hload]; rfl)
  · exact .inr hcatalog
  · exact .inl (by rw [hload]; rfl)

/-- Loads change nothing for a name that is settled. -/
theorem IsSettled.find?_load {catalog : Catalog} {l : Loaded} {name : String}
    (h : IsSettled catalog l name) (other : String) :
    (load catalog l other).2.find? name = l.find? name := by
  rw [Loaded.find?_load]
  split
  · next heq =>
    subst heq
    obtain ⟨i, hi, hload⟩ | ⟨hnone, -, hload⟩ | ⟨transport, hnone, hcatalog, -⟩ :=
      load_cases catalog l name
    · rw [hload, hi]
    · rw [hload, hnone]
    · simp [IsSettled, hnone, hcatalog] at h
  · rfl

/-- What a load gives is what is found after any later ones. -/
theorem find?_ofNames_append (catalog : Catalog) (before after : List String) (name : String) :
    (ofNames catalog (before ++ name :: after)).find? name =
      (load catalog (ofNames catalog before) name).1 := by
  let first := (load catalog (ofNames catalog before) name).2
  have hlater : IsSettled catalog (ofNames catalog (before ++ name :: after)) name ∧
      (ofNames catalog (before ++ name :: after)).find? name = first.find? name := by
    rw [ofNames, List.foldl_append, List.foldl_cons]
    refine foldl_load_induction (P := fun l => IsSettled catalog l name ∧
      l.find? name = first.find? name) (fun l other h => ?_) after
      ⟨load_isSettled catalog _ name, rfl⟩
    have hsame := h.1.find?_load other
    exact ⟨h.1.imp_left fun hsome => hsame ▸ hsome, hsame.trans h.2⟩
  rw [hlater.2, find?_load, if_pos rfl]

/-- Loads of any names, one after another.  What is loaded are the names that the catalog contains,
in the order in which they were asked for first, and for each of them, at its place, the one
instance that any load of the name gives; no two of the instances are the same.  The transport of a
name is built at its first load and never again, and a load of a name outside the catalog gives
nothing and changes nothing. -/
theorem loads_once (catalog : Catalog) (names : List String) :
    let l := ofNames catalog names
    (l.keys.Nodup ∧ l.keys = (names.filter catalog.contains).eraseDups ∧
      l.size = l.keys.length ∧ l.instances.map some = l.keys.map l.find? ∧
      l.instances.map Instance.key = l.keys ∧
      l.instances.map Instance.serial = List.range l.size ∧
      ∀ name, l.built.count name =
        if name ∈ names ∧ catalog.contains name = true then 1 else 0) ∧
      ∀ name after,
        let given := load catalog l name
        (ofNames catalog (names ++ name :: after)).find? name = given.1 ∧
          (load catalog (ofNames catalog (names ++ name :: after)) name).1 = given.1 ∧
          given.1.map Instance.transport = catalog.find? name ∧
          given.2.built =
            (if catalog.contains name = true ∧ name ∉ names then l.built ++ [name] else l.built) ∧
          (catalog.contains name = false → given = (none, l)) := by
  intro l
  have hstep : l.InStep := ofNames_inStep catalog names
  have hnumbered : l.IsNumbered := ofNames_isNumbered catalog names
  refine ⟨⟨hstep.nodup, ofNames_keys catalog names, hstep.size, hstep.instances, hnumbered.names,
    hstep.size ▸ hnumbered.serials, fun name => ?_⟩, fun name after => ?_⟩
  · simp only [hstep.built, hstep.nodup.count, l, mem_ofNames_keys]
  · have hgiven : (ofNames catalog (names ++ name :: after)).find? name =
        (load catalog l name).1 := find?_ofNames_append catalog names after name
    refine ⟨hgiven, ?_, ?_, ?_, fun hname => ?_⟩
    · rw [← find?_ofNames_append catalog _ [] name, ← find?_ofNames_append catalog names
        (after ++ [name]) name, List.append_assoc, List.cons_append]
    · rw [← hgiven]
      exact ofNames_transport? catalog (by simp)
    · rw [(hstep.load catalog name).built, hstep.load_keys, hstep.built]
      simp only [l, mem_ofNames_keys]
      refine if_congr (and_congr_right fun hname => ?_) rfl rfl
      simp [hname]
    · have hfind : catalog.find? name = none := by simpa [Catalog.contains] using hname
      have hnone : (load catalog l name).1 = none := by
        rw [← hgiven, ← Option.map_eq_none_iff (f := Instance.transport)]
        exact (ofNames_transport? catalog (by simp)).trans hfind
      obtain ⟨i, -, hload⟩ | ⟨-, -, hload⟩ | ⟨transport, -, hcatalog, -⟩ :=
        load_cases catalog l name
      · simp [hload] at hnone
      · exact hload
      · simp [hfind] at hcatalog

example : (ofNames .standard ["mysql", "none", "file", "mysql"]).keys = ["mysql", "file"] := by
  decide +kernel

end Loaded

/-- No two instances of a tree have the same key. -/
theorem Compiled.ofDefinition_keys_nodup (catalog : Catalog) (settings : Settings) (tree : Nat)
    (definition : Json) :
    (Compiled.ofDefinition catalog settings tree definition).loaded.keys.Nodup :=
  Loaded.ofNames_keys_nodup catalog _

theorem Compiled.ofDefinition_instanceKeys_nodup (catalog : Catalog) (settings : Settings)
    (tree : Nat) (definition : Json) :
    ((Compiled.ofDefinition catalog settings tree definition).loaded.instances.map
      Instance.key).Nodup := by
  have hnames := (Loaded.ofNames_isNumbered catalog (Compiled.modules (Node.plan definition))).names
  exact hnames ▸ Compiled.ofDefinition_keys_nodup catalog settings tree definition

end OperationTree
