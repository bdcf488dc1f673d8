import OperationTree.Tree.Path

/-! Joining keys to a path and splitting a path.  A path is its keys with dots between them, unless
the first of several keys is empty: the path of a group under the empty key is that of the root.
Splitting undoes this as long as no key contains a dot. -/

namespace OperationTree.Path

/-- The path of the keys that lead somewhere. -/
def ofKeys (keys : List String) : String := keys.foldl join ""

/-- Keys that do not go on below the empty key at the root. -/
def IsRooted (keys : List String) : Prop := keys.head? = some "" → keys.length = 1

/-- A key that stands between two dots of a path. -/
def HasNoDot (key : String) : Prop := '.' ∉ key.toList

/-- A key that a path can name. -/
def IsPlain (key : String) : Prop := key ≠ "" ∧ HasNoDot key

instance (key : String) : Decidable (IsPlain key) :=
  inferInstanceAs (Decidable (key ≠ "" ∧ '.' ∉ key.toList))

theorem ofKeys_concat (keys : List String) (key : String) :
    ofKeys (keys ++ [key]) = join (ofKeys keys) key :=
  List.foldl_append

theorem splitChars_eq_splitOn (cs : List Char) : splitChars cs = cs.splitOn '.' := by
  induction cs with
  | nil => rfl
  | cons c rest ih =>
    rw [splitChars, ih, List.splitOn_eq_splitOnP, List.splitOn_eq_splitOnP,
      List.splitOnP_cons_eq_if_modifyHead]
    by_cases h : c = '.'
    · simp [h]
    · simp only [h, if_false, beq_iff_eq]
      cases hparts : rest.splitOnP (· == '.') with
      | nil => exact absurd hparts (List.splitOnP_ne_nil _ _)
      | cons part parts => rfl

theorem split_ne_nil (path : String) : split path ≠ [] := by
  rw [split, splitChars_eq_splitOn]
  simp [List.splitOn_ne_nil]

/-- The characters of the parts of a path, with dots between them, are those of the path. -/
theorem intercalate_split (path : String) :
    ['.'].intercalate ((split path).map String.toList) = path.toList := by
  rw [split, List.map_map, splitChars_eq_splitOn]
  simp [Function.comp_def, List.intercalate_splitOn]

/-- Joining further keys to a parent that is not the root. -/
theorem toList_foldl_join {parent : String} (h : parent ≠ "") (keys : List String) :
    (keys.foldl join parent).toList =
      ['.'].intercalate (parent.toList :: keys.map String.toList) := by
  induction keys generalizing parent with
  | nil => simp [List.intercalate]
  | cons key rest ih =>
    have hjoin : join parent key = parent ++ "." ++ key := by simp [join, h]
    have hne : join parent key ≠ "" := by
      rw [hjoin]
      intro heq
      simpa using congrArg String.length heq
    rw [List.foldl_cons, ih hne, hjoin, List.map_cons, List.intercalate_cons_cons]
    cases rest with
    | nil => simp [List.intercalate]
    | cons next rest => simp [List.intercalate_cons_cons]

theorem toList_ofKeys {keys : List String} (h : IsRooted keys) :
    (ofKeys keys).toList = ['.'].intercalate (keys.map String.toList) := by
  cases keys with
  | nil => rfl
  | cons key rest =>
    have hfirst : join "" key = key := by simp [join]
    rw [ofKeys, List.foldl_cons, hfirst, List.map_cons]
    by_cases hkey : key = ""
    · -- The empty key at the root stands alone.
      have hlen : rest.length = 0 := by simpa using h (by simp [hkey])
      obtain rfl := List.length_eq_zero_iff.mp hlen
      simp [List.intercalate]
    · exact toList_foldl_join hkey rest

theorem ofKeys_split {path : String} (h : IsRooted (split path)) : ofKeys (split path) = path :=
  String.toList_inj.mp ((toList_ofKeys h).trans (intercalate_split path))

theorem split_ofKeys {keys : List String} (hne : keys ≠ []) (hrooted : IsRooted keys)
    (hdots : ∀ key ∈ keys, HasNoDot key) : split (ofKeys keys) = keys := by
  have hparts : ∀ part ∈ keys.map String.toList, '.' ∉ part := by simpa [HasNoDot] using hdots
  rw [split, splitChars_eq_splitOn, toList_ofKeys hrooted,
    List.splitOn_intercalate '.' hparts (by simpa using hne)]
  simp [Function.comp_def]

/-- Only a path that begins with a dot is split into several parts the first of which is empty. -/
theorem isRooted_split {path : String} (h : path.toList.head? ≠ some '.') :
    IsRooted (split path) := by
  intro hempty
  cases hsplit : split path with
  | nil => exact absurd hsplit (split_ne_nil path)
  | cons first rest =>
    rw [hsplit] at hempty
    obtain rfl := Option.some.inj hempty
    cases rest with
    | nil => rfl
    | cons second rest =>
      have hpath := intercalate_split path
      rw [hsplit, List.map_cons, List.map_cons, List.intercalate_cons_cons] at hpath
      exact absurd (by rw [← hpath]; rfl) h

end OperationTree.Path
