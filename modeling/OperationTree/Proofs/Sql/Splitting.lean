import OperationTree.Proofs.Sql.Binding
import OperationTree.Proofs.Url.Tokens

/-! Statements and their pieces.  `Splits` says from left to right what the pieces of a text are: a
colon with a word behind it is a token, which takes the whole word, and every other character is
text.  A text has one such split, which is the one that binding uses, so binding is one pass over
the text: it puts a question mark for each token of a given name and leaves the rest as it is. -/

namespace OperationTree.Sql

open Url

/-- The pieces of a text. -/
inductive Splits : List Char → List Piece → Prop
  | nil : Splits [] []
  /-- A colon is text if no word stands behind it. -/
  | text {c : Char} {rest : List Char} {ps : List Piece} :
      (c = ':' → rest.takeWhile isWord = []) → Splits rest ps → Splits (c :: rest) (.text c :: ps)
  /-- A token has a word, and no character that would make it longer follows. -/
  | token {name rest : List Char} {ps : List Piece} :
      name ≠ [] → name.all isWord = true → rest.takeWhile isWord = [] → Splits rest ps →
        Splits (':' :: name ++ rest) (.token name :: ps)

/-! ### The split of a text -/

theorem scan_some (pending rest : List Char) : scan (some pending) rest =
    .ofName (pending.reverse ++ rest.takeWhile isWord) :: scan none (rest.dropWhile isWord) := by
  induction rest generalizing pending with
  | nil => simp [scan]
  | cons c rest ih =>
    cases hc : isWord c with
    | true => simp [scan, hc, ih]
    | false => simp [scan, hc]

theorem pieces_colon (rest : List Char) : pieces (':' :: rest) =
    .ofName (rest.takeWhile isWord) :: pieces (rest.dropWhile isWord) := by
  rw [pieces, scan, if_pos rfl, scan_some, List.reverse_nil, List.nil_append, pieces]

theorem pieces_token {name rest : List Char} (hne : name ≠ []) (hname : name.all isWord = true)
    (hends : rest.takeWhile isWord = []) :
    pieces (':' :: name ++ rest) = .token name :: pieces rest := by
  have htake : (name ++ rest).takeWhile isWord = name := by
    rw [takeWhile_append_of_all hname, hends, List.append_nil]
  have hdrop : (name ++ rest).dropWhile isWord = rest := by
    have hsplit := List.takeWhile_append_dropWhile (p := isWord) (l := name ++ rest)
    rwa [htake, List.append_cancel_left_eq] at hsplit
  rw [List.cons_append, pieces_colon, htake, hdrop, Piece.ofName, if_neg (by simpa using hne)]

theorem pieces_text {c : Char} {rest : List Char}
    (hcolon : c = ':' → rest.takeWhile isWord = []) :
    pieces (c :: rest) = .text c :: pieces rest := by
  by_cases hc : c = ':'
  · have hdrop := List.takeWhile_append_dropWhile (p := isWord) (l := rest)
    rw [hcolon hc, List.nil_append] at hdrop
    rw [hc, pieces_colon, hcolon hc, hdrop]
    rfl
  · rw [pieces, scan, if_neg hc, pieces]

/-- A text splits into its pieces, and in no other way. -/
theorem splits_iff {text : List Char} {ps : List Piece} : Splits text ps ↔ ps = pieces text := by
  constructor
  · intro h
    induction h with
    | nil => rfl
    | text hcolon _ ih => rw [pieces_text hcolon, ih]
    | token hne hname hends _ ih => rw [pieces_token hne hname hends, ih]
  · rintro rfl
    -- Behind a colon the pieces go on after its word, so the induction is on the length.
    induction hlength : text.length using Nat.strong_induction_on generalizing text with
    | _ n ih =>
      have hlater {later : List Char} (h : later.length < n) : Splits later (pieces later) :=
        ih _ h rfl
      cases text with
      | nil => exact .nil
      | cons c rest =>
        rw [List.length_cons] at hlength
        by_cases hcolon : c = ':' → rest.takeWhile isWord = []
        · rw [pieces_text hcolon]
          exact .text hcolon (hlater (by omega))
        · obtain ⟨rfl, hne⟩ := Classical.not_imp.mp hcolon
          have hdrop := (List.dropWhile_sublist isWord (l := rest)).length_le
          have htoken := Splits.token hne List.all_takeWhile (takeWhile_dropWhile rest)
            (hlater (by omega))
          rwa [← pieces_token hne List.all_takeWhile (takeWhile_dropWhile rest),
            List.cons_append, List.takeWhile_append_dropWhile] at htoken

theorem splits_pieces (text : List Char) : Splits text (pieces text) := splits_iff.mpr rfl

example : pieces "::a:b1 :".toList =
    [.text ':', .token ['a'], .token ['b', '1'], .text ' ', .text ':'] := by decide

theorem Splits.chars_eq {text : List Char} {ps : List Piece} (h : Splits text ps) :
    ps.flatMap Piece.chars = text := by
  induction h with
  | nil => rfl
  | text _ _ ih => rw [List.flatMap_cons, ih]; rfl
  | token _ _ _ _ ih => rw [List.flatMap_cons, ih]; rfl

/-! ### Binding a split text -/

/-- A piece of the bound text: a question mark stands there as text. -/
def Piece.marked (given : List String) : Piece → Piece
  | .text c => .text c
  | .token name => if given.contains (String.ofList name) then .text '?' else .token name

/-- Behind a token or a colon binding puts no word. -/
theorem Splits.takeWhile_shown {text : List Char} {ps : List Piece} (h : Splits text ps)
    (hends : text.takeWhile isWord = []) (given : List String) :
    (ps.flatMap (Piece.shown given)).takeWhile isWord = [] := by
  cases h with
  | nil => rfl
  | @text c rest ps _ _ =>
    have hc : ¬ isWord c = true := fun hc => by simp [hc] at hends
    rw [List.flatMap_cons, Piece.shown, List.singleton_append, List.takeWhile_cons_of_neg hc]
  | @token name rest ps _ _ _ _ =>
    rw [List.flatMap_cons, Piece.shown]
    split <;> exact List.takeWhile_cons_of_neg (by decide)

theorem Splits.marked {text : List Char} {ps : List Piece} (h : Splits text ps)
    (given : List String) :
    Splits (ps.flatMap (Piece.shown given)) (ps.map (Piece.marked given)) := by
  induction h with
  | nil => exact .nil
  | text hcolon hrest ih =>
    exact .text (fun hc => hrest.takeWhile_shown (hcolon hc) given) ih
  | @token name rest ps hne hname hends hrest ih =>
    rw [List.flatMap_cons, List.map_cons, Piece.shown, Piece.marked]
    split
    · exact .text (fun hc => absurd hc (by decide)) ih
    · exact .token hne hname (hrest.takeWhile_shown hends given) ih

theorem boundName?_marked (given : List String) (p : Piece) :
    (p.marked given).boundName? given = none := by
  cases p with
  | text c => rfl
  | token name =>
    rw [Piece.marked]
    split
    · rfl
    · next hname => rw [Piece.boundName?, if_neg hname]

theorem shown_marked (given : List String) (p : Piece) :
    (p.marked given).shown given = p.shown given := by
  cases p with
  | text c => rfl
  | token name =>
    by_cases hname : String.ofList name ∈ given <;> simp [Piece.marked, Piece.shown, hname]

/-- Every question mark that is put is a new one, since there is none in a token. -/
theorem Splits.count_shown {text : List Char} {ps : List Piece} (h : Splits text ps)
    (given : List String) : (ps.flatMap (Piece.shown given)).count '?' =
      text.count '?' + (ps.filterMap (Piece.boundName? given)).length := by
  induction h with
  | nil => rfl
  | @text c rest ps _ _ ih =>
    rw [List.flatMap_cons, List.count_append, ih, Piece.shown, List.filterMap_cons_none rfl,
      ← Nat.add_assoc, ← List.count_append, List.singleton_append]
  | @token name rest ps _ hname _ _ ih =>
    have hmark : (':' :: name).count '?' = 0 :=
      List.count_eq_zero.mpr fun hmem => by
        rcases List.mem_cons.mp hmem with heq | hmem
        · exact absurd heq (by decide)
        · exact absurd (List.all_eq_true.mp hname _ hmem) (by decide)
    rw [List.flatMap_cons, List.count_append, ih, List.count_append, hmark, Nat.zero_add]
    by_cases hgiven : String.ofList name ∈ given
    · simp only [Piece.shown, Piece.boundName?, List.filterMap_cons, List.contains_iff_mem, hgiven,
        if_true, List.count_singleton_self, List.length_cons]
      omega
    · simp only [Piece.shown, Piece.boundName?, List.filterMap_cons, List.contains_iff_mem, hgiven,
        if_false, hmark, Nat.zero_add]

/-- A text with marks in it: what stands before the first one, and the name of each one with what
stands behind it up to the next. -/
def woven (mark : String → List Char) (lead : List Char) (gaps : List (String × List Char)) :
    List Char :=
  lead ++ gaps.flatMap fun gap => mark gap.1 ++ gap.2

/-- Around the question marks that are put and the tokens that they are put for stands the same. -/
theorem exists_gaps (given : List String) (ps : List Piece) :
    ∃ lead gaps, gaps.map Prod.fst = ps.filterMap (Piece.boundName? given) ∧
      ps.flatMap Piece.chars = woven (fun name => ':' :: name.toList) lead gaps ∧
      ps.flatMap (Piece.shown given) = woven (fun _ => ['?']) lead gaps := by
  induction ps with
  | nil => exact ⟨[], [], rfl, rfl, rfl⟩
  | cons p ps ih =>
    obtain ⟨lead, gaps, hnames, hchars, hshown⟩ := ih
    have hkept {cs : List Char} (hname : p.boundName? given = none) (hc : p.chars = cs)
        (hs : p.shown given = cs) : ∃ lead gaps,
          gaps.map Prod.fst = (p :: ps).filterMap (Piece.boundName? given) ∧
          (p :: ps).flatMap Piece.chars = woven (fun name => ':' :: name.toList) lead gaps ∧
          (p :: ps).flatMap (Piece.shown given) = woven (fun _ => ['?']) lead gaps := by
      refine ⟨cs ++ lead, gaps, ?_, ?_, ?_⟩
      · rw [List.filterMap_cons, hname, hnames]
      · rw [List.flatMap_cons, hc, hchars, woven, woven, List.append_assoc]
      · rw [List.flatMap_cons, hs, hshown, woven, woven, List.append_assoc]
    cases p with
    | text c => exact hkept rfl rfl rfl
    | token name =>
      by_cases hname : given.contains (String.ofList name) = true
      · refine ⟨[], (String.ofList name, lead) :: gaps, ?_, ?_, ?_⟩
        · rw [List.filterMap_cons, Piece.boundName?, if_pos hname, List.map_cons, hnames]
        · simp [hchars, woven, Piece.chars]
        · rw [List.flatMap_cons, hshown, Piece.shown, if_pos hname]
          simp [woven]
      · exact hkept (by rw [Piece.boundName?, if_neg hname]) rfl
          (by rw [Piece.shown, if_neg hname]; rfl)

/-- What binding makes of a statement with pieces `ps`. -/
structure IsOnePass (sql : String) (ps : List Piece) (params : Members) (bound : Bound) :
    Prop where
  /-- The tokens of given names are question marks, and all other pieces are as they were. -/
  text : bound.sql.toList = ps.flatMap (Piece.shown params.keys)
  /-- Every one of these tokens brings the value of its name, in the order of the text. -/
  values : bound.binds.map some = (ps.filterMap (Piece.boundName? params.keys)).map params.get?
  /-- To the question marks of the statement comes one for each value. -/
  count : bound.sql.toList.count '?' = sql.toList.count '?' + bound.binds.length
  /-- With the tokens in the places of the question marks that were put it is the statement. -/
  restored : ∃ lead gaps, gaps.map Prod.fst = ps.filterMap (Piece.boundName? params.keys) ∧
    bound.sql.toList = woven (fun _ => ['?']) lead gaps ∧
    sql.toList = woven (fun name => ':' :: name.toList) lead gaps

theorem get?_of_boundName? {params : Members} {p : Piece} {name : String}
    (h : p.boundName? params.keys = some name) :
    some (valueOf params name) = params.get? name := by
  cases p with
  | text c => cases h
  | token word =>
    simp only [Piece.boundName?, Members.contains_keys, Option.ite_none_right_eq_some,
      Option.some.injEq] at h
    obtain ⟨hgiven, rfl⟩ := h
    obtain ⟨value, hvalue⟩ := Option.isSome_iff_exists.mp hgiven
    rw [valueOf, hvalue, Option.getD_some]

theorem bind_isOnePass (sql : String) (params : Option Members) :
    IsOnePass sql (pieces sql.toList) (params.getD []) (bind sql params) := by
  have hsplits := splits_pieces sql.toList
  rw [bind_eq]
  refine ⟨String.toList_ofList, ?_, ?_, ?_⟩
  · rw [List.map_map]
    refine List.map_congr_left fun name hname => ?_
    obtain ⟨p, -, hp⟩ := List.mem_filterMap.mp hname
    exact get?_of_boundName? hp
  · rw [boundText, String.toList_ofList, hsplits.count_shown, List.length_map, boundNames]
  · obtain ⟨lead, gaps, hnames, hchars, hshown⟩ :=
      exists_gaps (params.getD []).keys (pieces sql.toList)
    exact ⟨lead, gaps, hnames, String.toList_ofList.trans hshown,
      hsplits.chars_eq.symm.trans hchars⟩

theorem pieces_boundText (sql : String) (given : List String) :
    pieces (boundText sql given).toList = (pieces sql.toList).map (Piece.marked given) := by
  have hsplits := splits_pieces sql.toList
  rw [boundText, String.toList_ofList, splits_iff.mp (hsplits.marked given)]

theorem bind_bind (sql : String) (params : Option Members) :
    bind (bind sql params).sql params = { sql := (bind sql params).sql, binds := [] } := by
  have htext (given : List String) :
      boundText (boundText sql given) given = boundText sql given := by
    rw [boundText, pieces_boundText, List.flatMap_map, boundText]
    simp only [shown_marked]
  have hnames (given : List String) : boundNames (boundText sql given) given = [] := by
    rw [boundNames, pieces_boundText, List.filterMap_eq_nil_iff]
    intro p hp
    obtain ⟨source, -, rfl⟩ := List.mem_map.mp hp
    exact boundName?_marked given source
  rw [bind_eq sql, bind_eq, htext, hnames, List.map_nil]

/-- Binding is one pass from left to right over a statement, which splits in one way: each token of
a given name gives way to a question mark and brings its value, and nothing else changes.  The
statement can be got back, and a second pass finds nothing. -/
theorem bind_onePass (sql : String) (params : Option Members) :
    ∃ ps : List Piece, (∀ qs, Splits sql.toList qs ↔ qs = ps) ∧
      IsOnePass sql ps (params.getD []) (bind sql params) ∧
      bind (bind sql params).sql params = { sql := (bind sql params).sql, binds := [] } :=
  ⟨pieces sql.toList, fun _ => splits_iff, bind_isOnePass sql params, bind_bind sql params⟩

end OperationTree.Sql
