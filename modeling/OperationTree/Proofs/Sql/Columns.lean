import Mathlib.Data.List.Basic
import OperationTree.Proofs.Sql.Splitting

/-! Writing out a column map.  The select list takes the place of the first text that reads
`:COL_MAP`, which need not be a token of that name: it may be the beginning of a longer one.  Then
the list stands in the place of a part of another token, and `COL_MAP` stays.  The tokens of a
statement are safe if the first one that begins so has just this name and does not stand right
behind another one, which the list would lengthen. -/

namespace OperationTree.Sql

open Url

/-- The name of the token for a column map. -/
def columnName : List Char := columnMapKey.toList

/-- The pieces with a list in the place of the first token for a column map. -/
def putColumns (list : List Char) : List Piece → List Char
  | [] => []
  | p :: rest =>
    if p = .token columnName then list ++ rest.flatMap Piece.chars
    else p.chars ++ putColumns list rest

/-- The statement with its first token for a column map written out as the select list. -/
def expandToken (sql : String) (columns : Members) : String :=
  String.ofList (putColumns (columnList columns).toList (pieces sql.toList))

def Piece.name? : Piece → Option (List Char)
  | .text _ => none
  | .token name => some name

/-- The names of the tokens among pieces, in order. -/
def namesOf (ps : List Piece) : List (List Char) := ps.filterMap Piece.name?

/-- The names of the tokens of a text, in order. -/
def tokenNames (text : List Char) : List (List Char) := namesOf (pieces text)

theorem namesOf_append (ps qs : List Piece) : namesOf (ps ++ qs) = namesOf ps ++ namesOf qs :=
  List.filterMap_append

theorem namesOf_token (name : List Char) (ps : List Piece) :
    namesOf (.token name :: ps) = name :: namesOf ps :=
  rfl

theorem mem_namesOf {name : List Char} {ps : List Piece} :
    name ∈ namesOf ps ↔ .token name ∈ ps := by
  rw [namesOf, List.mem_filterMap]
  constructor
  · rintro ⟨p, hp, hname⟩
    cases p with
    | text c => cases hname
    | token word => rwa [← Option.some.inj hname]
  · exact fun hp => ⟨_, hp, rfl⟩

/-- No token of these pieces begins with the name of the token for a column map. -/
def HasNoneLike (ps : List Piece) : Prop := ∀ name ∈ namesOf ps, ¬ columnName <+: name

instance (ps : List Piece) : Decidable (HasNoneLike ps) :=
  inferInstanceAs (Decidable (∀ name ∈ namesOf ps, ¬ columnName <+: name))

/-- The first token that begins with the name of the token for a column map has no longer name, and
it does not stand right behind another token. -/
def StandsApart (ps : List Piece) : Prop :=
  ∀ before name after, ps = before ++ .token name :: after → columnName <+: name →
    HasNoneLike before → name = columnName ∧ ∀ front word, before ≠ front ++ [.token word]

/-! ### Parts of a split text -/

theorem takeWhile_chars_append {ps : List Piece} {later later' : List Char}
    (h : (ps.flatMap Piece.chars ++ later).takeWhile isWord = [])
    (hlater : later.takeWhile isWord = [] → later'.takeWhile isWord = []) :
    (ps.flatMap Piece.chars ++ later').takeWhile isWord = [] := by
  cases ps with
  | nil => exact hlater h
  | cons p ps =>
    have hfirst {c : Char} {cs ds : List Char} (hc : (c :: cs).takeWhile isWord = []) :
        (c :: ds).takeWhile isWord = [] := by
      by_cases hword : isWord c = true
      · simp [hword] at hc
      · exact List.takeWhile_cons_of_neg hword
    cases p <;> exact hfirst h

/-- The end of a split text may be replaced, but not by a word where there was none. -/
theorem Splits.replace {text later : List Char} {ps qs qs' : List Piece}
    (h : Splits text (ps ++ qs)) (hlater : Splits later qs')
    (hends : (qs.flatMap Piece.chars).takeWhile isWord = [] → later.takeWhile isWord = []) :
    Splits (ps.flatMap Piece.chars ++ later) (ps ++ qs') := by
  induction ps generalizing text with
  | nil => exact hlater
  | cons p ps ih =>
    have hjoin {rest : List Char} (hrest : Splits rest (ps ++ qs))
        (hword : rest.takeWhile isWord = []) :
        (ps.flatMap Piece.chars ++ later).takeWhile isWord = [] := by
      rw [← hrest.chars_eq, List.flatMap_append] at hword
      exact takeWhile_chars_append hword hends
    rw [List.cons_append] at h
    cases h with
    | text hcolon hrest => exact .text (fun hc => hjoin hrest (hcolon hc)) (ih hrest)
    | token hne hname hword hrest =>
      have htoken := Splits.token hne hname (hjoin hrest hword) (ih hrest)
      rwa [← List.append_assoc] at htoken

theorem Splits.right {text : List Char} {ps qs : List Piece} (h : Splits text (ps ++ qs)) :
    Splits (qs.flatMap Piece.chars) qs := by
  induction ps generalizing text with
  | nil => exact h.chars_eq ▸ h
  | cons p ps ih => cases h with
    | text _ hrest => exact ih hrest
    | token _ _ _ hrest => exact ih hrest

/-- Text in front of a text that begins with no word splits by itself. -/
theorem splits_append (text : List Char) {later : List Char} {qs : List Piece}
    (hlater : Splits later qs) (hends : later.takeWhile isWord = []) :
    Splits (text ++ later) (pieces text ++ qs) := by
  have htext : Splits text (pieces text ++ []) := splits_iff.mpr (List.append_nil _)
  have hsplits := htext.replace hlater fun _ => hends
  rwa [(splits_pieces text).chars_eq] at hsplits

/-! ### What the list takes the place of -/

theorem isWord_columnName : columnName.all isWord = true := by decide +kernel

theorem isPrefix_takeWhile {word text : List Char} (hword : word.all isWord = true)
    (h : word <+: text) : word <+: text.takeWhile isWord := by
  obtain ⟨rest, rfl⟩ := h
  rw [takeWhile_append_of_all hword]
  exact List.prefix_append _ _

theorem replaceFirst_cons {pattern list rest : List Char} {c : Char} (h : ¬ pattern <+: c :: rest) :
    replaceFirst pattern list (c :: rest) = c :: replaceFirst pattern list rest := by
  have hdrop : dropLead? pattern (c :: rest) = none :=
    Option.eq_none_iff_forall_ne_some.mpr fun after hafter =>
      h ⟨after, (dropLead?_eq_some.mp hafter).symm⟩
  rw [replaceFirst, hdrop]

theorem replaceFirst_lead {lead : List Char} (h : ∀ c ∈ lead, c ≠ ':')
    (name list text : List Char) : replaceFirst (':' :: name) list (lead ++ text) =
      lead ++ replaceFirst (':' :: name) list text := by
  induction lead with
  | nil => rfl
  | cons c lead ih =>
    obtain ⟨hc, hlead⟩ := List.forall_mem_cons.mp h
    have hnot : ¬ ':' :: name <+: c :: (lead ++ text) := fun hprefix =>
      hc (List.cons_prefix_cons.mp hprefix).1.symm
    rw [List.cons_append, replaceFirst_cons hnot, ih hlead, List.cons_append]

theorem replaceFirst_pieces {front ps : List Piece} {text : List Char}
    (h : Splits text (front ++ ps)) (hnone : HasNoneLike front) (list : List Char) :
    replaceFirst (':' :: columnName) list text = front.flatMap Piece.chars ++
      replaceFirst (':' :: columnName) list (ps.flatMap Piece.chars) := by
  induction front generalizing text with
  | nil => rw [List.nil_append] at h; rw [h.chars_eq]; rfl
  | cons p front ih =>
    rw [List.cons_append] at h
    cases h with
    | @text c rest _ hcolon hrest =>
      have hnot : ¬ ':' :: columnName <+: c :: rest := by
        intro hprefix
        obtain ⟨hc, hname⟩ := List.cons_prefix_cons.mp hprefix
        have hword := isPrefix_takeWhile isWord_columnName hname
        rw [hcolon hc.symm] at hword
        exact absurd (List.prefix_nil.mp hword) (by decide +kernel)
      rw [replaceFirst_cons hnot, ih hrest hnone]
      rfl
    | @token name rest _ hne hname hends hrest =>
      obtain ⟨hother, hlater⟩ := List.forall_mem_cons.mp hnone
      have hnot : ¬ ':' :: columnName <+: ':' :: (name ++ rest) := by
        intro hprefix
        have hword := isPrefix_takeWhile isWord_columnName (List.cons_prefix_cons.mp hprefix).2
        rw [takeWhile_append_of_all hname, hends, List.append_nil] at hword
        exact hother hword
      rw [List.cons_append, replaceFirst_cons hnot, replaceFirst_lead (no_colon_of_all hname),
        ih hrest hlater, List.flatMap_cons, List.append_assoc]
      rfl

/-- The list takes the place of the beginning of the first token that begins like it. -/
theorem replaceFirst_first {before after : List Piece} {more text : List Char}
    (h : Splits text (before ++ .token (columnName ++ more) :: after))
    (hnone : HasNoneLike before) (list : List Char) :
    replaceFirst (':' :: columnName) list text =
      before.flatMap Piece.chars ++ (list ++ (more ++ after.flatMap Piece.chars)) := by
  have hdrop : dropLead? (':' :: columnName)
      (':' :: (columnName ++ (more ++ after.flatMap Piece.chars))) =
        some (more ++ after.flatMap Piece.chars) := dropLead?_eq_some.mpr rfl
  rw [replaceFirst_pieces h hnone, List.flatMap_cons, Piece.chars, List.cons_append,
    List.append_assoc, replaceFirst, hdrop]

/-- The list takes the place of the whole token if the first one that begins like it has no longer
name. -/
theorem replaceFirst_columnName {before after : List Piece} {text : List Char}
    (h : Splits text (before ++ .token columnName :: after)) (hnone : HasNoneLike before)
    (list : List Char) : replaceFirst (':' :: columnName) list text =
      before.flatMap Piece.chars ++ (list ++ after.flatMap Piece.chars) := by
  rw [← List.append_nil columnName] at h
  exact replaceFirst_first h hnone list

theorem putColumns_append {front : List Piece} (h : .token columnName ∉ front)
    (list : List Char) (ps : List Piece) :
    putColumns list (front ++ ps) = front.flatMap Piece.chars ++ putColumns list ps := by
  induction front with
  | nil => rfl
  | cons p front ih =>
    rw [List.mem_cons, not_or] at h
    rw [List.cons_append, putColumns, if_neg (Ne.symm h.1), ih h.2, List.flatMap_cons,
      List.append_assoc]

theorem putColumns_of_not_mem {ps : List Piece} (h : .token columnName ∉ ps) (list : List Char) :
    putColumns list ps = ps.flatMap Piece.chars := by
  have hput := putColumns_append h list []
  rwa [List.append_nil, putColumns, List.append_nil] at hput

theorem HasNoneLike.not_mem {ps : List Piece} (h : HasNoneLike ps) : .token columnName ∉ ps :=
  fun hmem => h columnName (mem_namesOf.mpr hmem) List.prefix_rfl

/-- The first token that begins like the one for a column map, if there is any. -/
theorem hasNoneLike_or (ps : List Piece) : HasNoneLike ps ∨ ∃ before more after,
    ps = before ++ .token (columnName ++ more) :: after ∧ HasNoneLike before := by
  induction ps with
  | nil => exact .inl fun _ hmem => absurd hmem List.not_mem_nil
  | cons p ps ih =>
    have hpass (hp : HasNoneLike [p]) {front : List Piece} (hfront : HasNoneLike front) :
        HasNoneLike (p :: front) := by
      rw [HasNoneLike, ← List.singleton_append, namesOf_append]
      exact List.forall_mem_append.mpr ⟨hp, hfront⟩
    by_cases hp : HasNoneLike [p]
    · rcases ih with hnone | ⟨before, more, after, rfl, hnone⟩
      · exact .inl (hpass hp hnone)
      · exact .inr ⟨p :: before, more, after, rfl, hpass hp hnone⟩
    · simp only [HasNoneLike, mem_namesOf, List.mem_singleton, not_forall, not_not] at hp
      obtain ⟨name, rfl, more, rfl⟩ := hp
      exact .inr ⟨[], more, ps, rfl, fun _ hmem => absurd hmem List.not_mem_nil⟩

/-! ### The tokens that are left -/

theorem Splits.tokenNames_eq {text : List Char} {ps : List Piece} (h : Splits text ps) :
    tokenNames text = namesOf ps := by
  rw [tokenNames, ← splits_iff.mp h]

/-- A token is a word, and the text behind it splits by itself and begins with none. -/
theorem Splits.at_token {text name : List Char} {before after : List Piece}
    (h : Splits text (before ++ .token name :: after)) : name.all isWord = true ∧
      Splits (after.flatMap Piece.chars) after ∧
      (after.flatMap Piece.chars).takeWhile isWord = [] := by
  have htoken := h.right
  generalize (Piece.token name :: after).flatMap Piece.chars = shown at htoken
  cases htoken with
  | token _ hname hends hrest =>
    rw [hrest.chars_eq]
    exact ⟨hname, hrest, hends⟩

theorem erase_columnName {before : List Piece} (h : HasNoneLike before) (after : List Piece) :
    (namesOf (before ++ .token columnName :: after)).erase columnName =
      namesOf before ++ namesOf after := by
  rw [namesOf_append, namesOf_token, List.erase_append_right _ (mt mem_namesOf.mp h.not_mem),
    List.erase_cons_head]

/-- A list in the place of a token that stands right behind no other one leaves the other tokens as
they are. -/
theorem otherNames_sublist {text : List Char} {before after : List Piece}
    (h : Splits text (before ++ .token columnName :: after)) (hnone : HasNoneLike before)
    (hapart : ∀ front word, before ≠ front ++ [.token word]) (list : List Char) :
    ((tokenNames text).erase columnName).Sublist
      (tokenNames (before.flatMap Piece.chars ++ (list ++ after.flatMap Piece.chars))) := by
  obtain ⟨-, hafter, hends⟩ := h.at_token
  rw [h.tokenNames_eq, erase_columnName hnone]
  rcases List.eq_nil_or_concat' before with rfl | ⟨front, p, rfl⟩
  · rw [List.flatMap_nil, List.nil_append, (splits_append list hafter hends).tokenNames_eq,
      namesOf_append]
    exact List.sublist_append_right _ _
  · cases p with
    | token word => exact absurd rfl (hapart front word)
    | text c =>
      -- The list can only join the text in front of it to a new token.
      have hjoined : Splits ((c :: list) ++ after.flatMap Piece.chars)
          (pieces (c :: list) ++ after) := splits_append _ hafter hends
      rw [List.append_assoc] at h
      have hnames := (h.replace hjoined fun hword => ?_).tokenNames_eq
      · rw [namesOf_append, namesOf_append] at hnames
        have htext : (front ++ [Piece.text c]).flatMap Piece.chars ++
            (list ++ after.flatMap Piece.chars) =
              front.flatMap Piece.chars ++ ((c :: list) ++ after.flatMap Piece.chars) := by
          simp [Piece.chars]
        rw [htext, hnames, namesOf_append, List.append_assoc]
        exact (List.sublist_append_right _ _).append_left _
      · by_cases hc : isWord c = true
        · simp [Piece.chars, hc] at hword
        · exact List.takeWhile_cons_of_neg hc

theorem expandColumns_eq (sql : String) (columns : Members) :
    expandColumns sql (some columns) = String.ofList
      (replaceFirst (':' :: columnName) (columnList columns).toList sql.toList) :=
  rfl

theorem StandsApart.expand {sql : String} (h : StandsApart (pieces sql.toList))
    (columns : Members) : expandColumns sql (some columns) = expandToken sql columns ∧
      ((tokenNames sql.toList).erase columnName).Sublist
        (tokenNames (expandColumns sql (some columns)).toList) := by
  have hsplits := splits_pieces sql.toList
  rw [expandColumns_eq, expandToken, String.toList_ofList]
  rcases hasNoneLike_or (pieces sql.toList) with hnone | ⟨before, more, after, hpieces, hnone⟩
  · have hall : Splits sql.toList (pieces sql.toList ++ []) := by rwa [List.append_nil]
    rw [replaceFirst_pieces hall hnone, putColumns_of_not_mem hnone.not_mem, hsplits.chars_eq]
    simp [replaceFirst, List.erase_sublist]
  · obtain ⟨hname, hapart⟩ := h before _ after hpieces (List.prefix_append _ _) hnone
    obtain rfl := List.append_right_eq_self.mp hname
    rw [List.append_nil] at hpieces
    have hfirst : Splits sql.toList (before ++ .token columnName :: after) := hpieces ▸ hsplits
    have hput : putColumns (columnList columns).toList (pieces sql.toList) =
        before.flatMap Piece.chars ++
          ((columnList columns).toList ++ after.flatMap Piece.chars) := by
      rw [hpieces, putColumns_append hnone.not_mem, putColumns, if_pos rfl]
    rw [hput, replaceFirst_columnName hfirst hnone]
    exact ⟨rfl, otherNames_sublist hfirst hnone hapart _⟩

theorem eq_nil_of_expand {sql : String} {before after : List Piece} {more : List Char}
    (hpieces : pieces sql.toList = before ++ .token (columnName ++ more) :: after)
    (hnone : HasNoneLike before) (h : expandColumns sql (some []) = expandToken sql []) :
    more = [] := by
  have hsplits : Splits sql.toList (before ++ .token (columnName ++ more) :: after) :=
    splits_iff.mpr hpieces.symm
  by_contra hne
  have hother : Piece.token (columnName ++ more) ≠ .token columnName := fun heq =>
    hne (List.append_right_eq_self.mp (Piece.token.inj heq))
  rw [expandColumns_eq, expandToken, String.ofList_inj, replaceFirst_first hsplits hnone, hpieces,
    putColumns_append hnone.not_mem, putColumns, if_neg hother, List.append_cancel_left_eq] at h
  cases more with
  | nil => exact hne rfl
  | cons c more =>
    obtain rfl : c = ':' := (List.cons.inj h).1
    have hword := List.all_eq_true.mp hsplits.at_token.1 ':' (by simp)
    exact absurd hword (by decide)

theorem tokenNames_lengthened {text word : List Char} {front after : List Piece}
    (h : Splits text (front ++ .token word :: .token columnName :: after)) :
    tokenNames ((front ++ [Piece.token word]).flatMap Piece.chars ++
        ("x as y".toList ++ after.flatMap Piece.chars)) =
      namesOf front ++ (word ++ ['x']) :: namesOf after := by
  have hcolumn : Splits text ((front ++ [.token word]) ++ .token columnName :: after) := by
    rwa [List.append_assoc]
  obtain ⟨-, hafter, hends⟩ := hcolumn.at_token
  obtain ⟨hword, -⟩ := h.at_token
  have hlonger : Splits (':' :: (word ++ ['x']) ++ (" as y".toList ++ after.flatMap Piece.chars))
      (.token (word ++ ['x']) :: (pieces " as y".toList ++ after)) :=
    .token (by simp) (by simpa using ⟨List.all_eq_true.mp hword, by decide⟩) rfl
      (splits_append _ hafter hends)
  have hnames := (h.replace hlonger fun _ => rfl).tokenNames_eq
  have hlist : namesOf (pieces " as y".toList) = [] := by decide +kernel
  rw [namesOf_append, namesOf_token, namesOf_append, hlist] at hnames
  refine Eq.trans (congrArg tokenNames ?_) hnames
  simp [Piece.chars]

/-- A token that does not stand apart is cut up or lost by some list. -/
theorem standsApart_of_expand {sql : String}
    (h : ∀ columns : Members, expandColumns sql (some columns) = expandToken sql columns ∧
      ((tokenNames sql.toList).erase columnName).Sublist
        (tokenNames (expandColumns sql (some columns)).toList)) :
    StandsApart (pieces sql.toList) := by
  rintro before _ after hpieces ⟨more, rfl⟩ hnone
  obtain rfl := eq_nil_of_expand hpieces hnone (h []).1
  refine ⟨List.append_nil _, ?_⟩
  rintro front word rfl
  rw [List.append_nil] at hpieces
  have hfirst : Splits sql.toList ((front ++ [.token word]) ++ .token columnName :: after) :=
    splits_iff.mpr hpieces.symm
  -- The longer token of a list right behind a word is not among the tokens of the statement.
  have hsublist := (h [("x", .string "y")]).2
  have hlist : (columnList [("x", .string "y")]).toList = "x as y".toList := by decide +kernel
  rw [expandColumns_eq, String.toList_ofList, hfirst.tokenNames_eq, erase_columnName hnone,
    replaceFirst_columnName hfirst hnone, hlist,
    tokenNames_lengthened (by rwa [List.append_assoc] at hfirst), namesOf_append,
    List.append_assoc] at hsublist
  have hsame := hsublist.eq_of_length (by simp [namesOf, Piece.name?])
  have hword := (List.cons.inj (List.append_cancel_left hsame)).1
  exact absurd hword (by simp)

/-- The select list takes the place of the first token for a column map and leaves the other tokens
as they are, whatever the columns are, if and only if that token stands apart.  A statement that has
no such token stays as it is under the same condition. -/
theorem expandColumns_iff (sql : String) :
    ((∀ columns : Members, expandColumns sql (some columns) = expandToken sql columns ∧
        ((tokenNames sql.toList).erase columnName).Sublist
          (tokenNames (expandColumns sql (some columns)).toList)) ↔
      StandsApart (pieces sql.toList)) ∧
    (columnName ∉ tokenNames sql.toList →
      ((∀ columns : Option Members, expandColumns sql columns = sql) ↔
        StandsApart (pieces sql.toList))) := by
  refine ⟨⟨standsApart_of_expand, StandsApart.expand⟩, fun hnone => ?_⟩
  have hput (columns : Members) : expandToken sql columns = sql := by
    rw [expandToken, putColumns_of_not_mem (mt mem_namesOf.mpr hnone),
      (splits_pieces sql.toList).chars_eq, String.ofList_toList]
  refine ⟨fun h => standsApart_of_expand fun columns => ?_, fun h columns => ?_⟩
  · rw [h, hput]
    exact ⟨rfl, List.erase_sublist⟩
  · cases columns with
    | none => rfl
    | some columns => exact (h.expand columns).1.trans (hput columns)

/-- There is one first token that begins like the one for a column map. -/
theorem standsApart_of_first {before : List Piece} (hnone : HasNoneLike before)
    (hapart : ∀ front word, before ≠ front ++ [.token word]) (after : List Piece) :
    StandsApart (before ++ .token columnName :: after) := by
  intro before' name after' heq hlike hnone'
  rcases List.append_eq_append_iff.mp heq with ⟨between, rfl, hrest⟩ | ⟨between, rfl, hrest⟩
  · cases between with
    | nil => exact ⟨(Piece.token.inj (List.cons.inj hrest).1).symm, by rwa [List.append_nil]⟩
    | cons p between =>
      obtain ⟨rfl, -⟩ := List.cons.inj hrest
      exact absurd List.prefix_rfl (hnone' columnName (mem_namesOf.mpr (by simp)))
  · cases between with
    | nil =>
      rw [List.append_nil] at hapart
      exact ⟨Piece.token.inj (List.cons.inj hrest).1, hapart⟩
    | cons p between =>
      obtain ⟨rfl, -⟩ := List.cons.inj hrest
      exact absurd hlike (hnone name (mem_namesOf.mpr (by simp)))

/-- A statement with a longer name behind the token for the column map. -/
def usersStatement : String := "SELECT :COL_MAP FROM users WHERE id = :id OR map = :COL_MAP2"

theorem expandColumns_iff_users : StandsApart (pieces usersStatement.toList) ∧
    expandColumns usersStatement (some [("first_name", .string "firstName")]) =
      "SELECT first_name as firstName FROM users WHERE id = :id OR map = :COL_MAP2" := by
  have hpieces : pieces usersStatement.toList = "SELECT ".toList.map Piece.text ++
      .token columnName :: (pieces usersStatement.toList).drop 8 := by decide +kernel
  have hapart : StandsApart (pieces usersStatement.toList) := by
    rw [hpieces]
    refine standsApart_of_first (by decide +kernel) (fun front word heq => ?_) _
    have hmem : Piece.token word ∈ "SELECT ".toList.map Piece.text := by
      rw [heq]
      exact List.mem_concat_self
    obtain ⟨c, -, hc⟩ := List.mem_map.mp hmem
    cases hc
  have hexpand := ((expandColumns_iff usersStatement).1.mpr hapart
    [("first_name", .string "firstName")]).1
  exact ⟨hapart, hexpand.trans (by decide +kernel)⟩

/-- The first token that begins with the name is a longer one. -/
theorem not_expandColumns_longerName :
    ¬ ∀ (sql : String) (columns : Members),
      expandColumns sql (some columns) = expandToken sql columns := by
  intro h
  have hsame := h "SELECT :COL_MAPS, :COL_MAP" [("a", .string "b")]
  exact absurd hsame (by decide +kernel)

end OperationTree.Sql
