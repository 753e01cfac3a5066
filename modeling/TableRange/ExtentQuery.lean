import TableRange.Classification
import TableRange.Lib.Quoting

/-!
# The text of the extent query

`geometry_extent_with` writes the new value and the stored extent into the text of a query.
Whatever they are, each becomes one literal of it and nothing else: the tokens of the query
are those of a fixed pattern (`extentTokens`).  The type name comes from
`quote_qualified_identifier`, and its schema may be quoted itself.

Without `standard_conforming_strings` a backslash in a literal takes the character after it
into the literal, and only quotes are doubled.  Then the values must be without backslashes.
-/

namespace TableRange

open Lib.Quoting

/-- A literal or a quoted identifier begins. -/
def sqlQuotes : List Char := ['\'', '"']

/-- What escapes in a literal, under `standard_conforming_strings` or not.  In an identifier
nothing does. -/
def sqlEscape (conforming : Bool) (q : Char) : Option Char :=
  if !conforming && q == '\'' then some '\\' else none

/-- The tokens of a query. -/
def sqlLex (conforming : Bool) (sql : String) : Option (List (Token Char)) :=
  lex (sqlEscape conforming) sqlQuotes .plain sql.toList

/-- The text amounts to the tokens wherever it stands in a query. -/
abbrev SqlLexes (conforming : Bool) (s : String) (ts : List (Token Char)) : Prop :=
  Lexes (sqlEscape conforming) sqlQuotes s.toList ts

/-- The tokens of a fixed part of a query. -/
def sqlChars (s : String) : List (Token Char) := chars s.toList

/-- The tokens of one row of `VALUES`. -/
def rowTokens (tn : List (Token Char)) (text : String) : List (Token Char) :=
  sqlChars "(CAST(" ++ .quoted '\'' text.toList :: sqlChars " AS " ++ tn ++ sqlChars "))"

/-- The tokens of the query over the given values, for a type name and its schema. -/
def extentTokens (ns tn : List (Token Char)) (texts : List String) : List (Token Char) :=
  sqlChars "SELECT " ++ ns ++ sqlChars ".st_extent(g)::" ++ tn ++
    sqlChars "::pg_catalog.text FROM (VALUES " ++
    (sqlChars ", ").intercalate (texts.map (rowTokens tn)) ++ sqlChars ") v(g)"

/-! ## The parts of the query -/

/-- A fixed part has no quotes in it. -/
theorem notMem_sqlQuotes {s : String} (h : (s.toList.all fun c => c != '\'' && c != '"') = true) :
    ∀ c ∈ s.toList, c ∉ sqlQuotes := by
  simpa [sqlQuotes] using h

theorem toList_sqlLiteral (s : String) : (sqlLiteral s).toList = quote '\'' s.toList := by
  simp [sqlLiteral, quote]

theorem toList_intercalate (sep : String) (ss : List String) :
    (sep.intercalate ss).toList = sep.toList.intercalate (ss.map String.toList) := by
  induction ss with
  | nil => simp [List.intercalate]
  | cons s ss ih =>
      cases ss with
      | nil => simp [List.intercalate]
      | cons t ts => simp_all [List.intercalate]

theorem toList_extentQuery (ns tn : String) (texts : List String) :
    (extentQuery ns tn texts).toList = "SELECT ".toList ++ (ns.toList ++
      (".st_extent(g)::".toList ++ (tn.toList ++ ("::pg_catalog.text FROM (VALUES ".toList ++
        (", ".toList.intercalate (texts.map fun t =>
          ("(CAST(" ++ sqlLiteral t ++ " AS " ++ tn ++ "))").toList) ++ ") v(g)".toList))))) := by
  unfold extentQuery
  simp only [toString, String.toList_append, toList_intercalate, List.map_map, List.append_assoc,
    Function.comp_def]

/-- The schema is what the type name has before its last part. -/
theorem toList_of_endsWith {typeName : String} (h : endsWith typeName ".geometry" = true) :
    typeName.toList = (geometrySchema typeName).toList ++ ".geometry".toList := by
  obtain ⟨pre, hpre⟩ := endsWith_iff.mp h
  have hsuffix : (".geometry".toList.isSuffixOf typeName.toList) = true := by
    rw [List.isSuffixOf_iff_suffix]
    exact ⟨pre, hpre⟩
  rw [geometrySchema, stripSuffix, if_pos hsuffix, Option.getD_some, String.toList_ofList, ← hpre]
  simp

variable {conforming : Bool} {nsTokens tnTokens : List (Token Char)} {ns tn typeName : String}

/-- A text that can stand in a literal. -/
def LiteralSafe (conforming : Bool) (text : String) : Prop :=
  conforming = true ∨ '\\' ∉ text.toList

theorem LiteralSafe.unescaped {text : String} (h : LiteralSafe conforming text) :
    Unescaped (sqlEscape conforming) '\'' text.toList := by
  intro c hc
  rcases h with rfl | h
  · cases hc
  · cases conforming with
    | true => cases hc
    | false =>
        cases hc
        exact h

theorem rowTokens_lexes (htn : SqlLexes conforming tn tnTokens) {text : String}
    (htext : LiteralSafe conforming text) :
    SqlLexes conforming ("(CAST(" ++ sqlLiteral text ++ " AS " ++ tn ++ "))")
      (rowTokens tnTokens text) := by
  have hname := htn.append_chars "))".toList (notMem_sqlQuotes rfl)
  have hliteral : Lexes (sqlEscape conforming) sqlQuotes (quote '\'' text.toList)
      [.quoted '\'' text.toList] := .quote List.mem_cons_self htext.unescaped
  have hcast := hliteral.separated " AS ".toList (notMem_sqlQuotes rfl) (by simp) hname
  have hrow := hcast.chars_append "(CAST(".toList (notMem_sqlQuotes rfl)
  have htoList : ("(CAST(" ++ sqlLiteral text ++ " AS " ++ tn ++ "))").toList = "(CAST(".toList ++
      (quote '\'' text.toList ++ (" AS ".toList ++ (tn.toList ++ "))".toList))) := by
    simp only [String.toList_append, toList_sqlLiteral, List.append_assoc]
  unfold SqlLexes
  rw [htoList]
  simpa only [rowTokens, sqlChars, List.append_assoc, List.cons_append, List.nil_append] using hrow

/-- The query for a type name and a schema that have tokens of their own. -/
theorem extentQuery_tokens (hns : SqlLexes conforming ns nsTokens)
    (htn : SqlLexes conforming tn tnTokens) {texts : List String}
    (htexts : ∀ t ∈ texts, LiteralSafe conforming t) :
    sqlLex conforming (extentQuery ns tn texts) =
      some (extentTokens nsTokens tnTokens texts) := by
  have hrows : Lexes (sqlEscape conforming) sqlQuotes
      (", ".toList.intercalate (texts.map fun t =>
        ("(CAST(" ++ sqlLiteral t ++ " AS " ++ tn ++ "))").toList))
      ((sqlChars ", ").intercalate (texts.map (rowTokens tnTokens))) :=
    .intercalate _ (notMem_sqlQuotes rfl) (by simp)
      fun text htext => rowTokens_lexes htn (htexts text htext)
  have hend := hrows.append_chars ") v(g)".toList (notMem_sqlQuotes rfl)
  have hvalues := htn.separated "::pg_catalog.text FROM (VALUES ".toList
    (notMem_sqlQuotes rfl) (by simp) hend
  have hextent := hns.separated ".st_extent(g)::".toList (notMem_sqlQuotes rfl) (by simp) hvalues
  have hquery := hextent.chars_append "SELECT ".toList (notMem_sqlQuotes rfl)
  rw [sqlLex, toList_extentQuery, hquery.lex_eq]
  simp only [extentTokens, sqlChars, List.append_assoc]

/-- The bodies of the literals of a query. -/
def sqlTexts (conforming : Bool) (sql : String) : List String :=
  (((sqlLex conforming sql).getD []).filterMap (Token.body? '\'')).map String.ofList

theorem filterMap_extentTokens (hns : nsTokens.filterMap (Token.body? '\'') = [])
    (htn : tnTokens.filterMap (Token.body? '\'') = []) (texts : List String) :
    (extentTokens nsTokens tnTokens texts).filterMap (Token.body? '\'') =
      texts.map String.toList := by
  have hrow (text : String) : (rowTokens tnTokens text).filterMap (Token.body? '\'') =
      [text.toList] := by
    simp [rowTokens, sqlChars, filterMap_body_chars, htn, Token.body?]
  have hrows : ((sqlChars ", ").intercalate (texts.map (rowTokens tnTokens))).filterMap
      (Token.body? '\'') = texts.map String.toList := by
    induction texts with
    | nil => simp [List.intercalate]
    | cons t ts ih =>
        cases ts with
        | nil => simpa [List.intercalate] using hrow t
        | cons u us =>
            have hcons : (sqlChars ", ").intercalate ((t :: u :: us).map (rowTokens tnTokens)) =
                rowTokens tnTokens t ++ (sqlChars ", " ++
                  (sqlChars ", ").intercalate ((u :: us).map (rowTokens tnTokens))) := by
              simp [List.intercalate]
            rw [hcons, List.filterMap_append, List.filterMap_append, hrow, ih, sqlChars,
              filterMap_body_chars]
            rfl
  simp only [extentTokens, sqlChars, List.filterMap_append, filterMap_body_chars, hns, htn,
    List.nil_append, List.append_nil]
  exact hrows

/-- The literals of the query are the values. -/
theorem sqlTexts_extentQuery (hns : SqlLexes conforming ns nsTokens)
    (htn : SqlLexes conforming tn tnTokens)
    (hnsTexts : nsTokens.filterMap (Token.body? '\'') = [])
    (htnTexts : tnTokens.filterMap (Token.body? '\'') = []) {texts : List String}
    (htexts : ∀ t ∈ texts, LiteralSafe conforming t) :
    sqlTexts conforming (extentQuery ns tn texts) = texts := by
  rw [sqlTexts, extentQuery_tokens hns htn htexts, Option.getD_some,
    filterMap_extentTokens hnsTexts htnTexts, List.map_map]
  simp [Function.comp_def]

/-- Whatever the values are, the query has the tokens of the pattern: each value is the body
of one literal.  Without `standard_conforming_strings` that holds of values without
backslashes. -/
theorem extentQuery_lexes (hname : endsWith typeName ".geometry" = true)
    (hns : SqlLexes conforming (geometrySchema typeName) nsTokens) {texts : List String}
    (htexts : ∀ t ∈ texts, LiteralSafe conforming t) :
    sqlLex conforming (extentQuery (geometrySchema typeName) typeName texts) =
      some (extentTokens nsTokens (nsTokens ++ sqlChars ".geometry") texts) := by
  refine extentQuery_tokens hns ?_ htexts
  unfold SqlLexes
  rw [toList_of_endsWith hname]
  exact hns.append_chars _ (notMem_sqlQuotes rfl)

theorem extentQuery_lexes_quoted :
    sqlLex false (extentQuery (geometrySchema "\"gis's\".geometry") "\"gis's\".geometry"
        ["POINT(0 0)", "x'), (sleep(9)) --"]) =
      some (extentTokens [.quoted '"' "gis's".toList]
        ([.quoted '"' "gis's".toList] ++ sqlChars ".geometry")
        ["POINT(0 0)", "x'), (sleep(9)) --"]) := by
  have hns : SqlLexes false (geometrySchema "\"gis's\".geometry")
      [.quoted '"' "gis's".toList] := by
    have hschema : (geometrySchema "\"gis's\".geometry").toList = quote '"' "gis's".toList := by
      decide +kernel
    unfold SqlLexes
    rw [hschema]
    refine .quote (by decide) fun c hc => ?_
    cases hc
  refine extentQuery_lexes (by decide +kernel) hns fun t ht => Or.inr ?_
  revert t
  decide +kernel

end TableRange
