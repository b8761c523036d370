import PgMux.Classifier
import PgMux.Indexing

/-!
# Table names of the string parser

`ExtractReadTables` and `ExtractTables` search the upper-cased text and cut the original one at the
positions found there; a cut behind its end panics, which is `none` here.
-/

namespace PgMux.TableNames

open Classifier GoStrings Router
open Indexing (sliceFrom)

/-! ## Names -/

inductive NameMode where
  | start | plain | quoted | quotedPair | closed
  deriving DecidableEq, Repr

def endsName (c : Byte) : Bool :=
  c == blank || c == tab || c == lineFeed || c == 40 || c == semicolon || c == 44 || c == dquote

def identifierFrom : NameMode → Bytes → Bytes
  | _, [] => []
  | .start, c :: w =>
    if c = dquote then c :: identifierFrom .quoted w
    else if c = dot then c :: identifierFrom .start w
    else if endsName c then []
    else c :: identifierFrom .plain w
  | .plain, c :: w =>
    if c = dot then c :: identifierFrom .start w
    else if endsName c then []
    else c :: identifierFrom .plain w
  | .quoted, c :: w =>
    if c = dquote then c :: identifierFrom (if w.head? = some dquote then .quotedPair
      else .closed) w
    else c :: identifierFrom .quoted w
  | .quotedPair, c :: w => c :: identifierFrom .quoted w
  | .closed, c :: w => if c = dot then c :: identifierFrom .start w else []

def extractIdentifier (s : Bytes) : Bytes := identifierFrom .start s

def unpair : Bytes → Bytes
  | c :: d :: w => if c = dquote ∧ d = dquote then dquote :: unpair w else c :: unpair (d :: w)
  | w => w

def stripQuotes (s : Bytes) : Bytes :=
  if 2 ≤ s.length ∧ s.head? = some dquote ∧ s.getLast? = some dquote then unpair (s.drop 1).dropLast
    else s

def lastPart (name : Bytes) : Bytes := (name.reverse.takeWhile (· ≠ dot)).reverse

def tableName (lowerRune : Nat → Nat) (rest : Bytes) : Bytes :=
  toLower lowerRune (stripQuotes (lastPart (extractIdentifier rest)))

def addTable (tables : List Bytes) (t : Bytes) : List Bytes :=
  if t ≠ [] ∧ t ∉ tables then tables ++ [t] else tables

section

variable (upperRune lowerRune : Nat → Nat)

def inEach (l : List Bytes) (find : Bytes → Option (List Bytes)) : Option (List Bytes) :=
  (l.mapM find).map List.flatten

def tablesOf (fromStmt : Bytes → Option (List Bytes)) (query : Bytes) : Option (List Bytes) :=
  (inEach (splitStatements query) fromStmt).map (List.foldl addTable [])

/-! ## Reads -/

def opensWord (c : Byte) : Bool := c == blank || c == lineFeed || c == tab || c == 40 || c == 44

def closesWord (c : Byte) : Bool := c == blank || c == lineFeed || c == tab || c == 40

def skippedNames : List Bytes := ["SELECT", "LATERAL", "UNNEST", "GENERATE_SERIES"].map ascii

def readName (rest : Bytes) : Option Bytes :=
  if rest.head? = some 40 ∨ extractIdentifier rest = [] then none
  else
    let t := tableName lowerRune rest
    if toUpper upperRune t ∈ skippedNames then none else some t

def namesBehind (kw sanitized : Bytes) : Option Byte → Nat → Bytes → Option (List Bytes)
  | _, _, [] => some []
  | prev, pos, c :: w =>
    if kw.isPrefixOf (c :: w) && prev.all opensWord &&
      ((c :: w).drop kw.length).head?.all closesWord then
      match (sliceFrom sanitized (pos + kw.length)).toOption with
      | none => none
      | some text =>
        -- a keyword at the end ends the search
        if trimSpace text = [] then some []
        else do
          let tables ← namesBehind kw sanitized (some c) (pos + 1) w
          return (readName upperRune lowerRune (trimSpace text)).toList ++ tables
    else namesBehind kw sanitized (some c) (pos + 1) w

def readKeywords : List Bytes := ["FROM", "JOIN"].map ascii

def extractReadTablesFromStmt (stmt : Bytes) : Option (List Bytes) :=
  let q := trimSpace stmt
  let upper := toUpper upperRune q
  if (ascii "SELECT").isPrefixOf upper || (ascii "WITH").isPrefixOf upper then
    let sanitized := stripStringLiterals q
    let upperSanitized := toUpper upperRune sanitized
    inEach readKeywords fun kw => namesBehind upperRune lowerRune kw sanitized none 0 upperSanitized
  else some []

def extractReadTables : Bytes → Option (List Bytes) :=
  tablesOf (extractReadTablesFromStmt upperRune lowerRune)

/-! ## Writes -/

def writeName (text : Bytes) : Bytes :=
  let rest := trimSpace text
  if (ascii "TABLE ").isPrefixOf (toUpper upperRune rest) then
    tableName lowerRune (trimSpace (rest.drop 6))
  else tableName lowerRune rest

def extractAfter (query keyword : Bytes) : Option Bytes :=
  (sliceFrom query keyword.length).toOption.map (writeName upperRune lowerRune)

def namesAfter (keyword sanitized : Bytes) : Nat → Bytes → Option (List Bytes)
  | _, [] => some []
  | pos, c :: w =>
    if keyword.isPrefixOf (c :: w) then do
      let t ← extractAfter upperRune lowerRune (← (sliceFrom sanitized pos).toOption) keyword
      let tables ← namesAfter keyword sanitized (pos + 1) w
      return if t = [] then tables else t :: tables
    else namesAfter keyword sanitized (pos + 1) w

def cteKeywords : List Bytes := ["INSERT INTO", "UPDATE", "DELETE FROM"].map ascii

def extractCTETables (query : Bytes) : Option (List Bytes) :=
  let sanitized := stripStringLiterals query
  let upper := toUpper upperRune sanitized
  inEach cteKeywords fun keyword => namesAfter upperRune lowerRune keyword sanitized 0 upper

def extractTablesFromStmt (stmt : Bytes) : Option (List Bytes) :=
  let q := trimSpace stmt
  let upper := toUpper upperRune q
  let after (keyword : Bytes) : Option (List Bytes) :=
    (extractAfter upperRune lowerRune q keyword).map ([·])
  if (ascii "INSERT INTO").isPrefixOf upper then after (ascii "INSERT INTO")
  else if (ascii "UPDATE").isPrefixOf upper then after (ascii "UPDATE")
  else if (ascii "DELETE FROM").isPrefixOf upper then after (ascii "DELETE FROM")
  else if (ascii "TRUNCATE").isPrefixOf upper then after (ascii "TRUNCATE")
  else if (ascii "WITH").isPrefixOf upper then extractCTETables upperRune lowerRune q
  else some []

def extractTables : Bytes → Option (List Bytes) :=
  tablesOf (extractTablesFromStmt upperRune lowerRune)

end

end PgMux.TableNames
