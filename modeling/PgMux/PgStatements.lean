import PgMux.PgLexer

/-!
# Transaction control in a query, as PostgreSQL reads it

The statements of a query are its token runs between top-level semicolons. What a statement that
succeeds does to the transaction state is read off its first words.
-/

namespace PgMux.PgStatements

open PgLexer

def isWord (word : String) : Tok → Bool
  | .ident text => text.map upperByte == ascii word
  | _ => false

def isRoutine : List Tok → Bool
  | a :: b :: rest =>
    isWord "CREATE" a &&
      (isWord "FUNCTION" b || isWord "PROCEDURE" b ||
        (isWord "OR" b &&
          match rest with
          | c :: d :: _ => isWord "REPLACE" c && (isWord "FUNCTION" d || isWord "PROCEDURE" d)
          | _ => false))
  | _ => false

structure Splitting where
  done : List (List Tok)
  cur : List Tok
  paren : Nat
  body : Nat

def bodyDepth (s : Splitting) (t : Tok) : Nat :=
  if isWord "ATOMIC" t && s.cur.getLast?.any (isWord "BEGIN") && isRoutine s.cur then s.body + 1
  else if isWord "CASE" t && 0 < s.body then s.body + 1
  else if isWord "END" t then s.body - 1
  else s.body

def Splitting.step (s : Splitting) (t : Tok) : Splitting :=
  if t = .self semicolon ∧ s.paren = 0 ∧ s.body = 0 then ⟨s.done ++ [s.cur], [], 0, 0⟩
  else
    { s with
      cur := s.cur ++ [t]
      paren := if t = .self 40 then s.paren + 1 else if t = .self 41 then s.paren - 1 else s.paren
      body := bodyDepth s t }

def topStatements (ts : List Tok) : List (List Tok) :=
  let s := ts.foldl Splitting.step ⟨[], [], 0, 0⟩
  s.done ++ [s.cur]

def staysOpen (rollback : Bool) (rest : List Tok) : Bool :=
  let rest := match rest with
    | t :: rest' => if isWord "WORK" t || isWord "TRANSACTION" t then rest' else rest
    | [] => []
  match rest with
  | a :: rest' => (isWord "AND" a && rest'.head?.any (isWord "CHAIN")) ||
      (rollback && isWord "TO" a)
  | [] => false

/-- The transaction state behind a successful statement, by its first words. COMMIT PREPARED and
ROLLBACK PREPARED are not told apart from COMMIT and ROLLBACK. -/
def txEffect : List Tok → Option Bool
  | [] => none
  | t :: rest =>
    if isWord "BEGIN" t then some true
    else if isWord "START" t && rest.head?.any (isWord "TRANSACTION") then some true
    else if isWord "COMMIT" t || isWord "END" t || isWord "ABORT" t || isWord "ROLLBACK" t then
      if staysOpen (isWord "ROLLBACK" t) rest then none else some false
    else if isWord "PREPARE" t && rest.head?.any (isWord "TRANSACTION") then some false
    else none

def trackStatements (inTx : Bool) (stmts : List (List Tok)) : Bool :=
  stmts.foldl (fun b ts => (txEffect ts).getD b) inTx

def trackQuery (inTx : Bool) (query : Bytes) : Bool :=
  trackStatements inTx (topStatements (lex query))

def splitSemicolons : List Tok → List (List Tok)
  | [] => [[]]
  | t :: ts =>
    if t = .self semicolon then [] :: splitSemicolons ts
    else
      match splitSemicolons ts with
      | [] => [[t]]
      | cur :: rest => (t :: cur) :: rest

end PgMux.PgStatements
