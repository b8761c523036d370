import PgMux.Bytes

/-!
# Parse trees

The part of the pg_query tree type the router looks into. A path names the clauses that lead from a
statement to one nested in it.
-/

namespace PgMux.PgQuery

structure RangeVar where
  relname : Bytes
  deriving DecidableEq, Repr

inductive Node where
  | selectStmt (ctes : List Node)
  | insertStmt (relation : Option RangeVar) (ctes : List Node)
  | updateStmt (relation : Option RangeVar) (whereClause : Option Node) (ctes : List Node)
  | deleteStmt (relation : Option RangeVar) (whereClause : Option Node) (ctes : List Node)
  | dropStmt
  | truncateStmt
  | explainStmt (query : Option Node)
  | commonTableExpr (ctequery : Option Node)
  | other

structure ParseResult where
  stmts : List (Option Node)

inductive Edge where
  | selectWith | writeWith | explain
  deriving DecidableEq, Repr

inductive Child : Edge → Node → Node → Prop where
  | select {ctes : List Node} {q : Node} (h : .commonTableExpr (some q) ∈ ctes) :
      Child .selectWith (.selectStmt ctes) q
  | insert {relation : Option RangeVar} {ctes : List Node} {q : Node}
      (h : .commonTableExpr (some q) ∈ ctes) : Child .writeWith (.insertStmt relation ctes) q
  | update {relation : Option RangeVar} {whereClause : Option Node} {ctes : List Node} {q : Node}
      (h : .commonTableExpr (some q) ∈ ctes) :
      Child .writeWith (.updateStmt relation whereClause ctes) q
  | delete {relation : Option RangeVar} {whereClause : Option Node} {ctes : List Node} {q : Node}
      (h : .commonTableExpr (some q) ∈ ctes) :
      Child .writeWith (.deleteStmt relation whereClause ctes) q
  | explain {q : Node} : Child .explain (.explainStmt (some q)) q

/-- The clauses that lead to a nested statement. -/
inductive Path : List Edge → Node → Node → Prop where
  | here (n : Node) : Path [] n n
  | step {e : Edge} {es : List Edge} {n q m : Node} (hc : Child e n q) (hp : Path es q m) :
      Path (e :: es) n m

end PgMux.PgQuery
