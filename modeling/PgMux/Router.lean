import PgMux.DollarTag
import PgMux.GoStrings

/-!
# Session routing

The split of a query into statements, the fast path for single statements, and the routing functions
of `Session`. The classifiers and the letter table are parameters of the environment.
-/

namespace PgMux.Router

open DollarTag GoStrings

inductive Route where
  | writer | reader
  deriving DecidableEq, Repr

inductive QueryType where
  | read | write
  deriving DecidableEq, Repr

inductive Mode where
  | code | single | singlePair | double | line
  | block (depth : Nat)
  | blockPair (depth : Nat)
  | copy (k : Nat)
  deriving DecidableEq, Repr

def nextMode : Mode → Byte → Bytes → Mode
  | .code, c, w =>
    match parseDollarTag (c :: w) with
    | some tag =>
      match index tag (w.drop (tag.length - 1)) with
      | some k => .copy (2 * tag.length + k - 2)
      -- without a closing tag the rest of the query is copied
      | none => .copy w.length
    | none =>
      if c = minus ∧ w.head? = some minus then .line
      else if c = slash ∧ w.head? = some star then .blockPair 1
      else if c = quote then .single
      else if c = dquote then .double
      else .code
  | .single, c, w =>
    if c = quote then (if w.head? = some quote then .singlePair else .code) else .single
  | .singlePair, _, _ => .single
  | .double, c, _ => if c = dquote then .code else .double
  | .line, c, _ => if c = lineFeed then .code else .line
  | .block d, c, w =>
    if c = slash ∧ w.head? = some star then .blockPair (d + 1)
    else if c = star ∧ w.head? = some slash then .blockPair (d - 1)
    else .block d
  | .blockPair d, _, _ => if d = 0 then .code else .block d
  | .copy k, _, _ => if k = 0 then .code else .copy (k - 1)

def splitFrom : Mode → Bytes → Bytes → List Bytes
  | _, cur, [] => [cur]
  | m, cur, c :: w =>
    if m = .code ∧ c = semicolon then cur :: splitFrom .code [] w
    else splitFrom (nextMode m c w) (cur ++ [c]) w

/-- The statements of a query, trimmed, without the empty ones. -/
def splitStatements (query : Bytes) : List Bytes :=
  ((splitFrom .code [] query).map trimSpace).filter (· ≠ [])

def isSpace (c : Byte) : Bool := c == blank || c == tab || c == lineFeed || c == carriageReturn

def eqFoldN (s target : Bytes) : Bool :=
  target.length ≤ s.length && (s.zip target).all fun (a, b) => a ||| 0x20 == b ||| 0x20

inductive TxPrefix where
  | other | start | finish
  deriving DecidableEq, Repr

def keywordAt (keyword rest : Bytes) : Bool :=
  eqFoldN rest keyword && (rest.drop keyword.length).head?.all fun c => isSpace c || c == semicolon

def hasTxPrefix (query : Bytes) : TxPrefix :=
  let rest := query.dropWhile isSpace
  match rest.head?.map fun c => c ||| (0x20 : Byte) with
  | some 98 => if keywordAt (ascii "BEGIN") rest then .start else .other
  | some 115 => if keywordAt (ascii "START TRANSACTION") rest then .start else .other
  | some 99 => if keywordAt (ascii "COMMIT") rest then .finish else .other
  | some 114 => if keywordAt (ascii "ROLLBACK") rest then .finish else .other
  | some 101 => if keywordAt (ascii "END") rest then .finish else .other
  | _ => .other

def isSingleStatement (query : Bytes) : Bool :=
  match indexByte semicolon query with
  | none => true
  | some idx => trimSpace (query.drop (idx + 1)) = []

structure Env where
  upperRune : Nat → Nat
  classify : Bytes → QueryType
  classifyAST : Bytes → QueryType

structure Session where
  inTransaction : Bool
  lastWriteTime : Option Int
  readAfterWriteDelay : Int
  causalConsistency : Bool
  lastWriteLSN : Nat
  astParser : Bool
  stmtRoutes : Bytes → Option Route

namespace Session

def new (readAfterWriteDelay : Int) (causalConsistency astParser : Bool) : Session where
  inTransaction := false
  lastWriteTime := none
  readAfterWriteDelay := readAfterWriteDelay
  causalConsistency := causalConsistency
  lastWriteLSN := 0
  astParser := astParser
  stmtRoutes := fun _ => none

def setInTransaction (s : Session) (v : Bool) : Session := { s with inTransaction := v }

def setLastWriteLSN (s : Session) (lsn : Nat) : Session := { s with lastWriteLSN := lsn }

end Session

variable (env : Env)

def upperTrimmed (text : Bytes) : Bytes := toUpper env.upperRune (trimSpace text)

def startsTx (upper : Bytes) : Bool :=
  (ascii "BEGIN").isPrefixOf upper || (ascii "START TRANSACTION").isPrefixOf upper

def endsTx (upper : Bytes) : Bool :=
  (ascii "COMMIT").isPrefixOf upper || (ascii "ROLLBACK").isPrefixOf upper ||
    (ascii "END").isPrefixOf upper

def trackStatement (inTransaction : Bool) (stmt : Bytes) : Bool :=
  let upper := upperTrimmed env stmt
  let inTransaction := if startsTx upper then true else inTransaction
  if endsTx upper then false else inTransaction

def updateTransactionState (s : Session) (query : Bytes) : Session :=
  s.setInTransaction ((splitStatements query).foldl (trackStatement env) s.inTransaction)

def containsTransactionKeyword (query : Bytes) : Bool :=
  (splitStatements query).any fun stmt =>
    startsTx (upperTrimmed env stmt) || endsTx (upperTrimmed env stmt)

def queryType (s : Session) (query : Bytes) : QueryType :=
  if s.astParser then env.classifyAST query else env.classify query

def recentWrite (s : Session) (now : Int) : Bool :=
  match s.lastWriteTime with
  | none => false
  | some t => 0 < s.readAfterWriteDelay && now - t < s.readAfterWriteDelay

def routeByType (s : Session) (now : Int) (query : Bytes) : Route × Session :=
  match queryType env s query with
  | .write => (.writer, if s.causalConsistency then s else { s with lastWriteTime := some now })
  | .read =>
    if s.causalConsistency then (.reader, s)
    else if recentWrite s now then (.writer, s)
    else (.reader, s)

def routeQueryLocked (s : Session) (now : Int) (query : Bytes) : Route × Session :=
  if isSingleStatement query then
    match hasTxPrefix query with
    | .start => (.writer, s.setInTransaction true)
    | .finish => (.writer, s.setInTransaction false)
    | .other => if s.inTransaction then (.writer, s) else routeByType env s now query
  else
    let s' := updateTransactionState env s query
    if s.inTransaction || s'.inTransaction then (.writer, s')
    else if containsTransactionKeyword env query then (.writer, s')
    else routeByType env s' now query

structure RoutedTx where
  route : Route
  wasInTx : Bool
  nowInTx : Bool
  deriving DecidableEq, Repr

def routeWithTxState (s : Session) (now : Int) (query : Bytes) : RoutedTx × Session :=
  let r := routeQueryLocked env s now query
  (⟨r.1, s.inTransaction, r.2.inTransaction⟩, r.2)

theorem inTransaction_of_reader {s : Session} {now : Int} {query : Bytes}
    (h : (routeQueryLocked env s now query).1 = .reader) :
    s.inTransaction = false ∧ (routeQueryLocked env s now query).2.inTransaction = false := by
  have htype : ∀ s' : Session,
      (routeByType env s' now query).2.inTransaction = s'.inTransaction := by
    intro s'
    unfold routeByType
    split
    · split
      · rfl
      · rfl
    · split
      · rfl
      · split
        · rfl
        · rfl
  unfold routeQueryLocked at h ⊢
  cases hsingle : isSingleStatement query with
  | true =>
    simp only [hsingle, ↓reduceIte] at h ⊢
    cases htx : hasTxPrefix query with
    | start | finish => simp [htx] at h
    | other =>
      cases hin : s.inTransaction with
      | true => simp [htx, hin] at h
      | false => simp [htype, hin]
  | false =>
    simp only [hsingle, Bool.false_eq_true, ↓reduceIte] at h ⊢
    cases hin : s.inTransaction || (updateTransactionState env s query).inTransaction with
    | true => simp [hin] at h
    | false =>
      cases hkey : containsTransactionKeyword env query with
      | true => simp [hin, hkey] at h
      | false =>
        have hboth := Bool.or_eq_false_iff.mp hin
        simp [hboth.1, hboth.2, htype]

def routeLocked (s : Session) (now : Int) (query : Bytes) : Route :=
  let upper := upperTrimmed env query
  if startsTx upper || (ascii "COMMIT").isPrefixOf upper || (ascii "ROLLBACK").isPrefixOf upper then
    .writer
  else if s.inTransaction then .writer
  else
    match queryType env s query with
    | .write => .writer
    | .read =>
      if s.causalConsistency then .reader else if recentWrite s now then .writer else .reader

def registerStatement (s : Session) (now : Int) (name query : Bytes) : Route × Session :=
  let route := routeLocked env s now query
  (route, { s with stmtRoutes := Function.update s.stmtRoutes name (some route) })

namespace Session

def statementRoute (s : Session) (name : Bytes) : Route := (s.stmtRoutes name).getD .writer

def closeStatement (s : Session) (name : Bytes) : Session :=
  { s with stmtRoutes := Function.update s.stmtRoutes name none }

end Session

end PgMux.Router
