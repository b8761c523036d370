import PgMux.Router

/-!
# The string classifier

`Classify` with the text functions it calls. The scanners of the source run over the bytes with an
index; here the index is the text that is left, and its jumps are modes.
-/

namespace PgMux.Classifier

open DollarTag GoStrings Router

def contains (sub text : Bytes) : Bool := (index sub text).isSome

/-! ## String literals -/

inductive QuoteMode where
  | code | single | singlePair | double
  | skip (k : Nat)
  deriving DecidableEq, Repr

def stripFrom : QuoteMode → Bytes → Bytes
  | _, [] => []
  | .code, c :: w =>
    match parseDollarTag (c :: w) with
    | some tag =>
      -- an unterminated text is dropped and closed as well
      tag ++ tag ++
        match index tag (w.drop (tag.length - 1)) with
        | some k => stripFrom (.skip (2 * tag.length + k - 2)) w
        | none => []
    | none => c :: stripFrom (if c = quote then .single else if c = dquote then .double
        else .code) w
  | .single, c :: w =>
    if c = quote then c :: stripFrom (if w.head? = some quote then .singlePair else .code) w
    else stripFrom .single w
  | .singlePair, c :: w => c :: stripFrom .single w
  | .double, c :: w => if c = dquote then c :: stripFrom .code w else stripFrom .double w
  | .skip 0, _ :: w => stripFrom .code w
  | .skip (k + 1), _ :: w => stripFrom (.skip k) w

def stripStringLiterals (query : Bytes) : Bytes := stripFrom .code query

@[simp] theorem stripFrom_nil (m : QuoteMode) : stripFrom m [] = [] := by cases m <;> rfl

theorem stripFrom_skip (k : Nat) (w : Bytes) :
    stripFrom (.skip k) w = stripFrom .code (w.drop (k + 1)) := by
  induction k generalizing w with
  | zero => cases w <;> rfl
  | succ k ih =>
    cases w with
    | nil => rfl
    | cons c w => exact ih w

/-! ## Comments and hints -/

inductive CommentMode where
  | code | line
  | block (depth : Nat)
  | blockPair (depth : Nat)
  deriving DecidableEq, Repr

def stripCommentsFrom : CommentMode → Bytes → Bytes
  | _, [] => []
  | .code, c :: w =>
    if c = slash ∧ w.head? = some star then stripCommentsFrom (.blockPair 1) w
    else if c = minus ∧ w.head? = some minus then stripCommentsFrom .line w
    else c :: stripCommentsFrom .code w
  | .line, c :: w => if c = lineFeed then c :: stripCommentsFrom .code w
      else stripCommentsFrom .line w
  | .block d, c :: w =>
    if c = slash ∧ w.head? = some star then stripCommentsFrom (.blockPair (d + 1)) w
    else if c = star ∧ w.head? = some slash then stripCommentsFrom (.blockPair (d - 1)) w
    else stripCommentsFrom (.block d) w
  | .blockPair d, _ :: w => stripCommentsFrom (if d = 0 then .code else .block d) w

def stripComments (query : Bytes) : Bytes := stripCommentsFrom .code query

def blockComments : Nat → Bool → Bytes → Bytes → List Bytes
  | 0, _, _, [] => []
  | _ + 1, _, cur, [] => [cur]
  | d, true, cur, c :: w =>
    if d = 0 then (cur ++ [c]) :: blockComments 0 false [] w
      else blockComments d false (cur ++ [c]) w
  | 0, false, _, c :: w =>
    if c = slash ∧ w.head? = some star then blockComments 1 true [c] w
      else blockComments 0 false [] w
  | d + 1, false, cur, c :: w =>
    if c = slash ∧ w.head? = some star then blockComments (d + 2) true (cur ++ [c]) w
    else if c = star ∧ w.head? = some slash then blockComments d true (cur ++ [c]) w
    else blockComments (d + 1) false (cur ++ [c]) w

def isRegexSpace (c : Byte) : Bool :=
  c == blank || c == tab || c == lineFeed || c == formFeed || c == carriageReturn

def after (lead text : Bytes) : Option Bytes :=
  if lead.isPrefixOf text then some (text.drop lead.length) else none

def hintAt (text : Bytes) : Option Route := do
  let rest ← after (ascii "/*") text
  let rest ← after (ascii "route:") (rest.dropWhile isRegexSpace)
  let (route, rest) ← ((after (ascii "writer") rest).map (Route.writer, ·)).orElse fun _ =>
    (after (ascii "reader") rest).map (Route.reader, ·)
  let _ ← after (ascii "*/") (rest.dropWhile isRegexSpace)
  return route

def findHint : Bytes → Option Route
  | [] => none
  | c :: w => (hintAt (c :: w)).orElse fun _ => findHint w

def countOpenings : Bytes → Nat
  | [] => 0
  | c :: w => (if c = slash ∧ w.head? = some star then 1 else 0) + countOpenings w

def commentHint (comment : Bytes) : Option Route :=
  if !contains (ascii "/* ") comment || countOpenings comment == 1 then findHint comment else none

def extractHint (query : Bytes) : Option Route :=
  ((blockComments 0 false [] (stripStringLiterals query)).filterMap commentHint).head?

/-! ## Keywords -/

def writeKeywords : List Bytes :=
  ["INSERT", "UPDATE", "DELETE", "CREATE", "ALTER", "DROP", "TRUNCATE", "GRANT", "REVOKE"].map ascii

def firstField : Bytes → Bytes
  | [] => []
  | c :: w => if leadingSpace (c :: w) = 0 then c :: firstField w else []

def firstKeyword (upperRune : Nat → Nat) (query : Bytes) : Bytes :=
  toUpper upperRune (firstField (trimSpace (stripComments query)))

def isEdge (c : Byte) : Bool := c == blank || c == 40 || c == lineFeed

def containsKeyword (keyword : Bytes) : Option Byte → Bytes → Bool
  | _, [] => false
  | prev, c :: w =>
    (keyword.isPrefixOf (c :: w) && prev.all isEdge &&
      ((c :: w).drop keyword.length).head?.all isEdge) || containsKeyword keyword (some c) w

def containsWriteKeyword (upperRune : Nat → Nat) (query : Bytes) : Bool :=
  let upper := toUpper upperRune (stripStringLiterals query)
  writeKeywords.any fun keyword => containsKeyword keyword none upper

/-- The fast path for a single statement without comments. -/
def classifyFast (upperRune : Nat → Nat) (query : Bytes) : Option QueryType :=
  let rest := query.dropWhile isSpace
  if rest = [] then some .read
  else if contains (ascii "/*") query || contains (ascii "--") query then none
  else if !isSingleStatement query then none
  else
    let word := rest.takeWhile fun c => !(c == blank || c == tab || c == lineFeed || c == 40)
    if word = [] then some .read
    else
      let kw := toUpper upperRune word
      if kw ∈ writeKeywords then some .write
      else if kw = ascii "WITH" then none
      else some .read

def isWriteStatement (upperRune : Nat → Nat) (stmt : Bytes) : Bool :=
  let keyword := firstKeyword upperRune stmt
  keyword ∈ writeKeywords || (keyword == ascii "WITH" && containsWriteKeyword upperRune stmt)

def classify (upperRune : Nat → Nat) (query : Bytes) : QueryType :=
  match classifyFast upperRune query with
  | some qt => qt
  | none =>
    match extractHint query with
    | some .writer => .write
    | some .reader => .read
    | none => if (splitStatements query).any (isWriteStatement upperRune) then .write else .read

def stringEnv (upperRune : Nat → Nat) (classifyAST : Bytes → QueryType) : Router.Env where
  upperRune := upperRune
  classify := classify upperRune
  classifyAST := classifyAST

end PgMux.Classifier
