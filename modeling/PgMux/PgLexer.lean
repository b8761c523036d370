import PgMux.Bytes
import PgMux.Transducer

/-!
# The lexical rules of PostgreSQL

A transducer for the token rules of the PostgreSQL 16 server with `standard_conforming_strings` on.
A state is the lexeme read so far; the look-ahead the server needs is the letter that moves on to
the next one. Escapes are kept as written and name truncation is left out, since neither moves a
token boundary.
-/

namespace PgMux.PgLexer

inductive StrKind where
  | plain | escape | bit | hex | unicode | dollar
  deriving DecidableEq, Repr

inductive Tok where
  | ident (text : Bytes)
  | quotedIdent (uni : Bool) (text : Bytes)
  | str (kind : StrKind) (text : Bytes)
  | nchar
  | param (digits : Bytes)
  | integer (text : Bytes)
  | number (text : Bytes)
  | op (text : Bytes)
  | typecast
  | dotDot
  | colonEquals
  | self (c : Byte)
  | error
  deriving DecidableEq, Repr

inductive Radix where
  | hex | oct | bin
  deriving DecidableEq, Repr

inductive Last where
  | digit | separator | mark
  deriving DecidableEq, Repr

inductive State where
  | start
  | ident (acc : Bytes)
  | uAmp (acc : Bytes)
  | quotedIdent (uni : Bool) (acc : Bytes)
  | quotedIdentQuote (uni : Bool) (acc : Bytes)
  | str (kind : StrKind) (acc : Bytes)
  | strBackslash (acc : Bytes)
  | strQuote (kind : StrKind) (acc : Bytes)
  | strGap (kind : StrKind) (acc : Bytes) (newline : Bool)
  | strGapDash (kind : StrKind) (acc : Bytes)
  | strGapComment (kind : StrKind) (acc : Bytes)
  | dollar
  | dollarTag (acc : Bytes)
  | dollarBody (tag acc : Bytes) (pending : Option Bytes)
  | param (digits : Bytes)
  | integer (acc : Bytes) (last : Last)
  | radix (r : Radix) (acc : Bytes) (last : Last)
  | numDot (acc : Bytes)
  | frac (acc : Bytes) (last : Last)
  | expStart (acc : Bytes)
  | expSign (acc : Bytes)
  | exp (signed : Bool) (acc : Bytes) (last : Last)
  | dot
  | colon
  | op (acc : Bytes)
  | lineComment
  | blockComment (depth : Nat) (last : Byte)
  | error
  deriving DecidableEq, Repr

def isNewline (c : Byte) : Bool := c == lineFeed || c == carriageReturn

def isSpace (c : Byte) : Bool := c == blank || (9 ≤ c && c ≤ 13)

def isIdentStart (c : Byte) : Bool := isLetter c || isHighBit c || c == underscore

def isTagChar (c : Byte) : Bool := isIdentStart c || isDigit c

def isIdentCont (c : Byte) : Bool := isTagChar c || c == dollar

def isSpecialOp (c : Byte) : Bool :=
  c == 126 || c == 33 || c == 64 || c == 35 || c == 94 || c == 38 || c == 124 || c == 96 ||
    c == 63 || c == 37

def isSign (c : Byte) : Bool := c == plus || c == minus

theorem of_isSign {c : Byte} (h : isSign c) : c = plus ∨ c = minus := by
  simpa [isSign] using h

def isOpChar (c : Byte) : Bool :=
  isSpecialOp c || isSign c || c == star || c == slash || c == 60 || c == 62 || c == equals

def isRadixDigit : Radix → Byte → Bool
  | .hex, c => isDigit c || (65 ≤ c && c ≤ 70) || (97 ≤ c && c ≤ 102)
  | .oct, c => 48 ≤ c && c ≤ 55
  | .bin, c => c == 48 || c == 49

def radixMark (c : Byte) : Option Radix :=
  if c == 120 || c == 88 then some .hex
  else if c == 111 || c == 79 then some .oct
  else if c == 98 || c == 66 then some .bin
  else none

def isExponentMark (c : Byte) : Bool := c == 101 || c == 69

def doublesQuote : StrKind → Bool
  | .plain | .escape | .unicode => true
  | _ => false

def opTokens (run : Bytes) : List Tok :=
  if run.any isSpecialOp then [.op run]
  else
    let signs := (run.reverse.takeWhile isSign).reverse
    let body := (run.reverse.dropWhile isSign).reverse
    (if body = [] then [] else [.op body]) ++ signs.map fun c => .op [c]

def emit (ts : List Tok) (r : List Tok × State) : List Tok × State := (ts ++ r.1, r.2)

def fail : List Tok × State := ([.error], .error)

def first (c : Byte) : List Tok × State :=
  if isSpace c then ([], .start)
  else if isIdentStart c then ([], .ident [c])
  else if isDigit c then ([], .integer [c] .digit)
  else if c = quote then ([], .str .plain [])
  else if c = dquote then ([], .quotedIdent false [])
  else if c = PgMux.dollar then ([], .dollar)
  else if c = PgMux.dot then ([], .dot)
  else if c = PgMux.colon then ([], .colon)
  else if isOpChar c then ([], .op [c])
  else ([.self c], .start)

def identQuote (acc : Bytes) : List Tok × State :=
  if acc = [101] ∨ acc = [69] then ([], .str .escape [])
  else if acc = [98] ∨ acc = [66] then ([], .str .bit [])
  else if acc = [120] ∨ acc = [88] then ([], .str .hex [])
  else if acc = [110] ∨ acc = [78] then ([.nchar], .str .plain [])
  else ([.ident acc], .str .plain [])

def identStep (acc : Bytes) (c : Byte) : List Tok × State :=
  if isIdentCont c then ([], .ident (acc ++ [c]))
  else if c = quote then identQuote acc
  else if c = ampersand ∧ (acc = [117] ∨ acc = [85]) then ([], .uAmp acc)
  else emit [.ident acc] (first c)

def opStep (acc : Bytes) (c : Byte) : List Tok × State :=
  if c = minus ∧ acc.getLast? = some minus then (opTokens acc.dropLast, .lineComment)
  else if c = star ∧ acc.getLast? = some slash then (opTokens acc.dropLast, .blockComment 0 0)
  else if isOpChar c then ([], .op (acc ++ [c]))
  else emit (opTokens acc) (first c)

def gapStep (kind : StrKind) (acc : Bytes) (newline : Bool) (c : Byte) : List Tok × State :=
  if isNewline c then ([], .strGap kind acc true)
  else if isSpace c then ([], .strGap kind acc newline)
  else if c = minus then ([], .strGapDash kind acc)
  else if c = quote ∧ newline = true then ([], .str kind acc)
  else emit [.str kind acc] (first c)

def bodyStep (tag acc : Bytes) (pending : Option Bytes) (c : Byte) : List Tok × State :=
  match pending with
  | none => if c = PgMux.dollar then ([], .dollarBody tag acc (some [c]))
    else ([], .dollarBody tag (acc ++ [c]) none)
  | some p =>
    if c = PgMux.dollar then
      if p ++ [c] = tag then ([.str .dollar acc], .start)
      else ([], .dollarBody tag (acc ++ p) (some [c]))
    else if (if p.length = 1 then isIdentStart c else isTagChar c) then
      ([], .dollarBody tag acc (some (p ++ [c])))
    else ([], .dollarBody tag (acc ++ p ++ [c]) none)

def integerStep (acc : Bytes) (c : Byte) : List Tok × State :=
  if isDigit c then ([], .integer (acc ++ [c]) .digit)
  else if c = underscore then ([], .integer (acc ++ [c]) .separator)
  else if c = PgMux.dot then ([], .numDot acc)
  else if isExponentMark c then ([], .expStart (acc ++ [c]))
  else if isIdentStart c then
    match if acc = [48] then radixMark c else none with
    | some r => ([], .radix r (acc ++ [c]) .mark)
    | none => fail
  else emit [.integer acc] (first c)

def radixStep (r : Radix) (acc : Bytes) (last : Last) (c : Byte) : List Tok × State :=
  if isRadixDigit r c then ([], .radix r (acc ++ [c]) .digit)
  else if c = underscore ∧ last ≠ .separator then ([], .radix r (acc ++ [c]) .separator)
  else if isIdentCont c ∨ last ≠ .digit then fail
  else emit [.integer acc] (first c)

def numDotStep (acc : Bytes) (c : Byte) : List Tok × State :=
  if isDigit c then ([], .frac (acc ++ [PgMux.dot, c]) .digit)
  else if c = PgMux.dot then ([.integer acc, .dotDot], .start)
  else if isExponentMark c then ([], .expStart (acc ++ [PgMux.dot, c]))
  else if isIdentStart c then fail
  else emit [.number (acc ++ [PgMux.dot])] (first c)

def fracStep (acc : Bytes) (c : Byte) : List Tok × State :=
  if isDigit c then ([], .frac (acc ++ [c]) .digit)
  else if c = underscore then ([], .frac (acc ++ [c]) .separator)
  else if isExponentMark c then ([], .expStart (acc ++ [c]))
  else if isIdentStart c then fail
  else emit [.number acc] (first c)

def expStep (signed : Bool) (acc : Bytes) (c : Byte) : List Tok × State :=
  if isDigit c then ([], .exp signed (acc ++ [c]) .digit)
  else if c = underscore then ([], .exp signed (acc ++ [c]) .separator)
  else if isIdentStart c ∨ (c = PgMux.dollar ∧ signed = false) then fail
  else emit [.number acc] (first c)

def commentStep (depth : Nat) (last c : Byte) : List Tok × State :=
  if c = slash ∧ last = star then
    match depth with
    | 0 => ([], .start)
    | d + 1 => ([], .blockComment d 0)
  else if c = star ∧ last = slash then ([], .blockComment (depth + 1) 0)
  else ([], .blockComment depth c)

/-- The finished tokens and the state behind a letter. -/
def step : State → Byte → List Tok × State
  | .start, c => first c
  | .ident acc, c => identStep acc c
  | .uAmp acc, c =>
    if c = quote then ([], .str .unicode [])
    else if c = dquote then ([], .quotedIdent true [])
    else emit [.ident acc] (opStep [ampersand] c)
  | .quotedIdent uni acc, c =>
    if c = dquote then ([], .quotedIdentQuote uni acc) else ([], .quotedIdent uni (acc ++ [c]))
  | .quotedIdentQuote uni acc, c =>
    if c = dquote then ([], .quotedIdent uni (acc ++ [c]))
    else if acc = [] then fail
    else emit [.quotedIdent uni acc] (first c)
  | .str kind acc, c =>
    if c = quote then ([], .strQuote kind acc)
    else if c = backslash ∧ kind = .escape then ([], .strBackslash acc)
    else ([], .str kind (acc ++ [c]))
  | .strBackslash acc, c => ([], .str .escape (acc ++ [backslash, c]))
  | .strQuote kind acc, c =>
    if c = quote ∧ doublesQuote kind = true then ([], .str kind (acc ++ [c]))
    else gapStep kind acc false c
  | .strGap kind acc newline, c => gapStep kind acc newline c
  | .strGapDash kind acc, c =>
    if c = minus then ([], .strGapComment kind acc)
    else emit [.str kind acc] (opStep [minus] c)
  | .strGapComment kind acc, c =>
    if isNewline c then ([], .strGap kind acc true) else ([], .strGapComment kind acc)
  | .dollar, c =>
    if isDigit c then ([], .param [c])
    else if c = PgMux.dollar then ([], .dollarBody [c, c] [] none)
    else if isIdentStart c then ([], .dollarTag [c])
    else emit [.self PgMux.dollar] (first c)
  | .dollarTag acc, c =>
    if isTagChar c then ([], .dollarTag (acc ++ [c]))
    else if c = PgMux.dollar then ([], .dollarBody (PgMux.dollar :: acc ++ [c]) [] none)
    else emit [.self PgMux.dollar] (identStep acc c)
  | .dollarBody tag acc pending, c => bodyStep tag acc pending c
  | .param ds, c =>
    if isDigit c then ([], .param (ds ++ [c]))
    else if isIdentStart c then fail
    else emit [.param ds] (first c)
  | .integer acc .digit, c => integerStep acc c
  | .integer acc _, c => if isDigit c then ([], .integer (acc ++ [c]) .digit) else fail
  | .radix r acc last, c => radixStep r acc last c
  | .numDot acc, c => numDotStep acc c
  | .frac acc .digit, c => fracStep acc c
  | .frac acc _, c => if isDigit c then ([], .frac (acc ++ [c]) .digit) else fail
  | .expStart acc, c =>
    if isDigit c then ([], .exp false (acc ++ [c]) .digit)
    else if isSign c then ([], .expSign (acc ++ [c]))
    else fail
  | .expSign acc, c => if isDigit c then ([], .exp true (acc ++ [c]) .digit) else fail
  | .exp signed acc .digit, c => expStep signed acc c
  | .exp signed acc _, c => if isDigit c then ([], .exp signed (acc ++ [c]) .digit) else fail
  | .dot, c =>
    if isDigit c then ([], .frac [PgMux.dot, c] .digit)
    else if c = PgMux.dot then ([.dotDot], .start)
    else emit [.self PgMux.dot] (first c)
  | .colon, c =>
    if c = PgMux.colon then ([.typecast], .start)
    else if c = equals then ([.colonEquals], .start)
    else emit [.self PgMux.colon] (first c)
  | .op acc, c => opStep acc c
  | .lineComment, c => if isNewline c then ([], .start) else ([], .lineComment)
  | .blockComment depth last, c => commentStep depth last c
  | .error, _ => ([], .error)

def finish : State → List Tok
  | .start | .lineComment | .error => []
  | .ident acc => [.ident acc]
  | .uAmp acc => [.ident acc, .op [ampersand]]
  | .quotedIdentQuote uni acc => if acc = [] then [.error] else [.quotedIdent uni acc]
  | .strQuote kind acc | .strGap kind acc _ | .strGapComment kind acc => [.str kind acc]
  | .strGapDash kind acc => [.str kind acc, .op [minus]]
  | .dollar => [.self PgMux.dollar]
  | .dollarTag acc => [.self PgMux.dollar, .ident acc]
  | .param ds => [.param ds]
  | .integer acc .digit | .radix _ acc .digit => [.integer acc]
  | .numDot acc => [.number (acc ++ [PgMux.dot])]
  | .frac acc .digit | .exp _ acc .digit => [.number acc]
  | .dot => [.self PgMux.dot]
  | .colon => [.self PgMux.colon]
  | .op acc => opTokens acc
  | .quotedIdent .. | .str .. | .strBackslash _ | .dollarBody .. | .integer .. | .radix .. |
    .frac .. | .expStart _ | .expSign _ | .exp .. | .blockComment .. => [.error]

def lexer : Transducer Byte State Tok where
  start := .start
  step := step
  finish := finish
  finish_start := rfl

@[simp] theorem lexer_start : lexer.start = .start := rfl
@[simp] theorem lexer_step (s : State) (c : Byte) : lexer.step s c = step s c := rfl
@[simp] theorem lexer_finish (s : State) : lexer.finish s = finish s := rfl

def lex (text : Bytes) : List Tok := lexer.output text

def inRange (n : Nat) (ds : Bytes) : Bool := 1 ≤ decimal ds && decimal ds ≤ n

def paramOf (n : Nat) : Nat × Tok → Option (Nat × Nat)
  | (i, .param ds) => if inRange n ds then some (i - (ds.length + 1), decimal ds) else none
  | _ => none

def paramsFrom (n i : Nat) (s : State) (text : Bytes) : List (Nat × Nat) :=
  (lexer.emittedAt i s text).filterMap (paramOf n)

def params (n : Nat) (text : Bytes) : List (Nat × Nat) := paramsFrom n 0 .start text

end PgMux.PgLexer
