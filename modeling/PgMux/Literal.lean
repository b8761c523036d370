import PgMux.Bytes

/-!
# SQL literals for bound parameters

`ParamToLiteral` with the parts of Go's `strconv` it calls. A parameter is `none` for SQL NULL.
Errors keep the kind of the failed check and the value it names.
-/

namespace PgMux.Literal

inductive LiteralError where
  | invalidBoolean (text : Bytes)
  | invalidInteger (text : Bytes)
  | invalidFloat (text : Bytes)
  | invalidNumeric (text : Bytes)
  | invalidUUID (text : Bytes)
  | invalidBinaryLength (oid length : Nat)
  deriving DecidableEq, Repr

abbrev oidBoolean : Nat := 16
abbrev oidBytea : Nat := 17
abbrev oidInt8 : Nat := 20
abbrev oidInt2 : Nat := 21
abbrev oidInt4 : Nat := 23
abbrev oidText : Nat := 25
abbrev oidOid : Nat := 26
abbrev oidFloat4 : Nat := 700
abbrev oidFloat8 : Nat := 701
abbrev oidNumeric : Nat := 1700
abbrev oidUUID : Nat := 2950

def natText (n : Nat) : Bytes := (Nat.toDigits 10 n).map fun c => c.toNat.toUInt8

def formatInt (v : Int) : Bytes := if v < 0 then minus :: natText v.natAbs else natText v.natAbs

def splitSign : Bytes → Bool × Bytes
  | 43 :: w => (false, w)
  | 45 :: w => (true, w)
  | w => (false, w)

def parseInt (text : Bytes) : Option Int :=
  let (neg, ds) := splitSign text
  if ds = [] ∨ ds.any (fun c => !isDigit c) then none
  else if neg then (if decimal ds ≤ 2 ^ 63 then some (-(decimal ds : Int)) else none)
  else if decimal ds < 2 ^ 63 then some (decimal ds : Int) else none

inductive FloatClass where
  | nan | posInf | negInf | finite
  deriving DecidableEq, Repr

def isHexLetter (c : Byte) : Bool := 97 ≤ lowerByte c && lowerByte c ≤ 102

def hexValue (c : Byte) : Nat := if isDigit c then c.toNat - 48 else (lowerByte c).toNat - 87

def special (text : Bytes) : Option FloatClass :=
  let (neg, w) := splitSign text
  let word := w.map lowerByte
  if word = ascii "inf" ∨ word = ascii "infinity" then some (if neg then .negInf else .posInf)
  else if text.map lowerByte = ascii "nan" then some .nan
  else none

structure Mantissa where
  sawDot : Bool
  digits : Bytes
  fraction : Nat
  rest : Bytes

def readMantissa (hex sawDot : Bool) (digits : Bytes) (fraction : Nat) : Bytes → Mantissa
  | [] => ⟨sawDot, digits, fraction, []⟩
  | c :: w =>
    if c = underscore then readMantissa hex sawDot digits fraction w
    else if c = dot ∧ sawDot = false then readMantissa hex true digits fraction w
    else if isDigit c ∨ (hex = true ∧ isHexLetter c) then
      readMantissa hex sawDot (digits ++ [c]) (if sawDot then fraction + 1 else fraction) w
    else ⟨sawDot, digits, fraction, c :: w⟩

def readExponent (e : Nat) : Bytes → Option Nat
  | [] => some e
  | c :: w =>
    if c = underscore then readExponent e w
    else if isDigit c then readExponent (if e < 10000 then 10 * e + (c.toNat - 48) else e) w
    else none

def underscoresBetweenDigits (hex saw under : Bool) : Bytes → Bool
  | [] => !under
  | c :: w =>
    if isDigit c || (hex && isHexLetter c) then underscoresBetweenDigits hex true false w
    else if c == underscore then saw && underscoresBetweenDigits hex false true w
    else !under && underscoresBetweenDigits hex false false w

def underscoreOK (text : Bytes) : Bool :=
  match (splitSign text).2 with
  | 48 :: c :: w =>
    let m := lowerByte c
    if m == 98 || m == 111 || m == 120 then underscoresBetweenDigits (m == 120) true false w
    else underscoresBetweenDigits false false false (48 :: c :: w)
  | w => underscoresBetweenDigits false false false w

def exponentOf (hex : Bool) : Bytes → Option (Bool × Nat)
  | [] => if hex then none else some (false, 0)
  | c :: w =>
    if lowerByte c = (if hex then 112 else 101) then
      let (neg, ds) := splitSign w
      match ds with
      | d :: _ => if isDigit d then (readExponent 0 ds).map fun e => (neg, e) else none
      | [] => none
    else none

def inFloatRange (mantissa denominator power : Nat) (negative : Bool) : Bool :=
  let limit := 2 ^ 1024 - 2 ^ 970
  if negative then mantissa < limit * denominator * power
    else mantissa * power < limit * denominator

def parseFloat (text : Bytes) : Option FloatClass :=
  match special text with
  | some k => some k
  | none =>
    let w := (splitSign text).2
    let hex := match w with
      | 48 :: c :: _ :: _ => lowerByte c == 120
      | _ => false
    let m := readMantissa hex false [] 0 (if hex then w.drop 2 else w)
    match exponentOf hex m.rest with
    | none => none
    | some (neg, e) =>
      let base := if hex then 16 else 10
      let value := m.digits.foldl (fun n d => base * n + hexValue d) 0
      if m.digits = [] ∨ (text.contains underscore ∧ underscoreOK text = false) then none
      else if inFloatRange value (base ^ m.fraction) ((if hex then 2 else 10) ^ e) neg then
        some .finite
      else none

structure FloatFormat where
  mantissaBits : Nat
  exponentBits : Nat

def float32 : FloatFormat := ⟨23, 8⟩

def float64 : FloatFormat := ⟨52, 11⟩

namespace FloatFormat

variable (f : FloatFormat)

def fraction (bits : Nat) : Nat := bits % 2 ^ f.mantissaBits

def exponent (bits : Nat) : Nat := bits / 2 ^ f.mantissaBits % 2 ^ f.exponentBits

def negative (bits : Nat) : Bool := bits / 2 ^ (f.mantissaBits + f.exponentBits) % 2 == 1

def classify (bits : Nat) : FloatClass :=
  if f.exponent bits + 1 = 2 ^ f.exponentBits then
    if f.fraction bits ≠ 0 then .nan else if f.negative bits then .negInf else .posInf
  else .finite

def mantissa (bits : Nat) : Nat :=
  if f.exponent bits = 0 then f.fraction bits else 2 ^ f.mantissaBits + f.fraction bits

def scale (bits : Nat) : Int :=
  max 1 (f.exponent bits : Int) - (2 ^ (f.exponentBits - 1) - 1) - f.mantissaBits

end FloatFormat

def decimalBetween (lo v hi unit : Nat) (inclusive : Bool) : Option Nat :=
  let within k := if inclusive then lo ≤ k * unit && k * unit ≤ hi
    else lo < k * unit && k * unit < hi
  let k := v / unit
  let r := v % unit
  let up := unit < 2 * r || (2 * r == unit && k % 2 == 1)
  match within k, within (k + 1) with
  | true, true => some (if up then k + 1 else k)
  | true, false => some k
  | false, true => some (k + 1)
  | false, false => none

def shortest (lo v hi denominator : Nat) (inclusive : Bool) : Nat → Int → Nat × Int
  | 0, p => (0, p)
  | fuel + 1, p =>
    let c := 10 ^ p.natAbs
    let found := if 0 ≤ p then decimalBetween lo v hi (denominator * c) inclusive
      else decimalBetween (lo * c) (v * c) (hi * c) denominator inclusive
    match found with
    | some k => (k, p)
    | none => shortest lo v hi denominator inclusive fuel (p - 1)

def plainDecimal (k : Nat) (p : Int) : Bytes :=
  let ds := natText k
  if 0 ≤ p then ds ++ List.replicate p.natAbs 48
  else
    let ds := List.replicate (p.natAbs + 1 - ds.length) 48 ++ ds
    ds.take (ds.length - p.natAbs) ++ dot :: ds.drop (ds.length - p.natAbs)

def formatFloat (f : FloatFormat) (bits : Nat) : Bytes :=
  let m := f.mantissa bits
  let e := f.scale bits - 2
  let below := if f.fraction bits = 0 ∧ 1 < f.exponent bits then 4 * m - 1 else 4 * m - 2
  let num := if 0 ≤ e then 2 ^ e.natAbs else 1
  let den := if 0 ≤ e then 1 else 2 ^ e.natAbs
  let (k, p) := shortest (below * num) (4 * m * num) ((4 * m + 2) * num) den (m % 2 == 0) 700 310
  let text := if m = 0 then [48] else plainDecimal k p
  if f.negative bits then minus :: text else text

def bigEndian (data : Bytes) : Nat := data.foldl (fun n b => 256 * n + b.toNat) 0

def signedValue (bits n : Nat) : Int := if n < 2 ^ (bits - 1) then n else (n : Int) - 2 ^ bits

def escapeStringLiteral (s : Bytes) : Bytes :=
  quote :: (s.flatMap fun c => if c = quote then [quote, quote] else if c = 0 then []
    else [c]) ++ [quote]

def hexDigit (n : Nat) : Byte := if n < 10 then (48 + n).toUInt8 else (87 + n).toUInt8

def hexText (data : Bytes) : Bytes :=
  data.flatMap fun b => [hexDigit (b.toNat / 16), hexDigit (b.toNat % 16)]

def byteaLiteral (data : Bytes) : Bytes :=
  [69, quote, backslash, backslash, 120] ++ hexText data ++ [quote]

def specialFloatLiteral (k : FloatClass) (type : Bytes) : Option Bytes :=
  match k with
  | .nan => some (ascii "'NaN'::" ++ type)
  | .posInf => some (ascii "'Infinity'::" ++ type)
  | .negInf => some (ascii "'-Infinity'::" ++ type)
  | .finite => none

def numericBody (w : Bytes) : Bool :=
  let whole := w.takeWhile isDigit
  let w := w.dropWhile isDigit
  let (fraction, w) := match w with
    | 46 :: v => (v.takeWhile isDigit, v.dropWhile isDigit)
    | _ => ([], w)
  let hasDigit := whole ≠ [] ∨ fraction ≠ []
  match w with
  | [] => hasDigit
  | c :: v =>
    if c = 101 ∨ c = 69 then
      let ds := (splitSign v).2
      hasDigit ∧ ds ≠ [] ∧ ds.all isDigit
    else false

def isValidNumeric (s : Bytes) : Bool :=
  let word := s.map lowerByte
  if word = ascii "nan" ∨ word = ascii "infinity" ∨ word = ascii "-infinity" then true
  else numericBody (splitSign s).2

def isHexDigit (c : Byte) : Bool := isDigit c || isHexLetter c

def isValidUUID (s : Bytes) : Bool :=
  s.length == 36 && s.zipIdx.all fun (c, i) =>
    if i == 8 || i == 13 || i == 18 || i == 23 then c == minus else isHexDigit c

def textBoolean (text : Bytes) : Option Bool :=
  let word := text.map lowerByte
  if word ∈ [ascii "t", ascii "true", ascii "1", ascii "yes", ascii "on"] then some true
  else if word ∈ [ascii "f", ascii "false", ascii "0", ascii "no", ascii "off"] then some false
  else none

def booleanLiteral (b : Bool) : Bytes := if b then ascii "TRUE" else ascii "FALSE"

def textParamToLiteral (text : Bytes) (oid : Nat) : Except LiteralError Bytes :=
  if oid = oidBoolean then
    match textBoolean text with
    | some b => .ok (booleanLiteral b)
    | none => .error (.invalidBoolean text)
  else if oid ∈ [oidInt2, oidInt4, oidInt8, oidOid] then
    match parseInt text with
    | some _ => .ok text
    | none => .error (.invalidInteger text)
  else if oid ∈ [oidFloat4, oidFloat8] then
    match parseFloat text with
    | some k => .ok ((specialFloatLiteral k (ascii "float8")).getD text)
    | none => .error (.invalidFloat text)
  else if oid = oidNumeric then
    if isValidNumeric text then .ok text else .error (.invalidNumeric text)
  else if oid = oidBytea then .ok (byteaLiteral text)
  else if oid = oidUUID then
    if isValidUUID text then .ok (escapeStringLiteral text) else .error (.invalidUUID text)
  else .ok (escapeStringLiteral text)

def binaryIntLiteral (oid size : Nat) (data : Bytes) : Except LiteralError Bytes :=
  if data.length ≠ size then .error (.invalidBinaryLength oid data.length)
  else .ok (formatInt (signedValue (8 * size) (bigEndian data)))

def binaryFloatLiteral (oid size : Nat) (f : FloatFormat) (type data : Bytes) :
    Except LiteralError Bytes :=
  if data.length ≠ size then .error (.invalidBinaryLength oid data.length)
  else
    let bits := bigEndian data
    .ok ((specialFloatLiteral (f.classify bits) type).getD (formatFloat f bits))

def binaryParamToLiteral (data : Bytes) (oid : Nat) : Except LiteralError Bytes :=
  if oid = oidBoolean then
    match data with
    | [b] => .ok (booleanLiteral (b != 0))
    | _ => .error (.invalidBinaryLength oid data.length)
  else if oid = oidInt2 then binaryIntLiteral oid 2 data
  else if oid = oidInt4 then binaryIntLiteral oid 4 data
  else if oid = oidInt8 then binaryIntLiteral oid 8 data
  else if oid = oidFloat4 then binaryFloatLiteral oid 4 float32 (ascii "float4") data
  else if oid = oidFloat8 then binaryFloatLiteral oid 8 float64 (ascii "float8") data
  else if oid = oidBytea then .ok (byteaLiteral data)
  else .ok (escapeStringLiteral data)

/-- `ParamToLiteral`; the format code 1 is binary. -/
def paramToLiteral (value : Option Bytes) (oid : Nat) (formatCode : Int) :
    Except LiteralError Bytes :=
  match value with
  | none => .ok (ascii "NULL")
  | some v => if formatCode = 1 then binaryParamToLiteral v oid else textParamToLiteral v oid

end PgMux.Literal
