import PgMux.Decoding
import PgMux.LiteralTokens

/-!
# Values of literals

The input functions of PostgreSQL for eight types, the binary encodings of their values, and the
value that a literal denotes. Parameter and literal agree but for bytea text with a backslash and
binary oid and uuid.
-/

namespace PgMux.LiteralValues

open Decoding Literal LiteralTokens PgLexer

inductive PgType where
  | bool | int2 | int4 | int8 | oid | bytea | uuid | text
  deriving DecidableEq, Repr

def PgType.code : PgType → Nat
  | .bool => oidBoolean
  | .int2 => oidInt2
  | .int4 => oidInt4
  | .int8 => oidInt8
  | .oid => oidOid
  | .bytea => oidBytea
  | .uuid => oidUUID
  | .text => oidText

inductive Value where
  | bool (b : Bool)
  | int (n : Int)
  | bytes (data : Bytes)
  deriving DecidableEq, Repr

/-! ## Input functions -/

def trim (s : Bytes) : Bytes := ((s.dropWhile isSpace).reverse.dropWhile isSpace).reverse

def boolWord (w : Bytes) : Option Bool :=
  if (w ≠ [] ∧ (w.isPrefixOf (ascii "true") ∨ w.isPrefixOf (ascii "yes"))) ∨ w = ascii "on" ∨
    w = ascii "1" then some true
  else if (w ≠ [] ∧ (w.isPrefixOf (ascii "false") ∨ w.isPrefixOf (ascii "no"))) ∨ w = ascii "of" ∨
      w = ascii "off" ∨ w = ascii "0" then some false
  else none

def radixBase : Radix → Nat
  | .hex => 16
  | .oct => 8
  | .bin => 2

def intValue (t : Bytes) : Nat :=
  let plain := decimal (t.filter (· ≠ underscore))
  match t with
  | 48 :: m :: ds =>
    match radixMark m with
    | some r => (ds.filter (· ≠ underscore)).foldl (fun n d => radixBase r * n + hexValue d) 0
    | none => plain
  | _ => plain

def signedIn (digits : Bytes → Option Nat) (s : Bytes) : Option Int :=
  let (neg, w) := splitSign (trim s)
  (digits w).map fun n => if neg then -(n : Int) else n

def tokenDigits (w : Bytes) : Option Nat := if lex w = [.integer w] then some (intValue w) else none

def decimalDigits (w : Bytes) : Option Nat :=
  if w ≠ [] ∧ w.all isDigit then some (decimal w) else none

def coerce (type : PgType) (n : Int) : Option Value :=
  let within (bits : Nat) := if -2 ^ (bits - 1) ≤ n ∧ n < 2 ^ (bits - 1) then some (Value.int n)
    else none
  match type with
  | .int2 => within 16
  | .int4 => within 32
  | .int8 => within 64
  | .oid => if -2 ^ 31 ≤ n ∧ n < 2 ^ 32 then some (.int (n % 2 ^ 32)) else none
  | _ => none

def hexBytes : Bytes → Option Bytes
  | [] => some []
  | [c] => if c ∈ [blank, tab, lineFeed, carriageReturn] then some [] else none
  | c :: d :: w =>
    if c ∈ [blank, tab, lineFeed, carriageReturn] then hexBytes (d :: w)
    else if isHexDigit c ∧ isHexDigit d then
      (hexBytes w).map ((16 * hexValue c + hexValue d).toUInt8 :: ·)
    else none

def escapedBytes : Bytes → Option Bytes
  | [] => some []
  | c :: w =>
    if c ≠ backslash then (escapedBytes w).map (c :: ·)
    else
      match w with
      | 92 :: w => (escapedBytes w).map (backslash :: ·)
      | x :: y :: z :: w =>
        if 48 ≤ x ∧ x ≤ 51 ∧ isRadixDigit .oct y ∧ isRadixDigit .oct z then
          (escapedBytes w).map ((64 * hexValue x + 8 * hexValue y + hexValue z).toUInt8 :: ·)
        else none
      | _ => none

def byteain (s : Bytes) : Option Bytes :=
  match s with
  | 92 :: 120 :: w => hexBytes w
  | s => escapedBytes s

def uuidBytes : Nat → Bytes → Option (Bytes × Bytes)
  | 0, w => some ([], w)
  | n + 1, c :: d :: w =>
    if isHexDigit c ∧ isHexDigit d then
      let w := if n ≠ 0 ∧ n % 2 = 0 ∧ w.head? = some minus then w.tail else w
      (uuidBytes n w).map fun (data, w) => ((16 * hexValue c + hexValue d).toUInt8 :: data, w)
    else none
  | _ + 1, _ => none

def uuidin (s : Bytes) : Option Bytes :=
  let (w, close) : Bytes × Bytes := match s with
    | 123 :: w => (w, [125])
    | w => (w, [])
  (uuidBytes 16 w).bind fun (data, rest) => if rest = close then some data else none

def pgInput (type : PgType) (s : Bytes) : Option Value :=
  match type with
  | .bool => (boolWord (trim (s.map lowerByte))).map .bool
  | .int2 | .int4 | .int8 => (signedIn tokenDigits s).bind (coerce type)
  | .oid => (signedIn decimalDigits s).bind (coerce type)
  | .bytea => (byteain s).map .bytes
  | .uuid => (uuidin s).map .bytes
  | .text => if 0 ∈ s then none else some (.bytes s)

def binary (type : PgType) (v : Value) : Option Bytes :=
  let int (size : Nat) (n : Int) :=
    if -2 ^ (8 * size - 1) ≤ n ∧ n < 2 ^ (8 * size - 1) then
      some (putUint size (unsigned (8 * size) n)) else none
  match type, v with
  | .bool, .bool b => some [if b then 1 else 0]
  | .int2, .int n => int 2 n
  | .int4, .int n => int 4 n
  | .int8, .int n => int 8 n
  | .oid, .int n => if 0 ≤ n ∧ n < 2 ^ 32 then some (putUint 4 n.toNat) else none
  | .bytea, .bytes data => some data
  | .uuid, .bytes data => if data.length = 16 then some data else none
  | .text, .bytes data => if 0 ∈ data then none else some data
  | _, _ => none

/-! ## Literals -/

def unescape : Bytes → Option Bytes
  | [] => some []
  | c :: w =>
    if c ≠ backslash then (unescape w).map (c :: ·)
    else
      match w with
      | [] => none
      | d :: w => if d = backslash ∨ d = quote then (unescape w).map (d :: ·) else none

def constant : List Tok → Option Int
  | [.integer t] => some (intValue t)
  | [.op [43], .integer t] => some (intValue t)
  | [.op [45], .integer t] => some (-(intValue t : Int))
  | _ => none

def denotes (type : PgType) (lit : Bytes) : Option Value :=
  match lex lit with
  | [.str .plain s] => pgInput type s
  | [.str .escape s] => (unescape s).bind (pgInput type)
  | [.ident w] =>
    if type = .bool ∧ w.map lowerByte = ascii "true" then some (.bool true)
    else if type = .bool ∧ w.map lowerByte = ascii "false" then some (.bool false)
    else none
  | toks => (constant toks).bind (coerce type)

/-! ## Integers -/

section

variable {ds : Bytes}

theorem lex_digits (hne : ds ≠ []) (h : ∀ c ∈ ds, isDigit c) : lex ds = [.integer ds] := by
  have hrun (acc w : Bytes) (hw : ∀ c ∈ w, isDigit c) :
      lexer.outputFrom (.integer acc .digit) w = [.integer (acc ++ w)] := by
    induction w generalizing acc with
    | nil => simp [finish]
    | cons c w ih =>
      obtain ⟨hc, hw⟩ := List.forall_mem_cons.mp hw
      simpa [Transducer.outputFrom_cons, step, integerStep, hc] using ih (acc ++ [c]) hw
  obtain ⟨c, w, rfl⟩ := List.exists_cons_of_ne_nil hne
  obtain ⟨hc, hw⟩ := List.forall_mem_cons.mp h
  rw [lex, Transducer.output, Transducer.outputFrom_cons, lexer_start, lexer_step,
    show step .start c = _ from first_of_isDigit hc]
  simpa using hrun [c] w hw

theorem intValue_digits (h : ∀ c ∈ ds, isDigit c) : intValue ds = decimal ds := by
  have hplain : ds.filter (· ≠ underscore) = ds := by
    rw [List.filter_eq_self]
    intro c hc
    have hne : c ≠ underscore := fun he => absurd (h c hc) (by rw [he]; decide)
    simpa using hne
  unfold intValue
  rw [hplain]
  split
  · next m w =>
    have hdigit : isDigit m := h m (by simp)
    have hmark : radixMark m = none := by
      unfold radixMark
      split_ifs with hx ho hb
      · rcases (by simpa using hx : m = 120 ∨ m = 88) with rfl | rfl <;> exact absurd hdigit
          (by decide)
      · rcases (by simpa using ho : m = 111 ∨ m = 79) with rfl | rfl <;> exact absurd hdigit
          (by decide)
      · rcases (by simpa using hb : m = 98 ∨ m = 66) with rfl | rfl <;> exact absurd hdigit
          (by decide)
      · rfl
    simp [hmark]
  · rfl

theorem trim_of_solid {s : Bytes} (h : ∀ c ∈ s, isSpace c = false) : trim s = s := by
  have hdrop (w : Bytes) (hw : ∀ c ∈ w, isSpace c = false) : w.dropWhile isSpace = w := by
    cases w with
    | nil => rfl
    | cons c w => exact List.dropWhile_cons_of_neg (by simp [hw c List.mem_cons_self])
  rw [trim, hdrop s h, hdrop s.reverse (by simpa using h), List.reverse_reverse]

theorem decimal_natText (n : Nat) : decimal (natText n) = n := by
  have hdigit (c : Char) (hc : c ∈ Nat.toDigits 10 n) (k : Nat) :
      10 * k + ((c.toNat.toUInt8).toNat - 48) = 10 * k + (c.toNat - '0'.toNat) := by
    have hbounds : 48 ≤ c.toNat ∧ c.toNat ≤ 57 := by
      simpa [Char.isDigit, Char.le_def,
        UInt32.le_iff_toNat_le] using Nat.isDigit_of_mem_toDigits (by decide) (by decide) hc
    have hlt : (c.toNat.toUInt8).toNat = c.toNat := Nat.mod_eq_of_lt (by omega)
    rw [hlt]
    rfl
  calc decimal (natText n) = Nat.ofDigitChars 10 (Nat.toDigits 10 n) 0 := by
        rw [decimal, natText, List.foldl_map]
        exact List.foldl_ext _ _ _ fun k c hc => hdigit c hc k
    _ = n := Nat.ofDigitChars_toDigits (by decide) (by decide)

theorem constant_sign {c : Byte} (hc : isSign c) (hne : ds ≠ []) (h : ∀ c ∈ ds, isDigit c) :
    constant (lex (c :: ds)) = some (if c = minus then -(decimal ds : Int) else decimal ds) := by
  have hop : ds.head?.any isOpChar = false := (goDecimal_digits h hne).head
  rw [lex_sign hc hop, lex_digits hne h]
  obtain rfl | rfl := of_isSign hc
  · rw [if_neg (by decide)]
    simp [constant, intValue_digits h]
  · simp [constant, intValue_digits h]

theorem of_parseInt {text : Bytes} {n : Int} (h : parseInt text = some n) :
    constant (lex text) = some n ∧ signedIn tokenDigits text = some n ∧
    signedIn decimalDigits text = some n := by
  obtain ⟨neg, ds, hsplit⟩ : ∃ neg ds, splitSign text = (neg, ds) := ⟨_, _, rfl⟩
  obtain ⟨hne, hds, rfl⟩ : ds ≠ [] ∧ (∀ c ∈ ds, isDigit c) ∧ n = if neg then -(decimal ds : Int)
      else decimal ds := by
    simp only [parseInt, hsplit] at h
    split_ifs at h with hbad hneg
    all_goals
      obtain ⟨hne, hds⟩ : ds ≠ [] ∧ ∀ c ∈ ds, isDigit c := by simpa using hbad
      exact ⟨hne, hds, by simp_all⟩
  have hsolid : ∀ c : Byte, isDigit c ∨ isSign c → isSpace c = false := by
    grind [isDigit, isSign, isSpace]
  have htrim (hall : ∀ c ∈ text, isDigit c ∨ isSign c) :
      signedIn tokenDigits text = some (if neg then -(decimal ds : Int) else decimal ds) ∧
      signedIn decimalDigits text = some (if neg then -(decimal ds : Int) else decimal ds) := by
    rw [signedIn, signedIn, trim_of_solid fun c hc => hsolid c (hall c hc), hsplit]
    simp [tokenDigits, decimalDigits, lex_digits hne hds, intValue_digits hds, hne,
      List.all_eq_true.mpr hds]
  rcases sign_cases text with ⟨c, w, rfl, hc⟩ | hplain
  · obtain rfl : w = ds := by rw [← splitSign_of_isSign hc w, hsplit]
    have hneg : (c = minus) = (neg = true) := by
      obtain rfl | rfl := of_isSign hc
      · obtain ⟨rfl, -⟩ := Prod.mk.inj hsplit
        decide
      · obtain ⟨rfl, -⟩ := Prod.mk.inj hsplit
        decide
    refine ⟨?_, htrim (List.forall_mem_cons.mpr ⟨.inr hc, fun c hc => .inl (hds c hc)⟩)⟩
    rw [constant_sign hc hne hds]
    simp only [hneg]
  · rw [hplain] at hsplit
    obtain ⟨rfl, rfl⟩ := Prod.mk.inj hsplit
    refine ⟨?_, htrim fun c hc => .inl (hds c hc)⟩
    rw [lex_digits hne hds]
    simp [constant, intValue_digits hds]

theorem constant_formatInt (n : Int) : constant (lex (formatInt n)) = some n := by
  obtain ⟨hne, hds⟩ := natText_digits n.natAbs
  unfold formatInt
  split_ifs with hneg
  · rw [constant_sign rfl hne hds, decimal_natText, if_pos rfl]
    exact congrArg some (by omega)
  · rw [lex_digits hne hds, constant, intValue_digits hds, decimal_natText]
    exact congrArg some (by omega)

/-! ## Bytes -/

theorem hexBytes_hexText (data : Bytes) : hexBytes (hexText data) = some data := by
  have hdigit : ∀ n : Fin 16, hexDigit n.val ∉ [blank, tab, lineFeed, carriageReturn] ∧
      isHexDigit (hexDigit n.val) ∧ hexValue (hexDigit n.val) = n.val := by decide
  induction data with
  | nil => rfl
  | cons b data ih =>
    have hb := b.toNat_lt
    obtain ⟨hspace, hhigh, hhighval⟩ := hdigit ⟨b.toNat / 16, by omega⟩
    obtain ⟨-, hlow, hlowval⟩ := hdigit ⟨b.toNat % 16, by omega⟩
    have hbyte : (16 * (b.toNat / 16) + b.toNat % 16).toUInt8 = b := by
      rw [Nat.div_add_mod]
      exact UInt8.ofNat_toNat
    change hexBytes (hexDigit (b.toNat / 16) :: hexDigit (b.toNat % 16) :: hexText data) = _
    rw [hexBytes, if_neg hspace, if_pos ⟨hhigh, hlow⟩, ih, hhighval, hlowval, hbyte]
    rfl

theorem escapedBytes_of_plain (h : backslash ∉ ds) : escapedBytes ds = some ds := by
  induction ds with
  | nil => rfl
  | cons c w ih =>
    obtain ⟨hc, hw⟩ : backslash ≠ c ∧ backslash ∉ w := by simpa using h
    unfold escapedBytes
    rw [if_pos (Ne.symm hc), ih hw]
    rfl

theorem byteain_of_plain (h : backslash ∉ ds) : byteain ds = some ds := by
  unfold byteain
  split
  · exact absurd List.mem_cons_self h
  · exact escapedBytes_of_plain h

theorem unescape_of_plain (h : backslash ∉ ds) : unescape ds = some ds := by
  induction ds with
  | nil => rfl
  | cons c w ih =>
    obtain ⟨hc, hw⟩ : backslash ≠ c ∧ backslash ∉ w := by simpa using h
    unfold unescape
    rw [if_pos (Ne.symm hc), ih hw]
    rfl

theorem denotes_byteaLiteral (data : Bytes) :
    denotes .bytea (byteaLiteral data) = some (.bytes data) := by
  have hdigit : ∀ n : Fin 16, backslash ≠ hexDigit n.val := by decide
  have hplain : backslash ∉ hexText data := by
    intro hmem
    obtain ⟨b, -, hb⟩ := List.mem_flatMap.mp hmem
    have hlt := b.toNat_lt
    rcases List.mem_cons.mp hb with hb | hb
    · exact hdigit ⟨b.toNat / 16, by omega⟩ hb
    · exact hdigit ⟨b.toNat % 16, by omega⟩ (List.mem_singleton.mp hb)
  have hcontent : unescape ([backslash, backslash, 120] ++ hexText data) =
      some (backslash :: 120 :: hexText data) := by
    have hrest := unescape_of_plain (show backslash ∉ 120 :: hexText data from
      List.not_mem_cons_of_ne_of_not_mem (by decide) hplain)
    change (unescape (120 :: hexText data)).map (backslash :: ·) = _
    rw [hrest]
    rfl
  unfold denotes
  rw [lex_byteaLiteral]
  dsimp only
  rw [hcontent]
  change ((byteain (92 :: 120 :: hexText data)).map Value.bytes) = _
  rw [byteain, hexBytes_hexText]
  rfl

theorem denotes_string {type : PgType} {s : Bytes} (h : 0 ∉ s) :
    denotes type (escapeStringLiteral s) = pgInput type s := by
  have hall : s.filter (· ≠ 0) = s := by
    rw [List.filter_eq_self]
    intro c hc
    have hne : c ≠ 0 := fun he => h (he ▸ hc)
    simpa using hne
  unfold denotes
  rw [lex_literal, hall]

end

/-! ## Parameters -/

section

variable {type : PgType} {v : Value} {data lit : Bytes}

theorem denotes_of_constant {n : Int} (h : constant (lex lit) = some n) :
    denotes type lit = coerce type n := by
  unfold denotes
  split
  · next heq => simp [heq, constant] at h
  · next heq => simp [heq, constant] at h
  · next heq => simp [heq, constant] at h
  · rw [h]
    rfl

theorem denotes_booleanLiteral (b : Bool) : denotes .bool (booleanLiteral b) = some (.bool b) := by
  revert b
  decide +kernel

theorem boolWord_of_textBoolean {b : Bool} (h : textBoolean data = some b) :
    boolWord (trim (data.map lowerByte)) = some b := by
  have htrue : ∀ w ∈ [ascii "t", ascii "true", ascii "1", ascii "yes", ascii "on"],
      boolWord (trim w) = some true := by
    decide +kernel
  have hfalse : ∀ w ∈ [ascii "f", ascii "false", ascii "0", ascii "no", ascii "off"],
      boolWord (trim w) = some false := by
    decide +kernel
  simp only [textBoolean] at h
  split_ifs at h with ht hf
  · rw [← Option.some.inj h]
    exact htrue _ ht
  · rw [← Option.some.inj h]
    exact hfalse _ hf

theorem zero_notMem_uuid (h : isValidUUID data) : 0 ∉ data := by
  intro hmem
  obtain ⟨i, hi, hget⟩ := List.mem_iff_getElem.mp hmem
  have hall := (Bool.and_eq_true_iff.mp h).2
  have hat := List.all_eq_true.mp hall (0, i)
    (by rw [List.mk_mem_zipIdx_iff_getElem?, List.getElem?_eq_getElem hi, hget])
  dsimp only at hat
  split_ifs at hat
  · exact absurd hat (by decide)
  · exact absurd hat (by decide)

theorem parseInt_of_literal (htype : type ∈ [.int2, .int4, .int8, .oid])
    (hlit : textParamToLiteral data type.code = .ok lit) :
    ∃ n, data = lit ∧ parseInt data = some n := by
  have hcode : ∀ t ∈ [PgType.int2, .int4, .int8, .oid], t.code ≠ oidBoolean ∧
      t.code ∈ [oidInt2, oidInt4, oidInt8, oidOid] := by
    decide
  rw [textParamToLiteral, if_neg (hcode type htype).1, if_pos (hcode type htype).2] at hlit
  cases hn : parseInt data with
  | none => simp [hn] at hlit
  | some n => exact ⟨n, by simpa [hn] using hlit, rfl⟩

theorem denotes_text (hwire : pgInput type data = some v)
    (hbytea : type = .bytea → backslash ∉ data)
    (hlit : textParamToLiteral data type.code = .ok lit) : denotes type lit = some v := by
  have hint (htype : type ∈ [.int2, .int4, .int8, .oid])
      (hwire : ∀ n, parseInt data = some n → coerce type n = some v) :
      denotes type lit = some v := by
    obtain ⟨n, rfl, hn⟩ := parseInt_of_literal htype hlit
    rw [denotes_of_constant (of_parseInt hn).1, hwire n hn]
  cases type with
  | bool =>
    cases hb : textBoolean data with
    | none => simp [textParamToLiteral, PgType.code, hb] at hlit
    | some b =>
      obtain rfl : booleanLiteral b =
        lit := by simpa [textParamToLiteral, PgType.code, hb] using hlit
      rw [denotes_booleanLiteral, ← hwire, pgInput, boolWord_of_textBoolean hb]
      rfl
  | int2 | int4 | int8 =>
    refine hint (by decide) fun n hn => ?_
    rwa [pgInput, (of_parseInt hn).2.1] at hwire
  | oid =>
    refine hint (by decide) fun n hn => ?_
    rwa [pgInput, (of_parseInt hn).2.2] at hwire
  | bytea =>
    obtain rfl : byteaLiteral data = lit := Except.ok.inj hlit
    rw [denotes_byteaLiteral, ← hwire, pgInput, byteain_of_plain (hbytea rfl)]
    rfl
  | uuid =>
    change (if isValidUUID data then .ok (escapeStringLiteral data)
      else .error (LiteralError.invalidUUID data)) = Except.ok lit at hlit
    split_ifs at hlit with hvalid
    rw [← Except.ok.inj hlit, denotes_string (zero_notMem_uuid hvalid), hwire]
  | text =>
    obtain rfl : escapeStringLiteral data = lit := Except.ok.inj hlit
    have hzero : 0 ∉ data := by
      intro hmem
      simp [pgInput, hmem] at hwire
    rw [denotes_string hzero, hwire]

theorem denotes_int (size bits : Nat) (hsize : 8 * size = bits + 1) {n : Int} {oid : Nat}
    (hcoerce : coerce type n = if -2 ^ bits ≤ n ∧ n < 2 ^ bits then some (.int n) else none)
    (hwire : (if -2 ^ (8 * size - 1) ≤ n ∧ n < 2 ^ (8 * size - 1) then
      some (putUint size (unsigned (8 * size) n)) else none) = some data)
    (hlit : binaryIntLiteral oid size data = .ok lit) : denotes type lit = some (.int n) := by
  rw [hsize, Nat.add_sub_cancel] at hwire
  split_ifs at hwire with hn
  obtain ⟨hlt, hval⟩ := signedValue_unsigned hn
  have hpow :
    256 ^ size = 2 ^ (bits + 1) := by rw [show (256 : Nat) = 2 ^ 8 by rfl, ← Nat.pow_mul, hsize]
  obtain rfl := Option.some.inj hwire
  rw [binaryIntLiteral, if_neg (by simp), bigEndian_putUint (by rwa [hpow]), hsize, hval] at hlit
  rw [← Except.ok.inj hlit, denotes_of_constant (constant_formatInt n), hcoerce, if_pos hn]

theorem denotes_binary (hwire : binary type v = some data) (htype : type ≠ .oid ∧ type ≠ .uuid)
    (hlit : binaryParamToLiteral data type.code = .ok lit) : denotes type lit = some v := by
  cases type with
  | oid => exact absurd rfl htype.1
  | uuid => exact absurd rfl htype.2
  | bool =>
    cases v with
    | bool b =>
      obtain rfl : [if b then 1 else 0] = data := Option.some.inj hwire
      obtain rfl : booleanLiteral ((if b then 1 else 0 : Byte) != 0) = lit := Except.ok.inj hlit
      cases b with
      | true => exact denotes_booleanLiteral true
      | false => exact denotes_booleanLiteral false
    | int n | bytes d => cases hwire
  | int2 =>
    cases v with
    | int n => exact denotes_int 2 15 rfl rfl hwire hlit
    | bool b | bytes d => cases hwire
  | int4 =>
    cases v with
    | int n => exact denotes_int 4 31 rfl rfl hwire hlit
    | bool b | bytes d => cases hwire
  | int8 =>
    cases v with
    | int n => exact denotes_int 8 63 rfl rfl hwire hlit
    | bool b | bytes d => cases hwire
  | bytea =>
    cases v with
    | bytes d =>
      obtain rfl : d = data := Option.some.inj hwire
      obtain rfl : byteaLiteral d = lit := Except.ok.inj hlit
      exact denotes_byteaLiteral d
    | bool b | int n => cases hwire
  | text =>
    cases v with
    | bytes d =>
      obtain rfl : escapeStringLiteral data = lit := Except.ok.inj hlit
      change (if 0 ∈ d then none else some d) = some data at hwire
      split_ifs at hwire with hzero
      obtain rfl := Option.some.inj hwire
      rw [denotes_string hzero, pgInput, if_neg hzero]
    | bool b | int n => cases hwire

def IsWire (type : PgType) (v : Value) (isBinary : Bool) (data : Bytes) : Prop :=
  if isBinary then binary type v = some data else pgInput type data = some v

/-! ## Values that are lost -/

theorem length_hexBytes {w d : Bytes} (h : hexBytes w = some d) : d.length ≤ w.length := by
  fun_induction hexBytes w generalizing d with
  | case1 | case2 => simp [← Option.some.inj h]
  | case3 | case6 => cases h
  | case4 c e w _ ih => exact Nat.le_succ_of_le (ih h)
  | case5 c e w _ _ ih =>
    obtain ⟨d, hd, rfl⟩ := Option.map_eq_some_iff.mp h
    exact Nat.le_succ_of_le (Nat.succ_le_succ (ih hd))

theorem length_escapedBytes {w d : Bytes} (h : escapedBytes w = some d) :
    d.length ≤ w.length ∧ (backslash ∈ w → d.length < w.length) := by
  fun_induction escapedBytes w generalizing d with
  | case1 => simp [← Option.some.inj h]
  | case2 c w hc ih =>
    obtain ⟨d, hd, rfl⟩ := Option.map_eq_some_iff.mp h
    obtain ⟨hle, hlt⟩ := ih hd
    refine ⟨Nat.succ_le_succ hle, fun hmem => Nat.succ_lt_succ (hlt ?_)⟩
    exact (List.mem_cons.mp hmem).resolve_left (Ne.symm hc)
  | case3 c hc w ih | case4 c hc x y z w hx hoct ih =>
    obtain ⟨d, hd, rfl⟩ := Option.map_eq_some_iff.mp h
    have hle := (ih hd).1
    simp only [List.length_cons]
    omega
  | case5 | case6 => cases h

/-- Text with an escape or in hexadecimal is longer than what it stands for. -/
theorem byteain_ne {d : Bytes} (h : byteain data = some d) (hmem : backslash ∈ data) :
    d ≠ data := by
  have hlength : d.length < data.length := by
    unfold byteain at h
    split at h
    · have hle := length_hexBytes h
      simp only [List.length_cons]
      omega
    · exact (length_escapedBytes h).2 hmem
  rintro rfl
  omega

theorem length_uuidBytes {n : Nat} {w : Bytes} {r : Bytes × Bytes} (h : uuidBytes n w = some r) :
    2 * n ≤ w.length := by
  induction n generalizing w r with
  | zero => omega
  | succ n ih =>
    rcases w with _ | ⟨c, _ | ⟨e, w⟩⟩
    · cases h
    · cases h
    · rw [uuidBytes] at h
      split_ifs at h
      all_goals
        obtain ⟨r, hr, -⟩ := Option.map_eq_some_iff.mp h
        have hle := ih hr
        simp only [List.length_cons, List.length_tail] at hle ⊢
        omega

theorem uuidin_of_short {s : Bytes} (h : s.length ≤ 16) : uuidin s = none := by
  have hshort {w : Bytes} (hw : w.length ≤ 16) : uuidBytes 16 w = none := by
    rw [Option.eq_none_iff_forall_ne_some]
    intro r hr
    have hle := length_uuidBytes hr
    omega
  rcases s with _ | ⟨c, w⟩
  · rfl
  by_cases hc : c = 123
  · subst hc
    rw [List.length_cons] at h
    rw [uuidin, hshort (Nat.le_of_succ_le h)]
    rfl
  · rw [uuidin, hshort h]
    · rfl
    · rintro w ⟨⟩
      exact hc rfl

theorem bigEndian_mono {u w : Bytes} (h : u.Sublist w) : bigEndian u ≤ bigEndian w := by
  have hfold {a b : Nat} (hab : a ≤ b) : u.foldl (fun n b => 256 * n + b.toNat) a ≤
      w.foldl (fun n b => 256 * n + b.toNat) b := by
    induction h generalizing a b with
    | slnil => exact hab
    | cons c _ ih => exact ih (show a ≤ 256 * b + c.toNat by omega)
    | cons_cons c _ ih => exact ih (show 256 * a + c.toNat ≤ 256 * b + c.toNat by omega)
  exact hfold (Nat.le_refl 0)

theorem decimal_lt_bigEndian {ds : Bytes} (hne : ds ≠ []) (h : ∀ c ∈ ds, isDigit c) :
    decimal ds < bigEndian ds := by
  have hfold (w : Bytes) {a b : Nat} (hab : a < b) :
      w.foldl (fun n d => 10 * n + (d.toNat - 48)) a <
        w.foldl (fun n b => 256 * n + b.toNat) b := by
    induction w generalizing a b with
    | nil => exact hab
    | cons c w ih => exact ih (show 10 * a + (c.toNat - 48) < 256 * b + c.toNat by omega)
  obtain ⟨c, w, rfl⟩ := List.exists_cons_of_ne_nil hne
  have hc : 48 ≤ c.toNat := by
    have hdigit := h c List.mem_cons_self
    simp [isDigit, UInt8.le_iff_toNat_le] at hdigit
    omega
  exact hfold w (show 10 * 0 + (c.toNat - 48) < 256 * 0 + c.toNat by omega)

theorem mem_trim_or {s : Bytes} {c : Byte} (hc : c ∈ s) : isSpace c ∨ c ∈ trim s := by
  have hdrop {w : Bytes} (hw : c ∈ w) : isSpace c ∨ c ∈ w.dropWhile isSpace := by
    rw [← List.takeWhile_append_dropWhile (p := isSpace) (l := w), List.mem_append] at hw
    exact hw.imp_left List.mem_takeWhile_imp
  rcases hdrop hc with h | h
  · exact .inl h
  · exact (hdrop (List.mem_reverse.mpr h)).imp_right List.mem_reverse.mpr

theorem trim_sublist (s : Bytes) : (trim s).Sublist s := by
  have hright :=
    (List.dropWhile_sublist (p := isSpace) (l := (s.dropWhile isSpace).reverse)).reverse
  rw [List.reverse_reverse] at hright
  exact hright.trans (List.dropWhile_sublist _)

/-- The four bytes of an object id, read as text, never spell its digits. -/
theorem oid_lost {n : Int} (hn : 0 ≤ n ∧ n < 2 ^ 32) :
    pgInput .oid ((putUint 4 n.toNat).filter (· ≠ 0)) ≠ some (.int n) := by
  intro h
  generalize hdata : putUint 4 n.toNat = data at h
  have hval : bigEndian data = n.toNat := by
    rw [← hdata, bigEndian_putUint (by omega)]
  have hlen : data.length = 4 := by rw [← hdata, length_putUint]
  generalize hs : data.filter (· ≠ 0) = s at h
  obtain ⟨k, hk, hcoerce⟩ := Option.bind_eq_some_iff.mp h
  obtain ⟨neg, w, hsplit⟩ : ∃ neg w, splitSign (trim s) = (neg, w) := ⟨_, _, rfl⟩
  simp only [signedIn, hsplit] at hk
  obtain ⟨m, hm, rfl⟩ := Option.map_eq_some_iff.mp hk
  obtain ⟨⟨hne, hdigits⟩, rfl⟩ : (w ≠ [] ∧ ∀ c ∈ w, isDigit c) ∧ (decimal w : Int) = m := by
    unfold decimalDigits at hm
    split_ifs at hm with hw
    · exact ⟨by simpa using hw, Option.some.inj hm⟩
    · cases hm
  obtain ⟨hw, htrim⟩ : w.Sublist (trim s) ∧ ∀ c ∈ trim s, isSign c ∨ isDigit c := by
    rcases sign_cases (trim s) with ⟨c, v, hv, hc⟩ | hplain
    · obtain rfl : v = w := by rw [← splitSign_of_isSign hc v, ← hv, hsplit]
      rw [hv]
      exact ⟨List.sublist_cons_self _ _,
        List.forall_mem_cons.mpr ⟨.inl hc, fun d hd => .inr (hdigits d hd)⟩⟩
    · obtain rfl : trim s = w := (Prod.mk.inj (hplain.symm.trans hsplit)).2
      exact ⟨.refl _, fun d hd => .inr (hdigits d hd)⟩
  have hsub : w.Sublist data :=
    (hw.trans (trim_sublist s)).trans (hs ▸ List.filter_sublist)
  have hlt : decimal w < n.toNat := by
    rw [← hval]
    exact (decimal_lt_bigEndian hne hdigits).trans_le (bigEndian_mono hsub)
  -- all bytes are zero or of the text, so that the id is small against a negative number
  have hsmall : ∀ c ∈ data, c.toNat < 64 := by
    have hbyte (c : Byte) (hc : c = 0 ∨ isSpace c ∨ isSign c ∨ isDigit c) : c.toNat < 64 := by
      have hlt : c < 64 := by grind [isDigit, isSign, isSpace]
      exact UInt8.lt_iff_toNat_lt.mp hlt
    intro c hc
    by_cases hzero : c = 0
    · exact hbyte c (.inl hzero)
    rcases mem_trim_or (hs ▸ List.mem_filter.mpr ⟨hc, by simpa using hzero⟩) with hspace | hmem
    · exact hbyte c (.inr (.inl hspace))
    · exact hbyte c (.inr (.inr (htrim c hmem)))
  have hbound : n.toNat < 2 ^ 30 := by
    obtain ⟨b₀, b₁, b₂, b₃, rfl⟩ : ∃ b₀ b₁ b₂ b₃, data = [b₀, b₁, b₂, b₃] :=
      ⟨_, _, _, _, hdata.symm⟩
    rw [← hval]
    simp [bigEndian] at hsmall ⊢
    omega
  simp only [coerce] at hcoerce
  split_ifs at hcoerce with hneg hrange
  all_goals
    have hmod := Value.int.inj (Option.some.inj hcoerce)
    omega

theorem denotes_stripped {s : Bytes} :
    denotes type (escapeStringLiteral s) = pgInput type (s.filter (· ≠ 0)) := by
  unfold denotes
  rw [lex_literal]

theorem binary_oid_lost (hwire : binary .oid v = some data)
    (hlit : binaryParamToLiteral data PgType.oid.code = .ok lit) : denotes .oid lit ≠ some v := by
  cases v with
  | bool b | bytes d => cases hwire
  | int n =>
    change (if 0 ≤ n ∧ n < 2 ^ 32 then some (putUint 4 n.toNat) else none) = some data at hwire
    split_ifs at hwire with hn
    obtain rfl : escapeStringLiteral data = lit := Except.ok.inj hlit
    rw [denotes_stripped, ← Option.some.inj hwire]
    exact oid_lost hn

theorem binary_uuid_lost (hwire : binary .uuid v = some data)
    (hlit : binaryParamToLiteral data PgType.uuid.code = .ok lit) : denotes .uuid lit ≠ some v := by
  cases v with
  | bool b | int n => cases hwire
  | bytes d =>
    change (if d.length = 16 then some d else none) = some data at hwire
    split_ifs at hwire with hlen
    obtain rfl : d = data := Option.some.inj hwire
    obtain rfl : escapeStringLiteral d = lit := Except.ok.inj hlit
    have hshort : (d.filter (· ≠ 0)).length ≤ 16 := hlen ▸ List.length_filter_le _ d
    rw [denotes_stripped, pgInput, uuidin_of_short hshort]
    nofun

theorem text_bytea_lost (hwire : pgInput .bytea data = some v)
    (hlit : textParamToLiteral data PgType.bytea.code = .ok lit) (hmem : backslash ∈ data) :
    denotes .bytea lit ≠ some v := by
  obtain ⟨d, hd, rfl⟩ := Option.map_eq_some_iff.mp hwire
  obtain rfl : byteaLiteral data = lit := Except.ok.inj hlit
  rw [denotes_byteaLiteral]
  intro heq
  exact byteain_ne hd hmem (Value.bytes.inj (Option.some.inj heq)).symm

/-- The literal of a wire form denotes the value, except for binary object ids and uuids and for
text of byte strings that is escaped. -/
theorem paramToLiteral_denotes {isBinary : Bool} (hwire : IsWire type v isBinary data)
    (hlit : paramToLiteral (some data) type.code (if isBinary then 1 else 0) = .ok lit) :
    denotes type lit = some v ↔
      (isBinary = false → type = .bytea → backslash ∉ data) ∧
        (isBinary = true → type ≠ .oid ∧ type ≠ .uuid) := by
  cases isBinary with
  | true =>
    replace hlit : binaryParamToLiteral data type.code = .ok lit := hlit
    refine ⟨fun h => ⟨nofun, fun _ => ⟨?_, ?_⟩⟩, fun h => denotes_binary hwire (h.2 rfl) hlit⟩
    · rintro rfl
      exact binary_oid_lost hwire hlit h
    · rintro rfl
      exact binary_uuid_lost hwire hlit h
  | false =>
    replace hlit : textParamToLiteral data type.code = .ok lit := hlit
    refine ⟨fun h => ⟨fun _ => ?_, nofun⟩, fun h => denotes_text hwire (h.1 rfl) hlit⟩
    rintro rfl hmem
    exact text_bytea_lost hwire hlit hmem h

end

theorem paramToLiteral_denotes_seven :
    denotes .int2 (ascii "7") = some (.int 7) ∧ denotes .int2 (ascii "+07") = some (.int 7) := by
  have hbinary : IsWire .int2 (.int 7) true [0, 7] :=
    show binary .int2 (.int 7) = some [0, 7] by decide +kernel
  have htext : IsWire .int2 (.int 7) false (ascii "+07") :=
    show pgInput .int2 (ascii "+07") = some (.int 7) by decide +kernel
  exact ⟨(paramToLiteral_denotes hbinary (by decide +kernel)).mpr (by decide),
    (paramToLiteral_denotes htext (by decide +kernel)).mpr (by decide)⟩

theorem literals_of_other_values :
    pgInput .bytea (ascii "\\x6a") = some (.bytes [0x6A]) ∧
      paramToLiteral (some (ascii "\\x6a")) oidBytea 0 = .ok (ascii "E'\\\\x5c783661'") ∧
      denotes .bytea (ascii "E'\\\\x5c783661'") = some (.bytes (ascii "\\x6a")) ∧
      binary .oid (.int 825373492) = some (ascii "1234") ∧
      paramToLiteral (some (ascii "1234")) oidOid 1 = .ok (ascii "'1234'") ∧
      denotes .oid (ascii "'1234'") = some (.int 1234) ∧
      binary .uuid (.bytes (ascii "0123456789abcdef")) = some (ascii "0123456789abcdef") ∧
      paramToLiteral (some (ascii "0123456789abcdef")) oidUUID 1 =
        .ok (ascii "'0123456789abcdef'") ∧ denotes .uuid (ascii "'0123456789abcdef'") = none := by
  decide +kernel

end PgMux.LiteralValues
