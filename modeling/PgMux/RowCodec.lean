import PgMux.GoStrings
import PgMux.MessageCodec

/-!
# Rows of the Data API

`parseRowDescription` and `parseDataRow` read a payload at a running offset; every slice is checked.
A length below `-1` makes `parseDataRow` slice backwards.
-/

namespace PgMux.DataApi

open Decoding GoStrings Indexing Literal Protocol

inductive Cell (F : Type) where
  | null
  | bool (b : Bool)
  | int (n : Int)
  | float (f : F)
  | text (s : Bytes)
  deriving DecidableEq, Repr

structure ColumnInfo where
  name : Bytes
  oid : Nat
  typeName : Bytes
  deriving DecidableEq, Repr

def oidToTypeName (oid : Nat) : Bytes :=
  match oid with
  | 16 => ascii "bool"
  | 20 => ascii "int8"
  | 21 => ascii "int2"
  | 23 => ascii "int4"
  | 25 => ascii "text"
  | 114 => ascii "json"
  | 700 => ascii "float4"
  | 701 => ascii "float8"
  | 1042 => ascii "bpchar"
  | 1043 => ascii "varchar"
  | 1082 => ascii "date"
  | 1114 => ascii "timestamp"
  | 1184 => ascii "timestamptz"
  | 2950 => ascii "uuid"
  | 3802 => ascii "jsonb"
  | _ => ascii "oid_" ++ natText oid

def skipSpace (text : Bytes) : Option Bytes :=
  let rest := trimLeft 0 text
  if lineFeed ∈ text.take (text.length - rest.length) then none else some rest

def scanInt (text : Bytes) : Int :=
  ((skipSpace text).bind fun rest =>
    let sign := rest.take (if rest.head? = some plus ∨ rest.head? = some minus then 1 else 0)
    let digits := (rest.drop sign.length).takeWhile isDigit
    if digits = [] then none else parseInt (sign ++ digits)).getD 0

section

variable {F : Type} (scanFloat : Bytes → F)

def convertValue (val : Bytes) (oid : Nat) : Cell F :=
  match oid with
  | 16 => .bool (val = ascii "t" || val = ascii "true")
  | 20 | 21 | 23 => .int (scanInt val)
  | 700 | 701 => .float (scanFloat val)
  | _ => .text val

def nameEnd (payload : Bytes) (pos : Nat) : Checked Nat :=
  loop (fun j => do if ← test payload j (· != 0) then return .next (j + 1) else return .stop j)
    (payload.length + 1) pos

def readColumns (payload : Bytes) : Nat → Nat → Checked (List ColumnInfo)
  | 0, _ => return []
  | n + 1, pos => do
    if payload.length ≤ pos then return []
    let e ← nameEnd payload pos
    let name ← slice payload pos e
    -- behind the name: the table's OID and the column's number
    if payload.length < e + 1 + 6 then return []
    match ← uintAt 4 payload (e + 1 + 6) with
    | none => return []
    | some (oid, pos) =>
      -- the type's length and modifier and the format
      if payload.length < pos + 8 then return []
      return ⟨name, oid, oidToTypeName oid⟩ :: (← readColumns payload n (pos + 8))

def parseRowDescription (payload : Bytes) : Checked (List ColumnInfo) := do
  match ← uintAt 2 payload 0 with
  | none => return []
  | some (numCols, pos) => readColumns payload numCols pos

def sliceLen (s : Bytes) (i : Nat) (len : Int) : Checked Bytes :=
  if len < 0 then throw .outOfRange else slice s i (i + len.toNat)

def cellAt (columns : List ColumnInfo) (i : Nat) (val : Bytes) : Cell F :=
  match columns[i]? with
  | some c => convertValue scanFloat val c.oid
  | none => .text val

def readRow (columns : List ColumnInfo) (payload : Bytes) :
    Nat → Nat → Nat → Checked (List (Cell F))
  | 0, _, _ => return []
  | n + 1, i, pos => do
    if payload.length ≤ pos then return List.replicate (n + 1) .null
    match ← uintAt 4 payload pos with
    | none => return List.replicate (n + 1) .null
    | some (length, pos) =>
      let colLen := signedValue 32 length
      if colLen = -1 then return .null :: (← readRow columns payload n (i + 1) pos)
      if (payload.length : Int) < pos + colLen then return List.replicate (n + 1) .null
      let val ← sliceLen payload pos colLen
      return cellAt scanFloat columns i val :: (← readRow columns payload n (i + 1)
        (pos + colLen.toNat))

def parseDataRow (columns : List ColumnInfo) (payload : Bytes) : Checked (List (Cell F)) := do
  match ← uintAt 2 payload 0 with
  | none => return []
  | some (numCols, pos) => readRow scanFloat columns payload numCols 0 pos

end

/-! ## Encodings -/

structure Field where
  name : Bytes
  tableOID : Nat
  attnum : Nat
  oid : Nat
  typlen : Nat
  typmod : Nat
  format : Nat

namespace Field

def encode (f : Field) : Bytes :=
  f.name ++ 0 :: (putUint 4 f.tableOID ++ (putUint 2 f.attnum ++ (putUint 4 f.oid ++
    (putUint 2 f.typlen ++ (putUint 4 f.typmod ++ putUint 2 f.format)))))

def Valid (f : Field) : Prop := 0 ∉ f.name ∧ f.oid < 2 ^ 32

def info (f : Field) : ColumnInfo := ⟨f.name, f.oid, oidToTypeName f.oid⟩

end Field

def lengthFields : Nat → Bytes → List Int
  | 0, _ => []
  | n + 1, data =>
    match uint 4 data with
    | none => []
    | some (length, rest) =>
        signedValue 32 length :: lengthFields n (rest.drop (signedValue 32 length).toNat)

def rowLengths (payload : Bytes) : List Int :=
  match uint 2 payload with
  | none => []
  | some (numCols, rest) => lengthFields numCols rest

/-! ## Decoding -/

section

variable {payload : Bytes} {pos n : Nat}

theorem nameEnd_eq (h : pos ≤ payload.length) :
    nameEnd payload pos = .ok (pos + ((payload.drop pos).takeWhile (· != 0)).length) :=
  loop_test payload (· != 0) (Nat.lt_succ_self _) h

theorem takeWhile_name {name rest : Bytes} (h : 0 ∉ name) :
    (name ++ 0 :: rest).takeWhile (· != 0) = name := by
  rw [List.takeWhile_append_of_pos]
  · simp
  · intro c hc
    have : c ≠ 0 := fun h0 => h (h0 ▸ hc)
    simpa using this

theorem drop_of_append {u v : Bytes} {k : Nat} (h : payload.drop pos = u ++ v) (hk : u.length = k) :
    payload.drop (pos + k) = v :=
  (drop_add_of_drop h).trans (List.drop_left' hk)

theorem drop_encode {f : Field} {tail : Bytes} (hf : f.Valid)
    (h : payload.drop pos = f.encode ++ tail) :
    (payload.drop pos).takeWhile (· != 0) = f.name ∧
    pos + f.name.length + 19 + tail.length = payload.length ∧
      (payload.drop (pos + f.name.length + 1 + 6)).take 4 = putUint 4 f.oid ∧
      payload.drop (pos + f.name.length + 1 + 6 + 4 + 8) = tail := by
  have hlength := congrArg List.length h
  simp only [Field.encode, List.length_append, List.length_cons, length_putUint,
    List.length_drop] at hlength
  have hparts : payload.drop pos =
      f.name ++ ([0] ++ ((putUint 4 f.tableOID ++ putUint 2 f.attnum) ++ (putUint 4 f.oid ++
      ((putUint 2 f.typlen ++ putUint 4 f.typmod ++ putUint 2 f.format) ++ tail)))) := by
    rw [h, Field.encode]
    simp
  have hoid := drop_of_append (drop_of_append (drop_of_append hparts rfl) rfl) (k := 6) (by simp)
  refine ⟨?_, by omega, ?_, ?_⟩
  · rw [h, Field.encode, List.append_assoc, List.cons_append, takeWhile_name hf.1]
  · rw [← List.take_left' (length_putUint (n := 4) (v := f.oid)), ← hoid]
    rfl
  · exact drop_of_append (drop_of_append hoid (by simp)) (by simp)

theorem ends_readColumns (payload : Bytes) (n pos : Nat) :
    Ends False (fun cols => ∀ fields : List Field, fields.length = n → (∀ f ∈ fields, f.Valid) →
    ∀ rest, payload.drop pos = fields.flatMap Field.encode ++ rest → cols = fields.map Field.info)
      (readColumns payload n pos) := by
  induction n generalizing pos with
  | zero =>
    intro fields hlen _ _ _
    rw [List.length_eq_zero_iff.mp hlen]
    rfl
  | succ n ih =>
    -- a payload that ends within a column is no encoding of all of them
    have hshort (cols : List ColumnInfo)
        (hcut : payload.length < pos + ((payload.drop pos).takeWhile (· != 0)).length + 19) :
        ∀ fields : List Field, fields.length = n + 1 → (∀ f ∈ fields, f.Valid) → ∀ rest,
          payload.drop pos = fields.flatMap Field.encode ++ rest →
          cols = fields.map Field.info := by
      intro fields hlen hvalid rest h
      obtain ⟨f, fs, rfl⟩ := List.exists_cons_of_length_eq_add_one hlen
      rw [List.flatMap_cons, List.append_assoc] at h
      obtain ⟨hname, hlong, -⟩ := drop_encode (List.forall_mem_cons.mp hvalid).1 h
      rw [hname] at hcut
      omega
    unfold readColumns
    by_cases hend : payload.length ≤ pos
    · rw [if_pos hend]
      exact hshort [] (by omega)
    have hle := (List.takeWhile_sublist (l := payload.drop pos) (· != 0)).length_le
    rw [List.length_drop] at hle
    have hslice : slice payload pos (pos + ((payload.drop pos).takeWhile (· != 0)).length) =
      .ok _ := slice_eq (by omega)
    simp only [if_neg hend, nameEnd_eq (Nat.le_of_not_le hend), ok_bind, hslice, uintAt_eq]
    split_ifs
    · exact hshort [] (by omega)
    · exact hshort [] (by omega)
    dsimp only
    split_ifs
    · exact hshort [] (by omega)
    refine (ih _).map fun cols hcols => ?_
    intro fields hlen hvalid rest h
    obtain ⟨f, fs, rfl⟩ := List.exists_cons_of_length_eq_add_one hlen
    rw [List.flatMap_cons, List.append_assoc] at h
    obtain ⟨hf, hfs⟩ := List.forall_mem_cons.mp hvalid
    obtain ⟨hname, -, hoid, htail⟩ := drop_encode hf h
    rw [hname] at hcols ⊢
    have htake : (payload.drop pos).take f.name.length = f.name :=
      (List.prefix_iff_eq_take.mp (hname ▸ List.takeWhile_prefix _)).symm
    rw [hcols fs (by simpa using hlen) hfs rest htail, hoid, bigEndian_putUint hf.2, htake]
    rfl

theorem drop_encodeParam {p : Option Bytes} {tail : Bytes}
    (hp : ∀ v, p = some v → v.length < 2 ^ 31) (h : payload.drop pos = encodeParam p ++ tail) :
    pos + 4 ≤ payload.length ∧
      signedValue 32 (bigEndian ((payload.drop pos).take 4)) = p.elim (-1)
        (fun v => (v.length : Int)) ∧ payload.drop (pos + 4) = p.getD [] ++ tail := by
  have hlength := congrArg List.length h
  cases p with
  | none =>
    simp only [encodeParam, List.length_append, length_putUint, List.length_drop] at hlength
    refine ⟨by omega, ?_, drop_of_append h length_putUint⟩
    rw [h, encodeParam, List.take_left' length_putUint, bigEndian_putUint (by decide)]
    decide
  | some v =>
    have hv := hp v rfl
    simp only [encodeParam, List.length_append, length_putUint, List.length_drop] at hlength
    rw [encodeParam, List.append_assoc] at h
    refine ⟨by omega, ?_, drop_of_append h length_putUint⟩
    rw [h, List.take_left' length_putUint, bigEndian_putUint (by omega)]
    exact if_pos hv

theorem lengthFields_succ (h : pos + 4 ≤ payload.length) : lengthFields (n + 1) (payload.drop pos) =
    signedValue 32 (bigEndian ((payload.drop pos).take 4)) ::
      lengthFields n (payload.drop
        (pos + 4 + (signedValue 32 (bigEndian ((payload.drop pos).take 4))).toNat)) := by
  have hlen : ¬ (payload.drop pos).length < 4 := by
    rw [List.length_drop]
    omega
  rw [lengthFields, uint, if_neg hlen]
  simp only [List.drop_drop]

variable {F : Type} (scanFloat : Bytes → F) (columns : List ColumnInfo)

theorem ends_readRow {i : Nat} {bad : Prop}
    (hbad : ∀ len ∈ lengthFields n (payload.drop pos), len < -1 → bad) : Ends bad
    (fun cells => ∀ row : List (Option Bytes), row.length = n →
      (∀ v, some v ∈ row → v.length < 2 ^ 31) →
      ∀ rest, payload.drop pos = row.flatMap encodeParam ++ rest →
        cells = row.mapIdx fun j v => v.elim .null (cellAt scanFloat columns (i + j)))
    (readRow scanFloat columns payload n i pos) := by
  induction n generalizing i pos with
  | zero =>
    intro row hlen _ _ _
    rw [List.length_eq_zero_iff.mp hlen]
    rfl
  | succ n ih =>
    -- the first value of an encoded row
    have hfirst (row : List (Option Bytes)) (hlen : row.length = n + 1)
        (hrow : ∀ v, some v ∈ row → v.length < 2 ^ 31)
        (rest : Bytes) (h : payload.drop pos = row.flatMap encodeParam ++ rest) : ∃ p ps,
        row = p :: ps ∧ pos + 4 ≤ payload.length ∧
          signedValue 32 (bigEndian ((payload.drop pos).take 4)) = p.elim (-1)
            (fun v => (v.length : Int)) ∧
          payload.drop (pos + 4) = p.getD [] ++ (ps.flatMap encodeParam ++ rest) := by
      obtain ⟨p, ps, rfl⟩ := List.exists_cons_of_length_eq_add_one hlen
      rw [List.flatMap_cons, List.append_assoc] at h
      exact ⟨p, ps, rfl, drop_encodeParam (fun v hv => hrow v (by simp [hv])) h⟩
    unfold readRow
    by_cases hend : payload.length ≤ pos
    · rw [if_pos hend]
      intro row hlen hrow rest h
      obtain ⟨p, ps, rfl, hlong, -⟩ := hfirst row hlen hrow rest h
      omega
    rw [if_neg hend, uintAt_eq]
    by_cases h4 : payload.length < pos + 4
    · rw [if_pos h4]
      intro row hlen hrow rest h
      obtain ⟨p, ps, rfl, hlong, -⟩ := hfirst row hlen hrow rest h
      omega
    rw [lengthFields_succ (Nat.le_of_not_lt h4), List.forall_mem_cons] at hbad
    rw [if_neg h4]
    simp only [ok_bind]
    generalize signedValue 32 (bigEndian ((payload.drop pos).take 4)) = colLen at hfirst hbad ⊢
    split_ifs with hnull hcut
    · rw [hnull] at hbad
      refine (ih hbad.2).map fun cells hcells => ?_
      intro row hlen hrow rest h
      obtain ⟨p, ps, rfl, -, hcol, htail⟩ := hfirst row hlen hrow rest h
      cases p with
      | some v =>
        have hneg : colLen = v.length := hcol
        omega
      | none =>
        rw [hcells ps (by simpa using hlen) (fun v hv => hrow v (by simp [hv])) rest htail,
          List.mapIdx_cons]
        simp [Nat.add_assoc, Nat.add_comm 1]
    · intro row hlen hrow rest h
      obtain ⟨p, ps, rfl, -, hcol, htail⟩ := hfirst row hlen hrow rest h
      cases p with
      | none => exact absurd hcol hnull
      | some v =>
        have hv : colLen = v.length := hcol
        have hlength := congrArg List.length htail
        rw [List.length_drop, Option.getD_some, List.length_append] at hlength
        omega
    · unfold sliceLen
      by_cases hneg : colLen < 0
      · rw [if_pos hneg]
        exact hbad.1 (by omega)
      rw [if_neg hneg, slice_eq (show pos + 4 + colLen.toNat ≤ payload.length by omega)]
      refine (ih hbad.2).map fun cells hcells => ?_
      intro row hlen hrow rest h
      obtain ⟨p, ps, rfl, -, hcol, htail⟩ := hfirst row hlen hrow rest h
      cases p with
      | none => exact absurd hcol hnull
      | some v =>
        have hv : colLen.toNat = v.length := by
          rw [hcol]
          exact Int.toNat_natCast _
        rw [hv] at hcells ⊢
        rw [hcells ps (by simpa using hlen)
          (fun v hv => hrow v (by simp [hv])) rest (drop_of_append htail rfl), htail,
          Option.getD_some, List.take_left, List.mapIdx_cons]
        simp [Nat.add_assoc, Nat.add_comm 1]

theorem lengthFields_nil : lengthFields n [] = [] := by
  cases n <;> rfl

/-- A length below -1 passes the check on the end of the payload and fails as a slice. -/
theorem readRow_outOfRange {i : Nat} {len : Int}
    (hmem : len ∈ lengthFields n (payload.drop pos)) (hlen : len < -1) :
    readRow scanFloat columns payload n i pos = .error .outOfRange := by
  induction n generalizing i pos with
  | zero => cases hmem
  | succ n ih =>
    by_cases h4 : payload.length < pos + 4
    · have hshort : (payload.drop pos).length < 4 := by
        rw [List.length_drop]
        omega
      rw [lengthFields, uint, if_pos hshort] at hmem
      cases hmem
    rw [lengthFields_succ (Nat.le_of_not_lt h4), List.mem_cons] at hmem
    rw [readRow, if_neg (by omega), uintAt_eq, if_neg h4]
    simp only [ok_bind]
    generalize signedValue 32 (bigEndian ((payload.drop pos).take 4)) = colLen at hmem ⊢
    split_ifs with hnull hcut
    · have hrest := hmem.resolve_left (by omega)
      rw [hnull] at hrest
      rw [@ih (pos + 4) (i + 1) hrest]
      rfl
    · have hend : payload.drop (pos + 4 + colLen.toNat) = [] := by
        rw [List.drop_eq_nil_iff]
        omega
      rw [hend, lengthFields_nil] at hmem
      rcases hmem with rfl | hmem
      · omega
      · cases hmem
    · unfold sliceLen
      by_cases hneg : colLen < 0
      · rw [if_pos hneg]
        rfl
      rw [if_neg hneg, slice_eq (show pos + 4 + colLen.toNat ≤ payload.length by omega), ok_bind,
        ih (hmem.resolve_left (by omega))]
      rfl

theorem lengthFields_encode {row : List (Option Bytes)}
    (hrow : ∀ v, some v ∈ row → v.length < 2 ^ 31) (rest : Bytes) :
    ∀ len ∈ lengthFields row.length (row.flatMap encodeParam ++ rest), -1 ≤ len := by
  induction row with
  | nil => simp [lengthFields]
  | cons p ps ih =>
    have h : (encodeParam p ++ (ps.flatMap encodeParam ++ rest)).drop 0 =
      encodeParam p ++ (ps.flatMap encodeParam ++ rest) := rfl
    obtain ⟨hlong, hcol, htail⟩ := drop_encodeParam (fun v hv => hrow v (by simp [hv])) h
    rw [List.flatMap_cons, List.append_assoc, List.length_cons,
      ← List.drop_zero (l := encodeParam p ++ _), lengthFields_succ hlong, hcol,
      List.forall_mem_cons]
    have hps := ih fun v hv => hrow v (by simp [hv])
    cases p with
    | none =>
      rw [show Option.elim none (-1) (fun v : Bytes => (v.length : Int)) = -1 from rfl]
      exact ⟨Int.le_refl _, by rwa [show (-1 : Int).toNat = 0 from rfl, htail]⟩
    | some v =>
      rw [Option.elim_some, Int.toNat_natCast, drop_of_append htail (show _ = v.length from rfl)]
      exact ⟨by omega, hps⟩

theorem exists_of_ends {α : Type} {Q : α → Prop} {x : Checked α} (h : Ends False Q x) :
    ∃ a, x = .ok a ∧ Q a := by
  cases x with
  | ok a => exact ⟨a, rfl, h⟩
  | error e =>
    cases e <;> exact h.elim

theorem drop_count {α : Type} (encode : α → Bytes) {l : List α} (hl : l.length < 2 ^ 16) :
    uintAt 2 (encodeCounted encode l) 0 = .ok (some (l.length, 2)) ∧
    (encodeCounted encode l).drop 2 = l.flatMap encode := by
  have hlen : ¬ (encodeCounted encode l).length < 0 + 2 := by
    rw [encodeCounted, List.length_append, length_putUint]; omega
  refine ⟨?_, List.drop_left' length_putUint⟩
  rw [uintAt_eq, if_neg hlen, List.drop_zero, encodeCounted, List.take_left' length_putUint,
    bigEndian_putUint hl]

end

theorem parseRowDescription_encode {fields : List Field} (hcount : fields.length < 2 ^ 16)
    (hvalid : ∀ f ∈ fields, f.Valid) :
    parseRowDescription (encodeCounted Field.encode fields) = .ok (fields.map Field.info) := by
  obtain ⟨hread, hdrop⟩ := drop_count Field.encode hcount
  obtain ⟨cols, hcols, heq⟩ :=
    exists_of_ends (ends_readColumns (encodeCounted Field.encode fields) fields.length 2)
  rw [parseRowDescription, hread, ok_bind, ← heq fields rfl hvalid [] (by simpa using hdrop)]
  exact hcols

theorem parseRowDescription_safe (payload : Bytes) :
    ∃ cols, parseRowDescription payload = .ok cols := by
  rw [parseRowDescription, uintAt_eq]
  split_ifs with hshort
  · exact ⟨[], rfl⟩
  · obtain ⟨cols, hcols, -⟩ := exists_of_ends (ends_readColumns payload _ _)
    exact ⟨cols, hcols⟩

section

variable {F : Type} (scanFloat : Bytes → F) (columns : List ColumnInfo)

theorem parseDataRow_encode {row : List (Option Bytes)} (hcount : row.length < 2 ^ 16)
    (hrow : ∀ v, some v ∈ row → v.length < 2 ^ 31) :
    parseDataRow scanFloat columns (encodeCounted encodeParam row) =
      .ok (row.mapIdx fun i v => v.elim .null (cellAt scanFloat columns i)) := by
  obtain ⟨hread, hdrop⟩ := drop_count encodeParam hcount
  have hbad : ∀ len ∈ lengthFields row.length ((encodeCounted encodeParam row).drop 2), len < -1 →
      False := by
    intro len hmem hneg
    have hle := lengthFields_encode hrow [] len (by simpa [hdrop] using hmem)
    omega
  obtain ⟨cells, hcells, heq⟩ := exists_of_ends (ends_readRow scanFloat columns (i := 0) hbad)
  rw [parseDataRow, hread, ok_bind]
  dsimp only
  rw [hcells, heq row rfl hrow [] (by simpa using hdrop)]
  simp

theorem parseDataRow_safe_iff (payload : Bytes) :
    (∃ cells, parseDataRow scanFloat columns payload = .ok cells) ↔
      ∀ len ∈ rowLengths payload, -1 ≤ len := by
  rw [parseDataRow, uintAt_eq, rowLengths, uint]
  by_cases hshort : payload.length < 2
  · rw [if_pos (by omega), if_pos hshort]
    exact iff_of_true ⟨[], rfl⟩ fun _ h => absurd h List.not_mem_nil
  rw [if_neg (by omega), if_neg hshort]
  constructor
  · rintro ⟨cells, hcells⟩ len hmem
    by_contra hneg
    have hfail := readRow_outOfRange scanFloat columns (i := 0) hmem (Int.not_le.mp hneg)
    rw [ok_bind] at hcells
    cases hfail.symm.trans hcells
  · intro hlen
    have hbad : ∀ len ∈ lengthFields (bigEndian (payload.take 2)) (payload.drop 2),
        len < -1 → False := by
      intro len hmem hneg
      have hle := hlen len hmem
      omega
    obtain ⟨cells, hcells, -⟩ := exists_of_ends (ends_readRow scanFloat columns (i := 0) hbad)
    exact ⟨cells, hcells⟩

/-- The decoders invert the encodings, and only a length below -1 takes one out of range. -/
theorem rows_decoded (payload : Bytes) :
    (∀ fields : List Field, fields.length < 2 ^ 16 → (∀ f ∈ fields, f.Valid) →
        parseRowDescription (encodeCounted Field.encode fields) = .ok (fields.map Field.info)) ∧
      (∀ row : List (Option Bytes), row.length < 2 ^ 16 →
        (∀ v, some v ∈ row → v.length < 2 ^ 31) →
        parseDataRow scanFloat columns (encodeCounted encodeParam row) =
          .ok (row.mapIdx fun i v => v.elim .null (cellAt scanFloat columns i))) ∧
      (∀ i c, columns[i]? = some c → c.oid = 25 →
        ∀ val, cellAt scanFloat columns i val = .text val) ∧
      (∃ cols, parseRowDescription payload = .ok cols) ∧
      ((∃ cells, parseDataRow scanFloat columns payload = .ok cells) ↔
        ∀ len ∈ rowLengths payload, -1 ≤ len) := by
  refine ⟨fun _ => parseRowDescription_encode, fun _ => parseDataRow_encode scanFloat columns, ?_,
    parseRowDescription_safe payload, parseDataRow_safe_iff scanFloat columns payload⟩
  intro i c hc hoid val
  simp only [cellAt, hc, convertValue, hoid]

end

theorem rows_decoded_null :
    parseDataRow (fun _ => (0 : Nat)) [⟨ascii "a", 25, ascii "text"⟩]
      [0, 2, 0xFF, 0xFF, 0xFF, 0xFF, 0, 0, 0, 0] = .ok [.null, .text []] ∧
    ∃ cells, parseDataRow (fun _ => (0 : Nat)) [⟨ascii "a", 25, ascii "text"⟩]
      [0, 2, 0xFF, 0xFF, 0xFF, 0xFF, 0, 0, 0, 0] = .ok cells :=
  ⟨by decide +kernel, (rows_decoded (fun _ => 0) _ _).2.2.2.2.mpr (by decide +kernel)⟩

theorem parseDataRow_backwards : rowLengths [0, 1, 0xFF, 0xFF, 0xFF, 0xFE] = [-2] ∧
    parseDataRow (fun _ => (0 : Nat)) [] [0, 1, 0xFF, 0xFF, 0xFF, 0xFE] = .error .outOfRange := by
  decide +kernel

end PgMux.DataApi
