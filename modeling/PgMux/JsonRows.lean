import Mathlib.Data.Int.Log
import Mathlib.Data.Rat.Floor
import PgMux.MuxReplies
import PgMux.RowCodec

/-!
# Cached responses of the Data API

On a hit the cached JSON is decoded into untyped values, where every number becomes a double, and
encoded again.
-/

namespace PgMux.DataApi

open GoStrings (sanitize sanitize_sanitize)
open Decoding Indexing
open MuxReplies (msgCommandComplete msgRowDescription)
open Protocol (Message)
open Wire (msgDataRow)

/-! ## Doubles -/

def nearestInt (x : ℚ) : ℤ :=
  if x - ⌊x⌋ < 1 / 2 ∨ (x - ⌊x⌋ = 1 / 2 ∧ ⌊x⌋ % 2 = 0) then ⌊x⌋ else ⌊x⌋ + 1

def nearestDouble (q : ℚ) : ℚ :=
  let e := max (-1074) (Int.log 2 |q| - 52)
  nearestInt (q / 2 ^ e) * 2 ^ e

theorem nearestInt_intCast (m : ℤ) : nearestInt m = m := by
  simp [nearestInt]

theorem nearestDouble_of_eq {q : ℚ} (m : ℤ) (h : q = m * 2 ^ max (-1074) (Int.log 2 |q| - 52)) :
    nearestDouble q = q := by
  have hdiv : q / 2 ^ max (-1074) (Int.log 2 |q| - 52) = m := by
    rwa [div_eq_iff (zpow_ne_zero _ two_ne_zero)]
  rw [nearestDouble, hdiv, nearestInt_intCast]
  exact h.symm

theorem nearestDouble_int {n : ℤ} (h : |n| ≤ 2 ^ 53) : nearestDouble n = n := by
  have hq : |(n : ℚ)| ≤ 2 ^ (53 : ℤ) := by exact_mod_cast h
  obtain ⟨e, he⟩ : ∃ e, e = max (-1074) (Int.log 2 |(n : ℚ)| - 52) := ⟨_, rfl⟩
  by_cases hneg : e ≤ 0
  · -- the unit in the last place is one or a part of one
    obtain ⟨k, rfl⟩ := Int.exists_eq_neg_ofNat hneg
    refine nearestDouble_of_eq (n * 2 ^ k) ?_
    rw [← he, zpow_neg, zpow_natCast]
    push_cast
    field_simp
  · have hpos : 0 < |(n : ℚ)| := by
      rw [abs_pos]
      rintro h0
      rw [h0, abs_zero, Int.log_zero_right] at he
      omega
    have hlog : 53 ≤ Int.log 2 |(n : ℚ)| := by omega
    have hle : (2 : ℚ) ^ (53 : ℤ) ≤ |(n : ℚ)| := by
      exact_mod_cast (Int.zpow_le_iff_le_log (b := 2) (by decide) hpos).mpr hlog
    have hlog : Int.log 2 |(n : ℚ)| = 53 := by
      rw [le_antisymm hq hle]
      exact_mod_cast Int.log_zpow (R := ℚ) (b := 2) (by decide) 53
    have habs : |n| = 2 ^ 53 := by exact_mod_cast le_antisymm hq hle
    refine nearestDouble_of_eq (n / 2) ?_
    rw [hlog]
    rcases (abs_eq (by decide)).mp habs with rfl | rfl
    · norm_num
    · norm_num

theorem nearestDouble_odd : nearestDouble (2 ^ 53 + 1) = 2 ^ 53 := by
  have hlog : Int.log 2 |(2 ^ 53 + 1 : ℚ)| = 53 := by
    rw [show |(2 ^ 53 + 1 : ℚ)| = ((2 ^ 53 + 1 : ℕ) : ℚ) by norm_num, Int.log_natCast]
    exact_mod_cast (Nat.log_eq_iff (.inl (by decide))).mpr (by decide)
  rw [nearestDouble, hlog]
  norm_num [nearestInt]

/-! ## Responses -/

structure QueryResponse where
  columns : List Bytes
  types : List Bytes
  rows : List (List (Cell ℚ))
  rowCount : Nat
  command : Bytes
  deriving DecidableEq

def parseCommandComplete (payload : Bytes) : Bytes := payload.takeWhile (· ≠ 0)

def addMessage (scanFloat : Bytes → ℚ) (x : QueryResponse × List ColumnInfo) (msg : Message) :
    Checked (QueryResponse × List ColumnInfo) :=
  if msg.type = msgRowDescription then do
    let columns ← parseRowDescription msg.payload
    return ({ x.1 with
      columns := columns.map ColumnInfo.name, types := columns.map ColumnInfo.typeName }, columns)
  else if msg.type = msgDataRow then do
    let row ← parseDataRow scanFloat x.2 msg.payload
    return ({ x.1 with rows := x.1.rows ++ [row], rowCount := x.1.rowCount + 1 }, x.2)
  else if msg.type = msgCommandComplete then
    return ({ x.1 with command := parseCommandComplete msg.payload }, x.2)
  else return x

def response (scanFloat : Bytes → ℚ) (ms : List Message) :
    Checked (QueryResponse × List ColumnInfo) :=
  ms.foldlM (addMessage scanFloat) (⟨[], [], [], 0, []⟩, [])

inductive Json where
  | null
  | bool (b : Bool)
  | number (q : ℚ)
  | string (s : Bytes)
  deriving DecidableEq

structure Document where
  columns : List Bytes
  types : List Bytes
  rows : List (List Json)
  rowCount : Nat
  command : Bytes

def unmarshal : Json → Cell ℚ
  | .null => .null
  | .bool b => .bool b
  | .number q => .float (nearestDouble q)
  | .string s => .text s

def unmarshalResponse (doc : Document) : QueryResponse :=
  ⟨doc.columns, doc.types, doc.rows.map (List.map unmarshal), doc.rowCount, doc.command⟩

section

variable (writeFloat : ℚ → ℚ)

def marshal : Cell ℚ → Json
  | .null => .null
  | .bool b => .bool b
  | .int n => .number n
  | .float f => .number (writeFloat f)
  | .text s => .string (sanitize s)

def marshalResponse (resp : QueryResponse) : Document :=
  ⟨resp.columns.map sanitize, resp.types.map sanitize,
    resp.rows.map (List.map (marshal writeFloat)), resp.rowCount, sanitize resp.command⟩

def onHit (resp : QueryResponse) : Document :=
  marshalResponse writeFloat (unmarshalResponse (marshalResponse writeFloat resp))

def WritesIntegers : Prop := ∀ n : ℤ, |n| ≤ 2 ^ 53 → writeFloat n = n

/-- The number that is written for the double nearest to the integer is the integer. -/
def WritesBack (n : ℤ) : Prop := writeFloat (nearestDouble n) = n

end

/-! ## Hits -/

def simpleTypes : List Nat := [16, 20, 21, 23, 25]

def IsDescribed (columns : List ColumnInfo) : Prop := ∀ c ∈ columns, c.oid ∈ simpleTypes

def IsSimple : Cell ℚ → Prop
  | .float _ => False
  | _ => True

section

variable {scanFloat : Bytes → ℚ} {writeFloat : ℚ → ℚ} {columns : List ColumnInfo}

theorem isSimple_cellAt (h : IsDescribed columns) (i : Nat) (val : Bytes) :
    IsSimple (cellAt scanFloat columns i val) := by
  unfold cellAt
  cases hc : columns[i]? with
  | none => trivial
  | some c =>
    have hoid := h c (List.mem_of_getElem? hc)
    simp only [simpleTypes, List.mem_cons, List.not_mem_nil, or_false] at hoid
    rcases hoid with hoid | hoid | hoid | hoid | hoid <;> simp [convertValue, hoid, IsSimple]

theorem ends_isSimple (h : IsDescribed columns) {payload : Bytes} {n i pos : Nat} :
    Ends True (fun cells => ∀ c ∈ cells, IsSimple c)
      (readRow scanFloat columns payload n i pos) := by
  have hnull (k : Nat) : ∀ c ∈ List.replicate k Cell.null, IsSimple c := by
    intro c hc
    rw [(List.mem_replicate.mp hc).2]
    trivial
  induction n generalizing i pos with
  | zero => exact List.forall_mem_nil _
  | succ n ih =>
    unfold readRow
    rw [uintAt_eq, ok_bind]
    split_ifs
    · exact hnull _
    · exact hnull _
    dsimp only
    split_ifs
    · exact ih.map fun cells hcells => List.forall_mem_cons.mpr ⟨trivial, hcells⟩
    · exact hnull _
    unfold sliceLen
    split_ifs with hneg
    · trivial
    rw [slice_eq (by omega)]
    exact ih.map fun cells hcells => List.forall_mem_cons.mpr ⟨isSimple_cellAt h _ _, hcells⟩

theorem marshal_unmarshal_iff {c : Cell ℚ} (hc : IsSimple c) :
    marshal writeFloat (unmarshal (marshal writeFloat c)) = marshal writeFloat c ↔
      ∀ n, c = .int n → WritesBack writeFloat n := by
  cases c with
  | null | bool b => simp [marshal, unmarshal]
  | int n => simp [marshal, unmarshal, WritesBack]
  | float f => exact hc.elim
  | text s => simp [marshal, unmarshal, sanitize_sanitize]

def Simple (x : QueryResponse × List ColumnInfo) : Prop :=
  (∀ row ∈ x.1.rows, ∀ c ∈ row, IsSimple c) ∧ IsDescribed x.2

theorem ends_addMessage {x : QueryResponse × List ColumnInfo} {msg : Message} (hx : Simple x)
    (hmsg : msg.type = msgRowDescription → ∀ columns,
      parseRowDescription msg.payload = .ok columns → IsDescribed columns) :
    Ends True Simple (addMessage scanFloat x msg) := by
  unfold addMessage
  split_ifs with hdesc hrow
  · obtain ⟨columns, hcolumns⟩ := parseRowDescription_safe msg.payload
    rw [hcolumns]
    exact ⟨hx.1, hmsg hdesc columns hcolumns⟩
  · have hcells : Ends True (fun cells => ∀ c ∈ cells, IsSimple c)
        (parseDataRow scanFloat x.2 msg.payload) := by
      unfold parseDataRow
      rw [uintAt_eq, ok_bind]
      split_ifs
      · exact List.forall_mem_nil _
      · exact ends_isSimple hx.2
    refine hcells.map fun cells h => ⟨?_, hx.2⟩
    intro row hmem
    rcases List.mem_append.mp hmem with hmem | hmem
    · exact hx.1 row hmem
    · rw [List.mem_singleton.mp hmem]
      exact h
  · exact hx
  · exact hx

theorem ends_addMessages {ms : List Message} {x : QueryResponse × List ColumnInfo} (hx : Simple x)
    (hms : ∀ m ∈ ms, m.type = msgRowDescription → ∀ columns,
      parseRowDescription m.payload = .ok columns → IsDescribed columns) :
    Ends True Simple (ms.foldlM (addMessage scanFloat) x) := by
  induction ms generalizing x with
  | nil => exact hx
  | cons m ms ih =>
    obtain ⟨hm, hms⟩ := List.forall_mem_cons.mp hms
    rw [List.foldlM_cons]
    exact (ends_addMessage hx hm).bind fun y hy => ih hy hms

/-- The hit is the miss just if every integer is the number that is written for the double nearest
to it. For a writer that keeps the value of a double these are the integers that are doubles; up to
2 ^ 53 all are. -/
theorem onHit_eq_miss {ms : List Message} {resp : QueryResponse}
    (htypes : ∀ m ∈ ms, m.type = msgRowDescription →
      ∀ columns, parseRowDescription m.payload = .ok columns → IsDescribed columns)
    (hresp : response scanFloat ms = .ok (resp, columns)) :
    (onHit writeFloat resp = marshalResponse writeFloat resp ↔
      ∀ row ∈ resp.rows, ∀ n, .int n ∈ row → WritesBack writeFloat n) ∧
    ((∀ q, writeFloat (nearestDouble q) = nearestDouble q) →
      (onHit writeFloat resp = marshalResponse writeFloat resp ↔
        ∀ row ∈ resp.rows, ∀ n : ℤ, .int n ∈ row → nearestDouble n = n)) ∧
    (WritesIntegers writeFloat → (∀ row ∈ resp.rows, ∀ n, .int n ∈ row → |n| ≤ 2 ^ 53) →
      onHit writeFloat resp = marshalResponse writeFloat resp) := by
  have hstart : Simple (⟨[], [], [], 0, []⟩, []) := ⟨List.forall_mem_nil _, List.forall_mem_nil _⟩
  have hsimple : Simple (resp, columns) := by
    have hends : Ends True Simple (response scanFloat ms) := ends_addMessages hstart htypes
    rwa [hresp] at hends
  have htexts (l : List Bytes) : (l.map sanitize).map sanitize = l.map sanitize := by
    rw [List.map_map]
    exact List.map_congr_left fun s _ => sanitize_sanitize s
  have hrow {row : List (Cell ℚ)} (hmem : row ∈ resp.rows) :
      ((row.map (marshal writeFloat)).map unmarshal).map (marshal writeFloat) =
        row.map (marshal writeFloat) ↔
      ∀ n, .int n ∈ row → WritesBack writeFloat n := by
    rw [List.map_map, List.map_map, List.map_inj_left]
    constructor
    · intro h n hn
      exact (marshal_unmarshal_iff (hsimple.1 row hmem _ hn)).mp (h _ hn) n rfl
    · intro h c hc
      refine (marshal_unmarshal_iff (hsimple.1 row hmem c hc)).mpr ?_
      rintro n rfl
      exact h n hc
  have hiff : onHit writeFloat resp = marshalResponse writeFloat resp ↔
      ∀ row ∈ resp.rows, ∀ n, .int n ∈ row → WritesBack writeFloat n := by
    simp only [onHit, marshalResponse, unmarshalResponse, htexts, sanitize_sanitize,
      Document.mk.injEq, true_and, and_true]
    rw [List.map_map, List.map_map, List.map_inj_left]
    exact forall₂_congr fun row hmem => hrow hmem
  refine ⟨hiff, fun hkeeps => ?_, fun hwrite hints => hiff.mpr fun row hmem n hn => ?_⟩
  · simpa only [WritesBack, hkeeps] using hiff
  rw [WritesBack, nearestDouble_int (hints row hmem n hn), hwrite n (hints row hmem n hn)]

-- 2 ^ 60 is a double but not written with its own digits.
example : Literal.formatFloat Literal.float64 ((1023 + 60) * 2 ^ 52) =
    ascii "1152921504606847000" := by decide +kernel

end

def intColumn : Bytes :=
  [0, 1] ++ ascii "n" ++ [0, 0, 0, 0, 0, 0, 0, 0, 0, 0, 20, 0, 8, 0xFF, 0xFF, 0xFF, 0xFF, 0, 0]

def oneInt (value : Bytes) : List Message :=
  [⟨msgRowDescription, intColumn⟩, ⟨msgDataRow, [0, 1, 0, 0, 0, value.length.toUInt8] ++ value⟩]

def oneIntResponse (n : ℤ) : QueryResponse := ⟨[ascii "n"], [ascii "int8"], [[.int n]], 1, []⟩

theorem onHit_eq_miss_negative :
    response (fun _ => 0) (oneInt (ascii "-42")) =
      .ok (oneIntResponse (-42), [⟨ascii "n", 20, ascii "int8"⟩]) ∧
    onHit id (oneIntResponse (-42)) = marshalResponse id (oneIntResponse (-42)) := by
  have hresp : response (fun _ => 0) (oneInt (ascii "-42")) =
      .ok (oneIntResponse (-42), [⟨ascii "n", 20, ascii "int8"⟩]) := by decide +kernel
  have hcolumns : parseRowDescription intColumn = .ok [⟨ascii "n", 20, ascii "int8"⟩] := by
    decide +kernel
  refine ⟨hresp, (onHit_eq_miss ?_ hresp).2.2 (fun _ _ => rfl) (by simp [oneIntResponse])⟩
  simp [oneInt, hcolumns, IsDescribed, simpleTypes, show msgDataRow ≠ msgRowDescription by decide]

theorem onHit_changes_int : response (fun _ => 0) (oneInt (ascii "9007199254740993")) =
      .ok (oneIntResponse 9007199254740993, [⟨ascii "n", 20, ascii "int8"⟩]) ∧
    ∀ writeFloat, WritesIntegers writeFloat →
      (marshalResponse writeFloat (oneIntResponse 9007199254740993)).rows =
        [[.number 9007199254740993]] ∧
        (onHit writeFloat (oneIntResponse 9007199254740993)).rows =
          [[.number 9007199254740992]] := by
  refine ⟨by decide +kernel, fun writeFloat hwrite => ⟨rfl, ?_⟩⟩
  have hnearest : nearestDouble 9007199254740993 = 9007199254740992 := by
    have hodd := nearestDouble_odd
    norm_num at hodd ⊢
    exact hodd
  have hwritten : writeFloat 9007199254740992 = 9007199254740992 := by
    exact_mod_cast hwrite 9007199254740992 (by norm_num)
  simp [onHit, oneIntResponse, marshalResponse, unmarshalResponse, marshal, unmarshal, hnearest,
    hwritten]

end PgMux.DataApi
