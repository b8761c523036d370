import PgMux.DollarTag
import PgMux.Literal

/-!
# The multiplex synthesizer

The registry of prepared statements and the scanner that splices literals into a text. The scanner's
jumps are modes, and its output is a list of pieces, so that a replaced placeholder stays visible.
-/

namespace PgMux.Synthesizer

open DollarTag Literal

structure PreparedStmt where
  query : Bytes
  paramOIDs : List Nat
  deriving DecidableEq, Repr

inductive SynthError where
  | unknownStatement (name : Bytes)
  | param (number : Nat) (cause : LiteralError)
  deriving DecidableEq, Repr

/-- A copied byte, or a literal in place of the placeholder at `pos`. -/
inductive Piece where
  | byte (b : Byte)
  | lit (pos idx : Nat)
  deriving DecidableEq, Repr

inductive Mode where
  | code | quoted | quotedPair
  | copy (k : Nat)
  | skip (k : Nat)
  deriving DecidableEq, Repr

def placeholder (n : Nat) (w : Bytes) : Option Bytes :=
  let ds := w.takeWhile isDigit
  if w.head?.any (fun c => 49 ≤ c && c ≤ 57) then
    if decimal ds < 2 ^ 63 ∧ 1 ≤ decimal ds ∧ decimal ds ≤ n then some ds else none
  else none

def scan (n : Nat) : Mode → Nat → Bytes → List Piece
  | _, _, [] => []
  | .code, i, c :: w =>
    if c = quote then .byte c :: scan n .quoted (i + 1) w
    else if c = dollar ∧ w ≠ [] then
      match parseDollarTag (c :: w) with
      | some tag =>
        let body := w.drop (tag.length - 1)
        -- A tag that ends the text is written, and then its bytes are scanned once more.
        if body = [] then tag.map .byte ++ .byte c :: scan n .code (i + 1) w
        else
          match index tag body with
          | none => (c :: w).map .byte
          | some k => .byte c :: scan n (.copy (2 * tag.length + k - 2)) (i + 1) w
      | none =>
        match placeholder n w with
        | some ds => .lit i (decimal ds - 1) :: scan n (.skip (ds.length - 1)) (i + 1) w
        | none => .byte c :: scan n .code (i + 1) w
    else .byte c :: scan n .code (i + 1) w
  | .quoted, i, c :: w =>
    if c = quote then
      .byte c :: scan n (if w.head? = some quote then .quotedPair else .code) (i + 1) w
    else .byte c :: scan n .quoted (i + 1) w
  | .quotedPair, i, c :: w => .byte c :: scan n .quoted (i + 1) w
  | .copy 0, i, c :: w => .byte c :: scan n .code (i + 1) w
  | .copy (k + 1), i, c :: w => .byte c :: scan n (.copy k) (i + 1) w
  | .skip 0, i, _ :: w => scan n .code (i + 1) w
  | .skip (k + 1), i, _ :: w => scan n (.skip k) (i + 1) w

section scan

variable (n i : Nat)

@[simp] theorem scan_nil (m : Mode) : scan n m i [] = [] := by
  cases m with
  | copy k | skip k => cases k with
    | zero => rfl
    | succ k => rfl
  | _ => rfl

theorem scan_code_cons (c : Byte) (w : Bytes) :
    scan n .code i (c :: w) =
      if c = quote then .byte c :: scan n .quoted (i + 1) w
      else if c = dollar ∧ w ≠ [] then
        match parseDollarTag (c :: w) with
        | some tag =>
          let body := w.drop (tag.length - 1)
          if body = [] then tag.map .byte ++ .byte c :: scan n .code (i + 1) w
          else
            match index tag body with
            | none => (c :: w).map .byte
            | some k => .byte c :: scan n (.copy (2 * tag.length + k - 2)) (i + 1) w
        | none =>
          match placeholder n w with
          | some ds => .lit i (decimal ds - 1) :: scan n (.skip (ds.length - 1)) (i + 1) w
          | none => .byte c :: scan n .code (i + 1) w
      else .byte c :: scan n .code (i + 1) w := rfl

theorem scan_code_quote (w : Bytes) :
    scan n .code i (quote :: w) = .byte quote :: scan n .quoted (i + 1) w := rfl

theorem scan_code_other {c : Byte} (w : Bytes) (hq : c ≠ quote) (hd : c ≠ dollar) :
    scan n .code i (c :: w) = .byte c :: scan n .code (i + 1) w := by
  rw [scan_code_cons, if_neg hq, if_neg fun h => hd h.1]

theorem scan_code_dollar {w : Bytes} (ht : parseDollarTag (dollar :: w) = none)
    (hp : placeholder n w = none) :
    scan n .code i (dollar :: w) = .byte dollar :: scan n .code (i + 1) w := by
  simp [scan_code_cons, ht, hp]

theorem scan_code_placeholder {w ds : Bytes} (ht : parseDollarTag (dollar :: w) = none)
    (hp : placeholder n w = some ds) :
    scan n .code i (dollar :: w) = .lit i (decimal ds - 1) :: scan n (.skip (ds.length - 1))
      (i + 1) w := by
  have hw : w ≠ [] := by
    rintro rfl
    simp [placeholder] at hp
  simp [scan_code_cons, ht, hp, hw]

theorem scan_code_tag {w tag : Bytes} (ht : parseDollarTag (dollar :: w) = some tag) :
    scan n .code i (dollar :: w) =
      if w.drop (tag.length - 1) = [] then tag.map .byte ++ .byte dollar :: scan n .code (i + 1) w
      else
        match index tag (w.drop (tag.length - 1)) with
        | none => (dollar :: w).map .byte
        | some k => .byte dollar :: scan n (.copy (2 * tag.length + k - 2)) (i + 1) w := by
  have hw : w ≠ [] := by
    rintro rfl
    simp [parseDollarTag] at ht
  simp [scan_code_cons, ht, hw]

theorem scan_quoted_quote (w : Bytes) :
    scan n .quoted i (quote :: w) = .byte quote :: scan n .code (i + 1) w := by
  refine (if_pos rfl).trans ?_
  cases w with
  | nil => rfl
  | cons c w =>
    by_cases hc : c = quote
    · subst hc
      rfl
    · rw [List.head?_cons, if_neg (by simpa using hc)]

theorem scan_quoted_other {c : Byte} (w : Bytes) (hq : c ≠ quote) :
    scan n .quoted i (c :: w) = .byte c :: scan n .quoted (i + 1) w :=
  if_neg hq

theorem scan_copy {k : Nat} {u : Bytes} (w : Bytes) (hu : u.length = k + 1) :
    scan n (.copy k) i (u ++ w) = u.map .byte ++ scan n .code (i + u.length) w := by
  induction k generalizing i u with
  | zero =>
    obtain ⟨c, rfl⟩ := List.length_eq_one_iff.mp hu
    rfl
  | succ k ih =>
    cases u with
    | nil => simp at hu
    | cons c u =>
      have hk : u.length = k + 1 := by simpa using hu
      change .byte c :: scan n (.copy k) (i + 1) (u ++ w) = _
      rw [ih (i + 1) hk, List.length_cons, List.map_cons, List.cons_append, Nat.add_right_comm,
        Nat.add_assoc]

theorem scan_skip {k : Nat} {u : Bytes} (w : Bytes) (hu : u.length = k + 1) :
    scan n (.skip k) i (u ++ w) = scan n .code (i + u.length) w := by
  induction k generalizing i u with
  | zero =>
    obtain ⟨c, rfl⟩ := List.length_eq_one_iff.mp hu
    rfl
  | succ k ih =>
    cases u with
    | nil => simp at hu
    | cons c u =>
      have hk : u.length = k + 1 := by simpa using hu
      change scan n (.skip k) (i + 1) (u ++ w) = _
      rw [ih (i + 1) hk, List.length_cons, Nat.add_right_comm, Nat.add_assoc]

end scan

def pieces (n : Nat) (query : Bytes) : List Piece := scan n .code 0 query

def Piece.render (literals : List Bytes) : Piece → Bytes
  | .byte b => [b]
  | .lit _ idx => literals.getD idx []

def replacePlaceholders (query : Bytes) (literals : List Bytes) : Bytes :=
  (pieces literals.length query).flatMap (Piece.render literals)

def Piece.replaced : Piece → Option (Nat × Nat)
  | .byte _ => none
  | .lit pos idx => some (pos, idx + 1)

def replaced (n : Nat) (query : Bytes) : List (Nat × Nat) :=
  (pieces n query).filterMap Piece.replaced

structure Registry where
  statements : Bytes → Option PreparedStmt

namespace Registry

def new : Registry := ⟨fun _ => none⟩

def registerStatement (r : Registry) (name query : Bytes) (paramOIDs : List Nat) : Registry :=
  ⟨Function.update r.statements name (some ⟨query, paramOIDs⟩)⟩

def getStatement (r : Registry) (name : Bytes) : Option PreparedStmt := r.statements name

def closeStatement (r : Registry) (name : Bytes) : Registry :=
  ⟨Function.update r.statements name none⟩

end Registry

def formatCodeOf (formatCodes : List Int) (i : Nat) : Int :=
  match formatCodes with
  | [fc] => fc
  | fcs => fcs.getD i 0

def paramLiterals (paramOIDs : List Nat) (formatCodes : List Int) :
    Nat → List (Option Bytes) → Except SynthError (List Bytes)
  | _, [] => .ok []
  | i, p :: ps =>
    match paramToLiteral p (paramOIDs.getD i 0) (formatCodeOf formatCodes i) with
    | .error e => .error (.param (i + 1) e)
    | .ok lit => (paramLiterals paramOIDs formatCodes (i + 1) ps).map (lit :: ·)

def PreparedStmt.synthesize (stmt : PreparedStmt) (params : List (Option Bytes))
    (formatCodes : List Int) : Except SynthError Bytes :=
  (paramLiterals stmt.paramOIDs formatCodes 0 params).map (replacePlaceholders stmt.query)

def Registry.synthesize (r : Registry) (stmtName : Bytes) (params : List (Option Bytes))
    (formatCodes : List Int) : Except SynthError Bytes :=
  match r.statements stmtName with
  | none => .error (.unknownStatement stmtName)
  | some stmt => stmt.synthesize params formatCodes

end PgMux.Synthesizer
