import PgMux.Literal

/-!
# Protocol messages

The frontend messages the proxy looks into, with the functions that take their payloads apart.
-/

namespace PgMux.Protocol

open Literal

structure Message where
  type : Byte
  payload : Bytes
  deriving DecidableEq, Repr

abbrev msgBind : Byte := 66
abbrev msgClose : Byte := 67
abbrev msgDescribe : Byte := 68
abbrev msgExecute : Byte := 69
abbrev msgParse : Byte := 80
abbrev msgQuery : Byte := 81
abbrev msgSync : Byte := 83
abbrev msgTerminate : Byte := 88

abbrev kindStatement : Byte := 83

abbrev kindPortal : Byte := 80

inductive FrameError where
  | missingPortalName | missingStatementName | missingQuery
  | truncatedParamOID (i : Nat)
  | truncatedFormatCodeCount
  | truncatedFormatCode (i : Nat)
  | truncatedParameterCount
  | truncatedParameterLength (i : Nat)
  | invalidParameterLength (length : Int) (i : Nat)
  | truncatedResultFormatCodeCount
  | truncatedResultFormatCode (i : Nat)
  deriving DecidableEq, Repr

def cstring (data : Bytes) : Option (Bytes × Bytes) :=
  (indexByte 0 data).map fun k => (data.take k, data.drop (k + 1))

def uint (size : Nat) (data : Bytes) : Option (Nat × Bytes) :=
  if data.length < size then none else some (bigEndian (data.take size), data.drop size)

def extractQueryText (payload : Bytes) : Bytes :=
  match cstring payload with
  | none => payload
  | some (text, _) => text

def parseParseMessage (payload : Bytes) : Bytes × Bytes :=
  match cstring payload with
  | none => ([], [])
  | some (stmtName, rest) =>
    match cstring rest with
    | none => (stmtName, [])
    | some (query, _) => (stmtName, query)

structure ParseMessage where
  stmtName : Bytes
  query : Bytes
  paramOIDs : List Nat
  err : Option FrameError
  deriving DecidableEq, Repr

def readParamOIDs : Nat → Nat → Bytes → List Nat × Option FrameError
  | 0, _, _ => ([], none)
  | n + 1, i, data =>
    match uint 4 data with
    | none => ([], some (.truncatedParamOID i))
    | some (oid, rest) =>
      let (oids, err) := readParamOIDs n (i + 1) rest
      (oid :: oids, err)

def parseParseMessageFull (payload : Bytes) : ParseMessage :=
  match cstring payload with
  | none => ⟨[], [], [], some .missingStatementName⟩
  | some (stmtName, rest) =>
    match cstring rest with
    | none => ⟨stmtName, [], [], some .missingQuery⟩
    | some (query, rest) =>
      match uint 2 rest with
      | none => ⟨stmtName, query, [], none⟩
      | some (numParams, rest) =>
        let (oids, err) := readParamOIDs numParams 0 rest
        ⟨stmtName, query, oids, err⟩

theorem parseParseMessage_eq (payload : Bytes) :
    parseParseMessage payload = ((parseParseMessageFull payload).stmtName,
      (parseParseMessageFull payload).query) := by
  unfold parseParseMessage parseParseMessageFull
  cases cstring payload with
  | none => rfl
  | some r =>
    cases hquery : cstring r.2 with
    | none => simp [hquery]
    | some r' =>
      cases hn : uint 2 r'.2 <;> simp [hquery, hn]

def parseBindMessage (payload : Bytes) : Bytes × Bytes :=
  match cstring payload with
  | none => ([], [])
  | some (portal, rest) =>
    match cstring rest with
    | none => (portal, [])
    | some (stmtName, _) => (portal, stmtName)

structure BindMessageDetail where
  portal : Bytes
  statementName : Bytes
  formatCodes : List Int
  parameters : List (Option Bytes)
  resultFormatCodes : List Int
  deriving DecidableEq, Repr

def orError {α : Type} (err : FrameError) (x : Option α) : Except FrameError α :=
  match x with
  | none => .error err
  | some a => .ok a

def readFormatCodes (err : Nat → FrameError) :
    Nat → Nat → Bytes → Except FrameError (List Int × Bytes)
  | 0, _, data => .ok ([], data)
  | n + 1, i, data => do
    let (code, data) ← orError (err i) (uint 2 data)
    let (codes, data) ← readFormatCodes err n (i + 1) data
    return (signedValue 16 code :: codes, data)

def readParameters : Nat → Nat → Bytes → Except FrameError (List (Option Bytes) × Bytes)
  | 0, _, data => .ok ([], data)
  | n + 1, i, data => do
    let (length, data) ← orError (.truncatedParameterLength i) (uint 4 data)
    let paramLen := signedValue 32 length
    if paramLen = -1 then
      let (params, data) ← readParameters n (i + 1) data
      return (none :: params, data)
    else if paramLen < 0 ∨ (data.length : Int) < paramLen then
      .error (.invalidParameterLength paramLen i)
    else
      let (params, rest) ← readParameters n (i + 1) (data.drop paramLen.toNat)
      return (some (data.take paramLen.toNat) :: params, rest)

def parseBindMessageFull (payload : Bytes) : Except FrameError BindMessageDetail := do
  let (portal, data) ← orError .missingPortalName (cstring payload)
  let (stmtName, data) ← orError .missingStatementName (cstring data)
  let (numFmtCodes, data) ← orError .truncatedFormatCodeCount (uint 2 data)
  let (formatCodes, data) ← readFormatCodes .truncatedFormatCode numFmtCodes 0 data
  let (numParams, data) ← orError .truncatedParameterCount (uint 2 data)
  let (parameters, data) ← readParameters numParams 0 data
  let (numResultFmtCodes, data) ← orError .truncatedResultFormatCodeCount (uint 2 data)
  let (resultFormatCodes, _) ← readFormatCodes .truncatedResultFormatCode numResultFmtCodes 0 data
  return ⟨portal, stmtName, formatCodes, parameters, resultFormatCodes⟩

def parseCloseMessage (payload : Bytes) : Byte × Bytes :=
  match payload with
  | closeType :: c :: rest =>
    match cstring (c :: rest) with
    | none => (closeType, [])
    | some (name, _) => (closeType, name)
  | _ => (0, [])

end PgMux.Protocol
