import PgMux.Decoding

/-!
# Bind and Parse messages

The bytes of both messages, and the functions that read them back. `ParseBindMessageFull` and
`ParseParseMessageFull` are also given with their slices.
-/

namespace PgMux.Protocol

open Decoding Indexing Literal

/-! ## Encodings -/

def encodeCode (code : Int) : Bytes := putUint 2 (unsigned 16 code)

def encodeParam : Option Bytes → Bytes
  | none => putUint 4 (unsigned 32 (-1))
  | some v => putUint 4 v.length ++ v

def encodeCounted {α : Type} (encode : α → Bytes) (l : List α) : Bytes :=
  putUint 2 l.length ++ l.flatMap encode

def IsCode (code : Int) : Prop := -2 ^ 15 ≤ code ∧ code < 2 ^ 15

structure BindMessageDetail.Valid (d : BindMessageDetail) : Prop where
  portal : 0 ∉ d.portal
  statementName : 0 ∉ d.statementName
  formatCodes : d.formatCodes.length < 2 ^ 16 ∧ ∀ c ∈ d.formatCodes, IsCode c
  parameters : d.parameters.length < 2 ^ 16 ∧ ∀ v, some v ∈ d.parameters → v.length < 2 ^ 31
  resultFormatCodes : d.resultFormatCodes.length < 2 ^ 16 ∧ ∀ c ∈ d.resultFormatCodes, IsCode c

def BindMessageDetail.encode (d : BindMessageDetail) : Bytes :=
  d.portal ++ 0 :: (d.statementName ++ 0 :: (encodeCounted encodeCode d.formatCodes ++
    (encodeCounted encodeParam d.parameters ++ encodeCounted encodeCode d.resultFormatCodes)))

structure ParseMessage.Valid (m : ParseMessage) : Prop where
  stmtName : 0 ∉ m.stmtName
  query : 0 ∉ m.query
  paramOIDs : m.paramOIDs.length < 2 ^ 16 ∧ ∀ oid ∈ m.paramOIDs, oid < 2 ^ 32
  err : m.err = none

def ParseMessage.encode (m : ParseMessage) : Bytes :=
  m.stmtName ++ 0 :: (m.query ++ 0 :: encodeCounted (putUint 4) m.paramOIDs)

def hasOIDCount (payload : Bytes) : Bool :=
  (do
    let (_, rest) ← cstring payload
    let (_, rest) ← cstring rest
    uint 2 rest).isSome

/-! ## Readers -/

section

variable {α β : Type} {data rest : Bytes} {err : Nat → FrameError} {n i : Nat}

theorem ok_bind_iff {x : Except FrameError α} {f : α → Except FrameError β} {b : β} :
    (x >>= f) = .ok b ↔ ∃ a, x = .ok a ∧ f a = .ok b := by
  cases x <;> simp [bind, Except.bind]

theorem orError_eq_ok {e : FrameError} {x : Option α} {a : α} :
    orError e x = .ok a ↔ x = some a := by
  cases x <;> simp [orError]

theorem reads_formatCodes (err : Nat → FrameError) :
    Reads (readFormatCodes err) IsCode encodeCode where
  zero := by simp [readFormatCodes, eq_comm]
  succ {n i data l rest} := by
    simp only [readFormatCodes, ok_bind_iff, orError_eq_ok, Prod.exists, uint_eq_some_iff]
    constructor
    · rintro ⟨v, mid, ⟨hv, rfl⟩, cs, _, hread, hpure⟩
      obtain ⟨rfl, rfl⟩ := Prod.mk.inj (Except.ok.inj hpure)
      obtain ⟨hrange, hcode⟩ := (signedValue_eq_iff (show v < 2 ^ 16 from hv)).mp rfl
      exact ⟨_, cs, mid, rfl, hrange, by rw [encodeCode, ← hcode], hread⟩
    · rintro ⟨c, cs, mid, rfl, hc, rfl, hread⟩
      obtain ⟨hlt, hval⟩ := signedValue_unsigned hc
      exact ⟨_, mid, ⟨hlt, rfl⟩, cs, rest, hread,
        congrArg (fun c => Except.ok (c :: cs, rest)) hval⟩

theorem reads_parameters :
    Reads readParameters (fun p => ∀ v, p = some v → v.length < 2 ^ 31) encodeParam where
  zero := by simp [readParameters, eq_comm]
  succ {n i data l rest} := by
    simp only [readParameters, ok_bind_iff, orError_eq_ok, Prod.exists, uint_eq_some_iff]
    constructor
    · rintro ⟨v, mid, ⟨hv, rfl⟩, hread⟩
      obtain ⟨hrange, hcode⟩ : (-2 ^ 31 ≤ signedValue 32 v ∧ signedValue 32 v < 2 ^ 31) ∧
      v = unsigned 32 (signedValue 32 v) :=
        (signedValue_eq_iff (show v < 2 ^ 32 from hv)).mp rfl
      split_ifs at hread with hnull hbad
      · obtain ⟨⟨ps, _⟩, hrest, hpure⟩ := ok_bind_iff.mp hread
        obtain ⟨rfl, rfl⟩ := Prod.mk.inj (Except.ok.inj hpure)
        exact ⟨none, ps, mid, rfl, by simp, by rw [encodeParam, ← hnull, ← hcode], hrest⟩
      · obtain ⟨⟨ps, _⟩, hrest, hpure⟩ := ok_bind_iff.mp hread
        obtain ⟨rfl, rfl⟩ := Prod.mk.inj (Except.ok.inj hpure)
        have hv : v = (signedValue 32 v).toNat := by rwa [unsigned, if_pos (by omega)] at hcode
        have hlen : (mid.take (signedValue 32 v).toNat).length = (signedValue 32 v).toNat := by
          rw [List.length_take]
          omega
        refine ⟨some (mid.take (signedValue 32 v).toNat), ps, _, rfl, ?_, ?_, hrest⟩
        · rintro _ ⟨⟩
          omega
        · rw [encodeParam, hlen, ← hv, List.append_assoc, hv, List.take_append_drop]
    · rintro ⟨p, ps, mid, rfl, hp, rfl, hread⟩
      cases p with
      | none =>
        refine ⟨unsigned 32 (-1), mid, ⟨by decide, rfl⟩, ?_⟩
        rw [if_pos (by decide), hread]
        rfl
      | some v =>
        have hv := hp v rfl
        have hval : signedValue 32 v.length = v.length := if_pos hv
        refine ⟨v.length, v ++ mid, ⟨by omega, by simp [encodeParam]⟩, ?_⟩
        rw [hval, if_neg (by omega), if_neg (by rw [List.length_append]; omega), Int.toNat_natCast,
          List.take_left, List.drop_left, hread]
        rfl

theorem parseBindMessageFull_eq_ok {payload : Bytes} {d : BindMessageDetail} :
    parseBindMessageFull payload = .ok d ↔ d.Valid ∧ d.encode <+: payload := by
  simp only [parseBindMessageFull, ok_bind_iff, orError_eq_ok, Prod.exists, uint_eq_some_iff,
    cstring_eq_some_iff, (reads_formatCodes _).eq_ok_iff, reads_parameters.eq_ok_iff]
  constructor
  · rintro ⟨portal, _, ⟨hportal, rfl⟩, name, _, ⟨hname, rfl⟩, _, _, ⟨hn, rfl⟩, codes, _,
      ⟨rfl, hcodes, rfl⟩,
      _, _, ⟨hm, rfl⟩, params, _, ⟨rfl, hparams, rfl⟩, _, _, ⟨hk, rfl⟩, results, rest,
      ⟨rfl, hresults, rfl⟩, hpure⟩
    obtain rfl := Except.ok.inj hpure
    exact ⟨⟨hportal, hname, ⟨hn, hcodes⟩, ⟨hm, fun v hv => hparams _ hv v rfl⟩, ⟨hk, hresults⟩⟩,
      rest, by simp [BindMessageDetail.encode, encodeCounted]⟩
  · rintro ⟨hvalid, rest, rfl⟩
    refine ⟨d.portal, _, ⟨hvalid.portal, ?_⟩, d.statementName, _, ⟨hvalid.statementName, rfl⟩, _, _,
      ⟨hvalid.formatCodes.1, rfl⟩, d.formatCodes, _, ⟨rfl, hvalid.formatCodes.2, rfl⟩, _, _,
      ⟨hvalid.parameters.1, rfl⟩, d.parameters, _, ⟨rfl, ?_, rfl⟩, _, _,
      ⟨hvalid.resultFormatCodes.1, rfl⟩, d.resultFormatCodes, rest,
      ⟨rfl, hvalid.resultFormatCodes.2, rfl⟩, rfl⟩
    · simp [BindMessageDetail.encode, encodeCounted]
    · rintro _ hp v rfl
      exact hvalid.parameters.2 v hp

theorem parseBindMessage_eq {payload : Bytes} {d : BindMessageDetail}
    (h : parseBindMessageFull payload = .ok d) :
    parseBindMessage payload = (d.portal, d.statementName) := by
  obtain ⟨hvalid, rest, rfl⟩ := parseBindMessageFull_eq_ok.mp h
  rw [BindMessageDetail.encode, List.append_assoc, List.cons_append, List.append_assoc,
    List.cons_append, parseBindMessage, cstring_eq_some_iff.mpr ⟨hvalid.portal, rfl⟩]
  dsimp only
  rw [cstring_eq_some_iff.mpr ⟨hvalid.statementName, rfl⟩]

theorem readParamOIDs_eq {oids : List Nat} : readParamOIDs n i data = (oids, none) ↔
    oids.length = n ∧ (∀ oid ∈ oids, oid < 2 ^ 32) ∧ oids.flatMap (putUint 4) <+: data := by
  induction n generalizing i data oids with
  | zero =>
    rw [readParamOIDs, List.length_eq_zero_iff]
    constructor
    · rintro ⟨⟩
      simp
    · rintro ⟨rfl, -⟩
      rfl
  | succ n ih =>
    rw [readParamOIDs]
    constructor
    · intro h
      cases hoid : uint 4 data with
      | none => simp [hoid] at h
      | some r =>
        obtain ⟨hlt, rfl⟩ := uint_eq_some_iff.mp hoid
        rw [hoid] at h
        obtain ⟨rfl, herr⟩ := Prod.mk.inj h
        obtain ⟨hlen, hall, hpre⟩ := ih.mp (Prod.ext rfl herr)
        exact ⟨by simp [hlen], List.forall_mem_cons.mpr ⟨hlt, hall⟩, by simpa using hpre⟩
    · rintro ⟨hlen, hall, rest, rfl⟩
      obtain ⟨oid, oids, rfl⟩ := List.exists_cons_of_length_eq_add_one hlen
      obtain ⟨hoid, hall⟩ := List.forall_mem_cons.mp hall
      rw [List.flatMap_cons, List.append_assoc, uint_eq_some_iff.mpr ⟨hoid, rfl⟩]
      dsimp only
      rw [ih.mpr ⟨by simpa using hlen, hall, rest, rfl⟩]

theorem parseParseMessageFull_eq {payload : Bytes} {m : ParseMessage} :
    (parseParseMessageFull payload = m ∧ m.err = none ∧ hasOIDCount payload) ↔ m.Valid ∧
    m.encode <+: payload := by
  constructor
  · rintro ⟨rfl, herr, hcount⟩
    unfold hasOIDCount at hcount
    unfold parseParseMessageFull at herr ⊢
    cases hname : cstring payload with
    | none => simp [hname] at herr
    | some r =>
    obtain ⟨name, data⟩ := r
    simp only [hname] at herr hcount ⊢
    cases hquery : cstring data with
    | none => simp [hquery] at herr
    | some r =>
    obtain ⟨query, data'⟩ := r
    simp only [hquery] at herr hcount ⊢
    cases hn : uint 2 data' with
    | none => simp [hquery, hn] at hcount
    | some r =>
    simp only [hn] at herr ⊢
    obtain ⟨hname', rfl⟩ := cstring_eq_some_iff.mp hname
    obtain ⟨hquery', rfl⟩ := cstring_eq_some_iff.mp hquery
    obtain ⟨hn', rfl⟩ := uint_eq_some_iff.mp hn
    obtain ⟨hlen, hall, hpre⟩ := readParamOIDs_eq.mp (Prod.ext rfl herr)
    exact ⟨⟨hname', hquery', ⟨by rw [hlen]; exact hn', hall⟩,
      herr⟩, by simpa [ParseMessage.encode, encodeCounted, hlen] using hpre⟩
  · rintro ⟨hvalid, rest, rfl⟩
    have hname (r : Bytes) : cstring (m.stmtName ++ 0 :: r) = some (m.stmtName, r) :=
      cstring_eq_some_iff.mpr ⟨hvalid.stmtName, rfl⟩
    have hquery (r : Bytes) : cstring (m.query ++ 0 :: r) = some (m.query, r) :=
      cstring_eq_some_iff.mpr ⟨hvalid.query, rfl⟩
    have hn (r : Bytes) : uint 2 (putUint 2 m.paramOIDs.length ++ r) =
        some (m.paramOIDs.length, r) :=
      uint_eq_some_iff.mpr ⟨hvalid.paramOIDs.1, rfl⟩
    have hoids := (readParamOIDs_eq (n := m.paramOIDs.length) (i := 0)).mpr ⟨rfl,
      hvalid.paramOIDs.2, rest, rfl⟩
    refine ⟨?_, hvalid.err, ?_⟩
    · simp [parseParseMessageFull, ParseMessage.encode, encodeCounted, hname, hquery, hn, hoids,
        ← hvalid.err]
    · simp [hasOIDCount, ParseMessage.encode, encodeCounted, hname, hquery, hn]

end

/-! ## The slices -/

def orErrorAt {α : Type} (err : FrameError) (x : Checked (Option α)) :
    ExceptT FrameError Checked α :=
  ExceptT.mk (x.map (orError err))

def readFormatCodesAt (err : Nat → FrameError) (payload : Bytes) :
    Nat → Nat → Nat → ExceptT FrameError Checked (List Int × Nat)
  | 0, _, pos => return ([], pos)
  | n + 1, i, pos => do
    let (code, pos) ← orErrorAt (err i) (uintAt 2 payload pos)
    let (codes, pos) ← readFormatCodesAt err payload n (i + 1) pos
    return (signedValue 16 code :: codes, pos)

def readParametersAt (payload : Bytes) :
    Nat → Nat → Nat → ExceptT FrameError Checked (List (Option Bytes) × Nat)
  | 0, _, pos => return ([], pos)
  | n + 1, i, pos => do
    let (length, pos) ← orErrorAt (.truncatedParameterLength i) (uintAt 4 payload pos)
    let paramLen := signedValue 32 length
    if paramLen = -1 then
      let (params, pos) ← readParametersAt payload n (i + 1) pos
      return (none :: params, pos)
    else if paramLen < 0 ∨ (payload.length : Int) < pos + paramLen then
      throw (.invalidParameterLength paramLen i)
    else
      let value ← liftM (slice payload pos (pos + paramLen.toNat))
      let (params, pos) ← readParametersAt payload n (i + 1) (pos + paramLen.toNat)
      return (some value :: params, pos)

def parseBindMessageFullAt (payload : Bytes) : ExceptT FrameError Checked BindMessageDetail := do
  let (portal, pos) ← orErrorAt .missingPortalName (cstringAt payload 0)
  let (stmtName, pos) ← orErrorAt .missingStatementName (cstringAt payload pos)
  let (numFmtCodes, pos) ← orErrorAt .truncatedFormatCodeCount (uintAt 2 payload pos)
  let (formatCodes, pos) ← readFormatCodesAt .truncatedFormatCode payload numFmtCodes 0 pos
  let (numParams, pos) ← orErrorAt .truncatedParameterCount (uintAt 2 payload pos)
  let (parameters, pos) ← readParametersAt payload numParams 0 pos
  let (numResultFmtCodes, pos) ← orErrorAt .truncatedResultFormatCodeCount (uintAt 2 payload pos)
  let (resultFormatCodes, _) ← readFormatCodesAt .truncatedResultFormatCode payload
    numResultFmtCodes 0 pos
  return ⟨portal, stmtName, formatCodes, parameters, resultFormatCodes⟩

def readParamOIDsAt : Nat → Nat → Bytes → Checked (List Nat × Option FrameError)
  | 0, _, _ => return ([], none)
  | n + 1, i, rest => do
    if rest.length < 4 then return ([], some (.truncatedParamOID i))
    let oid := bigEndian (← slice rest 0 4)
    let (oids, err) ← readParamOIDsAt n (i + 1) (← sliceFrom rest 4)
    return (oid :: oids, err)

def parseParseMessageFullAt (payload : Bytes) : Checked ParseMessage := do
  match indexByte 0 payload with
  | none => return ⟨[], [], [], some .missingStatementName⟩
  | some nameEnd =>
    let stmtName ← slice payload 0 nameEnd
    let rest ← sliceFrom payload (nameEnd + 1)
    match indexByte 0 rest with
    | none => return ⟨stmtName, [], [], some .missingQuery⟩
    | some queryEnd =>
      let query ← slice rest 0 queryEnd
      let rest ← sliceFrom rest (queryEnd + 1)
      if rest.length < 2 then return ⟨stmtName, query, [], none⟩
      let numParams := bigEndian (← slice rest 0 2)
      let (paramOIDs, err) ← readParamOIDsAt numParams 0 (← sliceFrom rest 2)
      return ⟨stmtName, query, paramOIDs, err⟩

section

variable {payload : Bytes} {pos : Nat}

theorem indexByte_lt {b : Byte} {i : Nat} (h : indexByte b payload = some i) :
    i < payload.length := by
  obtain ⟨u, w, hu, -, rfl⟩ := indexByte_eq_some_iff.mp h
  simp [hu]

theorem mirrors_cstring (err : FrameError) (h : pos ≤ payload.length) :
    Mirrors payload (orErrorAt err (cstringAt payload pos))
      (orError err (cstring (payload.drop pos))) := by
  unfold cstringAt cstring
  rw [sliceFrom, if_pos h]
  cases hend : indexByte 0 (payload.drop pos) with
  | none =>
    simp only [pure_bind, hend]
    exact .error err
  | some e =>
    have hlt := indexByte_lt hend
    rw [List.length_drop] at hlt
    simp only [pure_bind, hend, slice_eq (show pos + e ≤ payload.length by omega), ok_bind,
      Option.map_some, List.drop_drop]
    exact .ok _ (show pos + e + 1 ≤ payload.length by omega)

theorem mirrors_uint (err : FrameError) (size : Nat) (h : pos ≤ payload.length) :
    Mirrors payload (orErrorAt err (uintAt size payload pos))
      (orError err (uint size (payload.drop pos))) := by
  unfold uint
  rw [uintAt_eq, List.length_drop, List.drop_drop]
  by_cases hlt : payload.length < pos + size
  · rw [if_pos hlt, if_pos (by omega)]
    exact .error err
  · rw [if_neg hlt, if_neg (by omega)]
    exact .ok _ (Nat.le_of_not_lt hlt)

theorem mirrors_formatCodes (err : Nat → FrameError) {n i : Nat} (h : pos ≤ payload.length) :
    Mirrors payload (readFormatCodesAt err payload n i pos)
      (readFormatCodes err n i (payload.drop pos)) := by
  induction n generalizing i pos with
  | zero => exact .ok [] h
  | succ n ih => exact (mirrors_uint _ 2 h).bind fun _ _ h => (ih h).bind fun _ _ h => .ok _ h

theorem mirrors_parameters {n i : Nat} (h : pos ≤ payload.length) :
    Mirrors payload (readParametersAt payload n i pos) (readParameters n i (payload.drop pos)) := by
  induction n generalizing i pos with
  | zero => exact .ok [] h
  | succ n ih =>
    refine (mirrors_uint _ 4 h).bind fun length pos h => ?_
    have hbound : ((payload.length : Int) < pos + signedValue 32 length) ↔
        ((payload.drop pos).length : Int) < signedValue 32 length := by
      rw [List.length_drop]
      omega
    simp only [← hbound]
    split_ifs with hnull hbad
    · exact (ih h).bind fun _ _ h => .ok _ h
    · exact .error _
    · have hend : pos + (signedValue 32 length).toNat ≤ payload.length := by omega
      rw [slice_eq hend, List.drop_drop]
      exact (ih hend).bind fun _ _ h => .ok _ h

theorem parseBindMessageFullAt_eq (payload : Bytes) :
    parseBindMessageFullAt payload = liftExcept (parseBindMessageFull payload) :=
  (mirrors_cstring _ (Nat.zero_le _)).bind_eq fun _ _ h =>
      (mirrors_cstring _ h).bind_eq fun _ _ h =>
    (mirrors_uint _ 2 h).bind_eq fun _ _ h => (mirrors_formatCodes _ h).bind_eq fun _ _ h =>
    (mirrors_uint _ 2 h).bind_eq fun _ _ h => (mirrors_parameters h).bind_eq fun _ _ h =>
    (mirrors_uint _ 2 h).bind_eq fun _ _ h => (mirrors_formatCodes _ h).bind_eq fun _ _ _ => rfl

theorem cut_eq {k : Nat} (h : k ≤ payload.length) :
    slice payload 0 k = .ok (payload.take k) ∧ sliceFrom payload k = .ok (payload.drop k) := by
  simp [slice, sliceFrom, h]
  exact ⟨rfl, rfl⟩

theorem readParamOIDsAt_eq (n i : Nat) (rest : Bytes) :
    readParamOIDsAt n i rest = .ok (readParamOIDs n i rest) := by
  induction n generalizing i rest with
  | zero => rfl
  | succ n ih =>
    unfold readParamOIDsAt readParamOIDs uint
    by_cases hlt : rest.length < 4
    · simp only [if_pos hlt]
      rfl
    · simp only [if_neg hlt, cut_eq (Nat.le_of_not_lt hlt), ih]
      rfl

theorem parseParseMessageFullAt_eq (payload : Bytes) :
    parseParseMessageFullAt payload = .ok (parseParseMessageFull payload) := by
  unfold parseParseMessageFullAt parseParseMessageFull cstring
  cases hname : indexByte 0 payload with
  | none => rfl
  | some k =>
    have hk := indexByte_lt hname
    simp only [(cut_eq (Nat.le_of_lt hk)).1, (cut_eq hk).2, ok_bind, Option.map_some]
    cases hquery : indexByte 0 (payload.drop (k + 1)) with
    | none => rfl
    | some j =>
      have hj := indexByte_lt hquery
      simp only [(cut_eq (Nat.le_of_lt hj)).1, (cut_eq hj).2, ok_bind, Option.map_some, uint]
      generalize (payload.drop (k + 1)).drop (j + 1) = rest
      by_cases hlt : rest.length < 2
      · simp only [if_pos hlt]
        rfl
      · simp only [if_neg hlt, cut_eq (Nat.le_of_not_lt hlt), readParamOIDsAt_eq]
        rfl

end

/-- Both messages are decoded exactly, by slices in range, and the short decoders find the same
names. -/
theorem messages_decoded (payload : Bytes) :
    (∀ d : BindMessageDetail, d.Valid → parseBindMessageFull d.encode = .ok d) ∧
      (∀ d, parseBindMessageFull payload = .ok d → d.Valid ∧ d.encode <+: payload) ∧
      parseBindMessageFullAt payload = liftExcept (parseBindMessageFull payload) ∧
      (∀ d, parseBindMessageFull payload = .ok d →
        parseBindMessage payload = (d.portal, d.statementName)) ∧
      (∀ m : ParseMessage, m.Valid → parseParseMessageFull m.encode = m) ∧
      (∀ m, parseParseMessageFull payload = m → m.err = none → hasOIDCount payload → m.Valid ∧
        m.encode <+: payload) ∧
      parseParseMessageFullAt payload = .ok (parseParseMessageFull payload) ∧
      ∀ m, parseParseMessageFull payload = m →
      parseParseMessage payload = (m.stmtName, m.query) := by
  refine ⟨fun d hd => parseBindMessageFull_eq_ok.mpr ⟨hd, List.prefix_rfl⟩,
    fun d => parseBindMessageFull_eq_ok.mp,
    parseBindMessageFullAt_eq payload, fun d => parseBindMessage_eq,
    fun m hm => (parseParseMessageFull_eq.mpr ⟨hm, List.prefix_rfl⟩).1,
    fun m hm herr hcount => parseParseMessageFull_eq.mp ⟨hm, herr, hcount⟩,
    parseParseMessageFullAt_eq payload, ?_⟩
  rintro _ rfl
  exact parseParseMessage_eq payload

end PgMux.Protocol
