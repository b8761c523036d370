import PgMux.RelayOps

/-!
# The query loop

`relayQueries` with the functions it calls, as programs over the operations of a session. Calling a
method of a nil pool panics, which ends the session.
-/

namespace PgMux.Relay

open Effects PgQuery Protocol Router Synthesizer
open Firewall hiding Message
open Pools (Conn Pool)

def onlyIf (b : Bool) (p : Run Unit) : Run Unit := if b then p else pure ()

/-! ## Giving connections back -/

def releaseToPool (c : Conn) : Option Pool → Run Bool
  | some p => do
    release c p
    return true
  | none => do
    nilPool c
    return false

def discardToPool (c : Conn) : Option Pool → Run Bool
  | some p => do
    discard c p
    return true
  | none => do
    nilPool c
    return false

def resetAndReleaseToPool (c : Conn) (p : Option Pool) : Run Bool := do
  if ← resetConn c then releaseToPool c p else discardToPool c p

def giveBack (dirty : Bool) (c : Conn) (p : Option Pool) : Run Bool :=
  if dirty then resetAndReleaseToPool c p else releaseToPool c p

def cleanup (v : Vars) : Run Unit := do
  leave v
  match v.boundWriter with
  | none => return
  | some c =>
    let _ ← giveBack v.connDirty c v.boundWriterPool

/-! ## Writer path -/

def acquireWriterConn : Option Conn → Run (Option (Conn × Bool))
  | some c => pure (some (c, false))
  | none => do
    match ← acquireWriter with
    | none => return none
    | some c => return some (c, true)

def withWriter (v : Vars) (use : Pool → Conn → Bool → Run (Flow Vars)) : Run (Flow Vars) := do
  let acquiredPool ← writerPool
  match ← acquireWriterConn v.boundWriter with
  | none =>
    sendError .cannotAcquire
    return .stop v
  | some (wConn, acquired) => use acquiredPool wConn acquired

def exchange (c : Conn) (r : Request) : Run Bool := do
  if ← send c r then relayUntilReady c else return false

def lsnAfter (asks : Bool) (c : Conn) : Run (Option Nat) :=
  if asks then queryCurrentLSN c else pure none

def handleWriteQuery (env : Env) (cfg : Config) (c : Conn) (msg : Message) (query : Bytes)
    (qtype : QueryType) (session : Session) : Run Session := do
  if ← exchange c (.forward msg) then
    let lsn ← lsnAfter (cfg.causalConsistency && qtype == .write) c
    onlyIf (env.queryCache && qtype == .write) (invalidate query)
    return (lsn.map session.setLastWriteLSN).getD session
  else return session

def isBlank (c : Byte) : Bool := c == blank || c == tab

def wordAt (keyword rest : Bytes) : Bool :=
  eqFoldN rest keyword && (rest.drop keyword.length).head?.all isBlank

def isSessionModifying (query : Bytes) : Bool :=
  let rest := query.dropWhile isSpace
  match rest.head?.map fun c => c ||| (0x20 : Byte) with
  | some 115 =>
    eqFoldN rest (ascii "SET") && (rest.drop 3).head?.any isBlank &&
      let word := (rest.drop 4).dropWhile isBlank
      !(eqFoldN word (ascii "LOCAL") && (word.drop 5).head?.any isBlank) &&
        !(eqFoldN word (ascii "TRANSACTION") && 11 < word.length)
  | some 112 => wordAt (ascii "PREPARE") rest
  | some 100 => wordAt (ascii "DECLARE") rest || wordAt (ascii "DEALLOCATE") rest
  | some 108 => wordAt (ascii "LISTEN") rest || wordAt (ascii "LOAD") rest
  | some 117 => wordAt (ascii "UNLISTEN") rest
  | some 99 =>
    eqFoldN rest (ascii "CREATE") && eqFoldN ((rest.drop 6).dropWhile isBlank) (ascii "TEMP")
  | _ => false

/-- The connection is bound, given back at the end of a transaction or outside of one, or kept. -/
def settle (binds ends acquired dirty dirtyAfter : Bool) (wConn : Conn) (acquiredPool : Pool)
    (v : Vars) : Run (Flow Vars) :=
  if binds then
    pure (.next { v with boundWriter := some wConn, boundWriterPool := some acquiredPool })
  else if ends then do
    let v' := { v with boundWriter := none, boundWriterPool := none, connDirty := dirtyAfter }
    if ← giveBack dirty wConn v.boundWriterPool then return .next v' else return .stop v'
  else if acquired then do
    let v' := { v with connDirty := dirtyAfter }
    if ← giveBack dirty wConn (some acquiredPool) then return .next v' else return .stop v'
  else pure (.next v)

def classifyQueryParsed (env : Env) (cfg : Config) (query : Bytes) (pq : Option ParseResult) :
    QueryType :=
  if cfg.astParser then
    match pq with
    | some tree => env.classifyASTWithTree query tree
    | none => env.classifyAST query
  else env.classify query

def writeSimple (env : Env) (i : Input) (query : Bytes) (pq : Option ParseResult)
    (routed : RoutedTx) (v : Vars) : Run (Flow Vars) :=
  withWriter v fun acquiredPool wConn acquired => do
    let qtype := classifyQueryParsed env i.cfg query pq
    let session ← handleWriteQuery env i.cfg wConn i.msg query qtype v.session
    let dirty := v.connDirty || isSessionModifying query
    settle (!routed.wasInTx && routed.nowInTx)
      (routed.wasInTx && !routed.nowInTx) acquired dirty false
      wConn acquiredPool { v with session := session, connDirty := dirty }

def dropWriter (acquired : Bool) (wConn : Conn) (acquiredPool : Pool) (v : Vars) :
    Run (Flow Vars) :=
  if acquired then do
    let _ ← discardToPool wConn (some acquiredPool)
    return .stop v
  else
    match v.boundWriter with
    | none => pure (.stop v)
    | some b => do
      if ← discardToPool b v.boundWriterPool then
        return .stop { v with boundWriter := none, boundWriterPool := none }
      else return .stop v

/-- The writer path of batches and, with `synthesized`, of synthesized queries. -/
def writeExtended (synthesized : Bool) (r : Request) (v : Vars) : Run (Flow Vars) :=
  withWriter v fun acquiredPool wConn acquired => do
    if ← exchange wConn r then
      let session := if v.extTxStart then v.session.setInTransaction true else v.session
      let session := if v.extTxEnd then session.setInTransaction false else session
      settle (v.extTxStart && !v.extTxEnd) v.extTxEnd acquired (synthesized || v.connDirty)
        (synthesized && v.connDirty) wConn acquiredPool { v with session := session }
    else dropWriter acquired wConn acquiredPool v

/-! ## Reader path -/

def onWriterPool (unavailable : Run Bool) (use : Conn → Run Bool) (resets : Bool) : Run Bool := do
  let wPool ← writerPool
  match ← acquire wPool with
  | none => unavailable
  | some wConn =>
    if ← use wConn then
      giveBack resets wConn (some wPool)
    else
      discard wConn wPool
      return false

def failWith (text : ErrorText) (goOn : Bool) : Run Bool := do
  sendError text
  return goOn

def fallbackToWriter (r : Request) (resets : Bool) : Run Bool :=
  onWriterPool (failWith .noBackend false) (exchange · r) resets

def relayReply (collects : Bool) (c : Conn) : Run (Option Bool) :=
  if collects then relayAndCollect c
  else do
    if ← relayUntilReady c then return some false else return none

def readFrom (minLSN : Option Nat) (r : Request) (collects : Bool) (keep : Run Unit)
    (fallback : Run Bool) : Run Bool := do
  match ← acquireReader minLSN with
  | none => fallback
  | some (rConn, rPool) =>
    if ← send rConn r then
      match ← relayReply collects rConn with
      | none =>
        discard rConn rPool
        return false
      | some collected =>
        release rConn rPool
        onlyIf collected keep
        return true
    else
      discard rConn rPool
      fallback

def cachedOr (key : Option (Bool × Bytes)) (rest : Run Bool) : Run Bool :=
  match key with
  | none => rest
  | some (extended, query) => do
    if ← lookup extended query then toClient (.cached extended query) else rest

def handleReadQuery (env : Env) (cfg : Config) (msg : Message) (query : Bytes) (session : Session) :
    Run Bool :=
  cachedOr (if env.queryCache then some (false, query) else none)
    (readFrom (if cfg.causalConsistency then some session.lastWriteLSN else none) (.forward msg)
      env.queryCache (store false query) (fallbackToWriter (.forward msg) false))

def mentionsParameter : Bytes → Bool
  | c :: d :: w => (c == dollar && (49 ≤ d && d ≤ 57)) || mentionsParameter (d :: w)
  | _ => false

def hasParameterPlaceholders (buf : List Message) : Bool :=
  buf.any fun m => m.type == msgParse && mentionsParameter (parseParseMessage m.payload).2

def hasBinaryFormatOrPartialFetch (buf : List Message) : Bool :=
  buf.any fun m =>
    if m.type = msgBind then
      match parseBindMessageFull m.payload with
      | .error _ => true
      | .ok detail => detail.resultFormatCodes.any (· != 0)
    else if m.type = msgExecute then
      match (cstring m.payload).bind fun (_, rest) => uint 4 rest with
      | none => false
      | some (maxRows, _) => maxRows != 0
    else false

def batchKey (buf : List Message) : Option Bytes :=
  match buf with
  | [] => none
  | m :: _ =>
    if !hasParameterPlaceholders buf && !hasBinaryFormatOrPartialFetch buf &&
      m.type == msgParse then
      some (parseParseMessage m.payload).2
    else none

def handleExtendedRead (env : Env) (buf : List Message) (sync : Message) : Run Bool :=
  let key := if env.queryCache then batchKey buf else none
  cachedOr (key.map (true, ·))
    (readFrom none (.batch buf sync) env.queryCache (key.elim (pure ()) (store true))
      (fallbackToWriter (.batch buf sync) true))

def handleSynthesizedRead (query : Bytes) : Run Bool :=
  readFrom none (.synthesized query) false (pure ()) (fallbackToWriter (.synthesized query) true)

def describeOn (c : Conn) (query : Bytes) : Run Bool := do
  if ← send c (.describe query) then relayDescribe c else return false

def handleMultiplexDescribe (payload : Bytes) (synth : Registry) : Run Bool :=
  match payload with
  | descType :: c :: rest =>
    match cstring (c :: rest) with
    | none => failWith .invalidDescribe true
    | some (name, _) =>
      if descType = kindPortal then failWith .portalDescribe true
      else
        match synth.getStatement name with
        | none => failWith (.unknownStatement name) true
        | some stmt =>
          onWriterPool (failWith .cannotAcquireForDescribe true) (describeOn · stmt.query) true
  | _ => failWith .invalidDescribe true

/-! ## Messages -/

def checkQuery (env : Env) (cfg : Config) (query : Bytes) (pq : Option ParseResult) :
    FirewallResult :=
  match pq with
  | some tree => checkFirewallWithTree tree cfg.firewall
  | none => checkFirewall env.parseSQL query cfg.firewall

def executeQuery (env : Env) (i : Input) (query : Bytes) (pq : Option ParseResult) (v : Vars) :
    Run (Flow Vars) :=
  let r := routeWithTxState env.toEnv v.session i.now query
  let v := { v with session := r.2 }
  match r.1.route with
  | .writer => writeSimple env i query pq r.1 v
  | .reader => do
    if ← handleReadQuery env i.cfg i.msg query v.session then return .next v else return .stop v

def handleQuery (env : Env) (i : Input) (v : Vars) : Run (Flow Vars) := do
  let query := extractQueryText i.msg.payload
  let pq := if i.cfg.astParser then env.parseSQL query else none
  let fwResult := checkQuery env i.cfg query pq
  if i.cfg.firewall.enabled && fwResult.blocked then
    sendError (.blocked fwResult.message)
    sendReadyForQuery false
    return .next v
  else executeQuery env i query pq v

def noteStatement (env : Env) (query : Bytes) (route : Route) (v : Vars) : Vars :=
  let upper := upperTrimmed env.toEnv query
  { v with
    extTxStart := v.extTxStart || startsTx upper
    extTxEnd := v.extTxEnd || endsTx upper
    extRoute := if v.session.inTransaction || v.boundWriter.isSome || route == .writer then .writer
      else route }

def buffer (msg : Message) (v : Vars) : Vars := { v with extBuf := v.extBuf ++ [msg] }

def report (m : ClientMsg) (v : Vars) : Run (Flow Vars) := do
  if ← toClient m then return .next v else return .stop v

def parsedStatement (payload : Bytes) : Bytes × Bytes × List Nat :=
  let full := parseParseMessageFull payload
  match full.err with
  | none => (full.stmtName, full.query, full.paramOIDs)
  | some _ =>
    let (stmtName, query) := parseParseMessage payload
    (stmtName, query, full.paramOIDs)

def handleParse (env : Env) (i : Input) (v : Vars) : Run (Flow Vars) :=
  if env.multiplexMode then
    let (stmtName, query, paramOIDs) := parsedStatement i.msg.payload
    let (route, session) := registerStatement env.toEnv v.session i.now stmtName query
    let v := { v with
      session := session, synth := v.synth.registerStatement stmtName query paramOIDs }
    report .parseComplete (noteStatement env query route v)
  else
    let (stmtName, query) := parseParseMessage i.msg.payload
    let (route, session) := registerStatement env.toEnv v.session i.now stmtName query
    pure (.next (buffer i.msg (noteStatement env query route { v with session := session })))

def raiseRoute (stmtName : Bytes) (v : Vars) : Vars :=
  if v.session.statementRoute stmtName == .writer then { v with extRoute := .writer } else v

def handleBind (env : Env) (i : Input) (v : Vars) : Run (Flow Vars) :=
  if env.multiplexMode then
    match parseBindMessageFull i.msg.payload with
    | .error err => do
      sendError (.invalidBind err)
      return .stop v
    | .ok detail =>
      report .bindComplete { raiseRoute detail.statementName v with muxBindDetail := some detail }
  else
    pure (.next (buffer i.msg (raiseRoute (parseBindMessage i.msg.payload).2 v)))

def noteClose (env : Env) (payload : Bytes) (v : Vars) : Vars :=
  let (closeType, name) := parseCloseMessage payload
  if closeType = kindStatement then
    { v with
      session := v.session.closeStatement name
      synth := if env.multiplexMode then v.synth.closeStatement name else v.synth }
  else v

def handleClose (env : Env) (i : Input) (v : Vars) : Run (Flow Vars) :=
  let v := noteClose env i.msg.payload v
  if env.multiplexMode then report .closeComplete v else pure (.next (buffer i.msg v))

def handleDescribe (env : Env) (i : Input) (v : Vars) : Run (Flow Vars) := do
  if env.multiplexMode then
    if ← handleMultiplexDescribe i.msg.payload v.synth then return .next v else return .stop v
  else return .next (buffer i.msg v)

def endBatch (v : Vars) : Vars :=
  { v with
    extBuf := [], extRoute := .reader, extTxStart := false, extTxEnd := false,
    muxBindDetail := none }

def readsOnly (v : Vars) : Bool :=
  v.extRoute == .reader && !v.session.inTransaction && v.boundWriter.isNone

def finishBatch : Flow Vars → Flow Vars
  | .next v => .next (endBatch v)
  | .stop v => .stop v

def executeSynthesizedQuery (query : Bytes) (v : Vars) : Run (Flow Vars) := do
  if readsOnly v then
    if ← handleSynthesizedRead query then return .next v else return .stop v
  else writeExtended true (.synthesized query) v

def executeBatch (env : Env) (sync : Message) (v : Vars) : Run (Flow Vars) := do
  if readsOnly v then
    if ← handleExtendedRead env v.extBuf sync then return .next v else return .stop v
  else writeExtended false (.batch v.extBuf sync) v

def handleSync (env : Env) (i : Input) (v : Vars) : Run (Flow Vars) :=
  if env.multiplexMode then
    match v.muxBindDetail with
    | some detail =>
      match v.synth.synthesize detail.statementName detail.parameters detail.formatCodes with
      | .error err => do
        sendError (.synthesisFailed err)
        sendReadyForQuery v.session.inTransaction
        return .next (endBatch v)
      | .ok query => do return finishBatch (← executeSynthesizedQuery query v)
    | none => do
      sendReadyForQuery v.session.inTransaction
      return .next (endBatch v)
  else do return finishBatch (← executeBatch env i.msg v)

/-- A message behind the rate limiter. -/
def dispatch (env : Env) (i : Input) (v : Vars) : Run (Flow Vars) :=
  if i.msg.type = msgQuery then handleQuery env i v
  else if i.msg.type = msgParse then handleParse env i v
  else if i.msg.type = msgBind then handleBind env i v
  else if i.msg.type = msgClose then handleClose env i v
  else if i.msg.type = msgDescribe then handleDescribe env i v
  else if i.msg.type = msgExecute then
    pure (.next (if env.multiplexMode then v else buffer i.msg v))
  else if i.msg.type = msgSync then handleSync env i v
  else pure (.next (if env.multiplexMode then v else buffer i.msg v))

section

variable {env : Env} {i : Input} {v : Vars}

theorem dispatch_query (h : i.msg.type = msgQuery) : dispatch env i v = handleQuery env i v := by
  rw [dispatch, h]; rfl

theorem dispatch_parse (h : i.msg.type = msgParse) : dispatch env i v = handleParse env i v := by
  rw [dispatch, h]; rfl

theorem dispatch_bind (h : i.msg.type = msgBind) : dispatch env i v = handleBind env i v := by
  rw [dispatch, h]; rfl

theorem dispatch_close (h : i.msg.type = msgClose) : dispatch env i v = handleClose env i v := by
  rw [dispatch, h]; rfl

theorem dispatch_describe (h : i.msg.type = msgDescribe) :
    dispatch env i v = handleDescribe env i v := by
  rw [dispatch, h]; rfl

theorem dispatch_sync (h : i.msg.type = msgSync) : dispatch env i v = handleSync env i v := by
  rw [dispatch, h]; rfl

theorem dispatch_other (hquery : i.msg.type ≠ msgQuery) (hparse : i.msg.type ≠ msgParse)
    (hbind : i.msg.type ≠ msgBind) (hclose : i.msg.type ≠ msgClose)
    (hdescribe : i.msg.type ≠ msgDescribe) (hsync : i.msg.type ≠ msgSync) :
    dispatch env i v = pure (.next (if env.multiplexMode then v else buffer i.msg v)) := by
  rw [dispatch, if_neg hquery, if_neg hparse, if_neg hbind, if_neg hclose, if_neg hdescribe,
    if_neg hsync, ite_self]

end

def handleMessage (env : Env) (i : Input) (v : Vars) : Run (Flow Vars) := do
  if i.msg.type = msgTerminate then return .stop v
  else if ← allow then dispatch env i v
  else
    sendError .tooManyRequests
    sendReadyForQuery false
    return .next v

def round (env : Env) (v : Vars) : Run (Flow Vars) := do
  match ← recv v with
  | none => return .stop v
  | some i => handleMessage env i v

/-- The loop ends after `n` rounds if nothing ends it before. -/
def relayLoop (env : Env) (n : Nat) (v : Vars) : Run Vars := rounds (round env) n v

def relayQueries (env : Env) (n : Nat) (session : Session) : Run Unit := do
  let v ← relayLoop env n (Vars.init session)
  cleanup v

end PgMux.Relay
