import PgMux.Relay

/-!
# What a message sends

The requests that the backends can get for one client message, whatever answers the session meets
while it handles the message.
-/

namespace PgMux.Relay

open Effects Protocol Synthesizer PgQuery
open Router hiding Env
open Pools (Conn Pool)

def inBatch (msg : Message) : Prop :=
  msg.type ∈ [msgParse, msgBind, msgExecute, msgDescribe, msgClose]

instance (msg : Message) : Decidable (inBatch msg) := inferInstanceAs (Decidable (_ ∈ _))

theorem not_terminate_of_inBatch {msg : Message} (h : inBatch msg) : msg.type ≠ msgTerminate := by
  intro hterm
  rw [inBatch, hterm] at h
  revert h
  decide

/-- The texts that a request brings to a backend: the query of a Query message, of a Parse message,
or one that was synthesized. To describe a statement in the multiplex mode, its query is sent in a
Parse message of the proxy. -/
def Request.texts : Request → List Bytes
  | .forward msg => [extractQueryText msg.payload]
  | .synthesized query => [query]
  | .batch buf _ => (buf.filter (·.type == msgParse)).map fun m => (parseParseMessage m.payload).2
  | .describe query => [query]

def parsedQuery (env : Env) (cfg : Config) (query : Bytes) : Option ParseResult :=
  if cfg.astParser then env.parseSQL query else none

def blocked (env : Env) (i : Input) : Bool :=
  let query := extractQueryText i.msg.payload
  i.cfg.firewall.enabled && (checkQuery env i.cfg query (parsedQuery env i.cfg query)).blocked

def describedStatement (payload : Bytes) (synth : Registry) : Option PreparedStmt :=
  match payload with
  | descType :: c :: rest =>
    match cstring (c :: rest) with
    | none => none
    | some (name, _) => if descType = kindPortal then none else synth.getStatement name
  | _ => none

def synthesizedQuery (v : Vars) : Option Bytes :=
  v.muxBindDetail.bind fun detail =>
    (v.synth.synthesize detail.statementName detail.parameters detail.formatCodes).toOption

def extRequests (env : Env) (v : Vars) (i : Input) : List Request :=
  if i.msg.type = msgSync then
    if env.multiplexMode then (synthesizedQuery v).toList.map .synthesized
    else [.batch v.extBuf i.msg]
  else if i.msg.type = msgDescribe ∧ env.multiplexMode then
    (describedStatement i.msg.payload v.synth).toList.map fun stmt => .describe stmt.query
  else []

def requests (env : Env) (v : Vars) (i : Input) : List Request :=
  if i.msg.type = msgQuery then if blocked env i then [] else [.forward i.msg]
  else extRequests env v i

def queryAsks (env : Env) (v : Vars) (i : Input) : List (Option Nat) :=
  let r := routeWithTxState env.toEnv v.session i.now (extractQueryText i.msg.payload)
  if r.1.route = .reader then [if i.cfg.causalConsistency then some r.2.lastWriteLSN else none]
    else []

def batchAsks (v : Vars) : List (Option Nat) := if readsOnly v then [none] else []

def readerAsks (env : Env) (v : Vars) (i : Input) : List (Option Nat) :=
  if i.msg.type = msgQuery then if blocked env i then [] else queryAsks env v i
  else if i.msg.type = msgSync then batchAsks v
  else []

def Sends (rs : List Request) (ls : List (Option Nat)) : Op → Prop
  | .recv _ | .leave _ => False
  | .send _ r => r ∈ rs
  | .acquireReader minLSN => minLSN ∈ ls
  | _ => True

def statuses (env : Env) (v : Vars) (i : Input) : List Byte :=
  if i.msg.type = msgQuery then if blocked env i then [73] else []
  else if i.msg.type = msgSync then [if v.session.inTransaction then 84 else 73]
  else []

theorem handleMultiplexDescribe_cases (payload : Bytes) (synth : Registry) :
    (∃ text, handleMultiplexDescribe payload synth = failWith text true) ∨
      ∃ stmt ∈ describedStatement payload synth, handleMultiplexDescribe payload synth =
        onWriterPool (failWith .cannotAcquireForDescribe true) (describeOn · stmt.query) true := by
  unfold handleMultiplexDescribe describedStatement
  match payload with
  | [] => exact .inl ⟨_, rfl⟩
  | [_] => exact .inl ⟨_, rfl⟩
  | descType :: c :: rest =>
    dsimp only
    cases cstring (c :: rest) with
    | none => exact .inl ⟨_, rfl⟩
    | some named =>
      dsimp only
      split
      · exact .inl ⟨_, rfl⟩
      · cases hstmt : synth.getStatement named.1 with
        | none => exact .inl ⟨_, rfl⟩
        | some stmt => exact .inr ⟨stmt, rfl, rfl⟩

/-! ## Footprints

A footprint is a property of all operations that a program can come to, whatever the answers are. -/

def Basic : Op → Prop
  | .writerPool | .acquireWriter | .acquire _ | .relayDescribe _ | .queryLSN _ | .reset _
  | .release _ _ | .discard _ _ | .nilPool _ | .lookup _ _ | .invalidate _ => True
  | .client m =>
    match m with
    | .readyForQuery _ | .cached _ _ => False
    | _ => True
  | _ => False

class Lets (P : Op → Prop) : Prop where
  basic : ∀ o, Basic o → P o

class Answers (P : Op → Prop) : Prop where
  answer : ∀ m, Basic (.client m) → P (.client m)

instance {P : Op → Prop} [Lets P] : Answers P := ⟨fun _ h => Lets.basic _ h⟩

class LetsRelay (P : Op → Prop) : Prop extends Lets P where
  relay : ∀ c, P (.relay c)
  collect : ∀ c, P (.collect c)

instance (rs : List Request) (ls : List (Option Nat)) : LetsRelay (Sends rs ls) where
  basic o ho := by
    cases o with
    | recv | leave | allow | send | acquireReader => exact ho.elim
    | _ => trivial
  relay _ := trivial
  collect _ := trivial

instance : Lets Basic := ⟨fun _ h => h⟩

theorem all_basic {P : Op → Prop} [Lets P] {o : Op} (h : Basic o) :
    (perform o : Run (Ans o)).All P :=
  .perform (Lets.basic o h)

theorem all_answer {P : Op → Prop} [Answers P] {m : ClientMsg} (h : Basic (.client m)) :
    (toClient m).All P :=
  .perform (Answers.answer m h)

section

variable {P : Op → Prop}

theorem all_sendReadyForQuery (b : Bool) (h : P (.client (.readyForQuery (if b then 84 else 73)))) :
    (sendReadyForQuery b).All P := (Prog.All.perform h).bind fun _ => .pure _

theorem all_onlyIf (b : Bool) {p : Run Unit} (h : p.All P) : (onlyIf b p).All P := by
  cases b with
  | true => exact h
  | false => exact .pure _

theorem all_goOn {p : Run Bool} {v : Vars} (h : p.All P) :
    (do if ← p then return .next v else return .stop v : Run (Flow Vars)).All P := by
  refine h.bind fun ok => ?_
  cases ok <;> exact .pure _

end

section

variable {env : Env} {P : Op → Prop} [Answers P]

theorem all_sendError (text : ErrorText) : (sendError text).All P :=
  .bind (all_answer trivial) fun _ => .pure _

theorem all_failWith (text : ErrorText) (b : Bool) : (failWith text b).All P :=
  (all_sendError _).bind fun _ => .pure _

theorem all_deny (text : ErrorText) (v : Vars) (h : P (.client (.readyForQuery 73))) :
    (do sendError text; sendReadyForQuery false; return .next v : Run (Flow Vars)).All P :=
  (all_sendError _).bind fun _ => (all_sendReadyForQuery false h).bind fun _ => .pure _

theorem all_report {m : ClientMsg} (hm : Basic (.client m)) (v : Vars) : (report m v).All P :=
  all_goOn (all_answer hm)

theorem all_handleParse (i : Input) (v : Vars) : (handleParse env i v).All P := by
  unfold handleParse
  split
  · exact all_report (by trivial) _
  · exact .pure _

theorem all_handleBind (i : Input) (v : Vars) : (handleBind env i v).All P := by
  unfold handleBind
  split
  · cases parseBindMessageFull i.msg.payload with
    | error err => exact (all_sendError _).bind fun _ => .pure _
    | ok detail => exact all_report (by trivial) _
  · exact .pure _

theorem all_handleClose (i : Input) (v : Vars) : (handleClose env i v).All P := by
  unfold handleClose
  dsimp only
  split
  · exact all_report (by trivial) _
  · exact .pure _

end

section

variable {env : Env} {P : Op → Prop} [Lets P]

theorem all_discard (c : Conn) (p : Pool) : (discard c p).All P := all_basic trivial

theorem all_releaseToPool (c : Conn) (p : Option Pool) : (releaseToPool c p).All P := by
  cases p <;> exact .bind (all_basic trivial) fun _ => .pure _

theorem all_discardToPool (c : Conn) (p : Option Pool) : (discardToPool c p).All P := by
  cases p <;> exact .bind (all_basic trivial) fun _ => .pure _

theorem all_giveBack (dirty : Bool) (c : Conn) (p : Option Pool) : (giveBack dirty c p).All P := by
  cases dirty with
  | false => exact all_releaseToPool c p
  | true =>
    refine .bind (all_basic trivial) fun ok => ?_
    cases ok with
    | true => exact all_releaseToPool c p
    | false => exact all_discardToPool c p

theorem all_withWriter {v : Vars} {use : Pool → Conn → Bool → Run (Flow Vars)}
    (huse : ∀ p c acquired, (use p c acquired).All P) : (withWriter v use).All P := by
  refine .bind (all_basic trivial) fun p => .bind ?_ fun r => ?_
  · cases v.boundWriter with
    | some c => exact .pure _
    | none =>
      refine .bind (all_basic trivial) fun c => ?_
      cases c <;> exact .pure _
  · cases r with
    | none => exact (all_sendError _).bind fun _ => .pure _
    | some r => exact huse p r.1 r.2

theorem all_settle (binds ends acquired dirty dirtyAfter : Bool) (c : Conn) (p : Pool) (v : Vars) :
    (settle binds ends acquired dirty dirtyAfter c p v).All P := by
  unfold settle
  split
  · exact .pure _
  split
  · exact all_goOn (all_giveBack _ _ _)
  split
  · exact all_goOn (all_giveBack _ _ _)
  · exact .pure _

theorem all_dropWriter (acquired : Bool) (c : Conn) (p : Pool) (v : Vars) :
    (dropWriter acquired c p v).All P := by
  unfold dropWriter
  split
  · exact (all_discardToPool _ _).bind fun _ => .pure _
  · split
    · exact .pure _
    · refine (all_discardToPool _ _).bind fun ok => ?_
      cases ok <;> exact .pure _

theorem all_lsnAfter (asks : Bool) (c : Conn) : (lsnAfter asks c).All P := by
  cases asks with
  | true => exact all_basic trivial
  | false => exact .pure _

theorem all_onWriterPool (resets : Bool) {unavailable : Run Bool} {use : Conn → Run Bool}
    (hun : unavailable.All P) (huse : ∀ c, (use c).All P) :
    (onWriterPool unavailable use resets).All P := by
  refine .bind (all_basic trivial) fun p => .bind (all_basic trivial) fun c => ?_
  cases c with
  | none => exact hun
  | some c =>
    refine (huse c).bind fun ok => ?_
    cases ok with
    | true => exact all_giveBack _ _ _
    | false => exact (all_discard c p).bind fun _ => .pure _

theorem all_cachedOr (key : Option (Bool × Bytes)) {rest : Run Bool}
    (hcached : ∀ k ∈ key, P (.client (.cached k.1 k.2))) (h : rest.All P) :
    (cachedOr key rest).All P := by
  cases key with
  | none => exact h
  | some k =>
    refine .bind (all_basic trivial) fun hit => ?_
    cases hit with
    | true => exact .perform (hcached k rfl)
    | false => exact h

theorem all_handleMultiplexDescribe (payload : Bytes) (synth : Registry)
    (hr : ∀ c, ∀ stmt ∈ describedStatement payload synth, P (.send c (.describe stmt.query))) :
    (handleMultiplexDescribe payload synth).All P := by
  obtain ⟨text, hfail⟩ | ⟨stmt, hstmt, hask⟩ := handleMultiplexDescribe_cases payload synth
  · exact hfail ▸ all_failWith text true
  · rw [hask]
    refine all_onWriterPool _ (all_failWith _ _) fun c =>
    .bind (.perform (hr c stmt hstmt)) fun ok => ?_
    cases ok with
    | true => exact all_basic trivial
    | false => exact .pure _

theorem all_handleDescribe (i : Input) (v : Vars)
    (hr : ∀ c,
      ∀ r ∈ (if env.multiplexMode then
      (describedStatement i.msg.payload v.synth).toList.map fun stmt => .describe stmt.query
      else [] : List Request), P (.send c r)) : (handleDescribe env i v).All P := by
  unfold handleDescribe
  split
  · rename_i hmux
    rw [if_pos hmux] at hr
    refine all_goOn (all_handleMultiplexDescribe i.msg.payload v.synth fun c stmt hstmt =>
      hr c _ ?_)
    exact List.mem_map_of_mem (Option.mem_toList.mpr hstmt)
  · exact .pure _

end

section

variable {env : Env} {P : Op → Prop} [LetsRelay P] {r : Request}

theorem all_exchange {c : Conn} (hr : P (.send c r)) : (exchange c r).All P := by
  refine (Prog.All.perform hr).bind fun ok => ?_
  cases ok with
  | true => exact .perform (LetsRelay.relay c)
  | false => exact .pure _

theorem all_handleWriteQuery (cfg : Config) {c : Conn} {msg : Message} (query : Bytes)
    (qtype : QueryType)
    (session : Session) (hr : P (.send c (.forward msg))) :
    (handleWriteQuery env cfg c msg query qtype session).All P := by
  refine (all_exchange hr).bind fun ok => ?_
  cases ok with
  | false => exact .pure _
  | true =>
    exact (all_lsnAfter _ _).bind fun lsn => .bind (all_onlyIf _ (all_basic trivial)) fun _ =>
      .pure _

theorem all_writeExtended (synthesized : Bool) (v : Vars) (hr : ∀ c, P (.send c r)) :
    (writeExtended synthesized r v).All P := by
  refine all_withWriter fun p c acquired => (all_exchange (hr c)).bind fun ok => ?_
  cases ok with
  | true => exact all_settle _ _ _ _ _ _ _ _
  | false => exact all_dropWriter _ _ _ _

theorem all_fallbackToWriter (resets : Bool) (hr : ∀ c, P (.send c r)) :
    (fallbackToWriter r resets).All P :=
  all_onWriterPool resets (all_failWith _ _) fun c => all_exchange (hr c)

theorem all_relayReply (collects : Bool) (c : Conn) : (relayReply collects c).All P := by
  cases collects with
  | true => exact .perform (LetsRelay.collect c)
  | false =>
    refine (Prog.All.perform (LetsRelay.relay c)).bind fun ok => ?_
    cases ok <;> exact .pure _

theorem all_readFrom {minLSN : Option Nat} (collects : Bool) {keep : Run Unit} (resets : Bool)
    (hr : ∀ c, P (.send c r)) (hl : P (.acquireReader minLSN)) (hkeep : keep.All P) :
    (readFrom minLSN r collects keep (fallbackToWriter r resets)).All P := by
  have hfall : (fallbackToWriter r resets).All P := all_fallbackToWriter resets hr
  refine (Prog.All.perform hl).bind fun reader => ?_
  cases reader with
  | none => exact hfall
  | some reader =>
    refine (Prog.All.perform (hr reader.1)).bind fun ok => ?_
    cases ok with
    | false => exact (all_discard _ _).bind fun _ => hfall
    | true =>
      refine (all_relayReply collects reader.1).bind fun reply => ?_
      cases reply with
      | none => exact (all_discard _ _).bind fun _ => .pure _
      | some collected => exact .bind (all_basic trivial) fun _ =>
          (all_onlyIf _ hkeep).bind fun _ => .pure _

theorem all_writeSimple (i : Input) (query : Bytes) (pq : Option ParseResult) (r : RoutedTx)
    (v : Vars) (hr : ∀ c, P (.send c (.forward i.msg))) :
    (writeSimple env i query pq r v).All P := by
  refine all_withWriter fun p c acquired =>
    (all_handleWriteQuery _ _ _ _ (hr c)).bind fun session => ?_
  exact all_settle _ _ _ _ _ _ _ _

abbrev LetsCache (P : Op → Prop) : Prop :=
  ∀ extended query, P (.store extended query) ∧ P (.client (.cached extended query))

theorem all_executeQuery (i : Input) (pq : Option ParseResult) (v : Vars)
    (hr : ∀ c, P (.send c (.forward i.msg))) (hl : ∀ l ∈ queryAsks env v i, P (.acquireReader l))
    (hcache : LetsCache P) : (executeQuery env i (extractQueryText i.msg.payload) pq v).All P := by
  unfold queryAsks at hl
  unfold executeQuery
  generalize routeWithTxState env.toEnv v.session i.now (extractQueryText i.msg.payload) = r at hl ⊢
  obtain ⟨routed, session⟩ := r
  dsimp only at hl ⊢
  cases hroute : routed.route with
  | writer => exact all_writeSimple i _ pq routed _ hr
  | reader =>
    rw [hroute] at hl
    have hread := all_readFrom env.queryCache false hr (hl _ (List.mem_singleton.mpr rfl))
      (.perform (hcache false (extractQueryText i.msg.payload)).1)
    exact all_goOn (all_cachedOr _ (fun k _ => (hcache k.1 k.2).2) hread)

theorem all_handleQuery (i : Input) (v : Vars)
    (hr : ∀ c, ∀ r ∈ (if blocked env i then [] else [.forward i.msg] : List Request), P (.send c r))
    (hl : ∀ l ∈ (if blocked env i then [] else queryAsks env v i), P (.acquireReader l))
    (hready : blocked env i = true → P (.client (.readyForQuery 73))) (hcache : LetsCache P) :
    (handleQuery env i v).All P := by
  unfold handleQuery
  change (if blocked env i then _ else _ : Run (Flow Vars)).All _
  cases hblocked : blocked env i with
  | true => exact all_deny _ v (hready hblocked)
  | false =>
    rw [hblocked] at hr hl
    exact all_executeQuery i _ v (fun c => hr c _ (List.mem_singleton.mpr rfl)) hl hcache

theorem all_executeSynthesizedQuery (query : Bytes) (v : Vars)
    (hr : ∀ c, P (.send c (.synthesized query))) (hl : ∀ l ∈ batchAsks v, P (.acquireReader l)) :
    (executeSynthesizedQuery query v).All P := by
  unfold batchAsks at hl
  unfold executeSynthesizedQuery
  cases hreads : readsOnly v with
  | true =>
    rw [hreads] at hl
    exact all_goOn (all_readFrom _ _ hr (hl _ (List.mem_singleton.mpr rfl)) (.pure _))
  | false => exact all_writeExtended _ v hr

theorem all_executeBatch (sync : Message) (v : Vars) (hr : ∀ c, P (.send c (.batch v.extBuf sync)))
    (hl : ∀ l ∈ batchAsks v, P (.acquireReader l)) (hcache : LetsCache P) :
    (executeBatch env sync v).All P := by
  unfold batchAsks at hl
  unfold executeBatch
  cases hreads : readsOnly v with
  | true =>
    rw [hreads] at hl
    refine all_goOn (all_cachedOr _ (fun k _ => (hcache k.1 k.2).2)
      (all_readFrom _ _ hr (hl _ (List.mem_singleton.mpr rfl)) ?_))
    cases (if env.queryCache = true then batchKey v.extBuf else none) with
    | none => exact .pure _
    | some key => exact .perform (hcache true key).1
  | false => exact all_writeExtended _ v hr

theorem all_handleSync (i : Input) (v : Vars)
    (hr : ∀ c,
      ∀ r ∈ (if env.multiplexMode then (synthesizedQuery v).toList.map .synthesized
      else [.batch v.extBuf i.msg] : List Request), P (.send c r))
    (hl : ∀ l ∈ batchAsks v, P (.acquireReader l))
    (hready : P (.client (.readyForQuery (if v.session.inTransaction then 84 else 73))))
    (hcache : LetsCache P) : (handleSync env i v).All P := by
  unfold synthesizedQuery at hr
  unfold handleSync
  split
  · rename_i hmux
    rw [if_pos hmux] at hr
    cases hbind : v.muxBindDetail with
    | none => exact (all_sendReadyForQuery _ hready).bind fun _ => .pure _
    | some detail =>
      rw [hbind, Option.bind_some] at hr
      dsimp only
      cases hsynth :
          v.synth.synthesize detail.statementName detail.parameters detail.formatCodes with
      | error err => exact (all_sendError _).bind fun _ =>
          (all_sendReadyForQuery _ hready).bind fun _ => .pure _
      | ok query =>
        rw [hsynth] at hr
        exact (all_executeSynthesizedQuery query v (fun c => hr c _ (List.mem_singleton.mpr rfl))
          hl).bind fun _ => .pure _
  · rename_i hmux
    rw [if_neg hmux] at hr
    exact (all_executeBatch i.msg v (fun c => hr c _ (List.mem_singleton.mpr rfl)) hl hcache).bind
      fun _ => .pure _

theorem all_dispatch (i : Input) (v : Vars) (hr : ∀ c, ∀ r ∈ requests env v i, P (.send c r))
    (hl : ∀ l ∈ readerAsks env v i, P (.acquireReader l))
    (hready : ∀ status ∈ statuses env v i, P (.client (.readyForQuery status)))
    (hcache : LetsCache P) : (dispatch env i v).All P := by
  unfold requests extRequests at hr
  unfold readerAsks at hl
  unfold statuses at hready
  by_cases hquery : i.msg.type = msgQuery
  · rw [dispatch_query hquery]
    rw [if_pos hquery] at hr hl hready
    refine all_handleQuery i v hr hl (fun hblocked => hready 73 ?_) hcache
    rw [if_pos hblocked]
    exact List.mem_singleton.mpr rfl
  rw [if_neg hquery] at hr hl hready
  by_cases hparse : i.msg.type = msgParse
  · rw [dispatch_parse hparse]
    exact all_handleParse i v
  by_cases hbind : i.msg.type = msgBind
  · rw [dispatch_bind hbind]
    exact all_handleBind i v
  by_cases hclose : i.msg.type = msgClose
  · rw [dispatch_close hclose]
    exact all_handleClose i v
  by_cases hdescribe : i.msg.type = msgDescribe
  · have hsync : i.msg.type ≠ msgSync := by rw [hdescribe]; decide
    rw [dispatch_describe hdescribe]
    rw [if_neg hsync] at hr
    exact all_handleDescribe i v (by simpa only [hdescribe, true_and] using hr)
  by_cases hsync : i.msg.type = msgSync
  · rw [dispatch_sync hsync]
    rw [if_pos hsync] at hr hl hready
    exact all_handleSync i v hr hl (hready _ (List.mem_singleton.mpr rfl)) hcache
  · rw [dispatch_other hquery hparse hbind hclose hdescribe hsync]
    exact .pure _

end

variable {env : Env}

theorem sends_dispatch (i : Input) (v : Vars) :
    (dispatch env i v).All (Sends (requests env v i) (readerAsks env v i)) :=
  all_dispatch i v (fun _ _ h => h) (fun _ h => h) (fun _ _ => trivial) fun _ _ =>
    ⟨trivial, trivial⟩

theorem all_handleMessage (i : Input) (v : Vars) :
    (handleMessage env i v).All (Sends (requests env v i) (readerAsks env v i)) := by
  unfold handleMessage
  split
  · exact .pure _
  refine .bind (.perform trivial) fun admitted => ?_
  cases admitted with
  | true => exact sends_dispatch i v
  | false => exact all_deny _ v trivial

/-! ## Rules

Each rule carries a property `P` of the states through what surrounds an exchange. -/

section

variable {σ : Type} {M : Machine Ans σ} {pre : Op → σ → Prop} {P : σ → Prop} {s : σ}

theorem safe_withWriter {v : Vars} {use : Pool → Conn → Bool → Run (Flow Vars)}
    {Q : Flow Vars → σ → Prop} {φ : Op → Prop} [Lets φ] (hquiet : Stable M pre φ P)
    (hstop : ∀ s, P s → Q (.stop v) s)
    (huse : ∀ p c acquired s, P s → Safe M pre (use p c acquired) Q s) (hs : P s) :
    Safe M pre (withWriter v use) Q s := by
  refine Prog.All.then (all_basic trivial) hquiet hs fun p t ht => ?_
  cases v.boundWriter with
  | some c => exact huse p c false t ht
  | none =>
    refine safe_bind.mpr (Prog.All.then (all_basic trivial) hquiet ht fun c u hu => ?_)
    cases c with
    | none => exact (all_sendError _).then hquiet hu fun _ w hw => hstop w hw
    | some c => exact huse p c true u hu

theorem safe_cachedOr {key : Option (Bool × Bytes)} {rest : Run Bool} {Q : Bool → σ → Prop}
    {φ : Op → Prop} (hlookup : ∀ extended query, φ (.lookup extended query))
    (hquiet : Stable M pre φ P)
    (hhit : ∀ extended query s, P s → Safe M pre (toClient (.cached extended query)) Q s)
    (hrest : ∀ s, P s → Safe M pre rest Q s) (hs : P s) : Safe M pre (cachedOr key rest) Q s := by
  cases key with
  | none => exact hrest s hs
  | some key =>
    refine Prog.All.then (.perform (hlookup key.1 key.2)) hquiet hs fun hit t ht => ?_
    cases hit with
    | true => exact hhit key.1 key.2 t ht
    | false => exact hrest t ht

theorem safe_loop {I Q : Vars → σ → Prop} {φ : Op → Prop} [Lets φ] (n : Nat) (session : Session)
    (hround : ∀ v s, I v s → Safe M pre (round env v) (Flow.Post I Q) s)
    (hend : ∀ v s, I v s → Q v s) (hleave : ∀ v s, Q v s → pre (.leave v) s)
    (hquiet : Stable M pre φ fun _ => True) (hs : I (Vars.init session) s) :
    Safe M pre (relayQueries env n session) (fun _ _ => True) s := by
  refine (Safe.rounds n hround hend hs).bind fun v t ht => ?_
  refine safe_bind.mpr ⟨hleave v t ht, fun _ u _ => ?_⟩
  cases v.boundWriter with
  | none => trivial
  | some c =>
    have hgive : (giveBack v.connDirty c v.boundWriterPool).All φ := all_giveBack _ c _
    exact hgive.then hquiet trivial fun _ _ _ => trivial

theorem safe_session (n : Nat) (session : Session)
    (hround : ∀ v s, P s → Safe M pre (round env v) (fun _ t => P t) s)
    (hleave : ∀ v s, P s → pre (.leave v) s) (hquiet : Stable M pre (Sends [] []) fun _ => True)
    (hs : P s) : Safe M pre (relayQueries env n session) (fun _ _ => True) s := by
  refine safe_loop (I := fun _ => P) (Q := fun _ => P) n session (fun v s h => ?_)
    (fun _ _ h => h) hleave hquiet hs
  refine (hround v s h).mono fun r t ht => ?_
  cases r <;> exact ht

end

end PgMux.Relay
