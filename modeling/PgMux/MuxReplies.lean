import PgMux.ReadPaths

/-!
# Replies of the multiplex mode

The proxy itself completes the Parse and the Bind, an exchange of its own describes the statement,
and the reply to a simple query stands in for the Execute and the Sync. The reply of PostgreSQL to
the batch is stated next to it.
-/

namespace PgMux.MuxReplies

open Effects Protocol Relay
open Pools (Conn Pool)
open ReadPaths (msgParseComplete msgCloseComplete)
open Wire (WireAns msgDataRow msgErrorResponse msgReadyForQuery)

abbrev msgBindComplete : Byte := 50
abbrev msgCommandComplete : Byte := 67
abbrev msgRowDescription : Byte := 84
abbrev msgNoData : Byte := 110
abbrev msgPortalSuspended : Byte := 115
abbrev msgParameterDescription : Byte := 116

/-! ## Statements on a backend -/

structure Outcome where
  fields : Option (List Int → Bytes)
  rows : List (List Int → Bytes)
  params : Bytes
  tag : Bytes
  rows_nil : fields = none → rows = []

inductive Described where
  | statement | portal
  deriving DecidableEq, Repr

namespace Outcome

variable (o : Outcome)

def described (formats : List Int) : Message :=
  match o.fields with
  | some fields => ⟨msgRowDescription, fields formats⟩
  | none => ⟨msgNoData, []⟩

def dataRows (formats : List Int) : List Message := o.rows.map fun row => ⟨msgDataRow, row formats⟩

def complete : Message := ⟨msgCommandComplete, o.tag⟩

def ready : Message := ⟨msgReadyForQuery, [73]⟩

def describeReply (formats : List Int) : Described → List Message
  | .statement => [⟨msgParameterDescription, o.params⟩, o.described []]
  | .portal => [o.described formats]

def executeReply (formats : List Int) (maxRows : Nat) : List Message :=
  if 0 < maxRows ∧ maxRows ≤ o.rows.length then
    (o.dataRows formats).take maxRows ++ [⟨msgPortalSuspended, []⟩]
  else o.dataRows formats ++ [o.complete]

def extendedReply (formats : List Int) (asked : Option Described) (maxRows : Nat) : List Message :=
  [⟨msgParseComplete, []⟩, ⟨msgBindComplete, []⟩] ++
    (asked.map (o.describeReply formats)).getD [] ++ o.executeReply formats maxRows ++ [ready]

def simpleReply : List Message :=
  (o.fields.map fun fields => (⟨msgRowDescription, fields []⟩ : Message)).toList ++ o.dataRows [] ++
    [o.complete, ready]

def describeExchange : List Message :=
  [⟨msgParseComplete, []⟩, ⟨msgParameterDescription, o.params⟩, o.described [],
    ⟨msgCloseComplete, []⟩, ready]

end Outcome

/-! ## Backends that serve -/

structure Backends where
  pool : Pool
  writer : Conn
  reader : Option (Conn × Pool)
  outcome : Outcome
  describes : Bool

def Backends.reply (b : Backends) : Request → List Message
  | .synthesized _ => b.outcome.simpleReply
  | .describe _ => if b.describes then b.outcome.describeExchange
      else [⟨msgErrorResponse, []⟩, Outcome.ready]
  | .forward _ | .batch _ _ => []

structure Stage where
  inputs : List Input
  client : List Message
  pending : Conn → List Message

def said : ClientMsg → List Message
  | .error _ => [⟨msgErrorResponse, []⟩]
  | .readyForQuery status => [⟨msgReadyForQuery, [status]⟩]
  | .parseComplete => [⟨msgParseComplete, []⟩]
  | .bindComplete => [⟨msgBindComplete, []⟩]
  | .closeComplete => [⟨msgCloseComplete, []⟩]
  | .cached _ _ => []

def wireWorld : World WireAns (List Message × List Message)
  | .request _, s | .forward _, s => (true, s)
  | .read, (pending, client) => (pending.head?, (pending.tail, client))
  | .toClient m, (pending, client) => (true, (pending, client ++ [m]))
  | .fromClient, s => (none, s)
  | .copyBoth, s => (false, s)

def Stage.relays (s : Stage) (c : Conn) (relay : Nat → Wire.Talk (Option Bool)) : Bool × Stage :=
  let r := eval wireWorld (relay (s.pending c).length) (s.pending c, s.client)
  (r.1 == some true, { s with client := r.2.2, pending := Function.update s.pending c r.2.1 })

def world (b : Backends) : World Ans Stage
  | .recv _, s => (s.inputs.head?, { s with inputs := s.inputs.tail })
  | .client m, s => (true, { s with client := s.client ++ said m })
  | .writerPool, s => (b.pool, s)
  | .acquireWriter, s | .acquire _, s => (some b.writer, s)
  | .acquireReader _, s => (b.reader, s)
  | .send c r, s => (true, { s with pending := Function.update s.pending c (b.reply r) })
  | .relay c, s => s.relays c Wire.relayUntilReady
  | .relayDescribe c, s => s.relays c ReadPaths.relayDescribe
  | .collect _, s => (none, s)
  | .queryLSN _, s => (none, s)
  | .allow, s | .reset _, s => (true, s)
  | .lookup _ _, s => (false, s)
  | .leave _, s | .release _ _, s | .discard _ _, s | .nilPool _, s | .store _ _, s
  | .invalidate _, s => ((), s)

/-! ## What the relays do -/

def Plain (m : Message) : Prop :=
  m.type ∉ [msgReadyForQuery, Wire.msgCopyInResponse, Wire.msgCopyOutResponse,
    Wire.msgCopyBothResponse]

theorem eval_pass {α : Type} (failure : α) (go : Message → Wire.Talk α) (m : Message)
    (rest client : List Message) :
    eval wireWorld (Wire.pass failure go) (m :: rest, client) = eval wireWorld (go m)
      (rest, client ++ [m]) := rfl

theorem eval_relayUntilReady {body : List Message} (h : ∀ m ∈ body, Plain m)
    (client : List Message) :
    eval wireWorld (Wire.relayUntilReady (body ++ [Outcome.ready]).length)
      (body ++ [Outcome.ready], client) =
      (some true, ([], client ++ (body ++ [Outcome.ready]))) := by
  induction body generalizing client with
  | nil => rfl
  | cons m body ih =>
    have hplain := h m List.mem_cons_self
    simp only [Plain, List.mem_cons, List.not_mem_nil, or_false, not_or] at hplain
    obtain ⟨hready, hin, hout, hboth⟩ := hplain
    have hcopy : Wire.relayCopy m.type (body ++ [Outcome.ready]).length = pure (some true) := by
      simp [Wire.relayCopy, hin, hout, hboth]
    change eval wireWorld (Wire.relayUntilReady ((body ++ [Outcome.ready]).length + 1))
      (m :: (body ++ [Outcome.ready]), client) = _
    rw [Wire.relayUntilReady, eval_pass, if_neg hready, hcopy]
    refine (ih (fun x hx => h x (List.mem_cons_of_mem _ hx)) _).trans ?_
    simp

def kept (m : Message) : Bool := m.type ≠ msgParseComplete ∧ m.type ≠ msgCloseComplete

theorem eval_relayDescribe {body : List Message} (h : ∀ m ∈ body, m.type ≠ msgReadyForQuery)
    (client : List Message) :
    eval wireWorld (ReadPaths.relayDescribe (body ++ [Outcome.ready]).length)
      (body ++ [Outcome.ready], client) = (some true, ([], client ++ body.filter kept)) := by
  induction body generalizing client with
  | nil =>
    rw [List.filter_nil, List.append_nil]
    rfl
  | cons m body ih =>
    have hready := h m List.mem_cons_self
    have hrest := ih fun x hx => h x (List.mem_cons_of_mem _ hx)
    change eval wireWorld (if m.type = msgParseComplete ∨ m.type = msgCloseComplete then _ else _)
      (body ++ [Outcome.ready], client) = _
    by_cases hskip : m.type = msgParseComplete ∨ m.type = msgCloseComplete
    · rw [if_pos hskip, List.filter_cons_of_neg (by simp [kept]; tauto)]
      exact hrest client
    · rw [if_neg hskip, if_neg hready, List.filter_cons_of_pos (by simp [kept]; tauto)]
      refine (hrest (client ++ [m])).trans ?_
      simp

/-! ## What the session does -/

def Stage.got (s : Stage) (c : Conn) (reply : List Message) : Stage :=
  { s with client := s.client ++ reply, pending := Function.update s.pending c [] }

def Backends.description (b : Backends) : List Message :=
  if b.describes then b.outcome.describeReply [] .statement else [⟨msgErrorResponse, []⟩]

section

variable {b : Backends} {s t : Stage} {c : Conn} {query : Bytes}

theorem plain_simpleReply (o : Outcome) :
    ∃ body, o.simpleReply = body ++ [Outcome.ready] ∧ ∀ m ∈ body, Plain m := by
  refine ⟨(o.fields.map fun fields => (⟨msgRowDescription, fields []⟩ : Message)).toList ++
    o.dataRows [] ++ [o.complete], by simp [Outcome.simpleReply], fun m hm => ?_⟩
  simp only [List.mem_append, Option.mem_toList, Option.map_eq_some_iff, Outcome.dataRows,
    List.mem_map, List.mem_singleton] at hm
  obtain ⟨⟨_, _, rfl⟩ | ⟨_, _, rfl⟩⟩ | rfl := hm
  · exact show msgRowDescription ∉ _ by decide
  · exact show msgDataRow ∉ _ by decide
  · exact show msgCommandComplete ∉ _ by decide

def Stage.asked (s : Stage) (b : Backends) (c : Conn) : Stage :=
  { s with pending := Function.update s.pending c b.outcome.simpleReply }

theorem world_relay (b : Backends) (s : Stage) (c : Conn) :
    world b (.relay c) (s.asked b c) = (true, s.got c b.outcome.simpleReply) := by
  obtain ⟨body, hbody, hplain⟩ := plain_simpleReply b.outcome
  have hrelay := eval_relayUntilReady hplain s.client
  rw [← hbody] at hrelay
  simp [world, Stage.relays, Stage.asked, hrelay, Stage.got]

theorem eval_exchange (c : Conn) (query : Bytes) :
    eval (world b) (exchange c (.synthesized query)) s = (true, s.got c b.outcome.simpleReply) :=
  world_relay b s c

theorem eval_describeOn (c : Conn) (query : Bytes) :
    eval (world b) (describeOn c query) s = (true, s.got c b.description) := by
  have hrelay : eval wireWorld (ReadPaths.relayDescribe (b.reply (.describe query)).length)
      (b.reply (.describe query), s.client) = (some true, ([], s.client ++ b.description)) := by
    simp only [Backends.reply, Backends.description]
    split
    · have hrows : (b.outcome.described []).type ≠ msgReadyForQuery := by
        simp only [Outcome.described]
        cases b.outcome.fields with
        | none => exact show msgNoData ≠ _ by decide
        | some fields => exact show msgRowDescription ≠ _ by decide
      have hbody :
          ∀ m ∈ [⟨msgParseComplete, []⟩, ⟨msgParameterDescription, b.outcome.params⟩,
          b.outcome.described [], (⟨msgCloseComplete, []⟩ : Message)], m.type ≠ msgReadyForQuery :=
        List.forall_mem_cons.mpr
          ⟨by decide, List.forall_mem_cons.mpr ⟨show msgParameterDescription ≠ _ by decide,
          List.forall_mem_cons.mpr ⟨hrows,
            List.forall_mem_cons.mpr ⟨by decide, List.forall_mem_nil _⟩⟩⟩⟩
      refine (eval_relayDescribe hbody s.client).trans ?_
      simp only [Outcome.describeReply, Outcome.described]
      cases b.outcome.fields <;> rfl
    · have hbody : ∀ m ∈ [(⟨msgErrorResponse, []⟩ : Message)],
        m.type ≠ msgReadyForQuery := by decide
      exact eval_relayDescribe hbody s.client
  change Stage.relays { s with pending := Function.update s.pending c (b.reply (.describe query)) }
    c
    ReadPaths.relayDescribe = _
  simp [Stage.relays, hrelay, Stage.got]

theorem eval_giveBack (dirty : Bool) (c : Conn) (p : Option Pool) :
    eval (world b) (giveBack dirty c p) s = (p.isSome, s) := by
  cases dirty with
  | true | false => cases p <;> rfl

theorem eval_onWriterPool {unavailable : Run Bool} {use : Conn → Run Bool} (resets : Bool)
    (huse : eval (world b) (use b.writer) s = (true, t)) :
    eval (world b) (onWriterPool unavailable use resets) s = (true, t) := by
  change eval (world b) (use b.writer >>= _) s = _
  rw [eval_bind, huse]
  exact eval_giveBack resets _ _

theorem eval_relayReply (c : Conn) :
    eval (world b) (relayReply false c)
      (s.asked b c) = (some false, s.got c b.outcome.simpleReply) := by
  change eval (world b) (relayUntilReady c >>= _) _ = _
  rw [eval_bind, eval_perform, world_relay]
  rfl

theorem eval_handleSynthesizedRead (query : Bytes) :
    ∃ c, eval (world b) (handleSynthesizedRead query) s = (true,
      s.got c b.outcome.simpleReply) := by
  have hfallback : eval (world b) (fallbackToWriter (.synthesized query) true) s =
      (true, s.got b.writer b.outcome.simpleReply) :=
      eval_onWriterPool true (eval_exchange b.writer query)
  rw [handleSynthesizedRead, readFrom, eval_bind, eval_perform, world]
  cases hreader : b.reader with
  | none => exact ⟨b.writer, hfallback⟩
  | some r =>
    refine ⟨r.1, ?_⟩
    change eval (world b) (relayReply false r.1 >>= _) (s.asked b r.1) = _
    rw [eval_bind, eval_relayReply]
    rfl

theorem eval_settle (binds ends acquired dirty dirtyAfter : Bool) (c : Conn) (p : Pool) (v : Vars) :
    ∃ r, eval (world b) (settle binds ends acquired dirty dirtyAfter c p v) s = (r, s) := by
  unfold settle
  split
  · exact ⟨_, rfl⟩
  split
  · rw [eval_bind, eval_giveBack]
    cases v.boundWriterPool <;> exact ⟨_, rfl⟩
  split
  · rw [eval_bind, eval_giveBack]
    exact ⟨_, rfl⟩
  · exact ⟨_, rfl⟩

theorem eval_writeExtended (query : Bytes) (v : Vars) :
    ∃ r c, eval (world b) (writeExtended true (.synthesized query) v) s =
      (r, s.got c b.outcome.simpleReply) := by
  have huse : ∀ c acquired, ∃ r, eval (world b) (do
      if ← exchange c (.synthesized query) then
        let session := if v.extTxStart then v.session.setInTransaction true else v.session
        let session := if v.extTxEnd then session.setInTransaction false else session
        settle (v.extTxStart && !v.extTxEnd) v.extTxEnd acquired (true || v.connDirty)
          (true && v.connDirty) c b.pool
          { v with session := session }
      else dropWriter acquired c b.pool v) s = (r, s.got c b.outcome.simpleReply) := by
    intro c acquired
    rw [eval_bind, eval_exchange]
    exact eval_settle _ _ _ _ _ _ _ _
  cases hbound : v.boundWriter with
  | none =>
    obtain ⟨r, hr⟩ := huse b.writer true
    refine ⟨r, b.writer, hr ▸ ?_⟩
    rw [writeExtended, withWriter, hbound]
    rfl
  | some c =>
    obtain ⟨r, hr⟩ := huse c false
    refine ⟨r, c, hr ▸ ?_⟩
    rw [writeExtended, withWriter, hbound]
    rfl

theorem eval_executeSynthesizedQuery (query : Bytes) (v : Vars) :
    ∃ r c, eval (world b) (executeSynthesizedQuery query v) s =
      (r, s.got c b.outcome.simpleReply) := by
  unfold executeSynthesizedQuery
  split
  · obtain ⟨c, hread⟩ := eval_handleSynthesizedRead (b := b) (s := s) query
    refine ⟨.next v, c, ?_⟩
    rw [eval_bind, hread]
    rfl
  · exact eval_writeExtended query v

end

/-! ## A batch -/

def maxRows (payload : Bytes) : Nat :=
  (((cstring payload).bind fun (_, rest) => uint 4 rest).map Prod.fst).getD 0

def Described.kind : Described → Byte
  | .statement => kindStatement
  | .portal => kindPortal

structure Batch where
  parse : Input
  bind : Input
  describe : Option (Described × Input)
  execute : Input
  sync : Input
  detail : BindMessageDetail
  parse_type : parse.msg.type = msgParse
  bind_type : bind.msg.type = msgBind
  execute_type : execute.msg.type = msgExecute
  sync_type : sync.msg.type = msgSync
  bind_detail : parseBindMessageFull bind.msg.payload = .ok detail
  bind_name : detail.statementName = (parsedStatement parse.msg.payload).1
  describe_type : ∀ d ∈ describe, d.2.msg.type = msgDescribe
  describe_name : ∀ d ∈ describe, ∃ c data rest, d.2.msg.payload = d.1.kind :: c :: data ∧
    cstring (c :: data) = some (if d.1 = .statement then detail.statementName
      else detail.portal, rest)

namespace Batch

variable (x : Batch)

def inputs : List Input :=
  [x.parse, x.bind] ++ (x.describe.map Prod.snd).toList ++ [x.execute, x.sync]

def synthesized : Except Synthesizer.SynthError Bytes :=
  let (_, query, paramOIDs) := parsedStatement x.parse.msg.payload
  Synthesizer.PreparedStmt.synthesize ⟨query, paramOIDs⟩ x.detail.parameters x.detail.formatCodes

def reply (b : Backends) (status : Byte) : List Message :=
  [⟨msgParseComplete, []⟩, ⟨msgBindComplete, []⟩] ++
    (match x.describe.map Prod.fst with
      | none => []
      | some .statement => b.description
      | some .portal => [⟨msgErrorResponse, []⟩]) ++
    match x.synthesized with
    | .ok _ => b.outcome.simpleReply
    | .error _ => [⟨msgErrorResponse, []⟩, ⟨msgReadyForQuery, [status]⟩]

end Batch

def multiplexed (env : Env) : Env := { env with multiplexMode := true }

section

variable (env : Env) (b : Backends) {x : Batch} {v : Vars} {i : Input} {s : Stage}

theorem eval_rounds_succ {α σ : Type} (w : World Ans σ) (body : α → Run (Flow α)) (n : Nat) (a : α)
    (s : σ) :
    eval w (rounds body (n + 1) a) s =
      match eval w (body a) s with
      | (.next a', t) => eval w (rounds body n a') t
      | (.stop a', t) => (a', t) := by
  rw [rounds, eval_bind]
  rcases eval w (body a) s with ⟨r, t⟩
  cases r <;> rfl

theorem eval_round {rest : List Input} (hi : i.msg.type ≠ msgTerminate)
    (hs : s.inputs = i :: rest) :
    eval (world b) (round env v) s = eval (world b) (dispatch env i v)
      { s with inputs := rest } := by
  rw [Relay.round, eval_bind, eval_perform, world, hs]
  change eval (world b) (handleMessage env i v) _ = _
  rw [handleMessage, if_neg hi]
  rfl

theorem eval_parse (hi : i.msg.type = msgParse) :
    ∃ v', eval (world b) (dispatch (multiplexed env) i v) s = (.next v',
      { s with client := s.client ++ [⟨msgParseComplete, []⟩] }) ∧
      v'.synth = v.synth.registerStatement (parsedStatement i.msg.payload).1
        (parsedStatement i.msg.payload).2.1
        (parsedStatement i.msg.payload).2.2 := by
  rw [dispatch_parse hi]
  exact ⟨_, rfl, rfl⟩

theorem eval_bindMessage {detail : BindMessageDetail} (hi : i.msg.type = msgBind)
    (hd : parseBindMessageFull i.msg.payload = .ok detail) :
    ∃ v', eval (world b) (dispatch (multiplexed env) i v) s = (.next v',
      { s with client := s.client ++ [⟨msgBindComplete, []⟩] }) ∧
      v'.synth = v.synth ∧ v'.muxBindDetail = some detail := by
  rw [dispatch_bind hi, handleBind, hd]
  refine ⟨_, rfl, ?_, rfl⟩
  simp only [raiseRoute]
  split <;> rfl

theorem eval_execute (hi : i.msg.type = msgExecute) :
    eval (world b) (dispatch (multiplexed env) i v) s = (.next v, s) := by
  rw [dispatch, hi]
  rfl

theorem eval_handleMultiplexDescribe {d : Described × Input} {stmt : Synthesizer.PreparedStmt}
    (hd : d ∈ x.describe) (hstmt : v.synth.getStatement x.detail.statementName = some stmt) :
    ∃ t, eval (world b) (handleMultiplexDescribe d.2.msg.payload v.synth) s = (true, t) ∧
    t.inputs = s.inputs ∧
      t.client = s.client ++ (if d.1 = .statement then b.description
        else [⟨msgErrorResponse, []⟩]) := by
  obtain ⟨c, data, rest, hpayload, hname⟩ := x.describe_name d hd
  obtain ⟨what, i⟩ := d
  rw [hpayload, handleMultiplexDescribe, hname]
  cases what with
  | portal => exact ⟨_, rfl, rfl, rfl⟩
  | statement =>
    refine ⟨s.got b.writer b.description, ?_, rfl, rfl⟩
    dsimp only
    rw [if_neg (show ¬Described.statement.kind = kindPortal by decide), if_pos rfl, hstmt]
    exact eval_onWriterPool true (eval_describeOn b.writer stmt.query)

theorem eval_describe {d : Described × Input} {stmt : Synthesizer.PreparedStmt}
    (hd : d ∈ x.describe) (hstmt : v.synth.getStatement x.detail.statementName = some stmt) :
    ∃ t, eval (world b) (dispatch (multiplexed env) d.2 v) s = (.next v, t) ∧ t.inputs = s.inputs ∧
      t.client = s.client ++ (if d.1 = .statement then b.description
        else [⟨msgErrorResponse, []⟩]) := by
  obtain ⟨t, hserve, ht⟩ := eval_handleMultiplexDescribe b (s := s) hd hstmt
  refine ⟨t, ?_, ht⟩
  rw [dispatch_describe (x.describe_type d hd)]
  change eval (world b) (handleMultiplexDescribe d.2.msg.payload v.synth >>= _) s = _
  rw [eval_bind, hserve]
  rfl

theorem eval_sync (hi : i.msg.type = msgSync) (hbind : v.muxBindDetail = some x.detail)
    (hsynth : v.synth.synthesize x.detail.statementName x.detail.parameters x.detail.formatCodes =
      x.synthesized) :
    ∃ status, (eval (world b) (dispatch (multiplexed env) i v) s).2.client = s.client ++
      match x.synthesized with
      | .ok _ => b.outcome.simpleReply
      | .error _ => [⟨msgErrorResponse, []⟩, ⟨msgReadyForQuery, [status]⟩] := by
  refine ⟨if v.session.inTransaction then 84 else 73, ?_⟩
  rw [dispatch_sync hi, handleSync, hbind]
  simp only [multiplexed, if_true, hsynth]
  cases x.synthesized with
  | error err =>
    change (s.client ++ [_]) ++ [_] = _
    rw [List.append_assoc]
    rfl
  | ok query =>
    obtain ⟨r, c, hrun⟩ := eval_executeSynthesizedQuery (b := b) (s := s) query v
    rw [eval_bind, hrun]
    rfl

theorem eval_next {n : Nat} {v' : Vars} {t : Stage} {rest : List Input}
    (hi : i.msg.type ≠ msgTerminate) (hs : s.inputs = i :: rest)
    (hd : eval (world b) (dispatch env i v) { s with inputs := rest } = (.next v', t)) :
    eval (world b) (relayLoop env (n + 1) v) s = eval (world b) (relayLoop env n v') t := by
  rw [relayLoop, eval_rounds_succ, eval_round env b hi hs, hd]
  rfl

theorem eval_last {rest : List Input} (hi : i.msg.type ≠ msgTerminate) (hs : s.inputs = i :: rest) :
    (eval (world b) (relayLoop env 1 v) s).2 = (eval (world b) (dispatch env i v)
      { s with inputs := rest }).2 := by
  rw [relayLoop, eval_rounds_succ, eval_round env b hi hs]
  rcases eval (world b) (dispatch env i v) { s with inputs := rest } with ⟨r, t⟩
  cases r <;> rfl

structure Batch.Bound (x : Batch) (v : Vars) : Prop where
  detail : v.muxBindDetail = some x.detail
  statement : ∃ stmt, v.synth.getStatement x.detail.statementName = some stmt ∧
    stmt.synthesize x.detail.parameters x.detail.formatCodes = x.synthesized

theorem client_tail (hv : x.Bound v) (hs : s.inputs = [x.execute, x.sync]) : ∃ status,
    (eval (world b) (relayLoop (multiplexed env) 2 v) s).2.client = s.client ++
      match x.synthesized with
      | .ok _ => b.outcome.simpleReply
      | .error _ => [⟨msgErrorResponse, []⟩, ⟨msgReadyForQuery, [status]⟩] := by
  obtain ⟨stmt, hstmt, hsynth⟩ := hv.statement
  have hsynthesize : v.synth.synthesize x.detail.statementName x.detail.parameters
      x.detail.formatCodes = x.synthesized := by
    rw [Synthesizer.Registry.synthesize, ← Synthesizer.Registry.getStatement, hstmt]
    exact hsynth
  obtain ⟨status, hclient⟩ :=
    eval_sync env b (s := { s with inputs := [] }) x.sync_type hv.detail hsynthesize
  refine ⟨status, Eq.trans ?_ hclient⟩
  rw [eval_next _ b (by rw [x.execute_type]; decide) hs (eval_execute env b x.execute_type),
    eval_last _ b (by rw [x.sync_type]; decide) rfl]

theorem client_batch (pending : Conn → List Message) : ∃ status,
    (eval (world b) (relayLoop (multiplexed env) x.inputs.length v)
      ⟨x.inputs, [], pending⟩).2.client = x.reply b status := by
  obtain ⟨v₁, hparse, hsynth₁⟩ := eval_parse env b (v := v)
    (s := ⟨x.inputs.tail, [], pending⟩) x.parse_type
  obtain ⟨v₂, hbind, hsynth₂, hdetail⟩ := eval_bindMessage env b (v := v₁)
    (s := ⟨x.inputs.tail.tail, [⟨msgParseComplete, []⟩], pending⟩) x.bind_type x.bind_detail
  have hbound : x.Bound v₂ := by
    refine ⟨hdetail, ⟨(parsedStatement x.parse.msg.payload).2.1,
      (parsedStatement x.parse.msg.payload).2.2⟩, ?_, rfl⟩
    rw [hsynth₂, hsynth₁, x.bind_name]
    simp [Synthesizer.Registry.getStatement, Synthesizer.Registry.registerStatement]
  have hhead : ∀ n, eval (world b) (relayLoop (multiplexed env) (n + 2) v) ⟨x.inputs, [], pending⟩ =
      eval (world b) (relayLoop (multiplexed env) n v₂)
        ⟨x.inputs.tail.tail, [⟨msgParseComplete, []⟩, ⟨msgBindComplete, []⟩], pending⟩ := by
    intro n
    rw [eval_next _ b (by rw [x.parse_type]; decide) rfl hparse,
      eval_next _ b (by rw [x.bind_type]; decide) rfl hbind]
    rfl
  cases hdescribe : x.describe with
  | none =>
    have hinputs : x.inputs = [x.parse, x.bind, x.execute,
      x.sync] := by simp [Batch.inputs, hdescribe]
    obtain ⟨status, htail⟩ := client_tail env b
      (s := ⟨x.inputs.tail.tail, [⟨msgParseComplete, []⟩, ⟨msgBindComplete, []⟩], pending⟩) hbound
        (by rw [hinputs]; rfl)
    refine ⟨status, ?_⟩
    rw [show x.inputs.length = 2 + 2 by rw [hinputs]; rfl, hhead, htail, Batch.reply, hdescribe]
    rfl
  | some d =>
    have hinputs : x.inputs = [x.parse, x.bind, d.2, x.execute,
      x.sync] := by simp [Batch.inputs, hdescribe]
    obtain ⟨stmt, hstmt, _⟩ := hbound.statement
    obtain ⟨t, heval, htinputs, htclient⟩ := eval_describe env b
      (s := ⟨[x.execute, x.sync], [⟨msgParseComplete, []⟩, ⟨msgBindComplete, []⟩],
        pending⟩) hdescribe hstmt
    obtain ⟨status, htail⟩ := client_tail env b hbound htinputs
    refine ⟨status, ?_⟩
    have hd : d.2.msg.type ≠ msgTerminate := by rw [x.describe_type d hdescribe]; decide
    have htodo : x.inputs.tail.tail = d.2 :: [x.execute, x.sync] := by rw [hinputs]; rfl
    rw [show x.inputs.length = 2 + 1 +
      2 by rw [hinputs]; rfl, hhead, eval_next _ b hd htodo heval, htail, htclient,
      Batch.reply, hdescribe]
    obtain ⟨what, i⟩ := d
    cases what <;> rfl

end

/-! ## The two replies -/

def Batch.expected (x : Batch) (o : Outcome) : List Message :=
  o.extendedReply x.detail.resultFormatCodes (x.describe.map Prod.fst)
    (maxRows x.execute.msg.payload)

def received (env : Env) (b : Backends) (x : Batch) (v : Vars) (pending : Conn → List Message) :
    List Message :=
  (eval (world b) (relayLoop (multiplexed env) x.inputs.length v) ⟨x.inputs, [], pending⟩).2.client

def types (reply : List Message) : List Byte := reply.map Message.type

structure LooksExtended (x : Batch) (o : Outcome) (reply : List Message) : Prop where
  types : types reply = types (x.expected o)
  rows : reply.filter (·.type == msgDataRow) = (x.expected o).filter (·.type == msgDataRow)

@[simp] theorem types_append (r r' : List Message) : types (r ++ r') = types r ++ types r' :=
  List.map_append

@[simp] theorem types_cons (m : Message) (r : List Message) : types (m :: r) = m.type :: types r :=
  rfl

@[simp] theorem types_nil : types [] = [] := rfl

section

variable {o : Outcome} {formats : List Int}

theorem types_dataRows (o : Outcome) (formats : List Int) :
    types (o.dataRows formats) = List.replicate o.rows.length msgDataRow := by
  simp [types, Outcome.dataRows, Function.comp_def]

theorem type_described (o : Outcome) (formats : List Int) :
    (o.described formats).type = if o.fields.isSome then msgRowDescription else msgNoData := by
  unfold Outcome.described
  cases o.fields <;> rfl

theorem types_executeReply (o : Outcome) (formats : List Int) (maxRows : Nat) :
    ∃ n last, types (o.executeReply formats maxRows) = List.replicate n msgDataRow ++ [last] ∧
      (last = msgCommandComplete ∨ last = msgPortalSuspended) := by
  unfold Outcome.executeReply
  split
  · refine ⟨min maxRows o.rows.length, msgPortalSuspended, ?_, .inr rfl⟩
    rw [types_append, types, List.map_take, ← types, types_dataRows, List.take_replicate]
    rfl
  · refine ⟨o.rows.length, msgCommandComplete, ?_, .inl rfl⟩
    rw [types_append, types_dataRows]
    rfl

theorem count_executeReply (o : Outcome) (formats : List Int) (maxRows : Nat) :
    (types (o.executeReply formats maxRows)).count msgRowDescription = 0 ∧
      msgErrorResponse ∉ types (o.executeReply formats maxRows) := by
  obtain ⟨n, last, htypes, hlast⟩ := types_executeReply o formats maxRows
  rw [htypes]
  have hrow : msgDataRow ≠ msgRowDescription ∧ msgErrorResponse ≠ msgDataRow := by decide
  have hend : last ≠ msgRowDescription ∧ msgErrorResponse ≠ last := by
    rcases hlast with rfl | rfl
    · decide
    · decide
  constructor
  · simp [List.count_replicate, hrow.1, hend.1]
  · simp [List.mem_replicate, hrow.2, hend.2]

theorem count_extendedReply (o : Outcome) (formats : List Int) (asked : Option Described)
    (maxRows : Nat) :
    (types (o.extendedReply formats asked maxRows)).count msgRowDescription =
        (if asked.isSome ∧ o.fields.isSome then 1 else 0) ∧
      msgErrorResponse ∉ types (o.extendedReply formats asked maxRows) := by
  obtain ⟨hcount, herror⟩ := count_executeReply o formats maxRows
  unfold Outcome.extendedReply
  simp only [types_append, types_cons, types_nil, List.count_append, List.mem_append,
    hcount, herror]
  cases asked with
  | none =>
    simp only [Option.map_none, Option.getD_none, types_nil]
    cases o.fields.isSome <;> decide
  | some what =>
    cases what with
    | statement | portal =>
      simp only [Option.map_some, Option.getD_some, Outcome.describeReply, types_cons, types_nil,
        type_described]
      cases o.fields.isSome <;> decide

theorem count_simpleReply (o : Outcome) :
    (types o.simpleReply).count msgRowDescription = if o.fields.isSome then 1 else 0 := by
  have hrow : msgDataRow ≠ msgRowDescription := by decide
  unfold Outcome.simpleReply
  simp only [types_append, List.count_append, types_dataRows, List.count_replicate, beq_iff_eq,
    hrow, if_false]
  cases o.fields <;> rfl

variable {env : Env} {b : Backends} {x : Batch} {v : Vars} {pending : Conn → List Message}

structure Batch.Accepted (x : Batch) (b : Backends) : Prop where
  synthesized : ∃ query, x.synthesized = .ok query
  describe : ∀ d ∈ x.describe, d.1 = .statement ∧ b.describes = true

theorem accepted_of_not_mem {status : Byte} (h : msgErrorResponse ∉ types (x.reply b status)) :
    x.Accepted b := by
  unfold Batch.reply at h
  simp only [types_append, List.mem_append, not_or] at h
  obtain ⟨⟨_, hdescribe⟩, hsync⟩ := h
  constructor
  · cases hsynth : x.synthesized with
    | ok query => exact ⟨query, rfl⟩
    | error err =>
      rw [hsynth] at hsync
      exact absurd List.mem_cons_self hsync
  · intro d hd
    rw [Option.mem_def.mp hd] at hdescribe
    obtain ⟨what, i⟩ := d
    cases what with
    | portal => exact absurd List.mem_cons_self hdescribe
    | statement =>
      refine ⟨rfl, Bool.not_eq_false _ ▸ fun hno => ?_⟩
      simp [Backends.description, hno] at hdescribe

theorem reply_of_accepted (h : x.Accepted b) (status : Byte) :
    x.reply b status = [⟨msgParseComplete, []⟩, ⟨msgBindComplete, []⟩] ++
      (x.describe.map fun d => b.outcome.describeReply [] d.1).getD [] ++
        b.outcome.simpleReply := by
  obtain ⟨query, hsynth⟩ := h.synthesized
  unfold Batch.reply
  rw [hsynth]
  cases hdescribe : x.describe with
  | none => rfl
  | some d =>
    obtain ⟨hstmt, hdescribes⟩ := h.describe d hdescribe
    obtain ⟨what, i⟩ := d
    obtain rfl : what = .statement := hstmt
    simp [Backends.description, hdescribes]

theorem fields_eq_none {status : Byte} (h : x.Accepted b)
    (htypes : types (x.reply b status) = types (x.expected b.outcome)) :
    b.outcome.fields = none := by
  have hcount := congrArg (List.count msgRowDescription) htypes
  rw [Batch.expected, (count_extendedReply _ _ _ _).1, reply_of_accepted h] at hcount
  simp only [types_append, List.count_append, count_simpleReply] at hcount
  rw [← Option.not_isSome_iff_eq_none]
  intro hsome
  cases hdescribe : x.describe with
  | none => simp [hdescribe, hsome] at hcount
  | some d =>
    obtain ⟨hstmt, _⟩ := h.describe d hdescribe
    simp [hdescribe, hstmt, hsome, Outcome.describeReply, type_described] at hcount
    exact absurd hcount.2 (by decide)

theorem reply_eq_expected {status : Byte} (h : x.Accepted b) (hnone : b.outcome.fields = none) :
    x.reply b status = x.expected b.outcome := by
  have hrows := b.outcome.rows_nil hnone
  have hexecute : ∀ formats n, b.outcome.executeReply formats n = [b.outcome.complete] := by
    intro formats n
    unfold Outcome.executeReply
    rw [if_neg (by simp only [hrows, List.length_nil]; omega)]
    simp [Outcome.dataRows, hrows]
  rw [reply_of_accepted h, Batch.expected, Outcome.extendedReply, hexecute]
  simp only [Outcome.simpleReply, Outcome.dataRows, hrows, hnone]
  cases hdescribe : x.describe with
  | none => rfl
  | some d =>
    obtain ⟨hstmt, _⟩ := h.describe d hdescribe
    simp [hstmt, Outcome.describeReply]

/-- The reply looks extended just if there are no rows, the parameters fit in, and any Describe is
of the statement and succeeds. -/
theorem looks_extended_iff : LooksExtended x b.outcome (received env b x v pending) ↔
    b.outcome.fields = none ∧ (∃ query, x.synthesized = .ok query) ∧
      ∀ d ∈ x.describe, d.1 = .statement ∧ b.describes = true := by
  obtain ⟨status, hreceived⟩ := client_batch env b pending (x := x) (v := v)
  rw [received, hreceived]
  constructor
  · intro h
    have herror : msgErrorResponse ∉ types (x.reply b status) :=
    h.types ▸ (count_extendedReply _ _ _ _).2
    have haccepted := accepted_of_not_mem herror
    exact ⟨fields_eq_none haccepted h.types, haccepted.synthesized, haccepted.describe⟩
  · rintro ⟨hnone, hsynth, hdescribe⟩
    rw [reply_eq_expected ⟨hsynth, hdescribe⟩ hnone]
    exact ⟨rfl, rfl⟩

end

/-! ## A read in the binary format -/

def selectOne : Outcome where
  fields := some fun _ => []
  rows := [fun formats => if formats = [1] then [0, 0, 0, 1] else ascii "1"]
  params := []
  tag := ascii "SELECT 1"
  rows_nil h := absurd h (Option.some_ne_none _)

def oneWriter : Backends := ⟨0, 7, none, selectOne, true⟩

def binaryBatch (describe : Option (Described × Input))
    (htype : ∀ d ∈ describe, d.2.msg.type = msgDescribe)
    (hname : ∀ d ∈ describe, ∃ c data rest, d.2.msg.payload = d.1.kind :: c :: data ∧
      cstring (c :: data) = some (if d.1 = .statement then [] else [], rest)) : Batch where
  parse := plainInput msgParse ([0] ++ ascii "SELECT 1" ++ [0, 0, 0])
  bind := plainInput msgBind [0, 0, 0, 0, 0, 0, 0, 1, 0, 1]
  describe := describe
  execute := plainInput msgExecute [0, 0, 0, 0, 0]
  sync := plainInput msgSync []
  detail := ⟨[], [], [], [], [1]⟩
  parse_type := rfl
  bind_type := rfl
  execute_type := rfl
  sync_type := rfl
  bind_detail := by decide +kernel
  bind_name := by decide +kernel
  describe_type := htype
  describe_name := hname

def notDescribed : Batch := binaryBatch none (by simp) (by simp)

def portalDescribed : Batch :=
  binaryBatch (some (.portal, plainInput msgDescribe [kindPortal, 0])) (by simp [plainInput])
    (by rintro d ⟨⟩; exact ⟨0, [], [], rfl, by decide⟩)

theorem select_looks_simple :
    let reply := received (plainEnv true) oneWriter notDescribed
      (Vars.init (Router.Session.new 0 false false)) fun _ => []
    let reply' :=
      received (plainEnv true) oneWriter portalDescribed
      (Vars.init (Router.Session.new 0 false false)) fun _ => []
    types reply = ascii "12TDCZ" ∧ types (notDescribed.expected selectOne) = ascii "12DCZ" ∧
      reply.filter (·.type == msgDataRow) = [⟨msgDataRow, ascii "1"⟩] ∧
      (notDescribed.expected selectOne).filter (·.type == msgDataRow) =
        [⟨msgDataRow, [0, 0, 0, 1]⟩] ∧
      types reply' = ascii "12ETDCZ" ∧
      types (portalDescribed.expected selectOne) = ascii "12TDCZ" := by
  decide +kernel

end PgMux.MuxReplies
