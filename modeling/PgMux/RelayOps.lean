import PgMux.Effects
import PgMux.Firewall
import PgMux.Pools
import PgMux.Protocol
import PgMux.Router
import PgMux.Synthesizer

/-!
# The operations of a session

A session reads messages and answers them, borrows connections, talks to backends and asks the query
cache. The local variables of the query loop are a record, which is shown at every loop head.
-/

namespace PgMux.Relay

open Effects PgQuery Protocol Router Synthesizer
open Pools (Conn Pool)
open Firewall hiding Message

structure Config where
  firewall : FirewallConfig
  astParser : Bool
  causalConsistency : Bool
  deriving DecidableEq, Repr

structure Env extends Router.Env where
  parseSQL : Bytes → Option ParseResult
  classifyASTWithTree : Bytes → ParseResult → QueryType
  queryCache : Bool
  multiplexMode : Bool

structure Input where
  cfg : Config
  now : Int
  msg : Message
  deriving DecidableEq, Repr

inductive Request where
  | forward (msg : Message)
  | synthesized (query : Bytes)
  | batch (buf : List Message) (sync : Message)
  | describe (query : Bytes)
  deriving DecidableEq, Repr

inductive ErrorText where
  | tooManyRequests
  | blocked (message : Option Firewall.Message)
  | cannotAcquire
  | invalidBind (err : FrameError)
  | synthesisFailed (err : SynthError)
  | noBackend
  | invalidDescribe
  | portalDescribe
  | unknownStatement (name : Bytes)
  | cannotAcquireForDescribe
  deriving DecidableEq, Repr

inductive ClientMsg where
  | error (text : ErrorText)
  | readyForQuery (status : Byte)
  | parseComplete | bindComplete | closeComplete
  | cached (extended : Bool) (query : Bytes)
  deriving DecidableEq, Repr

/-- The local variables of `relayQueries`. -/
structure Vars where
  boundWriter : Option Conn
  boundWriterPool : Option Pool
  connDirty : Bool
  extBuf : List Message
  extRoute : Route
  extTxStart : Bool
  extTxEnd : Bool
  synth : Registry
  muxBindDetail : Option BindMessageDetail
  session : Session

def Vars.init (session : Session) : Vars where
  boundWriter := none
  boundWriterPool := none
  connDirty := false
  extBuf := []
  extRoute := .writer
  extTxStart := false
  extTxEnd := false
  synth := Registry.new
  muxBindDetail := none
  session := session

/-- `acquireWriter` reads the pool a second time; `nilPool` is a call on a nil pool. -/
inductive Op where
  | recv (v : Vars)
  | leave (v : Vars)
  | allow
  | client (m : ClientMsg)
  | writerPool
  | acquireWriter
  | acquire (p : Pool)
  | acquireReader (minLSN : Option Nat)
  | send (c : Conn) (r : Request)
  | relay (c : Conn)
  | collect (c : Conn)
  | relayDescribe (c : Conn)
  | queryLSN (c : Conn)
  | reset (c : Conn)
  | release (c : Conn) (p : Pool)
  | discard (c : Conn) (p : Pool)
  | nilPool (c : Conn)
  | lookup (extended : Bool) (query : Bytes)
  | store (extended : Bool) (query : Bytes)
  | invalidate (query : Bytes)

abbrev Ans : Op → Type
  | .recv _ => Option Input
  | .allow | .client _ | .send _ _ | .relay _ | .relayDescribe _ | .reset _ | .lookup _ _ => Bool
  | .writerPool => Pool
  | .acquireWriter | .acquire _ => Option Conn
  | .acquireReader _ => Option (Conn × Pool)
  | .collect _ => Option Bool
  | .queryLSN _ => Option Nat
  | .leave _ | .release _ _ | .discard _ _ | .nilPool _ | .store _ _ | .invalidate _ => Unit

abbrev Run := Prog Ans

abbrev recv (v : Vars) : Run (Option Input) := perform (Op.recv v)
abbrev leave (v : Vars) : Run Unit := perform (Op.leave v)
abbrev allow : Run Bool := perform Op.allow
abbrev toClient (m : ClientMsg) : Run Bool := perform (Op.client m)
abbrev writerPool : Run Pool := perform Op.writerPool
abbrev acquireWriter : Run (Option Conn) := perform Op.acquireWriter
abbrev acquire (p : Pool) : Run (Option Conn) := perform (Op.acquire p)
abbrev acquireReader (minLSN : Option Nat) : Run (Option (Conn × Pool)) :=
  perform (Op.acquireReader minLSN)
abbrev send (c : Conn) (r : Request) : Run Bool := perform (Op.send c r)
abbrev relayUntilReady (c : Conn) : Run Bool := perform (Op.relay c)
abbrev relayAndCollect (c : Conn) : Run (Option Bool) := perform (Op.collect c)
abbrev relayDescribe (c : Conn) : Run Bool := perform (Op.relayDescribe c)
abbrev queryCurrentLSN (c : Conn) : Run (Option Nat) := perform (Op.queryLSN c)
abbrev resetConn (c : Conn) : Run Bool := perform (Op.reset c)
abbrev release (c : Conn) (p : Pool) : Run Unit := perform (Op.release c p)
abbrev discard (c : Conn) (p : Pool) : Run Unit := perform (Op.discard c p)
abbrev nilPool (c : Conn) : Run Unit := perform (Op.nilPool c)
abbrev lookup (extended : Bool) (query : Bytes) : Run Bool := perform (Op.lookup extended query)
abbrev store (extended : Bool) (query : Bytes) : Run Unit := perform (Op.store extended query)
abbrev invalidate (query : Bytes) : Run Unit := perform (Op.invalidate query)

def OnRecv {σ : Type} (C : Vars → Input → σ → Prop) : (o : Op) → σ → Ans o → σ → Prop
  | .recv v, s, some i, _ => C v i s
  | _, _, _, _ => True

instance {σ : Type} (C : Vars → Input → σ → Prop) [∀ v i s, Decidable (C v i s)] :
    (o : Op) → (s : σ) → (ans : Ans o) → (t : σ) → Decidable (OnRecv C o s ans t)
  | .recv v, s, some i, _ => inferInstanceAs (Decidable (C v i s))
  | .recv _, _, none, _ | .leave _, _, _, _ | .writerPool, _, _, _ | .acquireWriter, _, _, _
  | .allow, _, _, _ | .client _, _, _, _ | .acquire _, _, _, _ | .acquireReader _, _, _, _
  | .send _ _, _, _, _ | .relay _, _, _, _ | .collect _, _, _, _ | .relayDescribe _, _, _, _
  | .queryLSN _, _, _, _ | .reset _, _, _, _ | .release _ _, _, _, _ | .discard _ _, _, _, _
  | .nilPool _, _, _, _ | .lookup _ _, _, _, _ | .store _ _, _, _, _
  | .invalidate _, _, _, _ => .isTrue trivial

structure Script where
  inputs : List Input
  pools : List Pool
  conns : List Conn

def Script.reply : (o : Op) → Script → Ans o × Script
  | .recv _, x => (x.inputs.head?, { x with inputs := x.inputs.tail })
  | .leave _, x => ((), x)
  | .writerPool, x => (x.pools.headD 0, { x with pools := x.pools.tail })
  | .acquireWriter, x => (x.conns.head?, { x with conns := x.conns.tail })
  | .acquire _, x => (x.conns.head?, { x with conns := x.conns.tail })
  | .acquireReader _, x => (none, x)
  | .collect _, x => (some true, x)
  | .queryLSN _, x => (none, x)
  | .lookup _ _, x => (false, x)
  | .allow, x => (true, x)
  | .client _, x => (true, x)
  | .send _ _, x => (true, x)
  | .relay _, x => (true, x)
  | .relayDescribe _, x => (true, x)
  | .reset _, x => (true, x)
  | .release _ _, x => ((), x)
  | .discard _ _, x => ((), x)
  | .nilPool _, x => ((), x)
  | .store _ _, x => ((), x)
  | .invalidate _, x => ((), x)

def Script.replyAt (lsn : Nat) (reader : Conn × Pool) : (o : Op) → Script → Ans o × Script
  | .queryLSN _, x => (some lsn, x)
  | .acquireReader _, x => (some reader, x)
  | o, x => Script.reply o x

def Script.replyLimited : (o : Op) → Script → Ans o × Script
  | .allow, x => (!x.inputs.isEmpty, x)
  | o, x => Script.reply o x

def plainEnv (multiplexMode : Bool) : Env where
  upperRune := id
  classify := fun _ => .write
  classifyAST := fun _ => .write
  parseSQL := fun _ => none
  classifyASTWithTree := fun _ _ => .write
  queryCache := false
  multiplexMode := multiplexMode

def plainInput (type : Byte) (payload : Bytes) : Input :=
  ⟨⟨⟨false, false, false, false, false⟩, false, false⟩, 0, ⟨type, payload⟩⟩

def plainQuery (text : String) : Input := plainInput msgQuery (ascii text ++ [0])

def sendError (text : ErrorText) : Run Unit := do
  let _ ← toClient (.error text)

def sendReadyForQuery (inTransaction : Bool) : Run Unit := do
  let _ ← toClient (.readyForQuery (if inTransaction then 84 else 73))

end PgMux.Relay
