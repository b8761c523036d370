import PgMux.Phases

/-!
# Client, proxy and backends

The two other parties of a session in the proxy mode. The client counts the ReadyForQuery messages
it has to get; a backend skips to the next Sync after an error in a batch and ignores Sync and Flush
during a COPY. Both move at any time, and no connection fails.
-/

namespace PgMux.Conversation

open Effects Protocol Relay
open Phases (isRequest)
open Pools (Conn)
open Wire (WireAns WireOp msgCopyBothResponse msgCopyData msgCopyDone msgCopyFail msgCopyInResponse
    msgCopyOutResponse msgErrorResponse msgReadyForQuery)

abbrev msgFlush : Byte := 72

def isNotice (type : Byte) : Bool := type == 78 || type == 83 || type == 65

structure Habits where
  flushes : Bool
  copies : Message → Nat

/-! ## The client -/

inductive Mode where
  | free
  | asked (extended : Bool) (n : Nat)
  | sending (extended : Bool) (n : Nat)
  deriving DecidableEq, Repr

def Mode.behind (n : Nat) : Mode := if n = 0 then .free else .asked false n

structure Client where
  due : Nat
  flushed : Bool
  batch : Bool
  mode : Mode
  deriving DecidableEq, Repr

namespace Client

def new : Client := ⟨0, false, false, .free⟩

def Waits (f : Client) : Prop :=
  match f.mode with
  | .sending _ _ => False
  | _ => f.flushed = true ∨ 0 < f.due

def Batches (f : Client) : Prop :=
  f.flushed = false ∧ (f.mode = .free ∨ f.batch = true ∧ ∃ n, f.mode = .asked true n)

inductive Sends (h : Habits) : Client → List Message → Client → Prop where
  | query {f : Client} {m : Message} (hfree : f.mode = .free) (hflushed : f.flushed = false)
      (hm : m.type = msgQuery) : Sends h f [m]
        { f with due := f.due + 1, mode := .behind (h.copies m) }
  | message {f : Client} {m : Message} (hfree : f.mode = .free) (hflushed : f.flushed = false)
      (hm : inBatch m) (hno : m.type = msgExecute → h.copies m = 0) :
      Sends h f [m] { f with batch := true }
  | copy {f : Client} {m : Message} {n : Nat} (hfree : f.mode = .free)
      (hflushed : f.flushed = false)
      (hm : m.type = msgExecute) (hcopies : h.copies m = n + 1) :
      Sends h f [m] { f with batch := true, mode := .asked true (n + 1) }
  | sync {f : Client} {m : Message} (hf : f.Batches) (hm : m.type = msgSync) :
      Sends h f [m] { f with due := f.due + 1, batch := false }
  | flush {f : Client} {m : Message} {waits : Bool} (hf : f.Batches) (hm : m.type = msgFlush)
      (hwaits : waits = true → h.flushes = true ∧ f.batch = true) :
      Sends h f [m] { f with flushed := waits }
  | data {f : Client} {m : Message} {extended : Bool} {n : Nat}
      (hmode : f.mode = .sending extended n)
      (hm : m.type = msgCopyData) : Sends h f [m] f
  | done {f : Client} {m : Message} {n : Nat} (hmode : f.mode = .sending false n)
      (hm : m.type = msgCopyDone) : Sends h f [m] { f with mode := .behind n }
  | fail {f : Client} {m : Message} {n : Nat} (hmode : f.mode = .sending false n)
      (hm : m.type = msgCopyFail) : Sends h f [m] { f with mode := .free }
  | finish {f : Client} {m sync : Message} {n : Nat} (hmode : f.mode = .sending true n)
      (hm : m.type = msgCopyDone ∨ m.type = msgCopyFail) (hsync : sync.type = msgSync) :
      Sends h f [m, sync] ⟨1, false, false, .free⟩

def receive (f : Client) (m : Message) : Client :=
  if m.type = msgReadyForQuery then
    { f with due := f.due - 1, flushed := false, mode := if f.due ≤ 1 then .free else f.mode }
  else if m.type = msgCopyInResponse then
    { f with
      flushed := false
      mode := match f.mode with
        | .asked extended n => .sending extended (n - 1)
        | mode => mode }
  else if isNotice m.type then f
  else { f with flushed := false }

def hear (f : Client) : ClientMsg → Client
  | .readyForQuery status => f.receive ⟨msgReadyForQuery, [status]⟩
  | .cached _ _ => f.receive ⟨msgReadyForQuery, []⟩
  | .error _ | .parseComplete | .bindComplete | .closeComplete => { f with flushed := false }

end Client

/-! ## Backends -/

inductive Stage where
  | idle
  | skipping
  | copyIn (extended : Bool) (n : Nat)
  deriving DecidableEq, Repr

def closes : Bool → List Message → Bool
  | inside, [] => !inside
  | inside, m :: rest =>
    if m.type = msgReadyForQuery ∨ m.type = msgCopyInResponse ∨
      m.type = msgCopyBothResponse then false
    else if m.type = msgCopyOutResponse then !inside && closes true rest
    else closes (inside && m.type == msgCopyData) rest

inductive Fails : Bool → List Message → Stage → Prop where
  | simple {e z : Message} (he : e.type = msgErrorResponse) (hz : z.type = msgReadyForQuery) :
      Fails false [e, z] .idle
  | extended {e : Message} (he : e.type = msgErrorResponse) : Fails true [e] .skipping

inductive Takes (copies : Message → Nat) : Stage → Message → List Message → Stage → Prop where
  | query {m z : Message} {body : List Message} (hm : m.type = msgQuery)
      (hbody : closes false body = true)
      (hz : z.type = msgReadyForQuery) : Takes copies .idle m (body ++ [z]) .idle
  | copy {m g : Message} {body : List Message} {n : Nat}
      (hm : m.type = msgQuery ∨ m.type = msgExecute)
      (hcopies : copies m = n + 1) (hbody : closes false body = true)
        (hg : g.type = msgCopyInResponse) :
      Takes copies .idle m (body ++ [g]) (.copyIn (m.type == msgExecute) n)
  | sync {m z : Message} (hm : m.type = msgSync) (hz : z.type = msgReadyForQuery) :
      Takes copies .idle m [z] .idle
  | message {m : Message} {body : List Message} {stage : Stage} (hm : inBatch m)
      (hbody : closes false body = true)
      (hstage : stage = .idle ∨ stage = .skipping) : Takes copies .idle m body stage
  | drop {m : Message} (hm : isRequest m = false ∧ ¬ inBatch m) : Takes copies .idle m [] .idle
  | skip {m : Message} (hm : m.type ≠ msgSync) : Takes copies .skipping m [] .skipping
  | ready {m z : Message} (hm : m.type = msgSync) (hz : z.type = msgReadyForQuery) :
      Takes copies .skipping m [z] .idle
  | data {m : Message} {extended : Bool} {n : Nat}
      (hm : m.type = msgCopyData ∨ m.type = msgFlush ∨ m.type = msgSync) :
      Takes copies (.copyIn extended n) m [] (.copyIn extended n)
  | done {m z : Message} {body : List Message} {n : Nat} (hm : m.type = msgCopyDone)
      (hbody : closes false body = true) (hz : z.type = msgReadyForQuery) :
      Takes copies (.copyIn false n) m (body ++ [z]) .idle
  | again {m g : Message} {body : List Message} {n : Nat} (hm : m.type = msgCopyDone)
      (hbody : closes false body = true) (hg : g.type = msgCopyInResponse) :
      Takes copies (.copyIn false (n + 1)) m (body ++ [g]) (.copyIn false n)
  | finish {m : Message} {body : List Message} {n : Nat} {stage : Stage} (hm : m.type = msgCopyDone)
      (hbody : closes false body = true) (hstage : stage = .idle ∨ stage = .skipping) :
      Takes copies (.copyIn true n) m body stage
  | fail {m : Message} {reply : List Message} {extended : Bool} {n : Nat} {stage : Stage}
      (hm : m.type ∉ [msgCopyData, msgFlush, msgSync, msgCopyDone])
        (hfail : Fails extended reply stage) : Takes copies (.copyIn extended n) m reply stage

inductive Works (copies : Message → Nat) :
    Stage → List Message → List Message → Stage → List Message → Prop where
  | take {m : Message} {rest reply : List Message} {stage stage' : Stage}
      (ht : Takes copies stage m reply stage') : Works copies stage (m :: rest) reply stage' rest
  | fail {extended : Bool} {n : Nat} {inbox reply : List Message} {stage : Stage}
      (hfail : Fails extended reply stage) :
      Works copies (.copyIn extended n) inbox reply stage inbox
  | notice {m : Message} {inbox : List Message} {stage : Stage} (hm : isNotice m.type = true) :
      Works copies stage inbox [m] stage inbox

structure Backend where
  stage : Stage
  inbox : List Message
  outbox : List Message
  deriving DecidableEq, Repr

namespace Backend

def new : Backend := ⟨.idle, [], []⟩

def Moves (copies : Message → Nat) (b b' : Backend) : Prop :=
  ∃ reply, Works copies b.stage b.inbox reply b'.stage b'.inbox ∧ b'.outbox = b.outbox ++ reply

theorem moves_take {copies : Message → Nat} {stage stage' : Stage} {m : Message}
    {rest reply out : List Message} (ht : Takes copies stage m reply stage') :
    Moves copies ⟨stage, m :: rest, out⟩ ⟨stage', rest, out ++ reply⟩ :=
  ⟨reply, .take ht, rfl⟩

def push (b : Backend) (ms : List Message) : Backend := { b with inbox := b.inbox ++ ms }

end Backend

/-! ## Sessions -/

/-- The client, and a backend behind each connection. -/
structure Sys where
  client : Client
  unread : List Message
  lines : Conn → Backend
  request : Bool

namespace Sys

def start : Sys := ⟨.new, [], fun _ => .new, false⟩

def setLine (s : Sys) (c : Conn) (b : Backend) : Sys :=
  { s with lines := Function.update s.lines c b }

@[simp] theorem lines_setLine_self (s : Sys) (c : Conn) (b : Backend) :
    (s.setLine c b).lines c = b :=
  Function.update_self ..

@[simp] theorem setLine_setLine (s : Sys) (c : Conn) (b b' : Backend) :
    (s.setLine c b).setLine c b' = s.setLine c b' := by
  simp only [setLine, Function.update_idem]

theorem lines_setLine_of_ne (s : Sys) {c d : Conn} (b : Backend) (hd : d ≠ c) :
    (s.setLine c b).lines d = s.lines d := Function.update_of_ne hd ..

end Sys

inductive Move (h : Habits) : Sys → Sys → Prop where
  | client {s : Sys} {ms : List Message} {f : Client} (hf : Client.Sends h s.client ms f) :
      Move h s { s with client := f, unread := s.unread ++ ms }
  | backend {s : Sys} (c : Conn) {b : Backend} (hb : (s.lines c).Moves h.copies b) :
      Move h s (s.setLine c b)

abbrev Moves (h : Habits) : Sys → Sys → Prop := Relation.ReflTransGen (Move h)

def Talks (c : Conn) : (o : WireOp) → Sys → WireAns o → Sys → Prop
  | .read, s, some m, t =>
    ∃ rest, (s.lines c).outbox = m :: rest ∧ t = s.setLine c { s.lines c with outbox := rest }
  | .toClient m, s, ok, t => ok = true ∧ t = { s with client := s.client.receive m }
  | .fromClient, s, some m, t => ∃ rest, s.unread = m :: rest ∧ t = { s with unread := rest }
  | .forward m, s, ok, t => ok = true ∧ t = s.setLine c ((s.lines c).push [m])
  | _, _, _, _ => False

def talk (h : Habits) (c : Conn) : Machine WireAns Sys :=
  fun o s ans t => ∃ u, Talks c o s ans u ∧ Moves h u t

def messagesOf : Request → Option (List Message)
  | .forward m => some [m]
  | .batch buf sync => some (buf ++ [sync])
  | .synthesized _ | .describe _ => none

def Acts (h : Habits) (o : Op) (s : Sys) (ans : Ans o) (t : Sys) : Prop :=
  match o, ans with
  | .recv _, some i => ∃ rest, s.unread = i.msg :: rest ∧
      t = { s with unread := rest, request := isRequest i.msg }
  | .allow, admitted => (admitted = true ∨ s.request = true) ∧ t = s
  | .client m, ok => ok = true ∧ t = { s with client := s.client.hear m }
  | .send c r, ok => ok = true ∧ ∃ ms, messagesOf r = some ms ∧
      t = s.setLine c ((s.lines c).push ms)
  | .relay c, ok => ∃ n, Reach (talk h c) (Wire.relayUntilReady n) s (.ret (some ok)) t
  | .collect c, r => ∃ maxSize n,
      Reach (talk h c) (Wire.relayAndCollect maxSize n (some 0)) s (.ret (some r)) t
  | _, _ => t = s

def session (h : Habits) : Machine Ans Sys := fun o s ans t => ∃ u, Acts h o s ans u ∧ Moves h u t

def Stuck (c : Conn) : WireOp → Sys → Prop
  | .read, s => s.client.Waits ∧ (s.lines c).inbox = [] ∧ (s.lines c).outbox = []
  | .fromClient, s => s.client.Waits ∧ s.unread = []
  | _, _ => False

def Deadlock (h : Habits) : Op → Sys → Prop
  | .recv _, s => s.client.Waits ∧ s.unread = []
  | .relay c, s => ∃ n q o t, Reach (talk h c) (Wire.relayUntilReady n) s q t ∧ q.head = some o ∧
      Stuck c o t
  | .collect c, s =>
    ∃ maxSize n q o t, Reach (talk h c) (Wire.relayAndCollect maxSize n (some 0)) s q t ∧
      q.head = some o ∧ Stuck c o t
  | _, _ => False

end PgMux.Conversation
