import PgMux.Phases

/-!
# One ReadyForQuery for every request

The rate limiter answers every message that it turns away, and the writer path of simple queries
ignores a failed exchange; where neither happens out of place, requests and ReadyForQuery messages
agree at every loop head.
-/

namespace PgMux.ReadyCount

open Effects Protocol Relay
open InStep (routedToWriter)
open Phases hiding InPlace Through
open Router hiding Env
open Pools (Conn Pool)
open Wire (IsReply Line Relaying Talk WireAns WireOp)

/-! ## Relays -/

structure Talked where
  line : Line
  sent : Nat
  consumed : Nat

def readies : WireOp → Nat
  | .toClient msg => if msg.type = Wire.msgReadyForQuery then 1 else 0
  | _ => 0

def taken : (o : WireOp) → WireAns o → Nat
  | .fromClient, some msg => if isRequest msg then 1 else 0
  | _, _ => 0

def talk (M : Machine WireAns Line) : Machine WireAns Talked := fun o s ans t =>
  M o s.line ans t.line ∧ (o ≠ .copyBoth → t.sent = s.sent + readies o ∧
    t.consumed = s.consumed + taken o ans)

def Passes (M : Machine WireAns Line) {α : Type} (p : Talk (Option α)) (a : α) (u : Talked) :
    Prop :=
  ∃ reply, IsReply reply ∧ Reach (talk M) p ⟨⟨reply, false⟩, 0, 0⟩ (.ret (some a)) u

structure Within (s : Talked) : Prop where
  consumed : s.consumed = 0
  sent : IsReply s.line.pending ∧ s.sent = 0 ∨ s.line.pending = [] ∧ s.sent = 1

def Through (s : Talked) : Prop := s.sent = 1 ∧ s.consumed = 0

theorem taken_of_isCopy {msg : Message} (h : Wire.isCopy msg.type = true) :
    taken .fromClient (some msg) = 0 := by
  have hcases : (msg.type = Wire.msgCopyData ∨ msg.type = Wire.msgCopyDone) ∨
      msg.type = Wire.msgCopyFail := by
    simpa [Wire.isCopy] using h
  have hno : isRequest msg = false := by
    rcases hcases with (h | h) | h <;> rw [isRequest, h] <;> rfl
  simp [taken, hno]

theorem relaying_talk : Relaying (talk (Wire.orderly false)) Within (fun _ => True) Through where
  unread _ _ _ _ := trivial
  passed s msg t ok u h hread hwrite := by
    obtain ⟨⟨⟨hpending, _⟩, _⟩, hcount⟩ := hread
    obtain ⟨⟨hline : u.line = t.line, _⟩, hcount'⟩ := hwrite
    obtain ⟨hsent : t.sent = s.sent, hconsumed : t.consumed = s.consumed⟩ := hcount nofun
    obtain ⟨hsent', hconsumed' : u.consumed = t.consumed⟩ := hcount' nofun
    obtain ⟨hreply, hnone⟩ := h.sent.resolve_right fun hnil => nomatch hnil.1.symm.trans hpending
    rw [hpending, IsReply] at hreply
    have hzero : u.consumed = 0 := hconsumed'.trans (hconsumed.trans h.consumed)
    cases ok with
    | false => trivial
    | true =>
      rw [hsent, hnone, readies] at hsent'
      by_cases hz : msg.type = Wire.msgReadyForQuery
      · rw [if_pos hz] at hreply hsent'
        exact ⟨⟨hzero, .inr ⟨hline ▸ hreply, hsent'⟩⟩, fun _ => ⟨hsent', hzero⟩⟩
      · rw [if_neg hz] at hreply hsent'
        exact ⟨⟨hzero, .inl ⟨hline ▸ hreply, hsent'⟩⟩, fun h => absurd h hz⟩
  gone _ _ _ _ := trivial
  copied s msg t ok u h hclient hforward := by
    obtain ⟨⟨hline : t.line = s.line, hcopy, _⟩, hcount⟩ := hclient
    obtain ⟨⟨hwire, _⟩, hcount'⟩ := hforward
    obtain ⟨hsent : t.sent = s.sent, hconsumed⟩ := hcount nofun
    obtain ⟨hsent' : u.sent = t.sent, hconsumed' : u.consumed = t.consumed⟩ := hcount' nofun
    have hno : taken .fromClient (some msg) = 0 := taken_of_isCopy (hcopy msg rfl)
    cases ok with
    | false => trivial
    | true =>
      have hline' : u.line = s.line :=
        (hwire.resolve_right fun h => nomatch h.1.symm.trans (hcopy msg rfl)).trans hline
      refine ⟨?_, ?_⟩
      · rw [hconsumed', hconsumed, hno, h.consumed]
      · rw [hline', hsent', hsent]
        exact h.sent
  copiedBoth _ _ _ _ hboth := hboth.1.2.elim

theorem within_start {reply : List Message} (h : IsReply reply) : Within ⟨⟨reply, false⟩, 0, 0⟩ :=
  ⟨rfl, .inl ⟨h, rfl⟩⟩

theorem through_relay {n : Nat} {u : Talked}
    (h : Passes (Wire.orderly false) (Wire.relayUntilReady n) true u) : Through u := by
  obtain ⟨reply, hreply, hreach⟩ := h
  exact (relaying_talk.safe_relayUntilReady n (within_start hreply)).reach hreach

theorem through_collect {maxSize n : Nat} {size : Option Nat} {kept : Bool} {u : Talked}
    (h : Passes (Wire.orderly false) (Wire.relayAndCollect maxSize n size) (some kept) u) :
    Through u := by
  obtain ⟨reply, hreply, hreach⟩ := h
  exact (relaying_talk.safe_relayAndCollect maxSize n size (within_start hreply)).reach hreach

/-! ## Sessions -/

/-- Requests read and ReadyForQuery messages sent, and what the message at hand is. -/
structure Tally where
  consumed : Nat
  sent : Nat
  request : Bool
  writing : Bool

namespace Tally

def start : Tally := ⟨0, 0, false, false⟩

def read (env : Env) (s : Tally) (v : Vars) (i : Input) : Tally where
  consumed := s.consumed + if isRequest i.msg then 1 else 0
  sent := s.sent
  request := isRequest i.msg
  writing := i.msg.type == msgQuery && routedToWriter env v i

def ready (s : Tally) : Tally := { s with sent := s.sent + 1 }

def add (s : Tally) (u : Talked) : Tally :=
  { s with consumed := s.consumed + u.consumed, sent := s.sent + u.sent }

end Tally

def stepOn (relays : Machine WireAns Line) (env : Env) : Machine Ans Tally := fun o s ans t =>
  match o, ans with
  | .recv v, some i => t = s.read env v i
  | .client (.readyForQuery _), _ | .client (.cached _ _), _ => t = s.ready
  | .relay _, ok => ∃ n u, Passes relays (Wire.relayUntilReady n) ok u ∧ t = s.add u
  | .collect _, r => ∃ maxSize n u, Passes relays (Wire.relayAndCollect maxSize n (some 0)) r u ∧
      t = s.add u
  | _, _ => t = s

abbrev step (env : Env) : Machine Ans Tally := stepOn Wire.wire env

def InPlace : (o : Op) → Tally → Ans o → Tally → Prop
  | .allow, s, admitted, _ => admitted = true ∨ s.request = true
  | .send _ _, s, ok, _ | .relay _, s, ok, _ => s.writing = true → ok = true
  | _, _, _, _ => True

abbrev steady (env : Env) : Machine Ans Tally := (stepOn (Wire.orderly false) env).restrict InPlace

def Agrees (s : Tally) : Phase → Prop
  | .clear asked => s.sent = s.consumed ∧ s.request = asked
  | .owed _ w | .sent _ _ w => s.consumed = s.sent + 1 ∧ s.request = true ∧ s.writing = w
  | .lost => True

section

variable {env : Env} {s : Tally}

theorem agrees_read (v : Vars) (i : Input) (h : s.sent = s.consumed) :
    Agrees (s.read env v i) (.read env v i) := by
  unfold Phase.read
  split
  · next hreq => exact ⟨by simp [Tally.read, hreq, h], hreq, rfl⟩
  · next hno => exact ⟨by simp [Tally.read, hno, h], Bool.eq_false_iff.mpr hno⟩

theorem agrees_add {c : Conn} {msg : Message} {w : Bool} {u : Talked} (h : Agrees s (.sent c msg w))
    (hu : Through u) : Agrees (s.add u) (.clear true) := by
  refine ⟨?_, h.2.1⟩
  change s.sent + u.sent = s.consumed + u.consumed
  rw [hu.1, hu.2, h.1]

theorem agrees_ready {msg : Message} {w : Bool} (h : Agrees s (.owed msg w)) :
    Agrees s.ready (.clear true) :=
  ⟨h.1.symm, h.2.1⟩

theorem agrees_step (o : Op) (s : Tally) (u : Phase) (ans : Ans o) (t : Tally) (h : Agrees s u)
    (hguard : Guarded env o u) (hs : steady env o s ans t) :
    ∃ u', phases env o u ans u' ∧ Agrees t u' := by
  obtain ⟨hstep, hplace⟩ := hs
  cases o with
  | recv v =>
    obtain ⟨asked, rfl⟩ := hguard
    cases ans with
    | none =>
      obtain rfl : t = s := hstep
      exact ⟨.clear asked, ⟨rfl, trivial⟩, h⟩
    | some i =>
      obtain rfl : t = s.read env v i := hstep
      exact ⟨.read env v i, ⟨rfl, trivial⟩, agrees_read v i h.1⟩
  | allow =>
    obtain rfl : t = s := hstep
    refine ⟨u, ⟨rfl, hplace.imp_right fun hreq hclear => ?_⟩, h⟩
    subst hclear
    exact nomatch hreq.symm.trans h.2
  | client m =>
    cases m with
    | readyForQuery | cached =>
      obtain ⟨msg, w, rfl⟩ := hguard
      obtain rfl : t = s.ready := hstep
      exact ⟨.clear true, ⟨rfl, trivial⟩, agrees_ready h⟩
    | _ =>
      obtain rfl : t = s := hstep
      exact ⟨u, ⟨rfl, trivial⟩, h⟩
  | send c r =>
    obtain rfl : t = s := hstep
    cases r with
    | describe =>
      refine ⟨u, ⟨rfl, fun hw => hplace ?_⟩, h⟩
      cases u with
      | owed | sent => exact h.2.2.trans hw
      | clear | lost => exact nomatch hw
    | _ =>
      obtain ⟨msg, w, rfl, _⟩ := hguard
      have hok : Phase.writing (.owed msg w) = true → ans = true :=
        fun hw => hplace (h.2.2.trans hw)
      cases ans with
      | true => exact ⟨.sent c msg w, ⟨rfl, hok⟩, h⟩
      | false => exact ⟨.owed msg w, ⟨rfl, hok⟩, h⟩
  | relay c =>
    obtain ⟨msg, w, rfl⟩ := hguard
    obtain ⟨n, x, hpass, rfl⟩ := hstep
    have hok : Phase.writing (.sent c msg w) = true → ans = true :=
      fun hw => hplace (h.2.2.trans hw)
    cases ans with
    | true => exact ⟨.clear true, ⟨rfl, hok⟩, agrees_add h (through_relay hpass)⟩
    | false => exact ⟨.lost, ⟨rfl, hok⟩, trivial⟩
  | collect c =>
    obtain ⟨msg, w, rfl⟩ := hguard
    obtain ⟨maxSize, n, x, hpass, rfl⟩ := hstep
    cases ans with
    | some kept => exact ⟨.clear true, ⟨rfl, trivial⟩, agrees_add h (through_collect hpass)⟩
    | none => exact ⟨.lost, ⟨rfl, trivial⟩, trivial⟩
  | _ =>
    obtain rfl : t = s := hstep
    exact ⟨u, ⟨rfl, trivial⟩, h⟩

/-- Whenever the next message is read, the client has got one ReadyForQuery for every request. -/
theorem ready_per_request {n : Nat} {session : Session} {p : Run Unit} {v : Vars}
    (hr : Reach (steady env) (relayQueries env n session) Tally.start p s)
    (hp : p.head = some (.recv v)) : s.sent = s.consumed := by
  have hsafe := (safe_phases n session).refine (@agrees_step env) (s := Tally.start) ⟨rfl, rfl⟩
  obtain ⟨u, hagrees, asked, rfl⟩ := hsafe.guarded hr hp
  exact hagrees.1

end

/-! ## Runs -/

theorem ready_per_request_limited :
    ∃ p t v, Reach (steady (plainEnv false))
      (relayQueries (plainEnv false) 3 (Session.new 0 false false)) Tally.start
      p t ∧ p.head = some (.recv v) ∧ t.consumed = 2 ∧ t.sent = t.consumed := by
  have hrelay : Passes (Wire.orderly false) (Wire.relayUntilReady 1) true ⟨⟨[], false⟩, 1, 0⟩ :=
    ⟨[InStep.ready], rfl,
      .ask (some InStep.ready) ⟨⟨[], false⟩, 0, 0⟩ ⟨⟨⟨rfl, rfl⟩, nofun⟩, fun _ => ⟨rfl, rfl⟩⟩
      (.ask true ⟨⟨[], false⟩, 1, 0⟩ ⟨⟨rfl, nofun⟩, fun _ => ⟨rfl, rfl⟩⟩ .refl)⟩
  have hreach : Reach (steady (plainEnv false))
      (relayQueries (plainEnv false) 3 (Session.new 0 false false))
      Tally.start _ _ :=
    .ask (some (plainQuery "SELECT 1")) _ ⟨rfl, trivial⟩ (.ask false _ ⟨rfl, .inr rfl⟩
    (.ask true _ ⟨rfl, trivial⟩ (.ask true _ ⟨rfl, trivial⟩
    (.ask (some (plainQuery "SELECT 2")) _ ⟨rfl, trivial⟩ (.ask true _ ⟨rfl, .inl rfl⟩
    (.ask (0 : Pool) _ ⟨rfl, trivial⟩ (.ask (some (0 : Conn)) _ ⟨rfl, trivial⟩
    (.ask true _ ⟨rfl, fun _ => rfl⟩ (.ask true _ ⟨⟨1, _, hrelay, rfl⟩, fun _ => rfl⟩
    (.ask () _ ⟨rfl, trivial⟩ .refl))))))))))
  exact ⟨_, _, _, hreach, rfl, rfl, ready_per_request hreach rfl⟩

theorem ready_out_of_step :
    (∃ p t v, Reach (step (plainEnv false))
      (relayQueries (plainEnv false) 2 (Session.new 0 false false)) Tally.start
      p t ∧ p.head = some (.recv v) ∧ t.consumed = 0 ∧ t.sent = 1) ∧
    ∃ p t v, Reach (step (plainEnv false))
      (relayQueries (plainEnv false) 2 (Session.new 0 false false)) Tally.start
      p t ∧ p.head = some (.recv v) ∧ t.consumed = 1 ∧ t.sent = 0 := by
  constructor
  · exact ⟨_, _, _, .ask (some (plainInput msgParse [])) _ rfl (.ask false _ rfl (.ask true _ rfl
      (.ask true _ rfl .refl))), rfl, rfl, rfl⟩
  · exact ⟨_, _, _,
      .ask (some (plainQuery "SELECT 1")) _ rfl (.ask true _ rfl (.ask (0 : Pool) _ rfl
      (.ask (some (0 : Conn)) _ rfl (.ask false _ rfl (.ask () _ rfl .refl))))), rfl, rfl, rfl⟩

end PgMux.ReadyCount
