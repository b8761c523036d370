import Mathlib.Data.List.Chain
import PgMux.PoolSession
import PgMux.Shared

/-!
# Transactions on one connection

Sessions of the simple protocol on shared pools. A query that belongs to a transaction runs on the
connection of the queries before it, and the pools never lend a connection that a session still
holds.
-/

namespace PgMux.Affinity

open Effects Protocol Relay
open Router (RoutedTx Session)
open Pools (Conn Pool World)

/-! ## Sessions -/

structure Ran where
  routed : RoutedTx
  conn : Conn
  onWriter : Bool
  deriving DecidableEq, Repr

structure Stay where
  held : List (Conn × Pool)
  routed : RoutedTx
  log : List Ran
  deriving DecidableEq, Repr

def Stay.new : Stay := ⟨[], ⟨.writer, false, false⟩, []⟩

def Stay.lend (s : Stay) (lent : List (Conn × Pool)) : Stay := { s with held := lent ++ s.held }

def Stay.takeBack (s : Stay) (c : Conn) (p : Pool) : Stay := { s with held := s.held.erase (c, p) }

def Stay.run (s : Stay) (c : Conn) (writer : Pool) : Stay :=
  { s with log := s.log ++ [⟨s.routed, c, decide ((c, writer) ∈ s.held)⟩] }

def routing (env : Env) (v : Vars) (i : Input) : RoutedTx × Session :=
  Router.routeWithTxState env.toEnv v.session i.now (extractQueryText i.msg.payload)

def next (env : Env) (writer : Pool) : (o : Op) → Stay → Ans o → Stay
  | .recv v, s, some i => { s with routed := (routing env v i).1 }
  | .acquireWriter, s, c => s.lend (c.toList.map (·, writer))
  | .acquire p, s, c => s.lend (c.toList.map (·, p))
  | .acquireReader _, s, r => s.lend r.toList
  | .send c _, s, _ => s.run c writer
  | .release c p, s, _ | .discard c p, s, _ => s.takeBack c p
  | _, s, _ => s

def Simple (writer : Pool) : (o : Op) → Stay → Ans o → Stay → Prop
  | .recv _, _, some i, _ => i.msg.type = msgQuery ∨ i.msg.type = msgTerminate
  | .writerPool, _, p, _ => p = writer
  | _, _, _, _ => True

abbrev simple (env : Env) (writer : Pool) : Machine Ans Stay :=
  (Machine.ofFun (next env writer)).restrict (Simple writer)

/-! ## The queries of a transaction -/

def openOn (log : List Ran) : Option Conn :=
  log.getLast?.bind fun q => if q.routed.nowInTx then some q.conn else none

def Follows (q q' : Ran) : Prop :=
  q'.routed.wasInTx = q.routed.nowInTx ∧ (q.routed.nowInTx = true → q'.conn = q.conn)

def OnWriter (q : Ran) : Prop :=
  q.routed.wasInTx = true ∨ q.routed.nowInTx = true → q.routed.route = .writer ∧ q.onWriter = true

structure Affine (log : List Ran) : Prop where
  first : ∀ q ∈ log.head?, q.routed.wasInTx = false
  chain : log.IsChain Follows
  writer : ∀ q ∈ log, OnWriter q

theorem affine_nil : Affine [] := ⟨by simp, .nil, List.forall_mem_nil _⟩

theorem openOn_concat (log : List Ran) (q : Ran) :
    openOn (log ++ [q]) = if q.routed.nowInTx then some q.conn else none := by
  simp [openOn]

theorem Affine.concat {log : List Ran} {q : Ran} (h : Affine log)
    (hwas : q.routed.wasInTx = (openOn log).isSome) (hconn : ∀ c ∈ openOn log, q.conn = c)
    (hq : OnWriter q) : Affine (log ++ [q]) := by
  refine ⟨fun r hr => ?_, List.isChain_append.mpr ⟨h.chain, .singleton _, fun x hx y hy => ?_⟩,
    fun r hr => ?_⟩
  · cases log with
    | nil =>
      obtain rfl : q = r := by simpa using hr
      exact hwas
    | cons x log => exact h.first r (by simpa using hr)
  · obtain rfl : q = y := by simpa using hy
    have hopen : openOn log = if x.routed.nowInTx then some x.conn else none := by
      simp [openOn, Option.mem_def.mp hx]
    rw [hopen] at hwas hconn
    refine ⟨by rw [hwas]; cases x.routed.nowInTx <;> rfl, fun hnow => hconn x.conn ?_⟩
    simp [hnow]
  · rcases List.mem_append.mp hr with hr | hr
    · exact h.writer r hr
    · exact List.mem_singleton.mp hr ▸ hq

theorem same_conn_of_isChain {q : Ran} {block : List Ran} (h : (q :: block).IsChain Follows)
    (hopen : ∀ x ∈ (q :: block).dropLast, x.routed.nowInTx = true) :
    ∀ x ∈ block, x.routed.wasInTx = true ∧ x.conn = q.conn := by
  induction block generalizing q with
  | nil => exact List.forall_mem_nil _
  | cons y block ih =>
    obtain ⟨hfollows, hchain⟩ := List.isChain_cons_cons.mp h
    have hq : q.routed.nowInTx = true := hopen q (by simp)
    have hrest := ih hchain fun x hx => hopen x (by simp [List.dropLast_cons_of_ne_nil, hx])
    intro x hx
    rcases List.mem_cons.mp hx with rfl | hx
    · exact ⟨hfollows.1.trans hq, hfollows.2 hq⟩
    · exact ⟨(hrest x hx).1, (hrest x hx).2.trans (hfollows.2 hq)⟩

/-! ## One session -/

def Fit (writer : Pool) : Op → Stay → Prop
  | .recv v, _ => v.boundWriter.isSome = v.session.inTransaction ∧
      v.boundWriter.isSome = v.boundWriterPool.isSome
  | .leave v, _ => v.boundWriter.isSome = v.boundWriterPool.isSome
  | .release c p, s | .discard c p, s => (c, p) ∈ s.held
  | .send c _, s => c ∈ s.held.map Prod.fst ∧ Affine (s.run c writer).log
  | .relay c, s | .collect c, s | .relayDescribe c, s | .queryLSN c, s
  | .reset c, s => c ∈ s.held.map Prod.fst
  | .nilPool _, _ => False
  | _, _ => True

structure Calm (held : List (Conn × Pool)) (s : Stay) : Prop where
  held : s.held = held
  wasInTx : s.routed.wasInTx = false
  nowInTx : s.routed.nowInTx = false
  shut : openOn s.log = none
  affine : Affine s.log

structure AtHead (writer : Pool) (v : Vars) (s : Stay) : Prop where
  pool : v.boundWriterPool = v.boundWriter.map fun _ => writer
  inTx : v.session.inTransaction = v.boundWriter.isSome
  held : s.held = v.boundWriter.toList.map (·, writer)
  last : openOn s.log = v.boundWriter
  affine : Affine s.log

structure Stopped (writer : Pool) (v : Vars) (s : Stay) : Prop where
  pool : v.boundWriterPool = v.boundWriter.map fun _ => writer
  held : s.held = v.boundWriter.toList.map (·, writer)

section

variable {env : Env} {writer : Pool} {s t : Stay} {v : Vars} {c : Conn} {p : Pool}

theorem Calm.run (h : Calm [(c, p)] s) (writer : Pool) : Calm [(c, p)] (s.run c writer) where
  held := h.held
  wasInTx := h.wasInTx
  nowInTx := h.nowInTx
  shut := by simp [Stay.run, openOn_concat, h.nowInTx]
  affine := by
    refine h.affine.concat ?_ ?_ fun hin => ?_
    · simp [h.shut, h.wasInTx]
    · simp [h.shut]
    · simp [h.wasInTx, h.nowInTx] at hin

theorem Calm.lend {lent : List (Conn × Pool)} (h : Calm [] s) : Calm lent (s.lend lent) :=
  ⟨by simp [Stay.lend, h.held], h.wasInTx, h.nowInTx, h.shut, h.affine⟩

theorem Calm.takeBack (h : Calm [(c, p)] s) : Calm [] (s.takeBack c p) :=
  ⟨by simp [Stay.takeBack, h.held], h.wasInTx, h.nowInTx, h.shut, h.affine⟩

theorem Calm.mem (h : Calm [(c, p)] s) : (c, p) ∈ s.held := by simp [h.held]

theorem Calm.uses (h : Calm [(c, p)] s) : c ∈ s.held.map Prod.fst := List.mem_map_of_mem h.mem

theorem loans : Loans (simple env writer) (Fit writer) (Calm []) fun _ c p => Calm [(c, p)] where
  aside o s ho hs := by
    cases o with
    | client | writerPool | lookup | store => exact ⟨trivial, fun ans t ht => ht.1 ▸ hs⟩
    | _ => exact ho.elim
  acquire p s hs := by
    refine ⟨trivial, fun c t ht => ?_⟩
    obtain rfl : t = _ := ht.1
    cases c <;> exact hs.lend
  acquireReader minLSN s hs := by
    refine ⟨trivial, fun reader t ht => ?_⟩
    obtain rfl : t = _ := ht.1
    cases reader <;> exact hs.lend
  send c p r s hs := ⟨⟨hs.uses, (hs.run writer).affine⟩, fun ok t ht => ht.1 ▸ hs.run writer⟩
  relay c p s hs := ⟨hs.uses, fun ok t ht => ht.1 ▸ hs⟩
  collect c p s hs := ⟨hs.uses, fun r t ht => ht.1 ▸ hs⟩
  reset c p s hs := ⟨hs.uses, fun ok t ht => ht.1 ▸ hs⟩
  release c p s hs := ⟨hs.mem, fun _ t ht => ht.1 ▸ hs.takeBack⟩
  discard c p s hs := ⟨hs.mem, fun _ t ht => ht.1 ▸ hs.takeBack⟩

theorem loopInvariant :
    LoopInvariant (simple env writer) (Fit writer) (AtHead writer) (Stopped writer) where
  alike hv h :=
    { pool := by rw [hv.boundWriterPool, hv.boundWriter, h.pool]
      inTx := by rw [hv.inTransaction, hv.boundWriter, h.inTx]
      held := by rw [hv.boundWriter, h.held]
      last := by rw [hv.boundWriter, h.last]
      affine := h.affine }
  stop h := ⟨h.pool, h.held⟩
  speaks v o s ho hs := by
    cases o with
    | client | allow => exact ⟨trivial, fun ans t ht => ht.1 ▸ hs⟩
    | _ => exact ho.elim

/-! ### The writer path -/

theorem AtHead.of_eq {b : Option Conn} (hb : v.boundWriter = b)
    (hpool : v.boundWriterPool = b.map fun _ => writer) (hin : v.session.inTransaction = b.isSome)
    (hheld : s.held = b.toList.map (·, writer)) (hlast : openOn s.log = b)
    (haffine : Affine s.log) : AtHead writer v s := by
  subst hb
  exact ⟨hpool, hin, hheld, hlast, haffine⟩

structure Sent (writer : Pool) (r : RoutedTx) (c : Conn) (s : Stay) : Prop where
  held : s.held = [(c, writer)]
  last : openOn s.log = if r.nowInTx then some c else none
  affine : Affine s.log

variable {r : RoutedTx}

theorem Sent.uses (h : Sent writer r c s) : c ∈ s.held.map Prod.fst := by simp [h.held]

def Behind (c : Conn) : Op → Prop
  | .relay d | .queryLSN d => d = c
  | .invalidate _ => True
  | _ => False

theorem stable_sent (r : RoutedTx) (c : Conn) :
    Stable (simple env writer) (Fit writer) (Behind c) (Sent writer r c) := by
  intro o s ho hs
  cases o with
  | relay | queryLSN =>
    subst ho
    exact ⟨hs.uses, fun ans t ht => ht.1 ▸ hs⟩
  | invalidate => exact ⟨trivial, fun ans t ht => ht.1 ▸ hs⟩
  | _ => exact ho.elim

theorem all_lsnAfter (asks : Bool) (c : Conn) : (lsnAfter asks c).All (Behind c) := by
  cases asks with
  | true => exact .perform rfl
  | false => exact .pure _

theorem sent_run (hheld : s.held = [(c, writer)]) (hr : s.routed = r) (haffine : Affine s.log)
    (hwas : r.wasInTx = (openOn s.log).isSome) (hc : ∀ b ∈ openOn s.log, c = b)
    (hroute : r.route = .writer) : Sent writer r c (s.run c writer) where
  held := hheld
  last := by simp [Stay.run, openOn_concat, hr]
  affine := by
    subst hr
    exact haffine.concat hwas hc fun _ => ⟨hroute, by simp [hheld]⟩

theorem safe_handleWriteQuery (cfg : Config) (msg : Message) (query : Bytes)
    (qtype : Router.QueryType) (session : Session) (huses : c ∈ s.held.map Prod.fst)
    (hs : Sent writer r c (s.run c writer)) :
    Safe (simple env writer) (Fit writer) (handleWriteQuery env cfg c msg query qtype session)
      (fun session' t => Sent writer r c t ∧ session'.inTransaction = session.inTransaction) s := by
  refine safe_bind.mpr (safe_bind.mpr ⟨⟨huses, hs.affine⟩, fun ok t ht => ?_⟩)
  obtain rfl : t = s.run c writer := ht.1
  cases ok with
  | false => exact ⟨hs, rfl⟩
  | true =>
    have hrelay : (relayUntilReady c).All (Behind c) := .perform rfl
    refine (hrelay.safe (stable_sent r c) hs).mono fun ok t ht => ?_
    cases ok with
    | false => exact ⟨ht, rfl⟩
    | true =>
      refine (all_lsnAfter _ c).then (stable_sent r c) ht fun lsn u hu => ?_
      refine Prog.All.then (all_onlyIf _ (.perform trivial)) (stable_sent r c) hu fun _ w hw =>
        ⟨hw, ?_⟩
      cases lsn <;> rfl

theorem safe_giveBack (dirty : Bool) (hs : s.held = [(c, p)]) :
    Safe (simple env writer) (Fit writer) (giveBack dirty c (some p))
      (fun ok t => ok = true ∧ t.held = [] ∧ t.log = s.log) s := by
  have hmem : (c, p) ∈ s.held := by simp [hs]
  have hback : (s.takeBack c p).held = [] := by simp [Stay.takeBack, hs]
  cases dirty with
  | false => exact ⟨hmem, fun _ t ht => ht.1 ▸ ⟨rfl, hback, rfl⟩⟩
  | true =>
    refine ⟨List.mem_map_of_mem hmem, fun ok t ht => ?_⟩
    obtain rfl : t = s := ht.1
    cases ok <;> exact ⟨hmem, fun _ t ht => ht.1 ▸ ⟨rfl, hback, rfl⟩⟩

theorem safe_withWriter {use : Pool → Conn → Bool → Run (Flow Vars)}
    (hpool : v.boundWriterPool = v.boundWriter.map fun _ => writer)
    (hheld : s.held = v.boundWriter.toList.map (·, writer))
    (huse : ∀ c acquired t, t.held = [(c, writer)] → t.routed = s.routed → t.log = s.log →
      acquired = v.boundWriter.isNone → (∀ b ∈ v.boundWriter, c = b) → Safe (simple env writer)
      (Fit writer) (use writer c acquired) (Flow.Post (AtHead writer) (Stopped writer)) t) :
    Safe (simple env writer) (Fit writer) (withWriter v use)
      (Flow.Post (AtHead writer) (Stopped writer)) s := by
  refine safe_bind.mpr ⟨trivial, fun p t ht => ?_⟩
  obtain ⟨rfl, rfl⟩ : t = s ∧ p = writer := ht
  cases hb : v.boundWriter with
  | some c =>
    rw [hb] at hheld huse
    exact huse c false t hheld rfl rfl rfl (by simp)
  | none =>
    rw [hb] at hheld huse
    refine safe_bind.mpr (safe_bind.mpr ⟨trivial, fun c u hu => ?_⟩)
    obtain rfl : u = t.lend (c.toList.map (·, p)) := hu.1
    cases c with
    | none =>
      refine safe_bind.mpr (safe_bind.mpr ⟨trivial, fun _ u hu => ?_⟩)
      obtain rfl : u = t.lend [] := hu.1
      exact ⟨hpool, hb ▸ hheld⟩
    | some c =>
      exact huse c true (t.lend [(c, p)]) (by simp [Stay.lend, hheld]) rfl rfl rfl (by simp)

theorem safe_settle {acquired dirty : Bool} (hs : Sent writer r c s)
    (hpool : v.boundWriterPool = v.boundWriter.map fun _ => writer)
    (hwas : r.wasInTx = v.boundWriter.isSome) (hnow : v.session.inTransaction = r.nowInTx)
    (hacq : acquired = v.boundWriter.isNone) (hc : ∀ b ∈ v.boundWriter, c = b) :
    Safe (simple env writer) (Fit writer)
      (settle (!r.wasInTx && r.nowInTx) (r.wasInTx && !r.nowInTx) acquired dirty false c writer v)
      (Flow.Post (AtHead writer) (Stopped writer)) s := by
  have hlast := hs.last
  cases hb : v.boundWriter with
  | none =>
    rw [hb] at hpool hwas hacq
    subst hacq
    cases hn : r.nowInTx with
    | true =>
      rw [hwas]
      rw [hn] at hnow hlast
      exact ⟨rfl, hnow, hs.held, hlast, hs.affine⟩
    | false =>
      rw [hwas]
      rw [hn] at hnow hlast
      refine (safe_giveBack dirty hs.held).bind fun ok t ht => ?_
      obtain ⟨rfl, hheld, hlog⟩ := ht
      exact AtHead.of_eq hb hpool hnow hheld (hlog ▸ hlast) (hlog ▸ hs.affine)
  | some b =>
    obtain rfl : c = b := hc b hb
    rw [hb] at hpool hwas hacq
    subst hacq
    cases hn : r.nowInTx with
    | true =>
      rw [hwas]
      rw [hn] at hnow hlast
      exact AtHead.of_eq hb hpool hnow hs.held hlast hs.affine
    | false =>
      rw [hwas]
      rw [hn] at hnow hlast
      simp only [settle, hpool]
      refine (safe_giveBack dirty hs.held).bind fun ok t ht => ?_
      obtain ⟨rfl, hheld, hlog⟩ := ht
      exact ⟨rfl, hnow, hheld, hlog ▸ hlast, hlog ▸ hs.affine⟩

/-! ### Rounds -/

structure Noted (env : Env) (writer : Pool) (i : Input) (v : Vars) (s : Stay) :
    Prop extends AtHead writer v s where
  routed : s.routed = (routing env v i).1

variable {i : Input}

theorem Noted.calm (h : Noted env writer i v s) (hroute : (routing env v i).1.route = .reader) :
    Calm [] s := by
  have hout := Router.inTransaction_of_reader env.toEnv hroute
  have hnone : v.boundWriter = none := by simpa using h.inTx.symm.trans hout.1
  refine ⟨?_, ?_, ?_, ?_, h.affine⟩
  · rw [h.held, hnone]; rfl
  · rw [h.routed]; exact hout.1
  · rw [h.routed]; exact hout.2
  · rw [h.last, hnone]

theorem Calm.atHead (h : Calm [] t) (hv : AtHead writer v s) (hnone : v.boundWriter = none) :
    AtHead writer v t :=
  .of_eq hnone (hnone ▸ hv.pool) (hnone ▸ hv.inTx) h.held h.shut h.affine

theorem safe_writeSimple (pq : Option PgQuery.ParseResult) (hs : Noted env writer i v s)
    (hroute : (routing env v i).1.route = .writer) : Safe (simple env writer) (Fit writer)
      (writeSimple env i (extractQueryText i.msg.payload) pq (routing env v i).1
        { v with session := (routing env v i).2 })
      (Flow.Post (AtHead writer) (Stopped writer)) s := by
  have hwas : (routing env v i).1.wasInTx = v.boundWriter.isSome := hs.inTx
  refine safe_withWriter (v := { v with session := (routing env v i).2 }) hs.pool hs.held
    fun c acquired t hheld hrouted hlog hacq hc => ?_
  have hsent : Sent writer (routing env v i).1 c (t.run c writer) := by
    apply sent_run hheld (hrouted.trans hs.routed) (hlog ▸ hs.affine) _ _ hroute
    · rw [hlog, hs.last, hwas]
    · rw [hlog, hs.last]
      exact hc
  refine (safe_handleWriteQuery _ _ _ _ _ (by simp [hheld]) hsent).bind fun session u hu => ?_
  exact safe_settle hu.1 hs.pool hwas hu.2 hacq hc

theorem safe_query (hi : i.msg.type = msgQuery) (hs : Noted env writer i v s) :
    Safe (simple env writer) (Fit writer) (dispatch env i v)
      (Flow.Post (AtHead writer) (Stopped writer)) s := by
  rw [dispatch_query hi]
  refine loopInvariant.handleQuery hs.toAtHead fun _ pq =>
    loopInvariant.executeQuery ?_ fun hroute => ?_
  · exact safe_writeSimple pq hs
  · have hcalm := hs.calm hroute
    have hnone : v.boundWriter = none := by rw [← hs.last, hcalm.shut]
    exact (loans.handleReadQuery _ _ _ _ hcalm).mono fun _ _ ht => ht.atHead hs.toAtHead hnone

theorem stable_noted : Stable (simple env writer) (Fit writer) Speaks (Noted env writer i v) := by
  intro o s ho hs
  cases o with
  | client | allow => exact ⟨trivial, fun ans t ht => ht.1 ▸ hs⟩
  | _ => exact ho.elim

theorem safe_round (hs : AtHead writer v s) :
    Safe (simple env writer) (Fit writer) (round env v)
      (Flow.Post (AtHead writer) (Stopped writer)) s := by
  refine safe_bind.mpr ⟨⟨hs.inTx.symm, by rw [hs.pool, Option.isSome_map]⟩, fun i t ht => ?_⟩
  obtain ⟨rfl, hi⟩ := ht
  cases i with
  | none => exact ⟨hs.pool, hs.held⟩
  | some i =>
    have hnoted : Noted env writer i v (next env writer (.recv v) s (some i)) :=
      ⟨⟨hs.pool, hs.inTx, hs.held, hs.last, hs.affine⟩, rfl⟩
    cases hi with
    | inl hi =>
      exact loopInvariant.handleMessage (fun _ h => h.toAtHead) stable_noted hnoted fun _ h =>
        safe_query hi h
    | inr hi =>
      change Safe _ _ (handleMessage env i v) _ _
      rw [handleMessage, if_pos hi]
      exact ⟨hs.pool, hs.held⟩

theorem safe_cleanup (hs : Stopped writer v s) :
    Safe (simple env writer) (Fit writer) (cleanup v) (fun _ t => t.held = []) s := by
  refine safe_bind.mpr ⟨by rw [Fit, hs.pool, Option.isSome_map], fun _ t ht => ?_⟩
  obtain rfl : t = s := ht.1
  obtain ⟨hpool, hheld⟩ := hs
  rw [hpool]
  cases hb : v.boundWriter with
  | none =>
    rw [hb] at hheld
    exact hheld
  | some c =>
    rw [hb] at hheld
    exact (safe_giveBack _ hheld).bind fun _ _ hu => hu.2.1

theorem safe_relayQueries {session : Session} (n : Nat) (hs : session.inTransaction = false) :
    Safe (simple env writer) (Fit writer) (relayQueries env n session)
      (fun _ t => t.held = []) Stay.new := by
  have hinit : AtHead writer (Vars.init session) Stay.new := ⟨rfl, hs, rfl, rfl, affine_nil⟩
  refine Safe.bind ?_ fun v t ht => safe_cleanup ht
  exact Safe.rounds n (fun v s h => safe_round h) (fun v s h => ⟨h.pool, h.held⟩) hinit

end

/-! ## Sessions on shared pools -/

def onPools (env : Env) (origin : Conn → Pool) : Machine Ans World := fun o w ans w' =>
  ∃ t, PoolSession.step env origin o ⟨w, none, none, false, false⟩ ans t ∧ t.world = w'

section

variable {ι : Type} {held : ι → List (Conn × Pool)} {borrowed : List (Conn × Pool)}

structure Apart (held : ι → List (Conn × Pool)) (borrowed : List (Conn × Pool)) : Prop where
  borrowed : ∀ i, ∀ e ∈ held i, e ∈ borrowed
  nodup : ∀ i, (held i).Nodup
  apart : ∀ i j, i ≠ j → ∀ e ∈ held i, ∀ e' ∈ held j, e.1 ≠ e'.1

variable [DecidableEq ι] {i : ι}

theorem Apart.lend (h : Apart held borrowed) {lent : List (Conn × Pool)}
    (hnew : ((lent ++ borrowed).map Prod.fst).Nodup) :
    Apart (Function.update held i (lent ++ held i)) (lent ++ borrowed) := by
  have hsplit := hnew
  rw [List.map_append, List.nodup_append] at hsplit
  have hfresh : ∀ e ∈ lent, ∀ j, ∀ e' ∈ held j, e.1 ≠ e'.1 := fun e he j e' he' =>
    hsplit.2.2 _ (List.mem_map_of_mem he) _ (List.mem_map_of_mem (h.borrowed j e' he'))
  have hsub : ∀ j, ∀ x ∈ Function.update held i (lent ++ held i) j, x ∈ held j ∨ j = i ∧
      x ∈ lent := by
    intro j x hx
    by_cases hj : j = i
    · subst hj
      rw [Function.update_self] at hx
      exact (List.mem_append.mp hx).symm.imp_right fun hx => ⟨rfl, hx⟩
    · rw [Function.update_of_ne hj] at hx
      exact .inl hx
  refine ⟨fun j x hx => ?_, fun j => ?_, fun j k hjk x hx x' hx' => ?_⟩
  · rcases hsub j x hx with hx | ⟨_, hx⟩
    · exact List.mem_append_right _ (h.borrowed j x hx)
    · exact List.mem_append_left _ hx
  · by_cases hj : j = i
    · subst hj
      rw [Function.update_self]
      refine List.nodup_append.mpr ⟨.of_map _ hsplit.1, h.nodup j, fun e he e' he' hee => ?_⟩
      exact hfresh e he j e' he' (by rw [hee])
    · rw [Function.update_of_ne hj]
      exact h.nodup j
  · rcases hsub j x hx with hold | ⟨hj, hnew⟩
    · rcases hsub k x' hx' with hold' | ⟨_, hnew'⟩
      · exact h.apart j k hjk x hold x' hold'
      · exact (hfresh x' hnew' j x hold).symm
    · rcases hsub k x' hx' with hold' | ⟨hk, _⟩
      · exact hfresh x hnew k x' hold'
      · exact absurd (hj.trans hk.symm) hjk

theorem Apart.takeBack (h : Apart held borrowed) {e : Conn × Pool} (he : e ∈ held i) :
    Apart (Function.update held i ((held i).erase e)) (borrowed.erase e) := by
  have hsub : ∀ j, ∀ x ∈ Function.update held i ((held i).erase e) j, x ∈ held j ∧ x ≠ e := by
    intro j x hx
    by_cases hj : j = i
    · subst hj
      rw [Function.update_self, (h.nodup j).mem_erase_iff] at hx
      exact ⟨hx.2, hx.1⟩
    · rw [Function.update_of_ne hj] at hx
      exact ⟨hx, fun hxe => h.apart j i hj x hx e he (by rw [hxe])⟩
  refine ⟨fun j x hx => ?_, fun j => ?_, fun j k hjk x hx x' hx' => ?_⟩
  · exact (List.mem_erase_of_ne (hsub j x hx).2).mpr (h.borrowed j x (hsub j x hx).1)
  · by_cases hj : j = i
    · subst hj
      rw [Function.update_self]
      exact (h.nodup j).erase e
    · rw [Function.update_of_ne hj]
      exact h.nodup j
  · exact h.apart j k hjk x (hsub j x hx).1 x' (hsub k x' hx').1

variable {env : Env} {origin : Conn → Pool} {writer : Pool}

def ToWriter (r : RoutedTx) : Prop := r.wasInTx = true ∨ r.nowInTx = true → r.route = .writer

theorem toWriter_routing (env : Env) (v : Vars) (i : Input) : ToWriter (routing env v i).1 := by
  intro hin
  cases hroute : (routing env v i).1.route with
  | writer => rfl
  | reader =>
    have hout := Router.inTransaction_of_reader env.toEnv hroute
    rcases hin with hin | hin
    · exact absurd (hin.symm.trans hout.1) (by decide)
    · exact absurd (hin.symm.trans hout.2) (by decide)

structure Together (writer : Pool) (origin : Conn → Pool) (s : ι → Stay) (w : World) : Prop where
  wellFormed : w.WellFormed origin
  writerPool : w.writerPool = writer
  apart : Apart (fun i => (s i).held) w.borrowed
  toWriter : ∀ i, ToWriter (s i).routed
  affine : ∀ i, Affine (s i).log

variable {o : Op} {s : Stay}

theorem sound_of_fit {l : Borrowing.Ledger} (h : Fit writer o s)
    (hl : ∀ e ∈ s.held, e ∈ l.borrowed) : Borrowing.Sound o l := by
  cases o with
  | recv v => exact h.2
  | leave v => exact h
  | release c p | discard c p => exact hl _ h
  | nilPool c => exact h.elim
  | _ => trivial

inductive Moves (s t : Stay) (w w' : World) : Prop where
  | lend (lent : List (Conn × Pool)) (ht : t.held = lent ++ s.held)
      (hw : w'.borrowed = lent ++ w.borrowed)
  | takeBack (e : Conn × Pool) (he : e ∈ s.held) (ht : t.held = s.held.erase e)
      (hw : w'.borrowed = w.borrowed.erase e)

theorem moves_of_step {ans : Ans o} {t : Stay} {w : World} {u : PoolSession.Site}
    (hw : w.writerPool = writer) (hfit : Fit writer o s) (ht : t = next env writer o s ans)
    (hl : Borrowing.step env o (PoolSession.Site.ledger ⟨w, none, none, false,
      false⟩) ans u.ledger) : Moves s t w u.world ∧ u.world.writerPool = w.writerPool := by
  subst ht
  cases o with
  | recv v =>
    have hb := congrArg Borrowing.Ledger.borrowed hl
    have hp := congrArg Borrowing.Ledger.writerPool hl
    cases ans <;> exact ⟨.lend [] rfl hb, hp⟩
  | writerPool => exact ⟨.lend [] rfl (congrArg Borrowing.Ledger.borrowed hl.2.2),
      congrArg Borrowing.Ledger.writerPool hl.2.2⟩
  | acquireWriter =>
    refine ⟨.lend _ rfl ?_, congrArg Borrowing.Ledger.writerPool hl.2⟩
    exact hw ▸ congrArg Borrowing.Ledger.borrowed hl.2
  | acquire p
  | acquireReader lsn => exact ⟨.lend _ rfl (congrArg Borrowing.Ledger.borrowed hl),
      congrArg Borrowing.Ledger.writerPool hl⟩
  | release c p | discard c p =>
    exact ⟨.takeBack (c, p) hfit rfl (congrArg Borrowing.Ledger.borrowed hl),
      congrArg Borrowing.Ledger.writerPool hl⟩
  | _ => exact ⟨.lend [] rfl (congrArg Borrowing.Ledger.borrowed hl),
      congrArg Borrowing.Ledger.writerPool hl⟩

theorem Apart.moves {s : ι → Stay} {t : Stay} {w w' : World}
    (h : Apart (fun i => (s i).held) w.borrowed) (hw : w'.WellFormed origin)
    (hm : Moves (s i) t w w') :
    Apart (Function.update (fun i => (s i).held) i t.held) w'.borrowed := by
  cases hm with
  | lend lent ht hb =>
    rw [ht, hb]
    exact h.lend (hb ▸ hw.borrowed_nodup)
  | takeBack e he ht hb =>
    rw [ht, hb]
    exact h.takeBack he

theorem toWriter_next (h : ToWriter s.routed) (ans : Ans o) :
    ToWriter (next env writer o s ans).routed := by
  cases o with
  | recv v =>
    cases ans with
    | none => exact h
    | some i => exact toWriter_routing env v i
  | _ => exact h

theorem affine_next (h : Affine s.log) (hfit : Fit writer o s) (ans : Ans o) :
    Affine (next env writer o s ans).log := by
  cases o with
  | recv v =>
    cases ans <;> exact h
  | send c r => exact hfit.2
  | _ => exact h

theorem Together.step {s : ι → Stay} {t : Stay} {w w' : World} {ans : Ans o}
    (h : Together writer origin s w) (hfit : Fit writer o (s i))
    (ht : simple env writer o (s i) ans t) (hw : onPools env origin o w ans w') :
    Together writer origin (Function.update s i t) w' := by
  obtain ⟨u, hu, rfl⟩ := hw
  obtain ⟨ht, -⟩ := ht
  have hsound : Borrowing.Sound o (PoolSession.Site.ledger ⟨w, none, none, false, false⟩) :=
    sound_of_fit hfit (h.apart.borrowed i)
  obtain ⟨hwf, hl⟩ :=
    PoolSession.step_ledger h.wellFormed hsound (fun hno => absurd hno Bool.false_ne_true) hu
  obtain ⟨hmoves, hpool⟩ := moves_of_step h.writerPool hfit ht hl
  have hheld : (fun j => (Function.update s i t j).held) =
      Function.update (fun j => (s j).held) i t.held :=
    Function.comp_update Stay.held s i t
  refine ⟨hwf, hpool.trans h.writerPool, hheld ▸ h.apart.moves hwf hmoves, fun j => ?_, fun j => ?_⟩
  · by_cases hj : j = i
    · subst hj
      rw [Function.update_self, ht]
      exact toWriter_next (h.toWriter j) ans
    · rw [Function.update_of_ne hj]
      exact h.toWriter j
  · by_cases hj : j = i
    · subst hj
      rw [Function.update_self, ht]
      exact affine_next (h.affine j) hfit ans
    · rw [Function.update_of_ne hj]
      exact h.affine j

variable {x : ι → Run Unit × Stay} {w₀ w : World}

/-- The queries of a transaction run on one writer connection, which no other session holds. -/
theorem one_connection_per_transaction (n : ι → Nat) {sessions : ι → Session}
    (hs : ∀ i, (sessions i).inTransaction = false) (hw : w₀.WellFormed origin)
    (hr : ReachShared (simple env w₀.writerPool) (onPools env origin)
      (fun i => (relayQueries env (n i) (sessions i), Stay.new)) w₀ x w) :
    (∀ i v, (x i).1.head = some (.recv v) →
      (v.boundWriter.isSome ↔ v.session.inTransaction = true)) ∧ (∀ i, ToWriter (x i).2.routed) ∧
      (∀ i q block, q :: block <:+: (x i).2.log →
        (∀ q' ∈ (q :: block).dropLast, q'.routed.nowInTx = true) →
        ∀ q' ∈ block, q'.routed.wasInTx = true ∧ q'.conn = q.conn) ∧
      (∀ i, ∀ q ∈ (x i).2.log, OnWriter q) ∧
      (∀ i c r, (x i).1.head = some (.send c r) → c ∈ (x i).2.held.map Prod.fst) ∧
      ∀ i j, i ≠ j → ∀ e ∈ (x i).2.held, ∀ e' ∈ (x j).2.held, e.1 ≠ e'.1 := by
  have hsafe : ∀ i, Safe (simple env w₀.writerPool) (Fit w₀.writerPool)
      (relayQueries env (n i) (sessions i))
      (fun _ t => t.held = []) Stay.new := fun i => safe_relayQueries (n i) (hs i)
  have hinit : Together w₀.writerPool origin (fun _ : ι => Stay.new) w₀ := by
    refine ⟨hw, rfl, ⟨fun _ => List.forall_mem_nil _, fun _ => List.nodup_nil,
      fun _ _ _ => List.forall_mem_nil _⟩, fun _ _ => rfl, fun _ => affine_nil⟩
  have htogether : Together w₀.writerPool origin (fun i => (x i).2) w :=
    hr.invariant (fun s w i o ans t w' h hfit ht hw => h.step hfit ht hw) hsafe hinit
  refine ⟨fun i v hv => ?_, htogether.toWriter, fun i q block hpart hopen => ?_,
    fun i => (htogether.affine i).writer, fun i c r hsend => ?_, htogether.apart.apart⟩
  · have hfit : Fit w₀.writerPool (.recv v) (x i).2 := (hsafe i).guarded (hr.all.at i) hv
    rw [hfit.1]
  · have hblock : (q :: block).IsChain Follows :=
      List.IsChain.infix (htogether.affine i).chain hpart
    exact same_conn_of_isChain hblock hopen
  · have hfit : Fit w₀.writerPool (.send c r) (x i).2 := (hsafe i).guarded (hr.all.at i) hsend
    exact hfit.1

end

/-! ## Two sessions -/

instance (writer : Pool) :
    (o : Op) → (s : Stay) → (ans : Ans o) → (t : Stay) → Decidable (Simple writer o s ans t)
  | .recv _, _, some i, _ =>
      inferInstanceAs (Decidable (i.msg.type = msgQuery ∨ i.msg.type = msgTerminate))
  | .writerPool, _, p, _ => inferInstanceAs (Decidable (p = writer))
  | .recv _, _, none, _ | .leave _, _, _, _ | .acquireWriter, _, _, _ | .allow, _, _, _
  | .client _, _, _, _ | .acquire _, _, _, _ | .acquireReader _, _, _, _ | .send _ _, _, _, _
  | .relay _, _, _, _ | .collect _, _, _, _ | .relayDescribe _, _, _, _ | .queryLSN _, _, _, _
  | .reset _, _, _, _ | .release _ _, _, _, _ | .discard _ _, _, _, _ | .nilPool _, _, _, _
  | .lookup _ _, _, _, _ | .store _ _, _, _, _ | .invalidate _, _, _, _ => .isTrue trivial

def nextBoth (env : Env) (origin : Conn → Pool) (writer : Pool) (o : Op) (s : Stay × World)
    (ans : Ans o) : Option (Stay × World) :=
  (onlyWhen (always (next env writer)) (Simple writer) o s.1 ans).bind fun t =>
    (PoolSession.run env origin o ⟨s.2, none, none, false, false⟩ ans).map fun u => (t, u.world)

theorem both_of_nextBoth {env : Env} {origin : Conn → Pool} {writer : Pool} (o : Op)
    (s : Stay × World) (ans : Ans o) (t : Stay × World)
    (h : nextBoth env origin writer o s ans = some t) :
    (simple env writer).both (onPools env origin) o s ans t := by
  obtain ⟨t', ht', h⟩ := Option.bind_eq_some_iff.mp h
  obtain ⟨u, hu, rfl⟩ := Option.map_eq_some_iff.mp h
  exact ⟨restrict_of_onlyWhen (ofFun_of_always _) _ o s.1 ans t' ht', u,
    PoolSession.step_of_run hu, rfl⟩

def roomForTwo : World := { PoolSession.freshSite.world with pools := fun p => ⟨2, [], 0, p != 0⟩ }

theorem roomForTwo_wellFormed (origin : Conn → Pool) : roomForTwo.WellFormed origin :=
  have h := PoolSession.freshSite_wellFormed origin
  ⟨h.numOpen_eq, h.idle_own, h.idle_nodup, h.borrowed_own, h.borrowed_nodup, h.borrowed_idle,
    h.origin_lt, h.uncreated, h.writerPool_lt⟩

theorem one_connection_per_transaction_two :
    ∃ (x : Bool → Run Unit × Stay) (w : World),
      ReachShared (simple (plainEnv false) roomForTwo.writerPool)
        (onPools (plainEnv false) fun _ => 0)
        (fun _ => (relayQueries (plainEnv false) 2 PoolSession.plainSession,
          Stay.new)) roomForTwo x w ∧
      (x false).2.log.map Ran.conn = [0, 0] ∧ (x true).2.log.map Ran.conn = [1] ∧
      ∀ e ∈ (x false).2.held, ∀ e' ∈ (x true).2.held, e.1 ≠ e'.1 := by
  have hreach := reach_driveTurns Script.reply (@both_of_nextBoth (plainEnv false) (fun _ => 0) 0)
    [(false, 6, ⟨[plainQuery "BEGIN"], [0], [0]⟩),
      (true, 6, ⟨[plainQuery "INSERT INTO t VALUES (1)"], [0], [1]⟩),
      (false, 4, ⟨[plainQuery "COMMIT"], [0], []⟩)]
    (fun _ => (relayQueries (plainEnv false) 2 PoolSession.plainSession, Stay.new)) roomForTwo
  refine ⟨_, _, hreach, ?_, ?_,
    (one_connection_per_transaction (fun _ => 2) (fun _ => rfl) (roomForTwo_wellFormed _)
    hreach).2.2.2.2.2 false true (by decide)⟩
  · decide +kernel
  · decide +kernel

end PgMux.Affinity
