import PgMux.Loans
import PgMux.Wire

/-!
# Connections that are released in step

The writer path of simple queries ignores a failed exchange, and the query for the write position
stops at an error; both leave replies on a connection that is then released or kept. Where neither
happens, what is released is in step.
-/

namespace PgMux.InStep

open Effects Protocol Relay Wire
open Router (Session)
open Pools (Conn Pool)

structure Lines where
  line : Conn → Line
  writing : Bool

def Lines.new : Lines := ⟨fun _ => Line.new, false⟩

def Lines.set (s : Lines) (c : Conn) (l : Line) : Lines :=
  { s with line := Function.update s.line c l }

def routedToWriter (env : Env) (v : Vars) (i : Input) : Bool :=
  (Router.routeWithTxState env.toEnv v.session i.now (extractQueryText i.msg.payload)).1.route ==
    .writer

def asks : Request → Message
  | .forward msg => msg
  | .synthesized query => ⟨msgQuery, query ++ [0]⟩
  | .batch _ sync => sync
  | .describe _ => ⟨msgSync, []⟩

def stepOn (env : Env) (relays : Bool → Machine WireAns Line) (position : Machine WireAns Line) :
    Machine Ans Lines := fun o s ans t =>
  match o, ans with
  | .recv v, some i => t = { s with writing := routedToWriter env v i }
  | .send c r, ok => ∃ l, relays s.writing (.request (asks r)) (s.line c) ok l ∧ t = s.set c l
  | .relay c, ok => ∃ n l, Ends (relays s.writing) (Wire.relayUntilReady n) (s.line c) ok l ∧
      t = s.set c l
  | .collect c, r =>
    ∃ maxSize n l, Ends (relays s.writing) (Wire.relayAndCollect maxSize n (some 0))
      (s.line c) r l ∧ t = s.set c l
  | .queryLSN c, r => ∃ n l, Ends position (Wire.queryCurrentLSN n) (s.line c) r l ∧ t = s.set c l
  | .reset c, ok => ∃ resetQuery n l, Ends wire (Wire.resetConn resetQuery n) (s.line c) ok l ∧
      t = s.set c l
  | .relayDescribe c, _ => ∃ l, t = s.set c l
  | .discard c _, _ | .nilPool c, _ => t = s.set c Line.new
  | _, _ => t = s

abbrev step (env : Env) : Machine Ans Lines := stepOn env (fun _ => wire) wire

abbrev simple (env : Env) : Machine Ans Lines :=
  (step env).restrict (OnRecv fun _ i _ => i.msg.type = msgQuery ∨ i.msg.type = msgTerminate)

/-- Exchanges of the writer path succeed, and the write position is told. -/
abbrev sound (env : Env) : Machine Ans Lines :=
  (stepOn env orderly (wire.restrict Quiet)).restrict
    (OnRecv fun _ i _ => i.msg.type = msgQuery ∨ i.msg.type = msgTerminate)

/-- What is released, and what is kept for the next message, is in step. -/
def Ready : Op → Lines → Prop
  | .release c _, s => (s.line c).InStep
  | .recv v, s => ∀ c ∈ v.boundWriter, (s.line c).InStep
  | _, _ => True

/-! ## Connections in step -/

structure Fine (writing : Bool) (s : Lines) : Prop where
  inStep : ∀ c, (s.line c).InStep
  writing : s.writing = writing

structure FineBut (c : Conn) (writing : Bool) (s : Lines) : Prop where
  inStep : ∀ d ≠ c, (s.line d).InStep
  writing : s.writing = writing

section

variable {env : Env} {w : Bool} {c : Conn} {s : Lines}

theorem Fine.but (h : Fine w s) (c : Conn) : FineBut c w s := ⟨fun d _ => h.inStep d, h.writing⟩

theorem FineBut.set (h : FineBut c w s) (l : Line) : FineBut c w (s.set c l) :=
  ⟨fun d hd => by simpa [Lines.set, hd] using h.inStep d hd, h.writing⟩

theorem FineBut.fine (h : FineBut c w s) {l : Line} (hl : l.InStep) : Fine w (s.set c l) := by
  refine ⟨fun d => ?_, h.writing⟩
  by_cases hd : d = c
  · simpa [Lines.set, hd] using hl
  · simpa [Lines.set, hd] using h.inStep d hd

def Plain : Op → Prop
  | .leave _ | .allow | .client _ | .writerPool | .acquireWriter | .acquire _ | .acquireReader _
  | .lookup _ _ | .store _ _ | .invalidate _ => True
  | _ => False

theorem stable_plain (P : Lines → Prop) : Stable (sound env) Ready Plain P := by
  intro o s ho hs
  cases o with
  | leave | allow | client | writerPool | acquireWriter | acquire | acquireReader | lookup | store
  | invalidate =>
    exact ⟨trivial, fun ans t ht => by obtain rfl : t = s := ht.1; exact hs⟩
  | _ => exact ho.elim

theorem plain_then {α β : Type} {P : Lines → Prop} {p : Run α} {f : α → Run β}
    {Q : β → Lines → Prop} (hp : p.All Plain) (hs : P s)
    (hf : ∀ a t, P t → Safe (sound env) Ready (f a) Q t) : Safe (sound env) Ready (p >>= f) Q s :=
  hp.then (stable_plain P) hs hf

/-! ## Exchanges -/

structure Settled (c : Conn) (writing ok : Bool) (s : Lines) : Prop where
  others : FineBut c writing s
  fine : ok = true ∨ writing = true → Fine writing s

theorem safe_relayUntilReady (h : FineBut c w s) (hopen : (s.line c).Open) :
    Safe (sound env) Ready (Relay.relayUntilReady c) (Settled c w) s := by
  refine ⟨trivial, fun ok t ht => ?_⟩
  obtain ⟨⟨n, l, hends, rfl⟩, _⟩ := ht
  rw [h.writing] at hends
  have hl : Finishes w (some ok) l := (Wire.safe_relayUntilReady n hopen).reach hends
  exact ⟨h.set l, fun hok => h.fine (hl hok)⟩

theorem open_or_failed {r : Request} {ok : Bool} {t : Lines} (h : Fine w s)
    (ht : sound env (.send c r) s ok t) :
    FineBut c w t ∧ (ok = true → (t.line c).Open) ∧ (w = true → ok = true) := by
  obtain ⟨⟨l, ⟨hwire, horderly⟩, rfl⟩, _⟩ := ht
  refine ⟨(h.but c).set l, fun hok => ?_, fun hw => horderly (h.writing.trans hw)⟩
  subst hok
  have hopen := open_of_request (h.inStep c) hwire
  simpa [Lines.set] using hopen

theorem safe_exchange (r : Request) (h : Fine w s) :
    Safe (sound env) Ready (exchange c r) (Settled c w) s := by
  refine ⟨trivial, fun ok t ht => ?_⟩
  obtain ⟨hbut, hopen, hstrict⟩ := open_or_failed h ht
  cases ok with
  | true => exact safe_relayUntilReady hbut (hopen rfl)
  | false => exact ⟨hbut, fun hok => nomatch hstrict (hok.resolve_left nofun)⟩

theorem safe_relayAndCollect (h : FineBut c w s) (hopen : (s.line c).Open) :
    Safe (sound env) Ready (Relay.relayAndCollect c) (fun r => Settled c w r.isSome) s := by
  refine ⟨trivial, fun r t ht => ?_⟩
  obtain ⟨⟨maxSize, n, l, hends, rfl⟩, _⟩ := ht
  rw [h.writing] at hends
  have hl : Finishes w (some r.isSome) l :=
    (Wire.safe_relayAndCollect maxSize n (some 0) hopen).reach hends
  exact ⟨h.set l, fun hok => h.fine (hl hok)⟩

theorem safe_resetConn (h : Fine w s) :
    Safe (sound env) Ready (Relay.resetConn c)
      (fun ok t => FineBut c w t ∧ (ok = true → Fine w t)) s := by
  refine ⟨trivial, fun ok t ht => ?_⟩
  obtain ⟨⟨resetQuery, n, l, hends, rfl⟩, _⟩ := ht
  have hl : Finishes false (some ok) l :=
    (Wire.safe_resetConn resetQuery n (h.inStep c)).reach hends
  exact ⟨(h.but c).set l, fun hok => (h.but c).fine (hl (.inl hok))⟩

theorem safe_discard (p : Pool) (h : FineBut c w s) :
    Safe (sound env) Ready (discard c p) (fun _ => Fine w) s := by
  refine ⟨trivial, fun _ t ht => ?_⟩
  obtain rfl : t = s.set c Line.new := ht.1
  exact h.fine ⟨rfl, rfl⟩

theorem safe_release (p : Pool) (h : Fine w s) :
    Safe (sound env) Ready (release c p) (fun _ => Fine w) s := by
  refine ⟨h.inStep c, fun _ t ht => ?_⟩
  obtain rfl : t = s := ht.1
  exact h

theorem safe_nilPool (h : FineBut c w s) :
    Safe (sound env) Ready (nilPool c) (fun _ => Fine w) s := by
  refine ⟨trivial, fun _ t ht => ?_⟩
  obtain rfl : t = s.set c Line.new := ht.1
  exact h.fine ⟨rfl, rfl⟩

theorem safe_releaseToPool (p : Option Pool) (h : Fine w s) :
    Safe (sound env) Ready (releaseToPool c p) (fun _ => Fine w) s := by
  cases p with
  | some p => exact (safe_release p h).bind fun _ _ ht => ht
  | none => exact (safe_nilPool (h.but c)).bind fun _ _ ht => ht

theorem safe_discardToPool (p : Option Pool) (h : FineBut c w s) :
    Safe (sound env) Ready (discardToPool c p) (fun _ => Fine w) s := by
  cases p with
  | some p => exact (safe_discard p h).bind fun _ _ ht => ht
  | none => exact (safe_nilPool h).bind fun _ _ ht => ht

theorem safe_giveBack (dirty : Bool) (p : Option Pool) (h : Fine w s) :
    Safe (sound env) Ready (giveBack dirty c p) (fun _ => Fine w) s := by
  cases dirty with
  | false => exact safe_releaseToPool p h
  | true =>
    refine (safe_resetConn h).bind fun ok t ht => ?_
    cases ok with
    | true => exact safe_releaseToPool p (ht.2 rfl)
    | false => exact safe_discardToPool p ht.1

/-! ## Reads -/

def OnLoan (w : Bool) : LoanPhase → Conn → Lines → Prop
  | .fresh, _, s | .answered, _, s => Fine w s
  | .asked, c, s => FineBut c w s ∧ (s.line c).Open
  | .spent, c, s => FineBut c w s

theorem Settled.onLoan {ok : Bool} (h : Settled c w ok s) :
    OnLoan w (LoanPhase.after .answered ok) c s := by
  cases ok with
  | true => exact h.fine (.inl rfl)
  | false => exact h.others

theorem loans : Loans (sound env) Ready (Fine w) fun phase c _ => OnLoan w phase c where
  aside o s ho hs := by
    cases o with
    | client | writerPool | lookup | store => exact stable_plain (Fine w) _ s trivial hs
    | _ => exact ho.elim
  acquire p s hs := by
    refine ⟨trivial, fun conn t ht => ?_⟩
    obtain rfl : t = s := ht.1
    cases conn <;> exact hs
  acquireReader minLSN s hs := by
    refine ⟨trivial, fun reader t ht => ?_⟩
    obtain rfl : t = s := ht.1
    cases reader <;> exact hs
  send c p r s hs := by
    refine ⟨trivial, fun ok t ht => ?_⟩
    obtain ⟨hbut, hopen, _⟩ := open_or_failed hs ht
    cases ok with
    | true => exact ⟨hbut, hopen rfl⟩
    | false => exact hbut
  relay c p s hs := (safe_relayUntilReady hs.1 hs.2).mono fun _ _ ht => ht.onLoan
  collect c p s hs := (safe_relayAndCollect hs.1 hs.2).mono fun _ _ ht => ht.onLoan
  reset c p s hs := by
    refine (safe_resetConn hs).mono fun ok t ht => ?_
    cases ok with
    | true => exact ht.2 rfl
    | false => exact ht.1
  release c p s hs := safe_release p hs
  discard c p s hs := safe_discard p hs

/-! ## Writes -/

theorem safe_handleWriteQuery (cfg : Config) (msg : Message) (query : Bytes)
    (qtype : Router.QueryType) (session : Session) (h : Fine true s) :
    Safe (sound env) Ready (handleWriteQuery env cfg c msg query qtype session)
      (fun _ => Fine true) s := by
  refine (safe_exchange _ h).bind fun ok t ht => ?_
  have hfine := ht.fine (.inr rfl)
  cases ok with
  | false => exact hfine
  | true =>
    have hlsn : ∀ asks, Safe (sound env) Ready (lsnAfter asks c) (fun _ => Fine true) t := by
      intro asks
      cases asks with
      | false => exact hfine
      | true =>
        refine ⟨trivial, fun r u hu => ?_⟩
        obtain ⟨⟨n, l, hends, rfl⟩, _⟩ := hu
        have hl := (Wire.safe_queryCurrentLSN n (hfine.inStep c)).reach hends
        exact ht.others.fine (hl rfl)
    refine (hlsn _).bind fun lsn u hu => ?_
    exact plain_then (all_onlyIf _ (.perform trivial)) hu fun _ _ hv => hv

theorem safe_settle (binds ends acquired dirty dirtyAfter : Bool) (p : Pool) (v : Vars)
    (h : Fine w s) :
    Safe (sound env) Ready (settle binds ends acquired dirty dirtyAfter c p v)
      (fun _ => Fine w) s := by
  have hback : ∀ (pool : Option Pool) (v' : Vars), Safe (sound env) Ready
      (do if ← giveBack dirty c pool then return .next v' else return .stop v' : Run (Flow Vars))
      (fun _ => Fine w) s := by
    intro pool v'
    refine (safe_giveBack dirty pool h).bind fun ok t ht => ?_
    cases ok <;> exact ht
  unfold settle
  split
  · exact h
  split
  · exact hback _ _
  split
  · exact hback _ _
  · exact h

theorem safe_writeSimple (i : Input) (query : Bytes) (pq : Option PgQuery.ParseResult)
    (routed : Router.RoutedTx) (v : Vars) (h : Fine true s) :
    Safe (sound env) Ready (writeSimple env i query pq routed v) (fun _ => Fine true) s := by
  refine plain_then (.perform trivial) h fun p t ht => ?_
  have hconn : (acquireWriterConn v.boundWriter).All Plain := by
    cases v.boundWriter with
    | some c => exact .pure _
    | none =>
      refine .bind (.perform trivial) fun c => ?_
      cases c <;> exact .pure _
  refine plain_then hconn ht fun conn u hu => ?_
  cases conn with
  | none => exact plain_then (.bind (.perform trivial) fun _ => .pure _) hu fun _ _ hx => hx
  | some conn =>
    refine (safe_handleWriteQuery _ _ _ _ _ hu).bind fun session x hx => ?_
    exact safe_settle _ _ _ _ _ _ _ hx

/-! ## The session -/

theorem safe_executeQuery {i : Input} {v : Vars} (pq : Option PgQuery.ParseResult)
    (h : Fine (routedToWriter env v i) s) :
    Safe (sound env) Ready (executeQuery env i (extractQueryText i.msg.payload) pq v)
      (fun _ t => ∃ w, Fine w t) s := by
  unfold routedToWriter at h
  unfold executeQuery
  generalize Router.routeWithTxState env.toEnv v.session i.now (extractQueryText i.msg.payload) =
    r at h ⊢
  obtain ⟨routed, session⟩ := r
  simp only at h ⊢
  cases hroute : routed.route with
  | writer =>
    rw [hroute] at h
    exact (safe_writeSimple i _ pq routed _ h).mono fun _ _ ht => ⟨_, ht⟩
  | reader =>
    refine (loans.handleReadQuery _ _ _ _ h).bind fun ok t ht => ?_
    cases ok <;> exact ⟨_, ht⟩

theorem safe_handleMessage {i : Input} {v : Vars}
    (hsimple : i.msg.type = msgQuery ∨ i.msg.type = msgTerminate)
    (h : Fine (routedToWriter env v i) s) :
    Safe (sound env) Ready (handleMessage env i v) (fun _ t => ∃ w, Fine w t) s := by
  have hdeny : ∀ text t, Fine (routedToWriter env v i) t → Safe (sound env) Ready
      (do sendError text; sendReadyForQuery false; return .next v : Run (Flow Vars))
      (fun _ t => ∃ w, Fine w t) t := fun text t ht =>
    plain_then (.bind (.perform trivial) fun _ => .pure _) ht fun _ _ hu =>
      plain_then (.bind (.perform trivial) fun _ => .pure _) hu fun _ _ hx => ⟨_, hx⟩
  unfold handleMessage
  obtain hquery | hterm := hsimple
  · have hno : i.msg.type ≠ msgTerminate := by rw [hquery]; decide
    rw [if_neg hno]
    refine plain_then (.perform trivial) h fun admitted t ht => ?_
    cases admitted with
    | false => exact hdeny _ t ht
    | true =>
      rw [dispatch_query hquery]
      change Safe _ _ (if blocked env i then _ else _) _ _
      split
      · exact hdeny _ t ht
      · exact safe_executeQuery _ ht
  · rw [if_pos hterm]
    exact ⟨_, h⟩

theorem safe_round (v : Vars) (h : Fine w s) :
    Safe (sound env) Ready (round env v) (fun _ t => ∃ w, Fine w t) s := by
  refine safe_bind.mpr ⟨fun c _ => h.inStep c, fun i t ht => ?_⟩
  cases i with
  | none =>
    obtain rfl : t = s := ht.1
    exact ⟨w, h⟩
  | some i =>
    obtain ⟨hstep, hsimple⟩ := ht
    obtain rfl : t = { s with writing := routedToWriter env v i } := hstep
    exact safe_handleMessage hsimple ⟨h.inStep, rfl⟩

theorem safe_relayQueries (n : Nat) (session : Session) (h : Fine w s) :
    Safe (sound env) Ready (relayQueries env n session) (fun _ _ => True) s := by
  have hloop : Safe (sound env) Ready (relayLoop env n (Vars.init session))
      (fun _ t => ∃ w, Fine w t) s := by
    refine Safe.rounds (I := fun _ t => ∃ w, Fine w t) n (fun v t ht => ?_)
      (fun _ _ ht => ht) ⟨w, h⟩
    obtain ⟨w, ht⟩ := ht
    refine (safe_round v ht).mono fun r u hu => ?_
    cases r <;> exact hu
  refine hloop.bind fun v t ht => ?_
  obtain ⟨w, ht⟩ := ht
  refine plain_then (.perform trivial) ht fun _ u hu => ?_
  cases v.boundWriter with
  | none => trivial
  | some c => exact (safe_giveBack _ _ hu).bind fun _ _ _ => trivial

/-- Every connection that is released or kept for the next message is in step. -/
theorem released_in_step {n : Nat} {session : Session} {s₀ : Lines} (h₀ : ∀ c, (s₀.line c).InStep)
    {p : Run Unit} (hr : Reach (sound env) (relayQueries env n session) s₀ p s) {o : Op}
    (hp : p.head = some o) : Ready o s :=
  (safe_relayQueries n session ⟨h₀, rfl⟩).guarded hr hp

end

/-! ## Runs -/

def ready : Message := ⟨msgReadyForQuery, [73]⟩

def failure : Message := ⟨msgErrorResponse, [0]⟩

def complete : Message := ⟨67, ascii "INSERT 0 1" ++ [0]⟩

def insertion (causal : Bool) : Input :=
  ⟨{ (plainQuery "").cfg with causalConsistency := causal }, 0,
    (plainQuery "INSERT INTO t VALUES (1)").msg⟩

def position : Message := ⟨msgDataRow, [0, 1, 0, 0, 0, 9] ++ ascii "0/16B3748"⟩

theorem released_in_step_insert :
    ∃ p t, Reach (sound (plainEnv false))
      (relayQueries (plainEnv false) 1 (Session.new 0 true false)) Lines.new p t ∧
      p.head = some (.release 0 0) ∧ (t.line 0).InStep := by
  have hrelay : Ends (orderly true) (Wire.relayUntilReady 2) ⟨[complete, ready], false⟩ true ⟨[],
      false⟩ :=
    .ask (some complete) ⟨[ready], false⟩ ⟨⟨rfl, rfl⟩, fun _ => rfl⟩
      (.ask true ⟨[ready], false⟩ ⟨rfl, fun _ => .inl rfl⟩
    (.ask (some ready) ⟨[], false⟩ ⟨⟨rfl, rfl⟩, fun _ => rfl⟩
      (.ask true ⟨[], false⟩ ⟨rfl, fun _ => .inl rfl⟩ .refl)))
  have hlsn : Ends (wire.restrict Quiet) (Wire.queryCurrentLSN 2) ⟨[], false⟩ (some 23803720)
      ⟨[], false⟩ :=
    .ask true ⟨[position, ready], false⟩ ⟨⟨[position, ready], rfl, rfl⟩, rfl⟩
    (.ask (some position) ⟨[ready], false⟩ ⟨⟨rfl, rfl⟩, rfl⟩
      (.ask (some ready) ⟨[], false⟩ ⟨⟨rfl, rfl⟩, rfl⟩ .refl))
  have hreach : Reach (sound (plainEnv false))
      (relayQueries (plainEnv false) 1 (Session.new 0 true false)) Lines.new
      _ _ :=
    .ask (some (insertion true)) _ ⟨rfl, .inl rfl⟩
      (.ask true _ ⟨rfl, trivial⟩ (.ask (0 : Pool) _ ⟨rfl, trivial⟩
    (.ask (some (0 : Conn)) _ ⟨rfl, trivial⟩
    (.ask true _ ⟨⟨⟨[complete, ready], false⟩, ⟨⟨[complete, ready], rfl, rfl⟩, fun _ => rfl⟩, rfl⟩,
      trivial⟩ (.ask true _ ⟨⟨2, ⟨[], false⟩, hrelay, rfl⟩, trivial⟩
    (.ask (some 23803720) _ ⟨⟨2, ⟨[], false⟩, hlsn, rfl⟩, trivial⟩ .refl))))))
  exact ⟨_, _, hreach, rfl, released_in_step (fun _ => ⟨rfl, rfl⟩) hreach rfl⟩

theorem released_out_of_step :
    (∃ p t, Reach (simple (plainEnv false))
      (relayQueries (plainEnv false) 1 (Session.new 0 true false)) Lines.new p t ∧
      p.head = some (.release 0 0) ∧ ¬ (t.line 0).InStep) ∧
    ∃ p t, Reach (simple (plainEnv false))
      (relayQueries (plainEnv false) 1 (Session.new 0 false false)) Lines.new p t ∧
      p.head = some (.release 0 0) ∧ ¬ (t.line 0).InStep := by
  have hunread : ¬ Line.InStep ⟨[ready], false⟩ := fun h => nomatch h.1
  constructor
  · have hrelay : Ends wire (Wire.relayUntilReady 1) ⟨[ready], false⟩ true ⟨[], false⟩ :=
      .ask (some ready) ⟨[], false⟩ ⟨rfl, rfl⟩ (.ask true ⟨[], false⟩ rfl .refl)
    have hlsn : Ends wire (Wire.queryCurrentLSN 1) ⟨[], false⟩ none ⟨[ready], false⟩ :=
      .ask true ⟨[failure, ready], false⟩ ⟨[failure, ready], rfl, rfl⟩
        (.ask (some failure) ⟨[ready], false⟩ ⟨rfl, rfl⟩ .refl)
    exact ⟨_, _, .ask (some (insertion true)) _ ⟨rfl, .inl rfl⟩ (.ask true _ ⟨rfl, trivial⟩
      (.ask (0 : Pool) _ ⟨rfl, trivial⟩ (.ask (some (0 : Conn)) _ ⟨rfl, trivial⟩
      (.ask true _ ⟨⟨⟨[ready], false⟩, ⟨[ready], rfl, rfl⟩, rfl⟩, trivial⟩
      (.ask true _ ⟨⟨1, ⟨[], false⟩, hrelay, rfl⟩, trivial⟩
      (.ask none _ ⟨⟨1, ⟨[ready], false⟩, hlsn, rfl⟩, trivial⟩ .refl)))))), rfl, hunread⟩
  · have hrelay : Ends wire (Wire.relayUntilReady 1) ⟨[complete, ready], false⟩ false ⟨[ready],
        false⟩ :=
      .ask (some complete) ⟨[ready], false⟩ ⟨rfl, rfl⟩ (.ask false ⟨[ready], false⟩ rfl .refl)
    exact ⟨_, _, .ask (some (insertion false)) _ ⟨rfl, .inl rfl⟩ (.ask true _ ⟨rfl, trivial⟩
      (.ask (0 : Pool) _ ⟨rfl, trivial⟩ (.ask (some (0 : Conn)) _ ⟨rfl, trivial⟩
      (.ask true _ ⟨⟨⟨[complete, ready], false⟩, ⟨[complete, ready], rfl, rfl⟩, rfl⟩, trivial⟩
      (.ask false _ ⟨⟨1, ⟨[ready], false⟩, hrelay, rfl⟩, trivial⟩ .refl))))), rfl, hunread⟩

end PgMux.InStep
