import PgMux.LoopInvariant
import PgMux.Mediation
import PgMux.Results

/-!
# The status of the loop's own replies

Four places of the loop answer with a ReadyForQuery of their own. The rate limiter and the firewall
always report an idle session.
-/

namespace PgMux.ReadyStatus

open Effects PgQuery Protocol Relay
open Mediation (deleteEnv guarded)
open Router hiding Env
open Pools (Conn Pool)

/-! ## Loop heads -/

def Linked (v : Vars) : Prop := v.session.inTransaction = v.boundWriter.isSome

theorem Linked.of_eq {v v' : Vars} (h : Linked v)
    (htx : v'.session.inTransaction = v.session.inTransaction)
    (hb : v'.boundWriter = v.boundWriter) : Linked v' := by
  rw [Linked, htx, hb]
  exact h

section

variable {env : Env} {v : Vars}

theorem linked_settle {binds ends : Bool} (acquired dirty dirtyAfter : Bool) (c : Conn) (p : Pool)
    (htx : v.session.inTransaction = (binds || (!ends && v.boundWriter.isSome))) :
    (settle binds ends acquired dirty dirtyAfter c p v).Returns (Flow.Next Linked) := by
  cases binds with
  | true => exact htx
  | false =>
    cases ends with
    | true => exact returns_goOn _ htx
    | false =>
      have hv : Linked v := by simpa [Linked] using htx
      cases acquired with
      | true => exact returns_goOn _ hv
      | false => exact hv

theorem linked_writeSimple (i : Input) (query : Bytes) (pq : Option ParseResult) {routed : RoutedTx}
    (hwas : routed.wasInTx = v.boundWriter.isSome)
    (hnow : routed.nowInTx = v.session.inTransaction) :
    (writeSimple env i query pq routed v).Returns (Flow.Next Linked) := by
  refine returns_withWriter fun p c acquired => ?_
  refine (returns_handleWriteQuery _ c _ _ _ _).bind fun session' h => ?_
  obtain ⟨lsn, rfl⟩ := h
  refine linked_settle acquired _ _ c p ?_
  change v.session.inTransaction = _
  rw [← hnow, hwas]
  cases routed.nowInTx <;> cases v.boundWriter.isSome <;> rfl

theorem linked_writeExtended (synthesized : Bool) (r : Request) (hv : Linked v) :
    (writeExtended synthesized r v).Returns (Flow.Next Linked) := by
  refine returns_withWriter fun p c acquired => .of_bind _ fun ok => ?_
  cases ok with
  | false => exact returns_dropWriter acquired c p v
  | true =>
    refine linked_settle acquired _ _ c p ?_
    unfold Linked at hv
    cases v.extTxStart <;> cases v.extTxEnd <;> simp [Session.setInTransaction, hv]

theorem loopInvariant :
    LoopInvariant Machine.free (fun _ _ => True) (fun v _ => Linked v) fun _ _ => True where
  alike hv h := h.of_eq hv.inTransaction hv.boundWriter
  stop _ := trivial
  speaks _ _ _ _ h := ⟨trivial, fun _ _ _ => h⟩

theorem Linked.reads (hv : Linked v) (p : Run Bool) :
    Safe Machine.free (fun _ _ => True) p (fun _ _ => Linked v) () :=
  Prog.returns_iff_safe.mp (p.returns_trivial.mono fun _ _ => hv)

theorem linked_executeSynthesizedQuery (query : Bytes) (hv : Linked v) :
    (executeSynthesizedQuery query v).Returns (Flow.Next Linked) := by
  unfold executeSynthesizedQuery
  split
  · exact returns_goOn _ hv
  · exact linked_writeExtended _ _ hv

theorem linked_executeBatch (sync : Message) (hv : Linked v) :
    (executeBatch env sync v).Returns (Flow.Next Linked) := by
  unfold executeBatch
  split
  · exact returns_goOn _ hv
  · exact linked_writeExtended _ _ hv

theorem linked_handleMessage (i : Input) (hv : Linked v) :
    (handleMessage env i v).Returns (Flow.Next Linked) := by
  refine Prog.returns_next_iff.mpr (loopInvariant.handleMessage (fun _ h => h)
    (loopInvariant.speaks v) hv fun _ _ => ?_)
  refine loopInvariant.dispatch hv (fun _ pq => ?_) (fun _ => hv.reads _)
    (fun _ _ query _ => ?_) fun _ _ => ?_
  · refine loopInvariant.executeQuery (fun _ => ?_) fun _ => hv.reads _
    exact Prog.returns_next_iff.mp (linked_writeSimple i _ pq hv rfl)
  · exact Prog.returns_next_iff.mp (linked_executeSynthesizedQuery query hv)
  · exact Prog.returns_next_iff.mp (linked_executeBatch i.msg hv)

end

/-! ## Reports -/

/-- The session at the message at hand, and whether the message is turned away. -/
structure Moment where
  inTransaction : Bool
  bound : Bool
  turned : Bool
  deriving DecidableEq, Repr

namespace Moment

def start : Moment := ⟨false, false, false⟩

def ofMessage (env : Env) (v : Vars) (i : Input) : Moment :=
  ⟨v.session.inTransaction, v.boundWriter.isSome, i.msg.type == msgQuery && blocked env i⟩

def Idle (s : Moment) : Prop := s.inTransaction = false ∧ s.bound = false

instance (s : Moment) : Decidable s.Idle := inferInstanceAs (Decidable (_ ∧ _))

def next (env : Env) : (o : Op) → Moment → Ans o → Moment
  | .recv v, _, some i => ofMessage env v i
  | .allow, s, admitted => { s with turned := s.turned || !admitted }
  | _, s, _ => s

end Moment

abbrev machine (env : Env) : Machine Ans Moment := .ofFun (Moment.next env)

def Told (status : Byte) (s : Moment) : Prop := (status = 73 ↔ s.Idle) ↔ (s.turned = true → s.Idle)

def Tells : Op → Moment → Prop
  | .client (.readyForQuery status), s => Told status s
  | _, _ => True

def TellsAt (s : Moment) : Op → Prop
  | .recv _ | .leave _ | .allow => False
  | o => Tells o s

section

variable {env : Env}

theorem told_of_turned {s : Moment} (h : s.turned = true) : Told 73 s := by
  simp [Told, h]

theorem told_of_inTransaction {s : Moment} (hs : s.inTransaction = s.bound) (h : s.turned = false) :
    Told (if s.inTransaction then 84 else 73) s := by
  cases htx : s.inTransaction <;> simp [Told, Moment.Idle, h, ← hs, htx]

instance (s : Moment) : LetsRelay (TellsAt s) where
  basic o ho := by
    cases o with
    | recv | leave | allow => exact ho.elim
    | client m => cases m <;> first | exact ho.elim | trivial
    | _ => trivial
  relay _ := trivial
  collect _ := trivial

theorem stable_tellsAt (s : Moment) : Stable (machine env) Tells (TellsAt s) (· = s) := by
  rintro o t ho rfl
  cases o with
  | recv | leave | allow => exact ho.elim
  | client m => exact ⟨ho, fun _ _ ht => ht⟩
  | _ => exact ⟨trivial, fun _ _ ht => ht⟩

theorem all_dispatch_tellsAt (i : Input) {v : Vars} (hv : Linked v) :
    (dispatch env i v).All (TellsAt (Moment.ofMessage env v i)) := by
  refine all_dispatch i v (fun _ _ _ => trivial) (fun _ _ => trivial) (fun status h => ?_)
    fun _ _ => ⟨trivial, trivial⟩
  change Told status (Moment.ofMessage env v i)
  unfold statuses at h
  split at h
  · rename_i hquery
    split at h
    · rename_i hblocked
      rw [List.mem_singleton.mp h]
      exact told_of_turned (by simp [Moment.ofMessage, hquery, hblocked])
    · exact absurd h List.not_mem_nil
  · rename_i hquery
    split at h
    · rw [List.mem_singleton.mp h]
      exact told_of_inTransaction (s := Moment.ofMessage env v i) hv
        (by simp [Moment.ofMessage, hquery])
    · exact absurd h List.not_mem_nil

theorem safe_handleMessage (i : Input) {v : Vars} (hv : Linked v) :
    Safe (machine env) Tells (handleMessage env i v) (fun _ _ => True)
      (Moment.ofMessage env v i) := by
  unfold handleMessage
  split
  · trivial
  refine safe_bind.mpr ⟨trivial, fun admitted s hs => ?_⟩
  subst hs
  cases admitted with
  | true =>
    have hs : Moment.next env .allow (Moment.ofMessage env v i) true =
        Moment.ofMessage env v i := by
      simp [Moment.next]
    exact ((all_dispatch_tellsAt i hv).safe (stable_tellsAt _) hs).mono fun _ _ _ => trivial
  | false =>
    have hturned : Told 73 (Moment.next env .allow (Moment.ofMessage env v i) false) :=
      told_of_turned (by simp [Moment.next])
    have hdeny := @all_deny (TellsAt _) _ .tooManyRequests v hturned
    exact (hdeny.safe (stable_tellsAt _) rfl).mono fun _ _ _ => trivial

theorem safe_round {v : Vars} (hv : Linked v) (s : Moment) :
    Safe (machine env) Tells (round env v) (Flow.Post (fun v _ => Linked v) fun _ _ => True) s := by
  refine safe_bind.mpr ⟨trivial, fun i t ht => ?_⟩
  subst ht
  cases i with
  | none => trivial
  | some i =>
    refine ((safe_handleMessage i hv).returns (linked_handleMessage i hv)).mono fun r t h => ?_
    cases r with
    | next v' => exact h.2
    | stop v' => trivial

/-- A ReadyForQuery of the loop's own is right just if it does not turn a message away in a
transaction. -/
theorem status_told_iff {n : Nat} {session : Session} {s : Moment} {p : Run Unit} {status : Byte}
    (hsession : session.inTransaction = false)
    (hr : Reach (machine env) (relayQueries env n session) Moment.start p s)
    (hp : p.head = some (.client (.readyForQuery status))) :
    (status = 73 ↔ s.Idle) ↔ (s.turned = true → s.Idle) := by
  have hquiet : Stable (machine env) Tells Basic fun _ => True := by
    intro o s ho _
    cases o with
    | client m => cases m <;> first | exact ho.elim | exact ⟨trivial, fun _ _ _ => trivial⟩
    | _ => exact ⟨trivial, fun _ _ _ => trivial⟩
  have hsafe := safe_loop n session (fun _ s hv => safe_round hv s) (fun _ _ _ => trivial)
    (fun _ _ _ => trivial)
    hquiet (s := Moment.start) (show Linked (Vars.init session) from hsession)
  exact hsafe.guarded hr hp

end

theorem status_told_bare_sync :
    ∃ p s, p.head = some (.client (.readyForQuery 73)) ∧ s.Idle ∧
      (((73 : Byte) = 73 ↔ s.Idle) ↔ (s.turned = true → s.Idle)) ∧
      Reach (machine (plainEnv true)) (relayQueries (plainEnv true) 1 (Session.new 0 false false))
        Moment.start p s := by
  have hreach := drive_reach Script.reply (ofFun_of_always (Moment.next (plainEnv true))) 2
    (relayQueries (plainEnv true) 1 (Session.new 0 false false))
      ⟨[plainInput msgSync []], [], []⟩ Moment.start
  exact ⟨_, _, rfl, ⟨rfl, rfl⟩, status_told_iff rfl hreach rfl, hreach⟩

theorem idle_told_in_transaction :
    (∃ p s, Reach (machine (plainEnv false))
        (relayQueries (plainEnv false) 2 (Session.new 0 false false))
        Moment.start p s ∧ p.head = some (.client (.readyForQuery 73)) ∧ ¬s.Idle) ∧
      ∃ p s, Reach (machine (deleteEnv false))
        (relayQueries (deleteEnv false) 2 (Session.new 0 false false))
        Moment.start p s ∧ p.head = some (.client (.readyForQuery 73)) ∧ ¬s.Idle := by
  have hlimited :=
    drive_reach Script.replyLimited (ofFun_of_always (Moment.next (plainEnv false))) 9
    (relayQueries (plainEnv false) 2 (Session.new 0 false false))
    ⟨[plainQuery "BEGIN", plainQuery "SELECT 1"], [0], [0]⟩ Moment.start
  have hblocked := drive_reach Script.reply (ofFun_of_always (Moment.next (deleteEnv false))) 9
    (relayQueries (deleteEnv false) 2 (Session.new 0 false false))
    ⟨[guarded msgQuery (ascii "BEGIN" ++ [0]), guarded msgQuery (ascii "DELETE FROM t" ++ [0])],
      [0], [0]⟩ Moment.start
  refine ⟨⟨_, _, hlimited, rfl, ?_⟩, ⟨_, _, hblocked, rfl, ?_⟩⟩
  · decide +kernel
  · decide +kernel

end PgMux.ReadyStatus
