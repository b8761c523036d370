import PgMux.Balancer
import PgMux.Classifier
import PgMux.PgBlocks

/-!
# Reads that follow the session's writes

With causal consistency a session asks for the write position behind a query that counts as a write.
What makes the writes of a transaction visible is its COMMIT, which does not count as one.
-/

namespace PgMux.CausalReads

open Balancer Effects PgBlocks Protocol Relay
open Router hiding Env
open Pools (Conn Pool)

/-! ## Commits -/

/-- A session of the writer: its block, and whether the block holds writes that are not committed.
-/
structure Block where
  status : Status
  wrote : Bool
  deriving DecidableEq, Repr

/-- What the writer can do with a text: the block it leaves, and whether the text commits work. The
results hold for every such function; `effects` is the one of the concrete runs, for texts of one
command. -/
abbrev Writer := Block → Bytes → List (Block × Bool)

def effects : Writer := fun b query =>
  if query = ascii "BEGIN" then [(⟨.inTx, false⟩, false)]
  else if query = ascii "COMMIT" then [(⟨.idle, false⟩, b.status == .inTx && b.wrote)]
  else if b.status = .idle then [(b, true), (b, false)]
  else [(⟨b.status, true⟩, false), (⟨b.status.fail, b.wrote⟩, false)]

/-! ## The writer and the readers -/

structure World where
  wal : Nat
  block : Conn → Block
  committed : Nat
  balancer : RoundRobin Pool
  reading : Option (Conn × Backend Pool)
  labelled : Bool
  due : Bool

def World.new (wal : Nat) (balancer : RoundRobin Pool) : World :=
  ⟨wal, fun _ => ⟨.idle, false⟩, 0, balancer, none, false, false⟩

def labels (env : Env) (i : Input) : QueryType :=
  classifyQueryParsed env i.cfg (extractQueryText i.msg.payload)
    (parsedQuery env i.cfg (extractQueryText i.msg.payload))

def countsAsWrite (env : Env) (v : Vars) (i : Input) : Bool :=
  (routeWithTxState env.toEnv v.session i.now (extractQueryText i.msg.payload)).1.route ==
    .writer && labels env i == .write

section

variable (writer : Writer) (env : Env)

/-- What a step does to the writer's log, its sessions and the balancer. A text sent to a reader
changes nothing; one sent to the writer moves the log on. -/
def acts : (o : Op) → World → Ans o → List World
  | .recv v, s, some i => [{ s with reading := none, labelled := countsAsWrite env v i }]
  | .acquireWriter, s, _ => [{ s with reading := none }]
  | .acquire _, s, _ => [{ s with reading := none }]
  | .acquireReader minLSN, s, none => [{ s with balancer := (s.balancer.choose (minLSN.getD 0)).2 }]
  | .acquireReader minLSN, s, some (c, p) =>
    match (s.balancer.choose (minLSN.getD 0)).1 with
    | .found b =>
      if b.addr = p then
        [{ s with balancer := (s.balancer.choose (minLSN.getD 0)).2, reading := some (c, b) }]
      else []
    | _ => []
  | .send c (.forward msg), s, true =>
    if s.reading.any (·.1 == c) then [s]
    else (writer (s.block c) (extractQueryText msg.payload)).map fun e =>
      { s with
        wal := s.wal + 1
        block := Function.update s.block c e.1
        committed := if e.2 then s.wal + 1 else s.committed
        due := s.due || e.2 }
  | .queryLSN _, s, some lsn => if lsn = s.wal then [{ s with due := false }] else []
  | _, s, _ => [s]

/-- Before each step the log may have grown and other sessions may have used the balancer. -/
def step : Machine Ans World := fun o s ans t =>
  ∃ wal b, s.wal ≤ wal ∧ Relation.ReflTransGen Touch s.balancer b ∧
    t ∈ acts writer env o { s with wal := wal, balancer := b } ans

abbrev causal : Machine Ans World :=
  (step writer env).restrict
    (OnRecv fun _ i _ => (i.msg.type = msgQuery ∨ i.msg.type = msgTerminate) ∧
      i.cfg.causalConsistency = true)

/-- The condition on a step: only a query labelled as a write commits, and the position behind it is
read. -/
def Noted : (o : Op) → World → Ans o → World → Prop
  | .send _ _, s, _, t => t.committed = s.committed ∨ s.labelled = true
  | .relay _, s, false, _ => s.due = false
  | .queryLSN _, s, none, _ => s.due = false
  | _, _, _, _ => True

abbrev noted : Machine Ans World := (causal writer env).restrict Noted

end

def Fresh : Op → World → Prop
  | .send c _, s => ∀ b, s.reading = some (c, b) → s.committed ≤ b.replayLSN
  | _, _ => True

section

variable {writer : Writer} {env : Env}

theorem lastWriteLSN_routeByType (s : Session) (now : Int) (query : Bytes) :
    (routeByType env.toEnv s now query).2.lastWriteLSN = s.lastWriteLSN := by
  unfold routeByType
  cases queryType env.toEnv s query with
  | write => dsimp only; split <;> rfl
  | read => dsimp only; split <;> [rfl; split <;> rfl]

theorem lastWriteLSN_routeWithTxState (s : Session) (now : Int) (query : Bytes) :
    (routeWithTxState env.toEnv s now query).2.lastWriteLSN = s.lastWriteLSN := by
  unfold routeWithTxState routeQueryLocked
  dsimp only
  split
  · cases hasTxPrefix query with
    | start | finish => rfl
    | other =>
      dsimp only
      split
      · rfl
      · exact lastWriteLSN_routeByType s now query
  · split
    · rfl
    split
    · rfl
    · exact lastWriteLSN_routeByType _ now query

structure Kept (lsn : Nat) (s : World) : Prop where
  due : s.due = false
  told : s.committed ≤ lsn
  wal : s.committed ≤ s.wal

structure Writes (lsn : Nat) (labelled : Bool) (s : World) : Prop extends Kept lsn s where
  reading : s.reading = none
  label : s.labelled = labelled

structure Reads (lsn : Nat) (s : World) : Prop extends Kept lsn s where
  label : s.labelled = false
  fresh : ∀ x, s.reading = some x → s.committed ≤ x.2.replayLSN

variable {s t : World} {v : Vars}

theorem Kept.around {lsn : Nat} (h : Kept lsn s) {wal : Nat} (hwal : s.wal ≤ wal)
    (b : RoundRobin Pool) :
    Kept lsn { s with wal := wal, balancer := b } := ⟨h.due, h.told, h.wal.trans hwal⟩

theorem mem_acts_reader {minLSN : Option Nat} {c : Conn} {p : Pool}
    (h : t ∈ acts writer env (.acquireReader minLSN) s (some (c, p))) :
    ∃ b, (s.balancer.choose (minLSN.getD 0)).1 = .found b ∧
      t = { s with balancer := (s.balancer.choose (minLSN.getD 0)).2, reading := some (c, b) } := by
  simp only [acts] at h
  split at h
  · rename_i b hb
    exact ⟨b, hb, (mem_guard.mp h).2⟩
  · simp at h

theorem stable_writes (lsn : Nat) (labelled : Bool) :
    Stable (noted writer env) Fresh (Sends [] []) (Writes lsn labelled) := by
  intro o s ho hs
  refine ⟨?_, fun ans t ht => ?_⟩
  · cases o with
    | send c r => exact absurd ho List.not_mem_nil
    | _ => trivial
  · obtain ⟨⟨⟨wal, b, hwal, _, hact⟩, _⟩, _⟩ := ht
    have hs' : Writes lsn labelled { s with wal := wal, balancer := b } :=
      ⟨hs.toKept.around hwal b, hs.reading, hs.label⟩
    cases o with
    | recv v | leave v => exact ho.elim
    | send c r | acquireReader minLSN => exact absurd ho List.not_mem_nil
    | acquireWriter | acquire p =>
      obtain rfl : t = _ := List.mem_singleton.mp hact
      exact ⟨⟨hs'.due, hs'.told, hs'.wal⟩, rfl, hs'.label⟩
    | queryLSN c =>
      cases ans with
      | none => exact List.mem_singleton.mp hact ▸ hs'
      | some lsn' =>
        obtain ⟨_, rfl⟩ := mem_guard.mp hact
        exact ⟨⟨rfl, hs'.told, hs'.wal⟩, hs'.reading, hs'.label⟩
    | _ => exact List.mem_singleton.mp hact ▸ hs'

structure Sent (s t : World) : Prop where
  reading : t.reading = s.reading
  label : t.labelled = s.labelled
  wal : t.committed ≤ t.wal
  same : t.due = false ∨ s.labelled = false → t.due = s.due ∧ t.committed = s.committed

theorem Sent.around (h : Sent s t) {wal : Nat} (hwal : t.wal ≤ wal) (b : RoundRobin Pool) :
    Sent s { t with wal := wal, balancer := b } := ⟨h.reading, h.label, h.wal.trans hwal, h.same⟩

theorem sent_of_step {c : Conn} {r : Request} {ok : Bool} (hwal : s.committed ≤ s.wal)
    (h : noted writer env (.send c r) s ok t) : Sent s t ∧ (ok = false → t.due = s.due) := by
  obtain ⟨⟨⟨wal, b, hgrown, _, hact⟩, _⟩, hnoted⟩ := h
  have hstay : t = { s with wal := wal, balancer := b } → Sent s t ∧ t.due = s.due := by
    rintro rfl
    exact ⟨⟨rfl, rfl, hwal.trans hgrown, fun _ => ⟨rfl, rfl⟩⟩, rfl⟩
  cases ok with
  | false =>
    cases r with
    | _ => exact (hstay (List.mem_singleton.mp hact)).imp id fun hdue _ => hdue
  | true =>
    refine ⟨?_, fun hno => nomatch hno⟩
    cases r with
    | forward msg =>
      simp only [acts] at hact
      split at hact
      · exact (hstay (List.mem_singleton.mp hact)).1
      · obtain ⟨e, _, rfl⟩ := List.mem_map.mp hact
        cases he : e.2 with
        | false =>
          refine ⟨rfl, rfl, ?_, fun _ => by simp⟩
          simp only [Bool.false_eq_true, if_false]
          omega
        | true =>
          refine ⟨rfl, rfl, by simp, fun hno => ?_⟩
          simp only [Noted, he, if_true] at hnoted
          obtain hno | hlabel := hno
          · simp at hno
          · simp only [hlabel, Bool.false_eq_true, or_false] at hnoted
            have hcommitted : wal + 1 ≤ s.wal := hnoted ▸ hwal
            exact absurd hcommitted (by omega)
    | synthesized query | batch buf sync
    | describe query => exact (hstay (List.mem_singleton.mp hact)).1

theorem stable_reads (lsn : Nat) (msg : Message) :
    Stable (noted writer env) Fresh (Sends [.forward msg] [some lsn]) (Reads lsn) := by
  intro o s ho hs
  refine ⟨?_, fun ans t ht => ?_⟩
  · cases o with
    | send c r => exact fun b hb => hs.fresh (c, b) hb
    | _ => trivial
  by_cases hsend : ∃ c r, o = .send c r
  · obtain ⟨c, r, rfl⟩ := hsend
    have hsent := (sent_of_step hs.wal ht).1
    obtain ⟨hdue, hcommitted⟩ := hsent.same (.inr hs.label)
    refine ⟨⟨hdue.trans hs.due, by rw [hcommitted]; exact hs.told, hsent.wal⟩,
      hsent.label.trans hs.label, ?_⟩
    rw [hsent.reading, hcommitted]
    exact hs.fresh
  obtain ⟨⟨⟨wal, b, hwal, _, hact⟩, _⟩, _⟩ := ht
  have hs' : Reads lsn { s with wal := wal, balancer := b } :=
    ⟨hs.toKept.around hwal b, hs.label, hs.fresh⟩
  cases o with
  | recv v | leave v => exact ho.elim
  | send c r => exact absurd ⟨c, r, rfl⟩ hsend
  | acquireReader minLSN =>
    obtain rfl : minLSN = some lsn := List.mem_singleton.mp ho
    cases ans with
    | none =>
      obtain rfl : t = _ := List.mem_singleton.mp hact
      exact ⟨⟨hs'.due, hs'.told, hs'.wal⟩, hs'.label, hs'.fresh⟩
    | some reader =>
      obtain ⟨b', hb', rfl⟩ := mem_acts_reader hact
      refine ⟨⟨hs'.due, hs'.told, hs'.wal⟩, hs'.label, fun x hx => ?_⟩
      obtain rfl := Option.some.inj hx
      exact hs'.told.trans (RoundRobin.choose_found hb').2.2
  | acquireWriter | acquire p =>
    obtain rfl : t = _ := List.mem_singleton.mp hact
    exact ⟨⟨hs'.due, hs'.told, hs'.wal⟩, hs'.label, fun x hx => nomatch hx⟩
  | queryLSN c =>
    cases ans with
    | none => exact List.mem_singleton.mp hact ▸ hs'
    | some lsn' =>
      obtain ⟨_, rfl⟩ := mem_guard.mp hact
      exact ⟨⟨rfl, hs'.told, hs'.wal⟩, hs'.label, hs'.fresh⟩
  | _ => exact List.mem_singleton.mp hact ▸ hs'

/-! ## The writer path -/

theorem Sent.writes {lsn : Nat} {labelled : Bool} (h : Sent s t) (hs : Writes lsn labelled s)
    (hsame : t.due = false ∨ s.labelled = false) : Writes lsn labelled t := by
  obtain ⟨hdue, hcommitted⟩ := h.same hsame
  exact ⟨⟨hdue.trans hs.due, by rw [hcommitted]; exact hs.told, h.wal⟩, h.reading.trans hs.reading,
    h.label.trans hs.label⟩

theorem safe_lsnAfter (c : Conn) {qtype : QueryType} {session : Session}
    (hs : Writes session.lastWriteLSN (qtype == .write) s) (h : Sent s t) :
    Safe (noted writer env) Fresh (lsnAfter (qtype == .write) c)
      (fun lsn u => Writes ((lsn.map session.setLastWriteLSN).getD session).lastWriteLSN
        (qtype == .write) u) t := by
  cases hqtype : qtype == .write with
  | false =>
    have hsame := h.writes hs (.inr (hs.label.trans hqtype))
    rwa [hqtype] at hsame
  | true =>
    refine ⟨trivial, fun lsn u hu => ?_⟩
    obtain ⟨⟨⟨wal, b, hwal, _, hact⟩, _⟩, hnoted⟩ := hu
    cases lsn with
    | none =>
      obtain rfl : u = _ := List.mem_singleton.mp hact
      have hsame := (h.around hwal b).writes hs (.inl hnoted)
      rwa [hqtype] at hsame
    | some lsn =>
      obtain ⟨hlsn, rfl⟩ := mem_guard.mp hact
      have hcommitted : t.committed ≤ lsn := hlsn ▸ h.wal.trans hwal
      exact ⟨⟨rfl, hcommitted, h.wal.trans hwal⟩, h.reading.trans hs.reading,
        h.label.trans (hs.label.trans hqtype)⟩

theorem safe_handleWriteQuery {cfg : Relay.Config} (hcausal : cfg.causalConsistency = true)
    (c : Conn) (msg : Message) (query : Bytes) (qtype : QueryType) (session : Session)
    (hs : Writes session.lastWriteLSN (qtype == .write) s) :
    Safe (noted writer env) Fresh (handleWriteQuery env cfg c msg query qtype session)
      (fun session' t => Writes session'.lastWriteLSN (qtype == .write) t) s := by
  refine safe_bind.mpr (safe_bind.mpr ⟨fun b hb => by simp [hs.reading] at hb, fun ok t ht => ?_⟩)
  obtain ⟨hsent, hunsent⟩ := sent_of_step hs.wal ht
  cases ok with
  | false => exact hsent.writes hs (.inl ((hunsent rfl).trans hs.due))
  | true =>
    refine ⟨trivial, fun relayed u hu => ?_⟩
    obtain ⟨⟨⟨wal, b, hwal, _, hact⟩, _⟩, hnoted⟩ := hu
    obtain rfl : u = _ := List.mem_singleton.mp hact
    cases relayed with
    | false => exact (hsent.around hwal b).writes hs (.inl hnoted)
    | true =>
      rw [hcausal, Bool.true_and]
      refine (safe_lsnAfter c hs (hsent.around hwal b)).bind fun lsn w hw => ?_
      exact (all_onlyIf _ (.perform trivial)).then (stable_writes _ _) hw fun _ _ h => h

abbrev Ends : Flow Vars → World → Prop :=
  Flow.Post (fun v => Kept v.session.lastWriteLSN) fun _ _ => True

theorem safe_settle {binds ends acquired dirty dirtyAfter : Bool} {c : Conn} {p : Pool}
    {labelled : Bool} (hs : Writes v.session.lastWriteLSN labelled s) :
    Safe (noted writer env) Fresh (settle binds ends acquired dirty dirtyAfter c p v) Ends s := by
  have hgive : ∀ q (v' : Vars), v'.session = v.session → Safe (noted writer env) Fresh
      (do if ← giveBack dirty c q then return .next v' else return .stop v') Ends s := by
    intro q v' hv'
    refine (all_giveBack dirty c q).then (stable_writes _ _) hs fun ok t ht => ?_
    cases ok with
    | true =>
      change Kept v'.session.lastWriteLSN t
      exact hv' ▸ ht.toKept
    | false => trivial
  unfold settle
  split
  · exact hs.toKept
  split
  · exact hgive _ _ rfl
  split
  · exact hgive _ _ rfl
  · exact hs.toKept

theorem safe_writeSimple {i : Input} (hcausal : i.cfg.causalConsistency = true) {routed : RoutedTx}
    (hs : Writes v.session.lastWriteLSN (labels env i == .write) s) :
    Safe (noted writer env) Fresh (writeSimple env i (extractQueryText i.msg.payload)
      (parsedQuery env i.cfg (extractQueryText i.msg.payload)) routed v) Ends s := by
  refine safe_withWriter (stable_writes _ _) (fun _ _ => trivial) (fun p c acquired t ht => ?_) hs
  refine (safe_handleWriteQuery hcausal c _ _ _ _ ht).bind fun session u hu => ?_
  exact safe_settle hu

theorem safe_executeQuery {i : Input} (hcausal : i.cfg.causalConsistency = true)
    (hs : Kept v.session.lastWriteLSN s) (hreading : s.reading = none)
    (hlabel : s.labelled = countsAsWrite env v i) :
    Safe (noted writer env) Fresh (executeQuery env i (extractQueryText i.msg.payload)
      (parsedQuery env i.cfg (extractQueryText i.msg.payload)) v) Ends s := by
  have hlsn := @lastWriteLSN_routeWithTxState env v.session i.now (extractQueryText i.msg.payload)
  unfold countsAsWrite at hlabel
  unfold executeQuery
  generalize routeWithTxState env.toEnv v.session i.now (extractQueryText i.msg.payload) =
    r at hlsn hlabel
  obtain ⟨routed, session⟩ := r
  dsimp only at hlsn hlabel ⊢
  cases hroute : routed.route with
  | writer =>
    refine safe_writeSimple hcausal ⟨hlsn ▸ hs, hreading, ?_⟩
    simpa [hroute] using hlabel
  | reader =>
    have hreads : Reads session.lastWriteLSN s := by
      refine ⟨hlsn ▸ hs, hlabel.trans (by rw [hroute]; rfl), fun x hx => ?_⟩
      simp [hreading] at hx
    have hall : (handleReadQuery env i.cfg i.msg (extractQueryText i.msg.payload) session).All
        (Sends [.forward i.msg] [some session.lastWriteLSN]) := by
      unfold handleReadQuery
      rw [hcausal]
      refine all_cachedOr _ (fun _ _ => trivial)
        (all_readFrom _ _ (fun _ => ?_) ?_ (.perform trivial))
      · exact List.mem_cons_self
      · exact List.mem_cons_self
    refine hall.then (stable_reads _ _) hreads fun ok t ht => ?_
    cases ok with
    | true => exact ht.toKept
    | false => trivial

/-! ## The loop -/

theorem safe_handleMessage {i : Input} (htype : i.msg.type = msgQuery ∨ i.msg.type = msgTerminate)
    (hcausal : i.cfg.causalConsistency = true)
    (hs : Writes v.session.lastWriteLSN (countsAsWrite env v i) s) :
    Safe (noted writer env) Fresh (handleMessage env i v) Ends s := by
  have hdeny : ∀ text t, Writes v.session.lastWriteLSN (countsAsWrite env v i) t →
      Safe (noted writer env) Fresh
      (do sendError text; sendReadyForQuery false; return .next v) Ends t := by
    intro text t ht
    have hready : (sendReadyForQuery false).All (Sends [] []) := all_sendReadyForQuery false trivial
    exact (all_sendError text).then (stable_writes _ _) ht fun _ _ hu =>
      hready.then (stable_writes _ _) hu fun _ _ hw => hw.toKept
  unfold handleMessage
  obtain hquery | hterm := htype
  · have hterm : i.msg.type ≠ msgTerminate := by rw [hquery]; decide
    rw [if_neg hterm]
    refine (Prog.All.perform trivial).then (stable_writes _ _) hs fun admitted t ht => ?_
    cases admitted with
    | false => exact hdeny _ t ht
    | true =>
      rw [dispatch_query hquery]
      change Safe _ _ (if blocked env i then _ else _) _ _
      split
      · exact hdeny _ t ht
      · exact safe_executeQuery hcausal ht.toKept ht.reading ht.label
  · rw [if_pos hterm]
    trivial

theorem safe_round (v : Vars) (hs : Kept v.session.lastWriteLSN s) :
    Safe (noted writer env) Fresh (round env v) Ends s := by
  refine safe_bind.mpr ⟨trivial, fun i t ht => ?_⟩
  obtain ⟨⟨⟨wal, b, hwal, _, hact⟩, hsimple⟩, _⟩ := ht
  cases i with
  | none => trivial
  | some i =>
    obtain rfl : t = _ := List.mem_singleton.mp hact
    have hkept : Kept v.session.lastWriteLSN { s with wal := wal, balancer := b } :=
      hs.around hwal b
    exact safe_handleMessage hsimple.1 hsimple.2 ⟨⟨hkept.due, hkept.told, hkept.wal⟩, rfl, rfl⟩

theorem safe_relayQueries (n : Nat) (delay : Int) (astParser : Bool) (wal : Nat)
    (balancer : RoundRobin Pool) :
    Safe (noted writer env) Fresh (relayQueries env n (Session.new delay true astParser))
      (fun _ _ => True)
      (World.new wal balancer) := by
  have hquiet : Stable (noted writer env) Fresh (Sends [] []) fun _ => True := by
    intro o s ho _
    refine ⟨?_, fun _ _ _ => trivial⟩
    cases o with
    | send c r => exact absurd ho List.not_mem_nil
    | _ => trivial
  exact safe_loop (I := fun v => Kept v.session.lastWriteLSN) n _ (fun v _ h => safe_round v h)
    (fun _ _ _ => trivial) (fun _ _ _ => trivial) hquiet ⟨rfl, Nat.zero_le _, Nat.zero_le _⟩

/-- Whatever the writer does with a text: in every noted run, a query sent to a reader finds every
commit of the session replayed there. -/
theorem reader_behind_commits {n : Nat} {delay : Int} {astParser : Bool} {wal : Nat}
    {balancer : RoundRobin Pool} {p : Run Unit} {t : World}
    (hr : Reach (noted writer env) (relayQueries env n (Session.new delay true astParser))
      (World.new wal balancer) p t)
    {c : Conn} {r : Request} (hp : p.head = some (.send c r)) {b : Backend Pool}
    (hb : t.reading = some (c, b)) : t.committed ≤ b.replayLSN :=
  (safe_relayQueries n delay astParser wal balancer).guarded hr hp b hb

end

/-! ## Runs -/

def causalEnv : Env := { plainEnv false with classify := Classifier.classify id }

theorem step_of_first (o : Op) (s : World) (ans : Ans o) (t : World)
    (h : first (acts effects causalEnv) o s ans = some t) : step effects causalEnv o s ans t :=
  ⟨s.wal, s.balancer, Nat.le_refl _, .refl, ofList_of_first _ o s ans t h⟩

def causalQuery (text : String) : Input :=
  { plainQuery text with cfg := { (plainQuery text).cfg with causalConsistency := true } }

def oneReader : RoundRobin Pool := (RoundRobin.new [1]).setReplayLSN 1 11

theorem reader_before_commit :
    ∃ p t c r b, Reach (causal effects causalEnv)
      (relayQueries causalEnv 4 (Session.new 0 true false)) (World.new 9 oneReader) p t ∧
      p.head = some (.send c r) ∧ t.reading = some (c, b) ∧ b.replayLSN < t.committed := by
  have hreach := drive_reach_restrict (Script.replyAt 11 (1, 1)) step_of_first
    (OnRecv fun _ i _ => (i.msg.type = msgQuery ∨ i.msg.type = msgTerminate) ∧
      i.cfg.causalConsistency = true) 21
    (relayQueries causalEnv 4 (Session.new 0 true false))
    ⟨["BEGIN", "INSERT INTO t VALUES (1)", "COMMIT", "SELECT * FROM t"].map causalQuery,
      [0, 0, 0], [0]⟩
    (World.new 9 oneReader)
  exact ⟨_, _, 1, .forward (causalQuery "SELECT * FROM t").msg, ⟨0, 1, true, 11⟩, hreach,
    rfl, by decide +kernel, by decide +kernel⟩

instance : (o : Op) → (s : World) → (ans : Ans o) → (t : World) → Decidable (Noted o s ans t)
  | .send _ _, s, _, t =>
      inferInstanceAs (Decidable (t.committed = s.committed ∨ s.labelled = true))
  | .relay _, s, false, _ => inferInstanceAs (Decidable (s.due = false))
  | .queryLSN _, s, none, _ => inferInstanceAs (Decidable (s.due = false))
  | .recv _, _, _, _ | .leave _, _, _, _ | .relay _, _, true, _ | .queryLSN _, _, some _, _
  | .writerPool, _, _, _ | .acquireWriter, _, _, _ | .allow, _, _, _ | .client _, _, _, _
  | .acquire _, _, _, _ | .acquireReader _, _, _, _ | .collect _, _, _, _
  | .relayDescribe _, _, _, _ | .reset _, _, _, _ | .release _ _, _, _, _ | .discard _ _, _, _, _
  | .nilPool _, _, _, _ | .lookup _ _, _, _, _ | .store _ _, _, _, _
  | .invalidate _, _, _, _ => .isTrue trivial

theorem reader_behind_commits_insert :
    ∃ p t, p.head = some (.send 1 (.forward (causalQuery "SELECT * FROM t").msg)) ∧
      t.reading = some (1, ⟨0, 1, true, 11⟩) ∧ t.committed = 11 ∧ t.committed ≤ 11 ∧
      Reach (noted effects causalEnv) (relayQueries causalEnv 2 (Session.new 0 true false))
        (World.new 10 oneReader) p t := by
  have hreach := drive_reach_restrict (Script.replyAt 11 (1, 1)) (restrict_of_onlyWhen step_of_first
      (OnRecv fun _ i _ => (i.msg.type = msgQuery ∨ i.msg.type = msgTerminate) ∧
        i.cfg.causalConsistency = true))
    Noted 11 (relayQueries causalEnv 2 (Session.new 0 true false))
    ⟨["INSERT INTO t VALUES (1)", "SELECT * FROM t"].map causalQuery, [0], [0]⟩
      (World.new 10 oneReader)
  refine ⟨_, _, rfl, ?reading, by decide +kernel, reader_behind_commits hreach rfl ?reading, hreach⟩
  decide +kernel

end PgMux.CausalReads
