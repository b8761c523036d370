import PgMux.DataApi
import PgMux.PgBlocks
import PgMux.Shared
import PgMux.TableNames

/-!
# The mirror

The workers of the mirror run the queries of all clients on connections of a pool of their own. They
release a connection behind the end of the reply, in or out of a transaction block.
-/

namespace PgMux.Mirroring

open Effects Protocol Relay Wire
open PgBlocks (Status command)
open Pools (Conn)

/-! ## What is mirrored -/

inductive Mode where
  | readOnly | all
  deriving DecidableEq, Repr

structure Config where
  mode : Option Mode
  tables : List Bytes
  workers : Int
  bufferSize : Int

structure Mirror where
  mode : Mode
  tables : Option (List Bytes)
  workers : Nat
  bufferSize : Nat
  workers_pos : 0 < workers
  bufferSize_pos : 0 < bufferSize

def positiveOr (default : Nat) (n : Int) : Nat := if n ≤ 0 then default else n.toNat

theorem positiveOr_pos {default : Nat} (h : 0 < default) (n : Int) : 0 < positiveOr default n := by
  unfold positiveOr
  split
  · exact h
  · omega

def new (cfg : Config) : Mirror where
  mode := cfg.mode.getD .readOnly
  tables := if cfg.tables = [] then none else some cfg.tables
  workers := positiveOr 4 cfg.workers
  bufferSize := positiveOr 10000 cfg.bufferSize
  workers_pos := positiveOr_pos (by decide) _
  bufferSize_pos := positiveOr_pos (by decide) _

structure Job where
  msg : Message
  query : Bytes
  deriving DecidableEq, Repr

namespace Mirror

def matchesTables (m : Mirror) (tables : List Bytes) : Bool :=
  m.tables.all fun names => tables.any (· ∈ names)

def isReadOnly (m : Mirror) : Bool := m.mode == .readOnly

def send (m : Mirror) (j : Job) (workCh : List Job) : List Job :=
  if workCh.length < m.bufferSize then workCh ++ [j] else workCh

end Mirror

structure Extractor where
  upperRune : Nat → Nat
  lowerRune : Nat → Nat
  extractTablesAST : Bytes → List Bytes
  extractTablesASTWithTree : PgQuery.ParseResult → List Bytes

def extractQueryTablesParsed (x : Extractor) (cfg : Relay.Config) (query : Bytes)
    (pq : Option PgQuery.ParseResult) : Option (List Bytes) :=
  if cfg.astParser then
    match pq with
    | some tree => some (x.extractTablesASTWithTree tree)
    | none => some (x.extractTablesAST query)
  else TableNames.extractTables x.upperRune x.lowerRune query

def mirrorQuery (m : Mirror) (x : Extractor) (cfg : Relay.Config) (msg : Message) (query : Bytes)
    (qtype : Router.QueryType) (pq : Option PgQuery.ParseResult) : Option Job := do
  if m.isReadOnly && qtype == .write then none
  else
    let tables ← extractQueryTablesParsed x cfg query pq
    if m.matchesTables tables then some ⟨msg, query⟩ else none

def passed (env : Env) (m : Mirror) (x : Extractor) (v : Vars) (i : Input) : Option Job :=
  let query := extractQueryText i.msg.payload
  let pq := parsedQuery env i.cfg query
  let route := (Router.routeWithTxState env.toEnv v.session i.now query).1.route
  let qtype := if route = .reader then .read else classifyQueryParsed env i.cfg query pq
  if i.msg.type = msgQuery ∧ blocked env i = false then mirrorQuery m x i.cfg i.msg query qtype pq
    else none

/-! ## The workers -/

inductive Op where
  | take
  | acquire
  | write (c : Conn) (msg : Message)
  | drain (c : Conn)
  | release (c : Conn)
  | discard (c : Conn)

abbrev Ans : Op → Type
  | .take => Option Job
  | .acquire => Option Conn
  | .write _ _ | .drain _ => Bool
  | .release _ | .discard _ => Unit

abbrev take : Prog Ans (Option Job) := perform Op.take
abbrev acquire : Prog Ans (Option Conn) := perform Op.acquire
abbrev write (c : Conn) (msg : Message) : Prog Ans Bool := perform (Op.write c msg)
abbrev drain (c : Conn) : Prog Ans Bool := perform (Op.drain c)
abbrev release (c : Conn) : Prog Ans Unit := perform (Op.release c)
abbrev discard (c : Conn) : Prog Ans Unit := perform (Op.discard c)

def execute (j : Job) : Prog Ans Unit := do
  match ← acquire with
  | none => return
  | some c =>
    if ← write c j.msg then
      if ← drain c then release c else discard c
    else discard c

def serve (_ : Unit) : Prog Ans (Flow Unit) := do
  match ← take with
  | none => return .stop ()
  | some j =>
    execute j
    return .next ()

def worker (n : Nat) : Prog Ans Unit := rounds serve n ()

def atHand : (o : Op) → Option Job → Ans o → Option Job
  | .take, _, j => j
  | .acquire, s, _ | .write _ _, s, _ | .drain _, s, _ | .release _, s, _ | .discard _, s, _ => s

structure Shadow where
  workCh : List Job
  world : Pools.World
  line : Conn → Line
  status : Conn → Status

def Shadow.new (m : Mirror) : Shadow where
  workCh := []
  world := ⟨fun p => ⟨(m.workers * 2 : Nat), [], 0, p != 0⟩, 1, 0, ∅, []⟩
  line := fun _ => Line.new
  status := fun _ => .idle

def Shadow.dialled (s : Shadow) (w : Pools.World) : Shadow :=
  { s with
    world := w
    line := fun c => if c ∈ s.world.live then s.line c else Line.new
    status := fun c => if c ∈ s.world.live then s.status c else .idle }

section

variable (outcomes : Status → Bytes → List Status)

/-- The mirror's pool, connections and server. `outcomes` is what the server can do to a block by a
text. -/
def step : Machine Ans Shadow := fun o s ans t =>
  match o, ans with
  | .take, none => t = s
  | .take, some j => s.workCh = j :: t.workCh ∧ t = { s with workCh := t.workCh }
  | .acquire, c => ∃ expired dialled w, (∀ d ∈ dialled, d ∉ s.world.live) ∧
    s.world.acquire expired dialled 0 = (c, w) ∧ t = s.dialled w
  | .write c msg, true => ∃ l st, wire (.request msg) (s.line c) true l ∧
    st ∈ outcomes (s.status c) (extractQueryText msg.payload) ∧
    t = { s with line := Function.update s.line c l, status := Function.update s.status c st }
  | .write c msg, false => ∃ l, wire (.request msg) (s.line c) false l ∧
    t = { s with line := Function.update s.line c l }
  | .drain c, ok => ∃ n l, Ends wire (DataApi.drainUntilReady n) (s.line c) ok l ∧
    t = { s with line := Function.update s.line c l }
  | .release c, _ => t = { s with world := s.world.release c 0 }
  | .discard c, _ => t = { s with world := s.world.discard c 0 }

variable (env : Env) (m : Mirror) (x : Extractor) (P : Vars → Input → Prop)

def Passes (s t : Shadow) : Prop :=
  ∃ v i j, P v i ∧ passed env m x v i = some j ∧ t = { s with workCh := m.send j s.workCh }

def machine : Machine Ans Shadow := fun o s ans t =>
  ∃ u, Relation.ReflTransGen (Passes env m x P) s u ∧ step outcomes o u ans t

def Reaches (n : Nat) (y : Fin m.workers → Prog Ans Unit × Option Job) (s : Shadow) : Prop :=
  ReachShared (.ofFun atHand) (machine outcomes env m x P) (fun _ => (worker n, none))
    (Shadow.new m) y s

/-! ## Transaction blocks -/

def EndsIdle (j : Job) : Prop := ∀ st ∈ outcomes .idle (extractQueryText j.msg.payload), st = .idle

end

def Holds : Op → Option Job → Prop
  | .write _ msg, s => ∃ j ∈ s, j.msg = msg
  | _, _ => True

theorem safe_execute (j : Job) :
    Safe (.ofFun atHand) Holds (execute j) (fun _ _ => True) (some j) := by
  refine ⟨trivial, fun c s hs => ?_⟩
  obtain rfl : s = some j := hs
  cases c with
  | none => trivial
  | some c =>
    refine ⟨⟨j, rfl, rfl⟩, fun ok t _ => ?_⟩
    cases ok with
    | false => exact ⟨trivial, fun _ _ _ => trivial⟩
    | true =>
      refine ⟨trivial, fun ok u _ => ?_⟩
      cases ok <;> exact ⟨trivial, fun _ _ _ => trivial⟩

theorem safe_worker (n : Nat) (s : Option Job) :
    Safe (.ofFun atHand) Holds (worker n) (fun _ _ => True) s := by
  refine Safe.rounds (I := fun _ _ => True) n (fun _ s _ => ?_) (fun _ _ _ => trivial) trivial
  refine ⟨trivial, fun j t ht => ?_⟩
  obtain rfl : t = j := ht
  cases t with
  | none => trivial
  | some j =>
    change Safe _ _ (execute j >>= _) _ _
    exact (safe_execute j).bind fun _ _ _ => trivial

section

variable {outcomes : Status → Bytes → List Status} {env : Env} {m : Mirror} {x : Extractor}
  {P : Vars → Input → Prop}

variable (outcomes) in
/-- No job and no worker holds a text that leaves a block open, and no connection is in a block. -/
structure Quiet (hands : Fin m.workers → Option Job) (s : Shadow) : Prop where
  jobs : ∀ j ∈ s.workCh, EndsIdle outcomes j
  hands : ∀ w, ∀ j ∈ hands w, EndsIdle outcomes j
  idle : ∀ c, s.status c = .idle

variable {hands : Fin m.workers → Option Job} {s t : Shadow}

theorem Quiet.passes (hP : ∀ v i, P v i → ∀ j ∈ passed env m x v i, EndsIdle outcomes j)
    (h : Quiet outcomes hands s) (hs : Relation.ReflTransGen (Passes env m x P) s t) :
    Quiet outcomes hands t := by
  induction hs with
  | refl => exact h
  | tail _ hpass ih =>
    obtain ⟨v, i, j, hvi, hj, rfl⟩ := hpass
    refine ⟨fun j' hj' => ?_, ih.hands, ih.idle⟩
    simp only [Mirror.send] at hj'
    split at hj'
    · rcases List.mem_append.mp hj' with hj' | hj'
      · exact ih.jobs j' hj'
      · exact List.mem_singleton.mp hj' ▸ hP v i hvi j hj
    · exact ih.jobs j' hj'

theorem Quiet.hand (h : Quiet outcomes hands s) {w : Fin m.workers} {hand : Option Job}
    (hhand : ∀ j ∈ hand, EndsIdle outcomes j) :
    ∀ w', ∀ j ∈ Function.update hands w hand w', EndsIdle outcomes j := by
  intro w' j hj
  by_cases hw : w' = w
  · subst hw
    rw [Function.update_self] at hj
    exact hhand j hj
  · rw [Function.update_of_ne hw] at hj
    exact h.hands w' j hj

theorem update_idle {status : Conn → Status} (h : ∀ c, status c = .idle) {c : Conn} {st : Status}
    (hst : st = .idle) : ∀ d, Function.update status c st d = .idle := by
  intro d
  by_cases hd : d = c
  · rw [hd, Function.update_self, hst]
  · rw [Function.update_of_ne hd, h d]

theorem Quiet.step {w : Fin m.workers} {o : Op} {ans : Ans o} (h : Quiet outcomes hands s)
    (hholds : Holds o (hands w)) (hs : step outcomes o s ans t) :
    Quiet outcomes (Function.update hands w (atHand o (hands w) ans)) t := by
  have hkeep := h.hand (w := w) (h.hands w)
  cases o with
  | take =>
    cases ans with
    | none =>
      obtain rfl : t = s := hs
      exact ⟨h.jobs, h.hand (by simp [atHand]), h.idle⟩
    | some j =>
      obtain ⟨hch, ht⟩ := hs
      have hjobs := h.jobs
      rw [hch] at hjobs
      have hstatus : t.status = s.status := by rw [ht]
      refine ⟨fun j' hj' => hjobs j' (List.mem_cons_of_mem _ hj'), h.hand fun j' hj' => ?_,
        hstatus ▸ h.idle⟩
      exact Option.some.inj hj' ▸ hjobs j List.mem_cons_self
  | acquire =>
    obtain ⟨_, _, w', _, _, rfl⟩ := hs
    refine ⟨h.jobs, hkeep, fun c => ?_⟩
    simp only [Shadow.dialled]
    split
    · exact h.idle c
    · rfl
  | write c msg =>
    cases ans with
    | true =>
      obtain ⟨l, st, _, hst, rfl⟩ := hs
      obtain ⟨j, hj, rfl⟩ := hholds
      rw [h.idle c] at hst
      exact ⟨h.jobs, hkeep, update_idle h.idle (h.hands w j hj st hst)⟩
    | false =>
      obtain ⟨l, _, rfl⟩ := hs
      exact ⟨h.jobs, hkeep, h.idle⟩
  | drain c =>
    obtain ⟨_, _, _, rfl⟩ := hs
    exact ⟨h.jobs, hkeep, h.idle⟩
  | release c | discard c =>
    obtain rfl : t = _ := hs
    exact ⟨h.jobs, hkeep, h.idle⟩

theorem quiet_of_reaches {n : Nat} {y : Fin m.workers → Prog Ans Unit × Option Job}
    (hP : ∀ v i, P v i → ∀ j ∈ passed env m x v i, EndsIdle outcomes j)
    (hr : Reaches outcomes env m x P n y s) : Quiet outcomes (fun w => (y w).2) s := by
  refine hr.invariant (Q := fun _ _ _ => True) (J := Quiet outcomes)
    (fun hands s w o ans t s' h hholds ht hs => ?_)
    (fun w => safe_worker n none) ⟨List.forall_mem_nil _, fun w j hj => absurd hj (by simp),
      fun c => rfl⟩
  obtain ⟨u, hpass, hstep⟩ := hs
  obtain rfl : t = atHand o (hands w) ans := ht
  exact (h.passes hP hpass).step hholds hstep

/-! ## One query on a new connection -/

def first (m : Mirror) : Fin m.workers := ⟨0, m.workers_pos⟩

def dialsOne (m : Mirror) : Pools.World :=
  ((Shadow.new m).world.acquire (fun _ => false) (some 0) 0).2

theorem acquire_new (m : Mirror) :
    (Shadow.new m).world.acquire (fun _ => false) (some 0) 0 = (some 0, dialsOne m) := by
  refine Prod.ext ?_ rfl
  have hroom : (0 : Int) < m.workers * 2 := by have := m.workers_pos; omega
  simp [Shadow.new, Pools.World.acquire, Pools.PoolState.acquire, hroom]

def readyForQuery : Message := ⟨msgReadyForQuery, [73]⟩

def asked (m : Mirror) (st : Status) : Shadow where
  workCh := []
  world := dialsOne m
  line := Function.update (fun _ => Line.new) 0 ⟨[readyForQuery], false⟩
  status := Function.update (fun _ => .idle) 0 st

def served (m : Mirror) (st : Status) : Shadow :=
  { asked m st with line := Function.update (asked m st).line 0 Line.new }

theorem dialled_new (m : Mirror) :
    { Shadow.new m with world := dialsOne m } = (Shadow.new m).dialled (dialsOne m) := by
  simp [Shadow.dialled, Shadow.new]

theorem passes_new {v : Vars} {i : Input} {j : Job} (hP : P v i) (hj : passed env m x v i = some j)
    (hs : s.workCh = []) : Relation.ReflTransGen (Passes env m x P) s { s with workCh := [j] } := by
  refine .single ⟨v, i, j, hP, hj, ?_⟩
  simp [Mirror.send, hs, m.bufferSize_pos]

theorem reach_release {v : Vars} {i : Input} {j : Job} {st : Status} (n : Nat) (hP : P v i)
    (hj : passed env m x v i = some j)
    (hst : st ∈ outcomes .idle (extractQueryText j.msg.payload)) :
    Reach ((Machine.ofFun atHand).both (machine outcomes env m x P)) (worker (n + 1))
      (none, Shadow.new m)
      (.op (.release 0) fun _ => worker n) (some j, served m st) := by
  have hdrain : Ends wire (DataApi.drainUntilReady 1) ⟨[readyForQuery], false⟩ true Line.new :=
    .ask (some readyForQuery) Line.new ⟨rfl, rfl⟩ .refl
  have hwrite : wire (.request j.msg) Line.new true ⟨[readyForQuery], false⟩ :=
    ⟨[readyForQuery], rfl, rfl⟩
  refine .ask (some j) (some j, Shadow.new m) ⟨rfl, _, passes_new hP hj rfl, rfl, rfl⟩ ?_
  refine .ask (some 0) (some j, { Shadow.new m with world := dialsOne m })
    ⟨rfl, _, .refl, _, _, _, fun _ _ => Finset.notMem_empty _, acquire_new m, dialled_new m⟩ ?_
  refine .ask true (some j, asked m st) ⟨rfl, _, .refl, _, st, hwrite, hst, rfl⟩ ?_
  exact .ask true (some j, served m st) ⟨rfl, _, .refl, 1, Line.new, hdrain, rfl⟩ .refl

/-- Whatever the server does with a text: no connection is in a block when it is given back or
written to, if and only if no text that the clients' messages pass to the mirror can leave a block
open. -/
theorem released_idle_iff : (∀ n y s, Reaches outcomes env m x P n y s → ∀ w c,
      ((y w).1.head = some (.release c) → s.status c = .idle) ∧
        ∀ msg, (y w).1.head = some (.write c msg) → s.status c = .idle) ↔
    ∀ v i, P v i → ∀ j ∈ passed env m x v i, EndsIdle outcomes j := by
  constructor
  · intro h v i hP j hj st hst
    have hreach := (reach_release 0 hP hj hst).shared (x := fun _ => (worker 1, none)) (first m) rfl
    have hidle := (h 1 _ _ hreach (first m) 0).1 (by rw [Function.update_self]; rfl)
    simpa [served, asked] using hidle
  · intro hP n y s hr w c
    have hquiet := quiet_of_reaches hP hr
    exact ⟨fun _ => hquiet.idle c, fun _ _ => hquiet.idle c⟩

end

/-! ## A transaction of another client -/

def defaultMirror : Mirror := new ⟨none, [], 1, 1⟩

def stringEnv : Env := { plainEnv false with classify := Classifier.classify id }

def noTables : Extractor := ⟨id, id, fun _ => [], fun _ => []⟩

def TwoClients (v : Vars) (i : Input) : Prop :=
  v = Vars.init (Router.Session.new 0 false false) ∧
    (i = plainQuery "BEGIN" ∨ i = plainQuery "SELECT 1")

def jobOf (text : String) : Job := ⟨⟨msgQuery, ascii text ++ [0]⟩, ascii text⟩

def released : Shadow :=
  { served defaultMirror .inTx with world := (served defaultMirror .inTx).world.release 0 0 }

def lentAgain : Shadow := released.dialled (released.world.acquire (fun _ => false) none 0).2

theorem begin_is_mirrored :
    (∃ y s, Reaches command stringEnv defaultMirror noTables TwoClients 2 y s ∧
      (y (first defaultMirror)).1.head = some (.release 0) ∧ s.status 0 = .inTx) ∧
    ∃ y s, Reaches command stringEnv defaultMirror noTables TwoClients 2 y s ∧
      (y (first defaultMirror)).1.head = some (.write 0 (jobOf "SELECT 1").msg) ∧
      s.status 0 = .inTx := by
  have hbegin :
      passed stringEnv defaultMirror noTables (Vars.init (Router.Session.new 0 false false))
      (plainQuery "BEGIN") = some (jobOf "BEGIN") := by decide +kernel
  have hselect :
      passed stringEnv defaultMirror noTables (Vars.init (Router.Session.new 0 false false))
      (plainQuery "SELECT 1") = some (jobOf "SELECT 1") := by decide +kernel
  have hopen :
    Status.inTx ∈ command .idle (extractQueryText (jobOf "BEGIN").msg.payload) := by decide +kernel
  have hreach := reach_release (P := TwoClients) 1 ⟨rfl, .inl rfl⟩ hbegin hopen
  have hagain := hreach.trans (.ask () (some (jobOf "BEGIN"), released) ⟨rfl, _, .refl, rfl⟩
    (.ask (some (jobOf "SELECT 1")) (some (jobOf "SELECT 1"), released)
      ⟨rfl, _, passes_new ⟨rfl, .inr rfl⟩ hselect rfl, rfl, rfl⟩
    (.ask (some 0) (some (jobOf "SELECT 1"), lentAgain) ⟨rfl, _, .refl, fun _ => false, none,
      _, by simp, rfl, rfl⟩ .refl)))
  refine ⟨⟨_, _, hreach.shared (x := fun _ => (worker 2, none)) (first defaultMirror) rfl,
    rfl, rfl⟩,
    _, _, hagain.shared (x := fun _ => (worker 2, none)) (first defaultMirror) rfl, rfl, ?_⟩
  decide +kernel

end PgMux.Mirroring
