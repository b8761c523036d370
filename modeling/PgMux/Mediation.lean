import PgMux.Results

/-!
# What the firewall gets to see

Only the Query branch of the loop asks the firewall. The machine keeps the messages that the session
has taken so far. A run is mediated if, whenever a message may bring queries of Parse messages to a
backend, the firewall passes those queries.
-/

namespace PgMux.Mediation

open Effects Relay
open Firewall hiding Message
open Protocol (Message msgDescribe msgParse msgQuery msgSync parseParseMessage)
open Router (Session)
open Synthesizer (PreparedStmt)

def passes (env : Env) (cfg : FirewallConfig) (text : Bytes) : Bool :=
  !(checkFirewall env.parseSQL text cfg).blocked

/-- The firewall's configuration at the last message, that message until the limiter admits it, and
all messages that were admitted. -/
structure Heard where
  cfg : FirewallConfig
  last : Option Message
  heard : List Message

def Heard.new (cfg : FirewallConfig) : Heard := ⟨cfg, none, []⟩

def next : (o : Op) → Heard → Ans o → Heard
  | .recv _, s, some i => { s with cfg := i.cfg.firewall, last := some i.msg }
  | .allow, s, true => { s with last := none, heard := s.heard ++ s.last.toList }
  | _, s, _ => s

abbrev machine : Machine Ans Heard := .ofFun next

def sinceSync (ms : List Message) : List Message := ms.reverse.takeWhile (·.type ≠ msgSync)

/-- A query, or the query with the literals of some parameters in place of its placeholders. -/
def Filling (query text : Bytes) : Prop :=
  text = query ∨ ∃ oids params codes,
    (PreparedStmt.mk query oids).synthesize params codes = .ok text

/-- The condition on a message: the queries that it may bring to a backend pass the firewall of that
moment. -/
structure Clear (env : Env) (i : Input) (s : Heard) : Prop where
  batch : env.multiplexMode = false → i.msg.type = msgSync → ∀ m ∈ sinceSync s.heard,
    m.type = msgParse → passes env i.cfg.firewall (parseParseMessage m.payload).2 = true
  statements : env.multiplexMode = true → i.msg.type = msgSync ∨ i.msg.type = msgDescribe →
    ∀ m ∈ s.heard, m.type = msgParse → ∀ text, Filling (parseParseMessage m.payload).2 text →
      passes env i.cfg.firewall text = true

abbrev screened (env : Env) : Machine Ans Heard :=
  machine.restrict (OnRecv fun _ i s => Clear env i s)

def Mediated (env : Env) : Op → Heard → Prop
  | .send _ r, s => ∀ text ∈ r.texts, passes env s.cfg text = true
  | _, _ => True

/-! ## The record and the messages -/

/-- Every buffered message is one of `buf`, and the query of every registered statement one of
`queries`. -/
structure Recorded (buf : Message → Prop) (queries : Bytes → Prop) (v : Vars) : Prop where
  extBuf : ∀ m ∈ v.extBuf, buf m
  synth : ∀ name stmt, v.synth.statements name = some stmt → queries stmt.query

section

variable {env : Env}

section

variable {buf : Message → Prop} {queries : Bytes → Prop} {i : Input} {v : Vars}

theorem parsedStatement_query (payload : Bytes) :
    (parsedStatement payload).2.1 = (parseParseMessage payload).2 := by
  unfold parsedStatement
  dsimp only
  split
  · rw [Protocol.parseParseMessage_eq]
  · rfl

theorem Recorded.buffer (h : Recorded buf queries v) (hbuf : buf i.msg) :
    Recorded buf queries (Relay.buffer i.msg v) := by
  refine ⟨fun m hm => ?_, h.synth⟩
  obtain hm | rfl := List.mem_append.mp hm |>.imp_right List.mem_singleton.mp
  · exact h.extBuf m hm
  · exact hbuf

theorem Recorded.raiseRoute (h : Recorded buf queries v) (name : Bytes) :
    Recorded buf queries (Relay.raiseRoute name v) := by
  unfold Relay.raiseRoute
  split
  · exact ⟨h.extBuf, h.synth⟩
  · exact h

theorem Recorded.noteClose (h : Recorded buf queries v) (payload : Bytes) :
    Recorded buf queries (Relay.noteClose env payload v) := by
  unfold Relay.noteClose
  dsimp only
  split
  · refine ⟨h.extBuf, fun name stmt hstmt => ?_⟩
    dsimp only at hstmt
    split at hstmt
    · by_cases hname : name = (Protocol.parseCloseMessage payload).2
      · simp [Synthesizer.Registry.closeStatement, hname] at hstmt
      · simp only [Synthesizer.Registry.closeStatement, Function.update_of_ne hname] at hstmt
        exact h.synth name stmt hstmt
    · exact h.synth name stmt hstmt
  · exact h

theorem Recorded.register (h : Recorded buf queries v) {name query : Bytes} (oids : List Nat)
    (hquery : queries query) : ∀ name' stmt,
      (v.synth.registerStatement name query oids).statements name' = some stmt →
      queries stmt.query := by
  intro name' stmt hstmt
  by_cases hname : name' = name
  · simp only [Synthesizer.Registry.registerStatement, hname, Function.update_self] at hstmt
    exact Option.some.inj hstmt ▸ hquery
  · simp only [Synthesizer.Registry.registerStatement, Function.update_of_ne hname] at hstmt
    exact h.synth name' stmt hstmt

theorem recorded_handleParse (h : Recorded buf queries v) (hbuf : buf i.msg)
    (hquery : queries (parseParseMessage i.msg.payload).2) :
    (handleParse env i v).Returns (Flow.Next (Recorded buf queries)) := by
  unfold handleParse
  split
  · exact returns_report _ ⟨h.extBuf, h.register _ (parsedStatement_query i.msg.payload ▸ hquery)⟩
  · exact Recorded.buffer (v := noteStatement env _ _ _) ⟨h.extBuf, h.synth⟩ hbuf

theorem recorded_handleBind (h : Recorded buf queries v) (hbuf : buf i.msg) :
    (handleBind env i v).Returns (Flow.Next (Recorded buf queries)) := by
  unfold handleBind
  split
  · split
    · exact .of_bind _ fun _ => trivial
    · rename_i detail _
      have hraise := h.raiseRoute detail.statementName
      exact returns_report _ ⟨hraise.extBuf, hraise.synth⟩
  · exact (h.raiseRoute _).buffer hbuf

theorem recorded_handleQuery (h : Recorded buf queries v) :
    (handleQuery env i v).Returns (Flow.Next (Recorded buf queries)) := by
  unfold handleQuery
  change (if blocked env i then _ else _ : Run (Flow Vars)).Returns _
  split
  · exact .of_bind _ fun _ => .of_bind _ fun _ => h
  · unfold executeQuery
    dsimp only
    split
    · exact returns_writeSimple i _ _ _ fun _ _ _ _ => ⟨h.extBuf, h.synth⟩
    · exact returns_goOn _ ⟨h.extBuf, h.synth⟩

/-- What a message does to the record: it is buffered, its query is registered, and a Sync empties
the buffer. -/
theorem recorded_dispatch (h : Recorded buf queries v) : (dispatch env i v).Returns (Flow.Next
    (Recorded (fun m => i.msg.type ≠ msgSync ∧ (buf m ∨ m = i.msg))
      fun query => queries query ∨ i.msg.type = msgParse ∧
      query = (parseParseMessage i.msg.payload).2)) := by
  have hqueries : ∀ name stmt, v.synth.statements name = some stmt → queries stmt.query ∨
      i.msg.type = msgParse ∧ stmt.query = (parseParseMessage i.msg.payload).2 :=
    fun name stmt hstmt => .inl (h.synth name stmt hstmt)
  by_cases hsync : i.msg.type = msgSync
  · refine dispatch_sync hsync ▸
      returns_handleSync (S := fun v' => v'.synth = v.synth) i rfl (fun _ _ _ _ => rfl) ?_
    exact fun v' hv' => ⟨fun _ hm => absurd hm List.not_mem_nil,
      fun name stmt hstmt => hqueries name stmt (hv' ▸ hstmt)⟩
  have hv : Recorded (fun m => i.msg.type ≠ msgSync ∧ (buf m ∨ m = i.msg))
      (fun query => queries query ∨
      i.msg.type = msgParse ∧ query = (parseParseMessage i.msg.payload).2) v :=
    ⟨fun m hm => ⟨hsync, .inl (h.extBuf m hm)⟩, hqueries⟩
  have hbuf : i.msg.type ≠ msgSync ∧ (buf i.msg ∨ i.msg = i.msg) := ⟨hsync, .inr rfl⟩
  by_cases hquery : i.msg.type = msgQuery
  · exact dispatch_query hquery ▸ recorded_handleQuery hv
  by_cases hparse : i.msg.type = msgParse
  · exact dispatch_parse hparse ▸ recorded_handleParse hv hbuf (.inr ⟨hparse, rfl⟩)
  by_cases hbind : i.msg.type = Protocol.msgBind
  · exact dispatch_bind hbind ▸ recorded_handleBind hv hbuf
  by_cases hclose : i.msg.type = Protocol.msgClose
  · rw [dispatch_close hclose, handleClose]
    split
    · exact returns_report _ (hv.noteClose _)
    · exact (hv.noteClose _).buffer hbuf
  by_cases hdescribe : i.msg.type = msgDescribe
  · rw [dispatch_describe hdescribe, handleDescribe]
    split
    · exact returns_goOn _ hv
    · exact hv.buffer hbuf
  rw [dispatch_other hquery hparse hbind hclose hdescribe hsync]
  split
  · exact hv
  · exact hv.buffer hbuf

end

/-! ## Runs -/

theorem checkQuery_parsedQuery (cfg : Config) (query : Bytes) :
    checkQuery env cfg query (parsedQuery env cfg query) =
      checkFirewall env.parseSQL query cfg.firewall := by
  unfold checkQuery parsedQuery
  cases cfg.astParser with
  | false => rfl
  | true =>
    cases hp : env.parseSQL query with
    | none => simp
    | some tree => simp [checkFirewall, checkFirewallWithTree, hp]

theorem blocked_eq (i : Input) :
    blocked env i = !passes env i.cfg.firewall (Protocol.extractQueryText i.msg.payload) := by
  unfold blocked passes
  dsimp only
  rw [checkQuery_parsedQuery, Bool.not_not]
  cases hon : i.cfg.firewall.enabled with
  | true => rfl
  | false => simp [checkFirewall, hon, FirewallResult.allowed]

abbrev Known (v : Vars) (s : Heard) : Prop :=
  Recorded (· ∈ sinceSync s.heard) (fun query => ∃ m ∈ s.heard, m.type = msgParse ∧
    query = (parseParseMessage m.payload).2) v

theorem mem_sinceSync {ms : List Message} {m x : Message} :
    m ∈ sinceSync (ms ++ [x]) ↔ x.type ≠ msgSync ∧ (m ∈ sinceSync ms ∨ m = x) := by
  unfold sinceSync
  rw [List.reverse_append, List.reverse_singleton, List.singleton_append, List.takeWhile_cons]
  by_cases hx : x.type = msgSync
  · simp [hx]
  · simp [hx, or_comm]

theorem Known.hear {v : Vars} {s : Heard} {msg : Message}
    (h : Recorded (fun m => msg.type ≠ msgSync ∧ (m ∈ sinceSync s.heard ∨ m = msg)) (fun query =>
      (∃ m ∈ s.heard, m.type = msgParse ∧ query = (parseParseMessage m.payload).2) ∨
        msg.type = msgParse ∧ query = (parseParseMessage msg.payload).2) v) {t : Heard}
    (ht : t.heard = s.heard ++ [msg]) : Known v t := by
  refine ⟨fun m hm => ht ▸ mem_sinceSync.mpr (h.extBuf m hm), fun name stmt hstmt => ?_⟩
  rw [ht]
  obtain ⟨m, hm, hquery⟩ | hquery := h.synth name stmt hstmt
  · exact ⟨m, List.mem_append_left _ hm, hquery⟩
  · exact ⟨msg, List.mem_append_right _ (List.mem_singleton.mpr rfl), hquery⟩

theorem filling_of_synthesizedQuery {v : Vars} {query : Bytes} (h : query ∈ synthesizedQuery v) :
    ∃ name stmt, v.synth.statements name = some stmt ∧ Filling stmt.query query := by
  obtain ⟨detail, _, hquery⟩ := Option.bind_eq_some_iff.mp h
  unfold Synthesizer.Registry.synthesize at hquery
  cases hstmt : v.synth.statements detail.statementName with
  | none => simp [hstmt, Except.toOption] at hquery
  | some stmt =>
    refine ⟨detail.statementName, stmt, hstmt,
      .inr ⟨stmt.paramOIDs, detail.parameters, detail.formatCodes, ?_⟩⟩
    rw [hstmt] at hquery
    cases hsynth : stmt.synthesize detail.parameters detail.formatCodes with
    | error err => simp [hsynth, Except.toOption] at hquery
    | ok text =>
      have htext : text = query := by simpa [hsynth, Except.toOption] using hquery
      rw [htext]

theorem statement_of_described {payload : Bytes} {synth : Synthesizer.Registry}
    {stmt : PreparedStmt} (h : stmt ∈ describedStatement payload synth) :
    ∃ name, synth.statements name = some stmt := by
  unfold describedStatement at h
  split at h
  · split at h
    · simp at h
    · split at h
      · simp at h
      · exact ⟨_, h⟩
  · simp at h

theorem requests_pass {v : Vars} {i : Input} {s : Heard} (hv : Known v s) (hclear : Clear env i s)
    {r : Request} (hr : r ∈ requests env v i) :
    ∀ text ∈ r.texts, passes env i.cfg.firewall text = true := by
  have hstatement : env.multiplexMode = true → i.msg.type = msgSync ∨ i.msg.type = msgDescribe →
      ∀ name stmt text, v.synth.statements name = some stmt → Filling stmt.query text →
        passes env i.cfg.firewall text = true := by
    intro hmux htype name stmt text hstmt hfill
    obtain ⟨m, hm, hparse, hquery⟩ := hv.synth name stmt hstmt
    exact hclear.statements hmux htype m hm hparse text (hquery ▸ hfill)
  intro text htext
  unfold requests extRequests at hr
  split at hr
  · split at hr
    · simp at hr
    · rename_i hblocked
      rw [blocked_eq] at hblocked
      obtain rfl := List.mem_singleton.mp hr
      obtain rfl := List.mem_singleton.mp htext
      simpa using hblocked
  split at hr
  · rename_i hsync
    split at hr
    · rename_i hmux
      obtain ⟨query, hquery, rfl⟩ := List.mem_map.mp hr
      obtain rfl := List.mem_singleton.mp htext
      obtain ⟨name, stmt, hstmt, hfill⟩ := filling_of_synthesizedQuery (Option.mem_toList.mp hquery)
      exact hstatement hmux (.inl hsync) name stmt text hstmt hfill
    · rename_i hmux
      obtain rfl := List.mem_singleton.mp hr
      obtain ⟨m, hm, rfl⟩ := List.mem_map.mp htext
      obtain ⟨hm, hparse⟩ := List.mem_filter.mp hm
      exact hclear.batch (by simpa using hmux) hsync m (hv.extBuf m hm) (by simpa using hparse)
  · split at hr
    · rename_i hdescribe
      obtain ⟨stmt, hstmt, rfl⟩ := List.mem_map.mp hr
      obtain rfl := List.mem_singleton.mp htext
      obtain ⟨name, hname⟩ := statement_of_described (Option.mem_toList.mp hstmt)
      exact hstatement hdescribe.2 (.inr hdescribe.1) name stmt _ hname (.inl rfl)
    · simp at hr

def Passed (env : Env) (cfg : FirewallConfig) : Op → Prop
  | .recv _ | .leave _ | .allow => False
  | .send _ r => ∀ text ∈ r.texts, passes env cfg text = true
  | _ => True

instance (cfg : FirewallConfig) : LetsRelay (Passed env cfg) where
  basic o ho := by
    cases o with
    | recv | leave | allow | send => exact ho.elim
    | _ => trivial
  relay _ := trivial
  collect _ := trivial

theorem stable_passed (cfg : FirewallConfig) (heard : List Message) :
    Stable (screened env) (Mediated env) (Passed env cfg) fun s =>
    s.cfg = cfg ∧ s.heard = heard := by
  rintro o s ho ⟨rfl, rfl⟩
  refine ⟨?_, fun ans t ht => ?_⟩
  · cases o with
    | send c r => exact ho
    | _ => trivial
  · rw [ht.1]
    cases o with
    | recv v | allow => exact ho.elim
    | _ => exact ⟨rfl, rfl⟩

theorem safe_handleMessage {v : Vars} {i : Input} {s : Heard} (hv : Known v s)
    (hclear : Clear env i s) :
    Safe (screened env) (Mediated env) (handleMessage env i v) (Flow.Post Known fun _ _ => True)
      { s with cfg := i.cfg.firewall, last := some i.msg } := by
  unfold handleMessage
  split
  · trivial
  refine safe_bind.mpr ⟨trivial, fun admitted t ht => ?_⟩
  obtain rfl : t = _ := ht.1
  cases admitted with
  | false =>
    have hstable := @stable_passed env i.cfg.firewall s.heard
    refine (all_sendError _).then hstable ⟨rfl, rfl⟩ fun _ t ht => ?_
    refine (all_sendReadyForQuery false trivial).then hstable ht fun _ u hu => ?_
    exact ⟨fun m hm => hu.2 ▸ hv.extBuf m hm, fun name stmt hstmt => hu.2 ▸
      hv.synth name stmt hstmt⟩
  | true =>
    have hall : (dispatch env i v).All (Passed env i.cfg.firewall) :=
      all_dispatch i v (fun _ r hr => requests_pass hv hclear hr) (fun _ _ => trivial)
        (fun _ _ => trivial)
        fun _ _ => ⟨trivial, trivial⟩
    refine ((hall.safe (stable_passed i.cfg.firewall (s.heard ++ [i.msg])) ⟨rfl, rfl⟩).returns
      (recorded_dispatch hv)).mono fun r u hu => ?_
    cases r with
    | next v' => exact Known.hear hu.2 hu.1.2
    | stop v' => trivial

theorem safe_round (v : Vars) (s : Heard) (hv : Known v s) :
    Safe (screened env) (Mediated env) (round env v) (Flow.Post Known fun _ _ => True) s := by
  refine safe_bind.mpr ⟨trivial, fun i t ht => ?_⟩
  cases i with
  | none => trivial
  | some i =>
    obtain ⟨rfl, hclear⟩ := ht
    exact safe_handleMessage hv hclear

theorem safe_relayQueries (n : Nat) (session : Session) (cfg : FirewallConfig) :
    Safe (screened env) (Mediated env) (relayQueries env n session) (fun _ _ => True)
      (Heard.new cfg) := by
  refine safe_loop n session safe_round (fun _ _ _ => trivial) (fun _ _ _ => trivial)
    (φ := Sends [] []) ?_ ?_
  · intro o s ho _
    refine ⟨?_, fun _ _ _ => trivial⟩
    cases o with
    | send c r => exact absurd ho List.not_mem_nil
    | _ => trivial
  · exact ⟨fun _ hm => absurd hm List.not_mem_nil,
      fun _ _ hstmt => absurd hstmt (by simp [Vars.init, Synthesizer.Registry.new])⟩

end

def noDelete : FirewallConfig := ⟨true, true, false, false, false⟩

def deleteEnv (multiplexMode : Bool) : Env :=
  { plainEnv multiplexMode with
    parseSQL := fun query =>
      if query = ascii "DELETE FROM t" then some ⟨[some (.deleteStmt none none [])]⟩ else none }

def guarded (type : Byte) (payload : Bytes) : Input :=
  ⟨⟨noDelete, true, false⟩, 0, ⟨type, payload⟩⟩

def parseOf (query : String) : Input := guarded msgParse ([0] ++ ascii query ++ [0, 0, 0])

instance (i : Input) (s : Heard) : Decidable (Clear (deleteEnv false) i s) :=
  decidable_of_iff (i.msg.type = msgSync → ∀ m ∈ sinceSync s.heard, m.type = msgParse →
      passes (deleteEnv false) i.cfg.firewall (parseParseMessage m.payload).2 = true)
    ⟨fun h => ⟨fun _ => h, fun hmux => absurd hmux (by simp [deleteEnv, plainEnv])⟩,
      fun h => h.batch rfl⟩

end PgMux.Mediation
