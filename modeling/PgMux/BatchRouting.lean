import PgMux.Results

/-!
# The route of a batch

Each Parse of a batch overwrites the route of the batch, and each Bind may only raise it. The
machine keeps the messages that the client has still to send, the session's writer connection and
the requests that were written. A batch is forwarded if everything goes to one writer connection.
-/

namespace PgMux.BatchRouting

open Effects Protocol Relay
open Pools (Conn)
open Router hiding Env

/-! ## Messages -/

def parseRoute (env : Env) (s : Session) (i : Input) : Option Route :=
  if i.msg.type = msgParse then
    some (routeLocked env.toEnv s i.now (parseParseMessage i.msg.payload).2) else none

def bindRoute (s : Session) (i : Input) : Option Route :=
  if i.msg.type = msgBind then some (s.statementRoute (parseBindMessage i.msg.payload).2) else none

def writes (env : Env) (s : Session) (i : Input) : Bool :=
  parseRoute env s i == some .writer || bindRoute s i == some .writer

def noteSession (env : Env) (s : Session) (i : Input) : Session :=
  if i.msg.type = msgParse then
    (registerStatement env.toEnv s i.now (parseParseMessage i.msg.payload).1
      (parseParseMessage i.msg.payload).2).2
  else if i.msg.type = msgClose ∧ (parseCloseMessage i.msg.payload).1 = kindStatement then
    s.closeStatement (parseCloseMessage i.msg.payload).2
  else s

def anyWrite (env : Env) (s : Session) : List Input → Bool
  | [] => false
  | i :: batch => writes env s i || anyWrite env (noteSession env s i) batch

def anyRead (env : Env) (s : Session) : List Input → Bool
  | [] => false
  | i :: batch => parseRoute env s i == some .reader || anyRead env (noteSession env s i) batch

def writeLast (env : Env) (s : Session) : List Input → Bool
  | [] => false
  | i :: batch =>
    writeLast env (noteSession env s i) batch ||
      (writes env s i && !anyRead env (noteSession env s i) batch)

def noted (env : Env) (v : Vars) (i : Input) : Vars :=
  if i.msg.type = msgParse then
    let stmt := parseParseMessage i.msg.payload
    let r := registerStatement env.toEnv v.session i.now stmt.1 stmt.2
    buffer i.msg (noteStatement env stmt.2 r.1 { v with session := r.2 })
  else if i.msg.type = msgBind then buffer i.msg (raiseRoute (parseBindMessage i.msg.payload).2 v)
  else if i.msg.type = msgClose then buffer i.msg (noteClose env i.msg.payload v)
  else buffer i.msg v

variable {batch : List Input} {v : Vars}

section

variable {env : Env}

theorem dispatch_eq (hproxy : env.multiplexMode = false) {i : Input} (hi : inBatch i.msg)
    (v : Vars) : dispatch env i v = pure (.next (noted env v i)) := by
  have hne : env.multiplexMode ≠ true := by simp [hproxy]
  simp only [inBatch, List.mem_cons, List.not_mem_nil, or_false] at hi
  unfold noted
  obtain h | h | h | h | h := hi
  · rw [dispatch_parse h, handleParse, if_neg hne, if_pos h]
  · have hparse : i.msg.type ≠ msgParse := by rw [h]; decide
    rw [dispatch_bind h, handleBind, if_neg hne, if_neg hparse, if_pos h]
  · rw [dispatch, h]
    simp only [hproxy]
    rfl
  · have hdescribe : handleDescribe env i v = pure (.next (buffer i.msg v)) := by
      rw [handleDescribe, if_neg hne]
    rw [dispatch_describe h, hdescribe, h]
    rfl
  · rw [dispatch_close h, handleClose, if_neg hne, h]
    rfl

theorem noted_session (v : Vars) (i : Input) :
    (noted env v i).session = noteSession env v.session i := by
  unfold noted noteSession
  split
  · rfl
  split
  · rename_i hbind
    have hclose : i.msg.type ≠ msgClose := by rw [hbind]; decide
    rw [if_neg fun h => hclose h.1]
    unfold raiseRoute
    split
    · rfl
    · rfl
  split
  · rename_i hclose
    simp only [hclose, true_and, noteClose]
    split
    · rfl
    · rfl
  · rename_i hclose
    rw [if_neg fun h => hclose h.1]
    rfl

theorem noted_frame (v : Vars) (i : Input) :
    (noted env v i).boundWriter = v.boundWriter ∧ (noted env v i).extBuf = v.extBuf ++ [i.msg] := by
  unfold noted
  split
  · exact ⟨rfl, rfl⟩
  split
  · unfold raiseRoute
    split
    · exact ⟨rfl, rfl⟩
    · exact ⟨rfl, rfl⟩
  split
  · unfold noteClose
    dsimp only
    split
    · exact ⟨rfl, rfl⟩
    · exact ⟨rfl, rfl⟩
  · exact ⟨rfl, rfl⟩

theorem noteSession_inTransaction (s : Session) (i : Input) :
    (noteSession env s i).inTransaction = s.inTransaction := by
  unfold noteSession
  split
  · rfl
  split
  · rfl
  · rfl

theorem noted_extRoute (hin : v.session.inTransaction = false) (hbound : v.boundWriter = none)
    (i : Input) :
    (noted env v i).extRoute =
      if writes env v.session i then .writer
      else if parseRoute env v.session i = some .reader then .reader
      else v.extRoute := by
  unfold noted writes parseRoute bindRoute
  by_cases hparse : i.msg.type = msgParse
  · have hbind : i.msg.type ≠ msgBind := by rw [hparse]; decide
    simp only [if_pos hparse, if_neg hbind, buffer, noteStatement, registerStatement, hin, hbound]
    cases routeLocked env.toEnv v.session i.now (parseParseMessage i.msg.payload).2 <;> rfl
  simp only [if_neg hparse]
  by_cases hbind : i.msg.type = msgBind
  · simp only [if_pos hbind, buffer, raiseRoute]
    cases v.session.statementRoute (parseBindMessage i.msg.payload).2 <;> rfl
  simp only [if_neg hbind]
  split
  · unfold noteClose
    dsimp only
    split
    · rfl
    · rfl
  · rfl

theorem parseRoute_of_writes {s : Session} {i : Input} (h : writes env s i = true) :
    parseRoute env s i ≠ some .reader := by
  intro hread
  have hparse : i.msg.type = msgParse := by
    by_contra hne
    simp [parseRoute, hne] at hread
  have hbind : i.msg.type ≠ msgBind := by rw [hparse]; decide
  simp [writes, hread, bindRoute, hbind] at h

theorem extRoute_foldl (batch : List Input) (hin : v.session.inTransaction = false)
    (hbound : v.boundWriter = none) :
    (batch.foldl (noted env) v).extRoute = .writer ↔
      writeLast env v.session batch = true ∨ anyRead env v.session batch = false ∧
      v.extRoute = .writer := by
  induction batch generalizing v with
  | nil => simp [writeLast, anyRead]
  | cons i batch ih =>
    have hin' : (noted env v i).session.inTransaction = false := by
      rw [noted_session, noteSession_inTransaction, hin]
    rw [List.foldl_cons, ih hin' ((noted_frame v i).1.trans hbound), noted_session,
      noted_extRoute hin hbound, writeLast, anyRead]
    cases hwrites : writes env v.session i with
    | true =>
      have hnotRead := parseRoute_of_writes hwrites
      simp only [beq_eq_false_iff_ne.mpr hnotRead, Bool.false_or, if_true, and_true, Bool.true_and,
        Bool.or_eq_true, Bool.not_eq_true']
      constructor
      · exact .inl
      · rintro (h | h)
        · exact h
        · exact .inr h.1
    | false =>
      by_cases hread : parseRoute env v.session i = some .reader
      · simp [hread]
      · simp [hread]

theorem writeLast_of_anyWrite {s : Session} (hwrite : anyWrite env s batch = true)
    (hread : anyRead env s batch = false) : writeLast env s batch = true := by
  induction batch generalizing s with
  | nil => simp [anyWrite] at hwrite
  | cons i batch ih =>
    simp only [anyRead, Bool.or_eq_false_iff] at hread
    simp only [anyWrite, Bool.or_eq_true] at hwrite
    simp only [writeLast, Bool.or_eq_true, Bool.and_eq_true, hread.2]
    obtain h | h := hwrite
    · exact .inr ⟨h, rfl⟩
    · exact .inl (ih h hread.2)

theorem foldl_noted_session (batch : List Input) (v : Vars) :
    (batch.foldl (noted env) v).session.inTransaction = v.session.inTransaction ∧
      (batch.foldl (noted env) v).boundWriter = v.boundWriter ∧
      (batch.foldl (noted env) v).extBuf = v.extBuf ++ batch.map (·.msg) := by
  induction batch generalizing v with
  | nil => exact ⟨rfl, rfl, by simp⟩
  | cons i batch ih =>
    obtain ⟨hin, hbound, hbuf⟩ := ih (noted env v i)
    rw [noted_session, noteSession_inTransaction] at hin
    rw [(noted_frame v i).1] at hbound
    exact ⟨hin, hbound, by simpa [(noted_frame v i).2] using hbuf⟩

/-- The condition: a transaction, a bound writer, or a write behind the last Parse of a reader
statement. -/
def Kept (env : Env) (v : Vars) (batch : List Input) : Prop :=
  v.session.inTransaction = true ∨ v.boundWriter.isSome = true ∨
    writeLast env v.session batch = true

theorem readsOnly_foldl (hwrite : anyWrite env v.session batch = true) :
    readsOnly (batch.foldl (noted env) v) = false ↔ Kept env v batch := by
  obtain ⟨hin, hbound, _⟩ := @foldl_noted_session env batch v
  unfold readsOnly Kept
  rw [hin, hbound]
  cases htx : v.session.inTransaction with
  | true => simp
  | false =>
    cases hb : v.boundWriter with
    | some c => simp
    | none =>
      have hroute := @extRoute_foldl v env batch htx hb
      cases hread : anyRead env v.session batch with
      | true =>
        rw [hread] at hroute
        cases hr : (batch.foldl (noted env) v).extRoute <;> simpa [hr] using hroute
      | false =>
        have hlast := writeLast_of_anyWrite hwrite hread
        have hwriter := hroute.mpr (.inl hlast)
        simp [hwriter, hlast]

end

/-! ## Runs -/

structure Front where
  inbox : List Input
  writer : Option Conn
  sent : List Request

def next : (o : Op) → Front → Ans o → List Front
  | .recv _, s, i => if i = s.inbox.head? then [{ s with inbox := s.inbox.tail }] else []
  | .allow, s, admitted => if admitted then [s] else []
  | .acquireWriter, s, c => [{ s with writer := c }]
  | .send _ r, s, true => [{ s with sent := s.sent ++ [r] }]
  | _, s, _ => [s]

abbrev step : Machine Ans Front := .ofList next

/-- Every request goes to the writer connection, and behind the Sync `r` is all that was written. -/
def ToWriter (r : Request) : Op → Front → Prop
  | .send c _, s => s.writer = some c
  | .recv _, s => s.inbox = [] → s.sent = [r]
  | _, _ => True

section

variable {env : Env} {r : Request} {s : Front}

theorem safe_quiet {α : Type} {p : Run α} (hp : p.All (Sends [] [])) (s : Front) :
    Safe step (ToWriter r) p (fun _ t => t.inbox = s.inbox ∧ t.sent = s.sent) s := by
  refine hp.safe (P := fun t : Front => t.inbox = s.inbox ∧ t.sent = s.sent) ?_ ⟨rfl, rfl⟩
  rintro o u ho hu
  refine ⟨?_, fun ans t ht => ?_⟩
  · cases o with
    | recv v | leave v => exact ho.elim
    | send c r => exact absurd ho List.not_mem_nil
    | _ => trivial
  · cases o with
    | recv v | leave v => exact ho.elim
    | send c r | acquireReader l => exact absurd ho List.not_mem_nil
    | allow => exact (mem_guard.mp ht).2 ▸ hu
    | _ => exact List.mem_singleton.mp ht ▸ hu

theorem safe_exchange {c : Conn} (hwriter : s.writer = some c) :
    Safe step (ToWriter r) (exchange c r)
    (fun ok t => ok = true → t.inbox = s.inbox ∧ t.sent = s.sent ++ [r]) s := by
  refine safe_bind.mpr ⟨hwriter, fun ok t ht => ?_⟩
  cases ok with
  | false => simp
  | true =>
    obtain rfl : t = _ := List.mem_singleton.mp ht
    exact ⟨trivial, fun _ u hu _ => List.mem_singleton.mp hu ▸ ⟨rfl, rfl⟩⟩

theorem safe_withWriter {v : Vars} {use : Pools.Pool → Conn → Bool → Run (Flow Vars)}
    {Q : Flow Vars → Front → Prop} (hv : s.writer = v.boundWriter) (hstop : ∀ t, Q (.stop v) t)
    (huse : ∀ p c acquired t, t.writer = some c → t.inbox = s.inbox → t.sent = s.sent →
      Safe step (ToWriter r) (use p c acquired) Q t) :
    Safe step (ToWriter r) (withWriter v use) Q s := by
  refine safe_bind.mpr ⟨trivial, fun p t ht => ?_⟩
  obtain rfl : t = s := List.mem_singleton.mp ht
  cases hb : v.boundWriter with
  | some c => exact huse p c false t (hv.trans hb) rfl rfl
  | none =>
    refine safe_bind.mpr (safe_bind.mpr ⟨trivial, fun c u hu => ?_⟩)
    obtain rfl : u = _ := List.mem_singleton.mp hu
    cases c with
    | none => exact (safe_quiet (all_sendError _) _).bind fun _ w _ => hstop w
    | some c => exact huse p c true _ rfl rfl rfl

theorem safe_writeExtended (synthesized : Bool) {v : Vars} (hv : s.writer = v.boundWriter) :
    Safe step (ToWriter r) (writeExtended synthesized r v)
      (Flow.Post (fun _ t => t.inbox = s.inbox ∧ t.sent = s.sent ++ [r]) fun _ _ => True) s := by
  refine safe_withWriter hv (fun _ => trivial) fun p c acquired t hwriter hinbox hsent => ?_
  refine (safe_exchange hwriter).bind fun ok u hu => ?_
  rw [hinbox, hsent] at hu
  cases ok with
  | true =>
    obtain ⟨hinbox, hsent⟩ := hu rfl
    refine (safe_quiet (all_settle _ _ _ _ _ _ _ _) u).mono fun r w hw => ?_
    cases r with
    | next v' => exact ⟨hw.1.trans hinbox, hw.2.trans hsent⟩
    | stop v' => trivial
  | false =>
    refine ((safe_quiet (all_dropWriter acquired c p v) u).returns
      (returns_dropWriter acquired c p v (R := fun _ => False))).mono fun r w hw => ?_
    cases r with
    | next v' => exact hw.2.elim
    | stop v' => trivial

inductive Progress (env : Env) (v₀ : Vars) (batch : List Input) (sync : Input) (v : Vars)
    (t : Front) : Prop where
  | within (done todo : List Input) (hbatch : batch = done ++ todo)
      (ht : t = ⟨todo ++ [sync], v₀.boundWriter, []⟩) (hv : v = done.foldl (noted env) v₀)
  | behind (hinbox : t.inbox = [])
      (hsent : t.sent = [.batch (v₀.extBuf ++ batch.map (·.msg)) sync.msg])

theorem handleMessage_eq (hproxy : env.multiplexMode = false) {i : Input} (hi : inBatch i.msg)
    (v : Vars) :
    handleMessage env i v = (do
      if ← allow then pure (.next (noted env v i))
      else
        sendError .tooManyRequests
        sendReadyForQuery false
        return .next v) := by
  rw [handleMessage, if_neg (not_terminate_of_inBatch hi), dispatch_eq hproxy hi]

variable {sync : Input}

theorem handleMessage_sync (hproxy : env.multiplexMode = false) (hsync : sync.msg.type = msgSync)
    (v : Vars) :
    handleMessage env sync v = (do
      if ← allow then return finishBatch (← executeBatch env sync.msg v)
      else
        sendError .tooManyRequests
        sendReadyForQuery false
        return .next v) := by
  have hterm : sync.msg.type ≠ msgTerminate := by rw [hsync]; decide
  have hne : env.multiplexMode ≠ true := by simp [hproxy]
  rw [handleMessage, if_neg hterm, dispatch_sync hsync, handleSync, if_neg hne]

theorem safe_round {v₀ : Vars} (hproxy : env.multiplexMode = false)
    (hbatch : ∀ i ∈ batch, inBatch i.msg) (hsync : sync.msg.type = msgSync)
    (hreads : readsOnly (batch.foldl (noted env) v₀) = false) (v : Vars) (s : Front)
    (h : Progress env v₀ batch sync v s) :
    Safe step (ToWriter (.batch (v₀.extBuf ++ batch.map (·.msg)) sync.msg)) (round env v)
      (Flow.Post (Progress env v₀ batch sync) fun _ _ => True) s := by
  cases h with
  | behind hinbox hsent =>
    refine safe_bind.mpr ⟨fun _ => hsent, fun i t ht => ?_⟩
    obtain ⟨rfl, rfl⟩ := mem_guard.mp ht
    rw [hinbox]
    trivial
  | within done todo hsplit hs hv =>
    subst hs
    refine safe_bind.mpr ⟨fun h => by simp at h, fun i t ht => ?_⟩
    obtain ⟨rfl, rfl⟩ := mem_guard.mp ht
    cases todo with
    | nil =>
      rw [List.append_nil] at hsplit
      obtain ⟨_, hbound, hbuf⟩ := @foldl_noted_session env batch v₀
      rw [hsplit, ← hv] at hbound hbuf hreads
      change Safe step _ (handleMessage env sync v) _ _
      rw [handleMessage_sync hproxy hsync, executeBatch, hreads, hbuf, ← hsplit]
      refine safe_bind.mpr ⟨trivial, fun admitted t ht => ?_⟩
      obtain ⟨rfl, rfl⟩ := mem_guard.mp ht
      refine (safe_writeExtended false hbound.symm).bind fun r t ht => ?_
      cases r with
      | next v' => exact .behind ht.1 ht.2
      | stop v' => trivial
    | cons i todo =>
      change Safe step _ (handleMessage env i v) _ _
      rw [handleMessage_eq hproxy (hbatch i (by rw [hsplit]; simp))]
      refine safe_bind.mpr ⟨trivial, fun admitted t ht => ?_⟩
      obtain ⟨rfl, rfl⟩ := mem_guard.mp ht
      refine .within (done ++ [i]) todo (by rw [hsplit]; simp) rfl ?_
      rw [List.foldl_append, hv]
      rfl

/-- Some run through the batch and its Sync writes the batch. In every one, what is written goes to
the writer connection, and at the next read the whole batch has been written, once. -/
def Forwarded (env : Env) (v : Vars) (batch : List Input) (sync : Input) : Prop :=
  let start : Front := ⟨batch ++ [sync], v.boundWriter, []⟩
  let whole : Request := .batch (v.extBuf ++ batch.map (·.msg)) sync.msg
  (∃ n p t c, Reach step (relayLoop env n v) start p t ∧ p.head = some (.send c whole)) ∧
    ∀ n p t, Reach step (relayLoop env n v) start p t →
      (∀ c r, p.head = some (.send c r) → t.writer = some c) ∧
      ∀ v', p.head = some (.recv v') → t.inbox = [] → t.sent = [whole]

theorem reach_batch (hproxy : env.multiplexMode = false) (hbatch : ∀ i ∈ batch, inBatch i.msg)
    (rest : List Input) (n : Nat) (v : Vars) (writer : Option Conn) :
    Reach step (relayLoop env (batch.length + n) v) ⟨batch ++ rest, writer, []⟩
      (relayLoop env n (batch.foldl (noted env) v)) ⟨rest, writer, []⟩ := by
  induction batch generalizing v with
  | nil =>
    rw [List.length_nil, Nat.zero_add]
    exact .refl
  | cons i batch ih =>
    have hround : Reach step (round env v) ⟨i :: batch ++ rest, writer, []⟩
        (pure (.next (noted env v i)))
        ⟨batch ++ rest, writer, []⟩ := by
      refine .ask (some i) _ (mem_guard.mpr ⟨rfl, rfl⟩) ?_
      change Reach step (handleMessage env i v) _ _ _
      rw [handleMessage_eq hproxy (hbatch i List.mem_cons_self)]
      exact .ask true _ (List.mem_singleton.mpr rfl) .refl
    have htail := ih (fun j hj => hbatch j (List.mem_cons_of_mem i hj)) (noted env v i)
    rw [List.length_cons, Nat.add_right_comm]
    exact (hround.bind _).trans htail

theorem reach_sync {writer : Option Conn} {t : Front} {q : Run (Flow Vars)}
    (hproxy : env.multiplexMode = false) (hsync : sync.msg.type = msgSync)
    (h : Reach step (do return finishBatch (← executeBatch env sync.msg v)) ⟨[], writer, []⟩ q t) :
    Reach step (round env v) ⟨[sync], writer, []⟩ q t := by
  refine .ask (some sync) _ (mem_guard.mpr ⟨rfl, rfl⟩) ?_
  change Reach step (handleMessage env sync v) _ _ _
  rw [handleMessage_sync hproxy hsync]
  exact .ask true _ (List.mem_singleton.mpr rfl) h

theorem reach_writer (hproxy : env.multiplexMode = false) (hsync : sync.msg.type = msgSync)
    (hreads : readsOnly v = false) (writer : Option Conn) :
    ∃ c p t, p.head = some (.send c (.batch v.extBuf sync.msg)) ∧
      Reach step (round env v) ⟨[sync], writer, []⟩ p t := by
  have hstay : ∀ s : Front, s ∈ [s] := fun s => List.mem_singleton.mpr rfl
  have hwrite : ∃ c p t, p.head = some (.send c (.batch v.extBuf sync.msg)) ∧
      Reach step (executeBatch env sync.msg v) ⟨[], writer, []⟩ p t := by
    rw [executeBatch, if_neg (by simp [hreads]), writeExtended, withWriter]
    cases hbound : v.boundWriter with
    | some c => exact ⟨c, _, _, rfl, .ask 0 _ (hstay _) .refl⟩
    | none => exact ⟨0, _, _, rfl, .ask 0 _ (hstay _) (.ask (some 0) _ (hstay _) .refl)⟩
  obtain ⟨c, p, t, hp, hreach⟩ := hwrite
  exact ⟨c, _, t, Prog.head_bind _ hp, reach_sync hproxy hsync (hreach.bind _)⟩

theorem forwarded_of_readsOnly (hproxy : env.multiplexMode = false)
    (hbatch : ∀ i ∈ batch, inBatch i.msg) (hsync : sync.msg.type = msgSync)
    (hreads : readsOnly (batch.foldl (noted env) v) = false) : Forwarded env v batch sync := by
  obtain ⟨_, hbound, hbuf⟩ := @foldl_noted_session env batch v
  refine ⟨?_, fun n p t hr => ?_⟩
  · obtain ⟨c, p, t, hp, hreach⟩ := reach_writer hproxy hsync hreads v.boundWriter
    have hrun := (reach_batch hproxy hbatch [sync] 1 v v.boundWriter).trans (hreach.bind _)
    exact ⟨_, _, t, c, hrun, hbuf ▸ Prog.head_bind _ hp⟩
  · have hsafe := Safe.rounds (M := step) (Q := fun _ _ => True) n
      (fun v' s h => safe_round hproxy hbatch hsync hreads v' s h) (fun _ _ _ => trivial)
      (.within [] batch rfl rfl rfl)
    exact ⟨fun _ _ hp => hsafe.guarded hr hp, fun _ hp => hsafe.guarded hr hp⟩

theorem reach_reader (hproxy : env.multiplexMode = false) (hsync : sync.msg.type = msgSync)
    (hreads : readsOnly v = true) :
    ∃ p, p.head = some (.send 0 (.batch v.extBuf sync.msg)) ∧
      Reach step (round env v) ⟨[sync], none, []⟩ p ⟨[], none, []⟩ := by
  have hstay : ∀ s : Front, s ∈ [s] := fun s => List.mem_singleton.mpr rfl
  have hread : ∃ p, p.head = some (.send 0 (.batch v.extBuf sync.msg)) ∧
      Reach step (handleExtendedRead env v.extBuf sync.msg) ⟨[], none, []⟩ p ⟨[], none, []⟩ := by
    unfold handleExtendedRead
    generalize (if env.queryCache = true then batchKey v.extBuf else none) = key
    cases key with
    | none => exact ⟨_, rfl, .ask (some (0, 0)) _ (hstay _) .refl⟩
    | some key => exact ⟨_, rfl, .ask false _ (hstay _) (.ask (some (0, 0)) _ (hstay _) .refl)⟩
  obtain ⟨p, hp, hreach⟩ := hread
  have hsend : ∃ q, q.head = some (.send 0 (.batch v.extBuf sync.msg)) ∧
      Reach step (do return finishBatch (← executeBatch env sync.msg v))
        ⟨[], none, []⟩ q ⟨[], none, []⟩ := by
    rw [executeBatch, if_pos hreads]
    exact ⟨_, Prog.head_bind _ (Prog.head_bind _ hp), (hreach.bind _).bind _⟩
  obtain ⟨q, hq, hreach⟩ := hsend
  exact ⟨q, hq, reach_sync hproxy hsync hreach⟩

theorem readsOnly_of_forwarded (hproxy : env.multiplexMode = false)
    (hbatch : ∀ i ∈ batch, inBatch i.msg) (hsync : sync.msg.type = msgSync)
    (hforwarded : Forwarded env v batch sync) : readsOnly (batch.foldl (noted env) v) = false := by
  rw [← Bool.not_eq_true]
  intro hreads
  obtain ⟨_, hbound, _⟩ := @foldl_noted_session env batch v
  have hnone : v.boundWriter = none := by
    rw [← hbound]
    simp only [readsOnly, Bool.and_eq_true, Option.isNone_iff_eq_none] at hreads
    exact hreads.2
  obtain ⟨p, hp, hreach⟩ := reach_reader hproxy hsync hreads
  have hrun := (reach_batch hproxy hbatch [sync] 1 v v.boundWriter).trans (hnone ▸ hreach.bind _)
  have hwriter : v.boundWriter = some 0 := (hforwarded.2 _ _ _ hrun).1 0 _ (Prog.head_bind _ hp)
  simp [hnone] at hwriter

/-- A batch with a write is forwarded to the writer, whole and never to a reader, if and only if it
is kept there. -/
theorem forwarded_iff {v : Vars} {batch : List Input} {sync : Input}
    (hproxy : env.multiplexMode = false) (hbatch : ∀ i ∈ batch, inBatch i.msg)
    (hsync : sync.msg.type = msgSync) (hwrite : anyWrite env v.session batch = true) :
    Forwarded env v batch sync ↔ Kept env v batch := by
  rw [← readsOnly_foldl hwrite]
  exact ⟨readsOnly_of_forwarded hproxy hbatch hsync, forwarded_of_readsOnly hproxy hbatch hsync⟩

end

def insertEnv : Env :=
  let classify := fun query : Bytes => if query.head? = some 73 then QueryType.write else .read
  { plainEnv false with classify := classify, classifyAST := classify }

def parseInput (query : String) : Input := plainInput msgParse ([0] ++ ascii query ++ [0, 0, 0])

theorem insert_then_select_to_reader :
    anyWrite insertEnv (Session.new 0 false false)
        [parseInput "INSERT INTO t VALUES (1)", parseInput "SELECT 1"] = true ∧
      ∃ p t, Reach step (relayLoop insertEnv 3 (Vars.init (Session.new 0 false false)))
          ⟨[parseInput "INSERT INTO t VALUES (1)",
            parseInput "SELECT 1"] ++ [plainInput msgSync []], none, []⟩ p t ∧
        p.head = some (.send 0 (.batch [(parseInput "INSERT INTO t VALUES (1)").msg,
          (parseInput "SELECT 1").msg] ⟨msgSync, []⟩)) ∧ t.writer = none := by
  have hmsgs : ∀ i ∈ [parseInput "INSERT INTO t VALUES (1)", parseInput "SELECT 1"],
      inBatch i.msg := by
    decide +kernel
  obtain ⟨p, hp, hreach⟩ := @reach_reader
    ([parseInput "INSERT INTO t VALUES (1)", parseInput "SELECT 1"].foldl (noted insertEnv)
      (Vars.init (Session.new 0 false false))) insertEnv (plainInput msgSync []) rfl rfl
        (by decide +kernel)
  have hrun := (reach_batch rfl hmsgs [plainInput msgSync []] 1
    (Vars.init (Session.new 0 false false)) none).trans (hreach.bind _)
  exact ⟨by decide +kernel, _, _, hrun, Prog.head_bind _ hp, rfl⟩

theorem forwarded_select_insert :
    Forwarded insertEnv (Vars.init (Session.new 0 false false))
      [parseInput "SELECT 1", parseInput "INSERT INTO t VALUES (1)"] (plainInput msgSync []) :=
  (forwarded_iff rfl (by decide +kernel) rfl (by decide +kernel)).mpr
    (.inr (.inr (by decide +kernel)))

end PgMux.BatchRouting
