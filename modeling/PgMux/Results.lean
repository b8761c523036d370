import PgMux.ReadAfterWrite
import PgMux.Requests

/-!
# What a message does to the record

Rules for what the next round of the loop starts from, whatever the operations answer: the writer
path changes the bound writer, the dirty flag and two fields of the session and nothing else.
`Behind` is what a message does to the session's clock and to the route of the batch.
-/

namespace PgMux.Relay

open Effects PgQuery Protocol
open ReadAfterWrite (passes_routeQueryLocked)
open Router hiding Env
open Pools (Conn Pool)

structure Unmoved (v v' : Vars) : Prop where
  causal : v'.session.causalConsistency = v.session.causalConsistency
  delay : v'.session.readAfterWriteDelay = v.session.readAfterWriteDelay
  time : v'.session.lastWriteTime = v.session.lastWriteTime
  route : v'.extRoute = v.extRoute

theorem Unmoved.refl (v : Vars) : Unmoved v v := ⟨rfl, rfl, rfl, rfl⟩

section

variable {env : Env} {R : Vars → Prop} {v v' : Vars} {i : Input}

theorem returns_goOn (p : Run Bool) (h : R v) :
    (do if ← p then return .next v else return .stop v : Run (Flow Vars)).Returns
      (Flow.Next R) := by
  refine .of_bind p fun ok => ?_
  cases ok with
  | true => exact h
  | false => trivial

theorem returns_withWriter {use : Pool → Conn → Bool → Run (Flow Vars)}
    (huse : ∀ p c acquired, (use p c acquired).Returns (Flow.Next R)) :
    (withWriter v use).Returns (Flow.Next R) := by
  refine .of_bind _ fun p => .of_bind _ fun c => ?_
  cases c with
  | none => exact .of_bind _ fun _ => trivial
  | some c => exact huse p c.1 c.2

theorem returns_settle (binds ends acquired dirty dirtyAfter : Bool) (c : Conn) (p : Pool)
    (hR : ∀ b q d, R { v with boundWriter := b, boundWriterPool := q, connDirty := d }) :
    (settle binds ends acquired dirty dirtyAfter c p v).Returns (Flow.Next R) := by
  unfold settle
  split
  · exact hR _ _ _
  split
  · exact returns_goOn _ (hR _ _ _)
  split
  · exact returns_goOn _ (hR _ _ _)
  · exact hR v.boundWriter v.boundWriterPool v.connDirty

theorem returns_handleWriteQuery (cfg : Config) (c : Conn) (msg : Message) (query : Bytes)
    (qtype : QueryType) (session : Session) :
    (handleWriteQuery env cfg c msg query qtype session).Returns fun session' =>
      ∃ lsn, session' = { session with lastWriteLSN := lsn } := by
  refine .of_bind _ fun ok => ?_
  cases ok with
  | false => exact ⟨session.lastWriteLSN, rfl⟩
  | true =>
    refine .of_bind _ fun lsn => .of_bind _ fun _ => ?_
    cases lsn with
    | none => exact ⟨session.lastWriteLSN, rfl⟩
    | some lsn => exact ⟨lsn, rfl⟩

theorem returns_writeSimple (i : Input) (query : Bytes) (pq : Option ParseResult)
    (routed : RoutedTx)
    (hR : ∀ lsn b q d, R { v with
      session := { v.session with lastWriteLSN := lsn }
      boundWriter := b, boundWriterPool := q, connDirty := d }) :
    (writeSimple env i query pq routed v).Returns (Flow.Next R) := by
  refine returns_withWriter fun p c acquired => ?_
  refine (returns_handleWriteQuery _ c _ _ _ _).bind fun session' h => ?_
  obtain ⟨lsn, rfl⟩ := h
  exact returns_settle _ _ _ _ _ c p (hR lsn)

theorem returns_dropWriter (acquired : Bool) (c : Conn) (p : Pool) (v : Vars) :
    (dropWriter acquired c p v).Returns (Flow.Next R) := by
  unfold dropWriter
  split
  · exact .of_bind _ fun _ => trivial
  split
  · trivial
  · refine .of_bind _ fun ok => ?_
    cases ok <;> trivial

theorem setInTransaction_cases (session : Session) (starts ends : Bool) :
    ∃ inTx, (let session := if starts then session.setInTransaction true else session
      if ends then session.setInTransaction false else session) =
        session.setInTransaction inTx := by
  cases ends with
  | true => cases starts <;> exact ⟨false, rfl⟩
  | false =>
    cases starts with
    | true => exact ⟨true, rfl⟩
    | false => exact ⟨session.inTransaction, rfl⟩

theorem returns_writeExtended (synthesized : Bool) (r : Request)
    (hR : ∀ inTx b q d, R { v with
      session := v.session.setInTransaction inTx
      boundWriter := b, boundWriterPool := q, connDirty := d }) :
    (writeExtended synthesized r v).Returns (Flow.Next R) := by
  refine returns_withWriter fun p c acquired => .of_bind _ fun ok => ?_
  cases ok with
  | false => exact returns_dropWriter acquired c p v
  | true =>
    obtain ⟨inTx, hinTx⟩ := setInTransaction_cases v.session v.extTxStart v.extTxEnd
    dsimp only at hinTx
    refine returns_settle _ _ _ _ _ c p fun b q d => ?_
    rw [hinTx]
    exact hR inTx b q d

theorem returns_executeSynthesizedQuery (query : Bytes) (hv : R v)
    (hR : ∀ inTx b q d, R { v with
      session := v.session.setInTransaction inTx
      boundWriter := b, boundWriterPool := q, connDirty := d }) :
    (executeSynthesizedQuery query v).Returns (Flow.Next R) := by
  unfold executeSynthesizedQuery
  split
  · exact returns_goOn _ hv
  · exact returns_writeExtended _ _ hR

theorem returns_executeBatch (sync : Message) (hv : R v)
    (hR : ∀ inTx b q d, R { v with
      session := v.session.setInTransaction inTx
      boundWriter := b, boundWriterPool := q, connDirty := d }) :
    (executeBatch env sync v).Returns (Flow.Next R) := by
  unfold executeBatch
  split
  · exact returns_goOn _ hv
  · exact returns_writeExtended _ _ hR

structure Behind (env : Env) (i : Input) (v v' : Vars) : Prop where
  causal : v'.session.causalConsistency = v.session.causalConsistency
  delay : v'.session.readAfterWriteDelay = v.session.readAfterWriteDelay
  time : v'.session.lastWriteTime = if i.msg.type = msgQuery ∧ blocked env i = false then
    (routeWithTxState env.toEnv v.session i.now (extractQueryText i.msg.payload)).2.lastWriteTime
    else v.session.lastWriteTime
  route : v'.extRoute = .reader → i.msg.type = msgSync ∨
    (if i.msg.type = msgParse then ∃ query, routeLocked env.toEnv v.session i.now query = .reader
      else v.extRoute = .reader)

theorem Unmoved.behind (h : Unmoved v v') (hquery : i.msg.type ≠ msgQuery)
    (hparse : i.msg.type ≠ msgParse) : Behind env i v v' := by
  refine ⟨h.causal, h.delay, ?_, fun hr => .inr ?_⟩
  · rw [if_neg fun hq => hquery hq.1]
    exact h.time
  · rw [if_neg hparse]
    exact h.route ▸ hr

theorem returns_handleQuery (hquery : i.msg.type = msgQuery) (v : Vars) :
    (handleQuery env i v).Returns (Flow.Next (Behind env i v)) := by
  have hparse : i.msg.type ≠ msgParse := by rw [hquery]; decide
  unfold handleQuery
  change (if blocked env i then _ else _ : Run (Flow Vars)).Returns _
  cases hblocked : blocked env i with
  | true =>
    refine .of_bind _ fun _ => .of_bind _ fun _ => ⟨rfl, rfl, ?_, fun hr => .inr ?_⟩
    · simp [hblocked]
    · rwa [if_neg hparse]
  | false =>
    have hpass :=
      @passes_routeQueryLocked env.toEnv v.session i.now (extractQueryText i.msg.payload)
    have hbehind : ∀ v', Unmoved
        { v with session := (routeWithTxState env.toEnv v.session i.now
          (extractQueryText i.msg.payload)).2 } v' → Behind env i v v' := by
      intro v' h
      refine ⟨h.causal.trans hpass.causal, h.delay.trans hpass.delay, ?_, fun hr => .inr ?_⟩
      · rw [if_pos ⟨hquery, hblocked⟩]
        exact h.time
      · rw [if_neg hparse]
        exact h.route ▸ hr
    unfold executeQuery
    dsimp only
    cases (routeWithTxState env.toEnv v.session i.now (extractQueryText i.msg.payload)).1.route with
    | writer => exact returns_writeSimple i _ _ _ fun _ _ _ _ => hbehind _ ⟨rfl, rfl, rfl, rfl⟩
    | reader => exact returns_goOn _ (hbehind _ (.refl _))

theorem returns_report (m : ClientMsg) (h : R v) : (report m v).Returns (Flow.Next R) :=
  returns_goOn _ h

theorem behind_parse (hparse : i.msg.type = msgParse) (v : Vars) (name query : Bytes)
    (hsession : v'.session = (registerStatement env.toEnv v.session i.now name query).2)
    (hroute : v'.extRoute = .reader → (registerStatement env.toEnv v.session i.now name query).1 =
      .reader) : Behind env i v v' := by
  have hquery : i.msg.type ≠ msgQuery := by rw [hparse]; decide
  refine ⟨by rw [hsession]; rfl, by rw [hsession]; rfl, ?_, fun hr => .inr ?_⟩
  · rw [if_neg fun hq => hquery hq.1, hsession]
    rfl
  · rw [if_pos hparse]
    exact ⟨query, hroute hr⟩

theorem noteStatement_reader {query : Bytes} {route : Route}
    (h : (noteStatement env query route v).extRoute = .reader) : route = .reader := by
  unfold noteStatement at h
  dsimp only at h
  split at h
  · exact nomatch h
  · exact h

theorem returns_handleParse (hparse : i.msg.type = msgParse) (v : Vars) :
    (handleParse env i v).Returns (Flow.Next (Behind env i v)) := by
  unfold handleParse
  split
  · exact returns_report _ (behind_parse hparse v _ _ rfl noteStatement_reader)
  · exact behind_parse hparse v _ _ rfl
      (@noteStatement_reader env _ (parseParseMessage i.msg.payload).2 _)

theorem behind_bind (hbind : i.msg.type = msgBind) (name : Bytes) (v : Vars)
    (hsession : v'.session = v.session) (hroute : v'.extRoute = (raiseRoute name v).extRoute) :
    Behind env i v v' := by
  have hquery : i.msg.type ≠ msgQuery := by rw [hbind]; decide
  have hparse : i.msg.type ≠ msgParse := by rw [hbind]; decide
  refine ⟨by rw [hsession], by rw [hsession], ?_, fun hr => .inr ?_⟩
  · rw [if_neg fun hq => hquery hq.1, hsession]
  · rw [if_neg hparse]
    rw [hroute, raiseRoute] at hr
    split at hr
    · exact nomatch hr
    · exact hr

theorem raiseRoute_session (name : Bytes) (v : Vars) : (raiseRoute name v).session = v.session := by
  unfold raiseRoute
  split
  · rfl
  · rfl

theorem returns_handleBind (hbind : i.msg.type = msgBind) (v : Vars) :
    (handleBind env i v).Returns (Flow.Next (Behind env i v)) := by
  unfold handleBind
  split
  · split
    · exact .of_bind _ fun _ => trivial
    · exact returns_report _ (behind_bind hbind _ v (raiseRoute_session _ v) rfl)
  · exact behind_bind hbind _ v (raiseRoute_session _ v) rfl

theorem unmoved_noteClose (payload : Bytes) (v : Vars) : Unmoved v (noteClose env payload v) := by
  unfold noteClose
  dsimp only
  split
  · exact ⟨rfl, rfl, rfl, rfl⟩
  · exact .refl v

theorem returns_handleClose (i : Input) (v : Vars) :
    (handleClose env i v).Returns (Flow.Next (Unmoved v)) := by
  have h := @unmoved_noteClose env i.msg.payload v
  unfold handleClose
  dsimp only
  split
  · exact returns_report _ h
  · exact ⟨h.causal, h.delay, h.time, h.route⟩

theorem returns_handleDescribe (i : Input) (v : Vars) :
    (handleDescribe env i v).Returns (Flow.Next (Unmoved v)) := by
  unfold handleDescribe
  split
  · exact returns_goOn _ (.refl v)
  · exact (⟨rfl, rfl, rfl, rfl⟩ : Unmoved v (buffer i.msg v))

theorem behind_sync (hsync : i.msg.type = msgSync) (h : Unmoved v v') :
    Behind env i v (endBatch v') := by
  have hquery : i.msg.type ≠ msgQuery := by rw [hsync]; decide
  refine ⟨h.causal, h.delay, ?_, fun _ => .inl hsync⟩
  rw [if_neg fun hq => hquery hq.1]
  exact h.time

theorem returns_finishBatch {S : Vars → Prop} {p : Run (Flow Vars)} (hp : p.Returns (Flow.Next S))
    (hR : ∀ v, S v → R (endBatch v)) : (do return finishBatch (← p)).Returns (Flow.Next R) := by
  refine hp.bind fun r h => ?_
  cases r with
  | next v' => exact hR v' h
  | stop v' => trivial

theorem returns_handleSync {S : Vars → Prop} (i : Input) (hv : S v) (hS : ∀ inTx b q d, S { v with
      session := v.session.setInTransaction inTx
      boundWriter := b, boundWriterPool := q, connDirty := d })
    (hR : ∀ v, S v → R (endBatch v)) : (handleSync env i v).Returns (Flow.Next R) := by
  unfold handleSync
  split
  · split
    · split
      · exact .of_bind _ fun _ => .of_bind _ fun _ => hR v hv
      · exact returns_finishBatch (returns_executeSynthesizedQuery _ hv hS) hR
    · exact .of_bind _ fun _ => hR v hv
  · exact returns_finishBatch (returns_executeBatch _ hv hS) hR

theorem returns_dispatch (i : Input) (v : Vars) :
    (dispatch env i v).Returns (Flow.Next (Behind env i v)) := by
  by_cases hquery : i.msg.type = msgQuery
  · exact dispatch_query hquery ▸ returns_handleQuery hquery v
  by_cases hparse : i.msg.type = msgParse
  · exact dispatch_parse hparse ▸ returns_handleParse hparse v
  have hunmoved : ∀ v', Unmoved v v' → Behind env i v v' := fun v' h => h.behind hquery hparse
  by_cases hbind : i.msg.type = msgBind
  · exact dispatch_bind hbind ▸ returns_handleBind hbind v
  by_cases hclose : i.msg.type = msgClose
  · exact dispatch_close hclose ▸ (returns_handleClose i v).mono (Flow.Next.mono hunmoved)
  by_cases hdescribe : i.msg.type = msgDescribe
  · exact dispatch_describe hdescribe ▸ (returns_handleDescribe i v).mono (Flow.Next.mono hunmoved)
  by_cases hsync : i.msg.type = msgSync
  · exact dispatch_sync hsync ▸ returns_handleSync (S := Unmoved v) i (.refl v)
      (fun _ _ _ _ => ⟨rfl, rfl, rfl, rfl⟩)
      fun _ => behind_sync hsync
  rw [dispatch_other hquery hparse hbind hclose hdescribe hsync]
  refine hunmoved _ ?_
  cases env.multiplexMode with
  | true => exact .refl v
  | false => exact ⟨rfl, rfl, rfl, rfl⟩

end

end PgMux.Relay
