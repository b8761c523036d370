import PgMux.Requests

/-!
# Invariants of the loop

A message keeps a property of the loop heads if its exchanges keep it. Only a query, a batch and a
Describe have exchanges.
-/

namespace PgMux.Relay

open Effects Protocol
open Router hiding Env

/-- The records agree on what the writer path goes by. -/
structure Alike (v v' : Vars) : Prop where
  boundWriter : v'.boundWriter = v.boundWriter
  boundWriterPool : v'.boundWriterPool = v.boundWriterPool
  connDirty : v'.connDirty = v.connDirty
  inTransaction : v'.session.inTransaction = v.session.inTransaction

namespace Alike

theorem refl (v : Vars) : Alike v v := ⟨rfl, rfl, rfl, rfl⟩

theorem trans {v v' v'' : Vars} (h : Alike v v') (h' : Alike v' v'') : Alike v v'' where
  boundWriter := h'.boundWriter.trans h.boundWriter
  boundWriterPool := h'.boundWriterPool.trans h.boundWriterPool
  connDirty := h'.connDirty.trans h.connDirty
  inTransaction := h'.inTransaction.trans h.inTransaction

end Alike

theorem alike_buffer (msg : Message) (v : Vars) : Alike v (buffer msg v) := ⟨rfl, rfl, rfl, rfl⟩

theorem alike_endBatch (v : Vars) : Alike v (endBatch v) := ⟨rfl, rfl, rfl, rfl⟩

theorem alike_raiseRoute (name : Bytes) (v : Vars) : Alike v (raiseRoute name v) := by
  unfold raiseRoute
  split
  · exact ⟨rfl, rfl, rfl, rfl⟩
  · exact .refl v

theorem alike_noteClose (env : Env) (payload : Bytes) (v : Vars) :
    Alike v (noteClose env payload v) := by
  unfold noteClose
  dsimp only
  split
  · exact ⟨rfl, rfl, rfl, rfl⟩
  · exact .refl v

def Speaks : Op → Prop
  | .client _ | .allow => True
  | _ => False

instance : Answers Speaks := ⟨fun _ _ => trivial⟩

structure LoopInvariant {σ : Type} (M : Machine Ans σ) (pre : Op → σ → Prop)
    (I Q : Vars → σ → Prop) : Prop where
  alike : ∀ {v v' s}, Alike v v' → I v s → I v' s
  stop : ∀ {v s}, I v s → Q v s
  speaks : ∀ v, Stable M pre Speaks (I v)

namespace LoopInvariant

variable {σ : Type} {M : Machine Ans σ} {pre : Op → σ → Prop} {I Q : Vars → σ → Prop}
  (h : LoopInvariant M pre I Q) {env : Env} {i : Input} {v v' : Vars} {s : σ}

include h

theorem goOn {p : Run Bool} (hv : Alike v v') (hp : Safe M pre p (fun _ => I v) s) :
    Safe M pre (do if ← p then return .next v' else return .stop v') (Flow.Post I Q) s := by
  refine hp.bind fun ok t ht => ?_
  cases ok with
  | true => exact h.alike hv ht
  | false => exact h.stop (h.alike hv ht)

theorem report (m : ClientMsg) (hv : Alike v v') (hs : I v s) :
    Safe M pre (report m v') (Flow.Post I Q) s :=
  h.goOn hv ((Prog.All.perform trivial).safe (h.speaks v) hs)

theorem ready (b : Bool) (hv : Alike v v') (hs : I v s) :
    Safe M pre (do sendReadyForQuery b; return .next v') (Flow.Post I Q) s :=
  (all_sendReadyForQuery b trivial).then (h.speaks v) hs fun _ _ ht => h.alike hv ht

theorem deny (text : ErrorText) (b : Bool) (hv : Alike v v') (hs : I v s) :
    Safe M pre (do sendError text; sendReadyForQuery b; return .next v') (Flow.Post I Q) s :=
  (all_sendError text).then (h.speaks v) hs fun _ _ ht => h.ready b hv ht

theorem handleParse (hs : I v s) : Safe M pre (handleParse env i v) (Flow.Post I Q) s := by
  unfold Relay.handleParse
  split
  · exact h.report (v := v) _ ⟨rfl, rfl, rfl, rfl⟩ hs
  · exact h.alike (v := v) ⟨rfl, rfl, rfl, rfl⟩ hs

theorem handleBind (hs : I v s) : Safe M pre (handleBind env i v) (Flow.Post I Q) s := by
  unfold Relay.handleBind
  split
  · split
    · exact (all_sendError _).then (h.speaks v) hs fun _ _ ht => h.stop ht
    · exact h.report _ ((alike_raiseRoute _ v).trans ⟨rfl, rfl, rfl, rfl⟩) hs
  · exact h.alike ((alike_raiseRoute _ v).trans (alike_buffer _ _)) hs

theorem handleClose (hs : I v s) : Safe M pre (handleClose env i v) (Flow.Post I Q) s := by
  have hclose := alike_noteClose env i.msg.payload v
  unfold Relay.handleClose
  dsimp only
  split
  · exact h.report _ hclose hs
  · exact h.alike (hclose.trans (alike_buffer _ _)) hs

theorem handleDescribe (hs : I v s) (hdescribe : env.multiplexMode = true →
      Safe M pre (handleMultiplexDescribe i.msg.payload v.synth) (fun _ => I v) s) :
    Safe M pre (handleDescribe env i v) (Flow.Post I Q) s := by
  unfold Relay.handleDescribe
  split
  · rename_i hmux
    exact h.goOn (.refl v) (hdescribe hmux)
  · exact h.alike (alike_buffer _ v) hs

theorem executeQuery {query : Bytes} {pq : Option PgQuery.ParseResult}
    (hwrite : let r := routeWithTxState env.toEnv v.session i.now query
      r.1.route = .writer →
        Safe M pre (writeSimple env i query pq r.1 { v with session := r.2 }) (Flow.Post I Q) s)
    (hread : let r := routeWithTxState env.toEnv v.session i.now query
      r.1.route = .reader → Safe M pre (handleReadQuery env i.cfg i.msg query r.2)
        (fun _ => I v) s) : Safe M pre (executeQuery env i query pq v) (Flow.Post I Q) s := by
  unfold Relay.executeQuery
  dsimp only at hwrite hread ⊢
  cases hroute : (routeWithTxState env.toEnv v.session i.now query).1.route with
  | writer => exact hwrite hroute
  | reader =>
    have hout := inTransaction_of_reader env.toEnv hroute
    exact h.goOn (v := v) ⟨rfl, rfl, rfl, hout.2.trans hout.1.symm⟩ (hread hroute)

theorem handleQuery (hs : I v s)
    (hquery : blocked env i = false → ∀ pq,
      Safe M pre (Relay.executeQuery env i (extractQueryText i.msg.payload) pq v)
      (Flow.Post I Q) s) : Safe M pre (handleQuery env i v) (Flow.Post I Q) s := by
  unfold Relay.handleQuery
  change Safe _ _ (if blocked env i then _ else _) _ _
  cases hblocked : blocked env i with
  | true => exact h.deny _ _ (.refl v) hs
  | false => exact hquery hblocked _

theorem finishBatch {p : Run (Flow Vars)} (hp : Safe M pre p (Flow.Post I Q) s) :
    Safe M pre (do return finishBatch (← p)) (Flow.Post I Q) s := by
  refine hp.bind fun r t ht => ?_
  cases r with
  | next v => exact h.alike (alike_endBatch v) ht
  | stop v => exact ht

theorem handleSync (hs : I v s) (hsynth : env.multiplexMode = true → ∀ query ∈ synthesizedQuery v,
      Safe M pre (executeSynthesizedQuery query v) (Flow.Post I Q) s)
    (hbatch : env.multiplexMode = false → Safe M pre (executeBatch env i.msg v) (Flow.Post I Q) s) :
    Safe M pre (handleSync env i v) (Flow.Post I Q) s := by
  unfold synthesizedQuery at hsynth
  unfold Relay.handleSync
  cases hmux : env.multiplexMode with
  | false => exact h.finishBatch (hbatch hmux)
  | true =>
    cases hbind : v.muxBindDetail with
    | none => exact h.ready _ (alike_endBatch v) hs
    | some detail =>
      rw [hbind, Option.bind_some] at hsynth
      dsimp only
      cases hquery :
          v.synth.synthesize detail.statementName detail.parameters detail.formatCodes with
      | error err => exact h.deny _ _ (alike_endBatch v) hs
      | ok query => exact h.finishBatch (hsynth hmux query (by rw [hquery]; rfl))

theorem dispatch (hs : I v s)
    (hquery : i.msg.type = msgQuery → ∀ pq,
      Safe M pre (Relay.executeQuery env i (extractQueryText i.msg.payload) pq v) (Flow.Post I Q) s)
    (hdescribe : env.multiplexMode = true →
      Safe M pre (handleMultiplexDescribe i.msg.payload v.synth) (fun _ => I v) s)
    (hsynth : i.msg.type = msgSync → env.multiplexMode = true → ∀ query ∈ synthesizedQuery v,
      Safe M pre (executeSynthesizedQuery query v) (Flow.Post I Q) s)
    (hbatch : i.msg.type = msgSync → env.multiplexMode = false →
      Safe M pre (executeBatch env i.msg v) (Flow.Post I Q) s) :
    Safe M pre (dispatch env i v) (Flow.Post I Q) s := by
  by_cases htype : i.msg.type = msgQuery
  · exact dispatch_query htype ▸ h.handleQuery hs fun _ => hquery htype
  by_cases hparse : i.msg.type = msgParse
  · exact dispatch_parse hparse ▸ h.handleParse hs
  by_cases hbind : i.msg.type = msgBind
  · exact dispatch_bind hbind ▸ h.handleBind hs
  by_cases hclose : i.msg.type = msgClose
  · exact dispatch_close hclose ▸ h.handleClose hs
  by_cases htype' : i.msg.type = msgDescribe
  · exact dispatch_describe htype' ▸ h.handleDescribe hs hdescribe
  by_cases hsync : i.msg.type = msgSync
  · exact dispatch_sync hsync ▸ h.handleSync hs (hsynth hsync) (hbatch hsync)
  rw [dispatch_other htype hparse hbind hclose htype' hsync]
  cases env.multiplexMode with
  | true => exact hs
  | false => exact h.alike (alike_buffer _ v) hs

theorem handleMessage {J : σ → Prop} (hJ : ∀ t, J t → I v t) (hspeaks : Stable M pre Speaks J)
    (hs : J s) (hdispatch : ∀ t, J t → Safe M pre (Relay.dispatch env i v) (Flow.Post I Q) t) :
    Safe M pre (handleMessage env i v) (Flow.Post I Q) s := by
  unfold Relay.handleMessage
  split
  · exact h.stop (hJ s hs)
  refine Prog.All.then (.perform trivial) hspeaks hs fun admitted t ht => ?_
  cases admitted with
  | true => exact hdispatch t ht
  | false => exact h.deny _ _ (.refl v) (hJ t ht)

end LoopInvariant

end PgMux.Relay
