import PgMux.InStep
import PgMux.Results

/-!
# One request at a time

What the loop owes the client while it handles a message: nothing, the answer to a request that it
has read, or the relay of a reply. Nothing is owed when the next message is read.
-/

namespace PgMux.Phases

open Effects PgQuery Protocol Relay
open InStep (routedToWriter)
open Router hiding Env
open Pools (Conn Pool)

def isRequest (msg : Message) : Bool := msg.type == msgQuery || msg.type == msgSync

/-- What the loop owes the client. -/
inductive Phase where
  | clear (asked : Bool)
  | owed (msg : Message) (writing : Bool)
  | sent (c : Conn) (msg : Message) (writing : Bool)
  | lost

namespace Phase

def writing : Phase → Bool
  | owed _ writing | sent _ _ writing => writing
  | clear _ | lost => false

def read (env : Env) (v : Vars) (i : Input) : Phase :=
  if isRequest i.msg then .owed i.msg (i.msg.type == msgQuery && routedToWriter env v i)
    else .clear false

def send (c : Conn) : Phase → Phase
  | owed msg writing => sent c msg writing
  | s => s

end Phase

def next (env : Env) : (o : Op) → Phase → Ans o → Phase
  | .recv v, _, some i => .read env v i
  | .client (.readyForQuery _), _, _ | .client (.cached _ _), _, _ => .clear true
  | .send _ (.describe _), s, _ => s
  | .send c _, s, true => s.send c
  | .relay _, _, ok => if ok then .clear true else .lost
  | .collect _, _, r => if r.isSome then .clear true else .lost
  | _, s, _ => s

def InPlace : (o : Op) → Phase → Ans o → Phase → Prop
  | .allow, s, admitted, _ => admitted = true ∨ s ≠ .clear false
  | .send _ _, s, ok, _ | .relay _, s, ok, _ => s.writing = true → ok = true
  | _, _, _, _ => True

abbrev phases (env : Env) : Machine Ans Phase := (Machine.ofFun (next env)).restrict InPlace

def Suits (env : Env) (msg : Message) : Request → Prop
  | .forward m => msg.type = msgQuery ∧ m = msg
  | .batch buf sync => msg.type = msgSync ∧ sync = msg ∧ ∀ m ∈ buf, isRequest m = false
  | .synthesized _ => env.multiplexMode = true
  | .describe _ => False

def Guarded (env : Env) : Op → Phase → Prop
  | .recv _, s => ∃ asked, s = .clear asked
  | .client (.readyForQuery _), s | .client (.cached _ _), s => ∃ msg w, s = .owed msg w
  | .send _ (.describe _), _ => env.multiplexMode = true
  | .send _ r, s => ∃ msg w, s = .owed msg w ∧ Suits env msg r
  | .relay c, s | .collect c, s => ∃ msg w, s = .sent c msg w
  | _, _ => True

def Aside (env : Env) : Op → Prop
  | .recv _ | .relay _ | .collect _ | .client (.readyForQuery _) | .client (.cached _ _) => False
  | .send _ (.describe _) => env.multiplexMode = true
  | .send _ _ => False
  | _ => True

instance (env : Env) : Lets (Aside env) where
  basic o ho := by
    cases o with
    | recv | relay | collect | send => exact ho.elim
    | client m => cases m <;> first | exact ho.elim | trivial
    | _ => trivial

def Held (v : Vars) : Prop := ∀ m ∈ v.extBuf, isRequest m = false

section

variable {env : Env} {w : Bool} {c : Conn} {msg : Message} {s : Phase}

theorem stable_aside {P : Phase → Prop} : Stable (phases env) (Guarded env) (Aside env) P := by
  intro o s ho hs
  cases o with
  | recv | relay | collect => exact ho.elim
  | client m =>
    cases m with
    | readyForQuery | cached => exact ho.elim
    | _ => exact ⟨trivial, fun _ t ht => by obtain rfl : t = s := ht.1; exact hs⟩
  | send c r =>
    cases r with
    | describe => exact ⟨ho, fun _ t ht => by obtain rfl : t = s := ht.1; exact hs⟩
    | _ => exact ho.elim
  | _ => exact ⟨trivial, fun _ t ht => by obtain rfl : t = s := ht.1; exact hs⟩

/-! ## Exchanges -/

theorem safe_sendReadyForQuery (b : Bool) :
    Safe (phases env) (Guarded env) (sendReadyForQuery b) (fun _ => Eq (.clear true))
      (.owed msg w) :=
  ⟨⟨msg, w, rfl⟩, fun _ _ ht => ht.1.symm⟩

variable {r : Request} {R : Vars → Prop} {v : Vars} {i : Input}

theorem safe_send (hr : Suits env msg r) :
    Safe (phases env) (Guarded env) (send c r)
      (fun ok t => if ok then .sent c msg w = t else w = false ∧ .owed msg w = t)
        (.owed msg w) := by
  cases r with
  | describe => exact hr.elim
  | _ =>
    refine ⟨⟨msg, w, rfl, hr⟩, fun ok t ht => ?_⟩
    obtain ⟨hstep, hplace⟩ := ht
    cases ok with
    | true => exact hstep.symm
    | false => exact ⟨Bool.eq_false_iff.mpr fun hw => (nomatch hplace hw : False), hstep.symm⟩

theorem safe_relayUntilReady : Safe (phases env) (Guarded env) (relayUntilReady c)
    (fun ok t => ok = true ∨ w = true → .clear true = t) (.sent c msg w) := by
  refine ⟨⟨msg, w, rfl⟩, fun ok t ht hok => ?_⟩
  obtain ⟨hstep, hplace⟩ := ht
  have htrue : ok = true := hok.elim id hplace
  subst htrue
  exact hstep.symm

theorem safe_exchange (hr : Suits env msg r) : Safe (phases env) (Guarded env) (exchange c r)
    (fun ok t => ok = true ∨ w = true → .clear true = t) (.owed msg w) := by
  refine (safe_send hr).bind fun ok t ht => ?_
  cases ok with
  | true =>
    obtain rfl : .sent c msg w = t := ht
    exact safe_relayUntilReady
  | false => exact fun hok => nomatch ht.1.symm.trans (hok.resolve_left nofun)

theorem safe_relayReply (collects : Bool) : Safe (phases env) (Guarded env) (relayReply collects c)
    (fun r t => r.isSome = true → .clear true = t) (.sent c msg w) := by
  cases collects with
  | true =>
    refine ⟨⟨msg, w, rfl⟩, fun r t ht hr => ?_⟩
    obtain rfl : t = if r.isSome then .clear true else .lost := ht.1
    exact (if_pos hr).symm
  | false =>
    refine safe_relayUntilReady.bind fun ok t ht => ?_
    cases ok with
    | true => exact fun _ => ht (.inl rfl)
    | false => exact nofun

/-! ## Reads -/

def Cleared (ok : Bool) (s : Phase) : Prop := ok = true → .clear true = s

theorem safe_fallbackToWriter (resets : Bool) (hr : Suits env msg r) (hs : .owed msg w = s) :
    Safe (phases env) (Guarded env) (fallbackToWriter r resets) Cleared s := by
  refine Prog.All.then (all_basic trivial) stable_aside hs fun p t ht => ?_
  refine Prog.All.then (all_basic trivial) stable_aside ht fun conn u hu => ?_
  cases conn with
  | none => exact (all_sendError _).then stable_aside hu fun _ _ _ => nofun
  | some c =>
    subst hu
    refine (safe_exchange hr).bind fun ok t ht => ?_
    cases ok with
    | true => exact ((all_giveBack _ _ _).safe stable_aside (ht (.inl rfl))).mono fun _ _ hs _ => hs
    | false => exact (all_discard c p).then stable_aside (P := fun _ => True) trivial fun _ _ _ =>
        nofun

theorem safe_readFrom (minLSN : Option Nat) (collects resets : Bool) {keep : Run Unit}
    (hkeep : keep.All (Aside env)) (hr : Suits env msg r) (hs : .owed msg w = s) :
    Safe (phases env) (Guarded env)
      (readFrom minLSN r collects keep (fallbackToWriter r resets)) Cleared s := by
  refine Prog.All.then (.perform trivial) stable_aside hs fun reader t ht => ?_
  cases reader with
  | none => exact safe_fallbackToWriter resets hr ht
  | some reader =>
    subst ht
    refine (safe_send hr).bind fun ok u hu => ?_
    cases ok with
    | false => exact (all_discard _ _).then stable_aside hu.2 fun _ _ hs =>
        safe_fallbackToWriter resets hr hs
    | true =>
      obtain rfl : .sent reader.1 msg w = u := hu
      refine (safe_relayReply collects).bind fun reply x hx => ?_
      cases reply with
      | none => exact (all_discard _ _).then stable_aside (P := fun _ => True) trivial fun _ _ _ =>
          nofun
      | some collected =>
        refine Prog.All.then (all_basic trivial) stable_aside (hx rfl) fun _ y hy => ?_
        exact (all_onlyIf _ hkeep).then stable_aside hy fun _ _ hz _ => hz

theorem safe_cachedOr (key : Option (Bool × Bytes)) {rest : Run Bool}
    (hrest : ∀ t, .owed msg w = t → Safe (phases env) (Guarded env) rest Cleared t)
    (hs : .owed msg w = s) : Safe (phases env) (Guarded env) (cachedOr key rest) Cleared s := by
  refine Relay.safe_cachedOr (fun _ _ => by trivial) stable_aside (fun extended query t ht =>
    ?_) hrest hs
  exact ⟨⟨msg, w, ht.symm⟩, fun _ _ hu _ => hu.1.symm⟩

abbrev Through (R : Vars → Prop) : Flow Vars → Phase → Prop :=
  Flow.Post (fun v s => (∃ asked, s = .clear asked) ∧ R v) fun _ _ => True

theorem safe_goOn {p : Run Bool} (hp : Safe (phases env) (Guarded env) p Cleared s) (hv : R v) :
    Safe (phases env) (Guarded env) (do if ← p then return .next v else return .stop v)
      (Through R) s := by
  refine hp.bind fun ok t ht => ?_
  cases ok with
  | true => exact ⟨⟨true, (ht rfl).symm⟩, hv⟩
  | false => trivial

/-! ## Writes -/

theorem safe_aside {p : Run (Flow Vars)} {asked : Bool} (hp : p.All (Aside env))
    (hR : p.Returns (Flow.Next R)) (hs : .clear asked = s) :
    Safe (phases env) (Guarded env) p (Through R) s := by
  refine ((hp.safe stable_aside hs).returns hR).mono fun r t ht => ?_
  cases r with
  | next v => exact ⟨⟨asked, ht.1.symm⟩, ht.2⟩
  | stop v => trivial

theorem safe_writeSimple (query : Bytes) (pq : Option ParseResult) (routed : RoutedTx)
    (hquery : i.msg.type = msgQuery) (hv : Held v) :
    Safe (phases env) (Guarded env) (writeSimple env i query pq routed v) (Through Held)
      (.owed i.msg true) := by
  have hsuits : Suits env i.msg (.forward i.msg) := ⟨hquery, rfl⟩
  refine Relay.safe_withWriter (P := Eq (.owed i.msg true)) stable_aside (fun _ _ => trivial)
    (fun p c acquired t ht => ?_) rfl
  subst ht
  refine safe_bind.mpr ((safe_exchange hsuits).bind fun ok u hu => ?_)
  have hclear := hu (.inr rfl)
  cases ok with
  | false =>
    exact safe_aside (all_settle _ _ _ _ _ _ _ _)
      (returns_settle _ _ _ _ _ _ _ fun _ _ _ => hv) hclear
  | true =>
    refine (all_lsnAfter _ _).then stable_aside hclear fun lsn x hx => ?_
    refine (all_onlyIf (p := invalidate query) _ (all_basic trivial)).then stable_aside hx
      fun _ y hy => ?_
    exact safe_aside (all_settle _ _ _ _ _ _ _ _) (returns_settle _ _ _ _ _ _ _ fun _ _ _ => hv) hy

theorem safe_dropWriter (acquired : Bool) (p : Pool) (v : Vars) :
    Safe (phases env) (Guarded env) (dropWriter acquired c p v) (Through R) s := by
  have hdrop : (dropWriter acquired c p v).All (Aside env) := all_dropWriter acquired c p v
  have hstop := (hdrop.safe (@stable_aside env fun _ => True) (s := s) trivial).returns
    (returns_dropWriter acquired c p v (R := fun _ => False))
  refine hstop.mono fun r t ht => ?_
  cases r with
  | next v => exact ht.2.elim
  | stop v => trivial

theorem safe_writeExtended (synthesized : Bool) (v : Vars) (hr : Suits env msg r) :
    Safe (phases env) (Guarded env) (writeExtended synthesized r v) (Through fun _ => True)
      (.owed msg w) := by
  refine Relay.safe_withWriter (P := Eq (.owed msg w)) stable_aside (fun _ _ => trivial)
    (fun p c acquired t ht => ?_) rfl
  subst ht
  refine (safe_exchange hr).bind fun ok u hu => ?_
  cases ok with
  | true =>
    refine safe_aside (all_settle _ _ _ _ _ _ _ _) ?_ (hu (.inl rfl))
    exact (Prog.returns_trivial _).mono fun r _ => by cases r <;> trivial
  | false => exact safe_dropWriter acquired p v

/-! ## Messages -/

theorem safe_deny (text : ErrorText) (b : Bool) (hv : R v) :
    Safe (phases env) (Guarded env) (do sendError text; sendReadyForQuery b; return .next v)
      (Through R) (.owed msg w) := by
  refine (all_sendError text).then (P := Eq (.owed msg w)) stable_aside rfl fun _ t ht => ?_
  subst ht
  exact (safe_sendReadyForQuery b).bind fun _ u hu => ⟨⟨true, hu.symm⟩, hv⟩

theorem safe_handleQuery (hquery : i.msg.type = msgQuery) (hv : Held v) :
    Safe (phases env) (Guarded env) (handleQuery env i v) (Through Held)
      (.owed i.msg (routedToWriter env v i)) := by
  unfold handleQuery
  extract_lets query pq fwResult
  split
  · exact safe_deny _ false hv
  · unfold routedToWriter
    unfold executeQuery
    generalize routeWithTxState env.toEnv v.session i.now query = r
    obtain ⟨routed, session⟩ := r
    dsimp only
    cases hroute : routed.route with
    | writer => exact safe_writeSimple query pq routed hquery hv
    | reader =>
      have hsuits : Suits env i.msg (.forward i.msg) := ⟨hquery, rfl⟩
      exact safe_goOn (safe_cachedOr _ (fun _ ht =>
        safe_readFrom _ _ _ (.perform trivial) hsuits ht) rfl) hv

theorem safe_finishBatch {p : Run (Flow Vars)}
    (h : Safe (phases env) (Guarded env) p (Through fun _ => True) s) :
    Safe (phases env) (Guarded env) (do return finishBatch (← p)) (Through Held) s := by
  refine h.bind fun r t ht => ?_
  cases r with
  | next v => exact ⟨ht.1, nofun⟩
  | stop v => trivial

theorem safe_handleSync (hsync : i.msg.type = msgSync) (hv : Held v) :
    Safe (phases env) (Guarded env) (handleSync env i v) (Through Held) (.owed i.msg w) := by
  unfold handleSync
  split
  · rename_i hmux
    split
    · split
      · exact safe_deny _ _ nofun
      · refine safe_finishBatch ?_
        unfold executeSynthesizedQuery
        split
        · exact safe_goOn (safe_readFrom _ _ _ (.pure _) hmux rfl) trivial
        · exact safe_writeExtended _ v hmux
    · exact (safe_sendReadyForQuery _).bind fun _ t ht => ⟨⟨true, ht.symm⟩, nofun⟩
  · refine safe_finishBatch ?_
    have hsuits : Suits env i.msg (.batch v.extBuf i.msg) := ⟨hsync, rfl, hv⟩
    unfold executeBatch
    split
    · refine safe_goOn (safe_cachedOr _ (fun t ht => safe_readFrom _ _ _ ?_ hsuits ht) rfl) trivial
      cases (if env.queryCache = true then batchKey v.extBuf else none) with
      | none => exact .pure _
      | some key => exact .perform trivial
    · exact safe_writeExtended _ v hsuits

theorem held_buffer (hv : Held v) (hno : isRequest msg = false) : Held (buffer msg v) :=
  List.forall_mem_append.mpr ⟨hv, List.forall_mem_singleton.mpr hno⟩

theorem held_raiseRoute (name : Bytes) (hv : Held v) : Held (raiseRoute name v) := by
  unfold raiseRoute
  split
  · exact hv
  · exact hv

theorem held_noteClose (payload : Bytes) (hv : Held v) : Held (noteClose env payload v) := by
  unfold noteClose
  dsimp only
  split
  · exact hv
  · exact hv

theorem safe_message (hno : isRequest i.msg = false) (hv : Held v) :
    Safe (phases env) (Guarded env) (dispatch env i v) (Through Held) (.clear false) := by
  obtain ⟨hquery, hsync⟩ : i.msg.type ≠ msgQuery ∧
    i.msg.type ≠ msgSync := by simpa [isRequest] using hno
  by_cases hparse : i.msg.type = msgParse
  · rw [dispatch_parse hparse]
    refine safe_aside (all_handleParse i v) ?_ rfl
    unfold handleParse
    split
    · exact returns_report _ hv
    · exact held_buffer hv hno
  by_cases hbind : i.msg.type = msgBind
  · rw [dispatch_bind hbind]
    refine safe_aside (all_handleBind i v) ?_ rfl
    unfold handleBind
    split
    · split
      · exact .of_bind _ fun _ => trivial
      · exact returns_report _ (held_raiseRoute _ hv)
    · exact held_buffer (held_raiseRoute _ hv) hno
  by_cases hclose : i.msg.type = msgClose
  · rw [dispatch_close hclose]
    refine safe_aside (all_handleClose i v) ?_ rfl
    unfold handleClose
    split
    · exact returns_report _ (held_noteClose _ hv)
    · exact held_buffer (held_noteClose _ hv) hno
  by_cases hdescribe : i.msg.type = msgDescribe
  · rw [dispatch_describe hdescribe]
    refine safe_aside (all_handleDescribe i v fun c r hr => ?_) ?_ rfl
    · split at hr
      · rename_i hmux
        obtain ⟨stmt, -, rfl⟩ := List.mem_map.mp hr
        exact hmux
      · exact nomatch hr
    · unfold handleDescribe
      split
      · exact returns_goOn _ hv
      · exact held_buffer hv hno
  rw [dispatch_other hquery hparse hbind hclose hdescribe hsync]
  refine ⟨⟨false, rfl⟩, ?_⟩
  cases env.multiplexMode with
  | true => exact hv
  | false => exact held_buffer hv hno

theorem safe_dispatch (hv : Held v) :
    Safe (phases env) (Guarded env) (dispatch env i v) (Through Held) (.read env v i) := by
  unfold Phase.read
  split
  · rename_i hreq
    by_cases hquery : i.msg.type = msgQuery
    · rw [dispatch_query hquery]
      simpa [hquery] using safe_handleQuery hquery hv
    · have hsync : i.msg.type = msgSync := by simpa [isRequest, hquery] using hreq
      rw [dispatch_sync hsync]
      exact safe_handleSync hsync hv
  · rename_i hno
    exact safe_message (by simpa using hno) hv

theorem asked_of_read (h : Phase.read env v i ≠ .clear false) : isRequest i.msg = true := by
  unfold Phase.read at h
  split at h
  · next hreq => exact hreq
  · exact absurd rfl h

theorem safe_round (v : Vars) (hs : (∃ asked, s = .clear asked) ∧ Held v) :
    Safe (phases env) (Guarded env) (round env v) (Through Held) s := by
  refine safe_bind.mpr ⟨hs.1, fun i t ht => ?_⟩
  cases i with
  | none => trivial
  | some i =>
    obtain rfl : t = .read env v i := ht.1
    change Safe _ _ (handleMessage env i v) _ _
    unfold handleMessage
    split
    · trivial
    refine safe_bind.mpr ⟨trivial, fun admitted t ht => ?_⟩
    obtain ⟨hstep, hplace⟩ := ht
    obtain rfl : t = .read env v i := hstep
    cases admitted with
    | true => exact safe_dispatch hs.2
    | false =>
      have hread : Phase.read env v i = .owed i.msg _ :=
        if_pos (asked_of_read (hplace.resolve_left nofun))
      rw [hread]
      exact safe_deny _ false hs.2

theorem safe_phases (n : Nat) (session : Session) :
    Safe (phases env) (Guarded env) (relayQueries env n session) (fun _ _ => True) (.clear false) :=
  safe_loop n session (fun v _ h => safe_round v h) (fun _ _ _ => trivial) (fun _ _ _ => trivial)
    (@stable_aside env fun _ => True) ⟨⟨false, rfl⟩, nofun⟩

end

end PgMux.Phases
