import PgMux.Affinity
import PgMux.Statements

/-!
# Sessions that share prepared statements

A batch is forwarded as it is, so the statements of all sessions live under their own names on
whatever connections the pools lend. Each session keeps what it has sent in a Parse under each name.
-/

namespace PgMux.StatementNames

open Effects Protocol Relay Statements
open Affinity (onPools)
open Router (Session)
open Pools (Conn Pool World)

/-! ## One session -/

structure Talk where
  names : Names
  before : Stmts
  batch : List Verb
  delivered : Bool

def Talk.new (names : Names) : Talk := ⟨names, Stmts.empty, [], false⟩

def Talk.IsTidy (s : Talk) : Prop := Tidy s.names [] s.batch

def Talk.reached (s : Talk) : Stmts := if s.delivered then s.batch.foldl tell s.before else s.before

def next : (o : Op) → Talk → Ans o → Talk
  | .recv v, s, some i =>
    { s with
      before := s.batch.foldl tell s.before
      batch := if i.msg.type = msgSync then v.extBuf.map verb else []
      delivered := false }
  | .allow, s, false => { s with batch := [] }
  | .send _ _, s, true => { s with delivered := true }
  | _, s, _ => s

abbrev extended : Machine Ans Talk :=
  (Machine.ofFun next).restrict (OnRecv fun _ i _ => i.msg.type ≠ msgQuery)

abbrev tidy : Machine Ans Talk :=
  extended.restrict (OnRecv fun v i s => i.msg.type = msgSync → Tidy s.names [] (v.extBuf.map verb))

def Guarded : Op → Talk → Prop
  | .recv _, s => s.IsTidy
  | .allow, s => s.delivered = false
  | .send _ r, s =>
    s.delivered = false ∧ s.IsTidy ∧ ∃ buf sync, r = .batch buf sync ∧ s.batch = buf.map verb
  | _, _ => True

def Quiet : Op → Prop
  | .recv _ | .leave _ | .allow | .send _ _ => False
  | _ => True

instance : LetsRelay Quiet where
  basic o ho := by
    cases o with
    | recv | leave | allow | send => exact ho.elim
    | _ => trivial
  relay _ := trivial
  collect _ := trivial

section

variable {env : Env} {v : Vars} {i : Input} {s : Talk}

theorem stable_quiet (P : Talk → Prop) : Stable tidy Guarded Quiet P := by
  intro o s ho hs
  cases o with
  | recv | leave | allow | send => exact ho.elim
  | _ => exact ⟨trivial, fun ans t ht => ht.1.1 ▸ hs⟩

structure Ready (v : Vars) (s : Talk) : Prop where
  delivered : s.delivered = false
  batch : s.batch = v.extBuf.map verb
  tidy : s.IsTidy

theorem safe_send (c : Conn) (sync : Message) (hs : Ready v s) :
    Safe tidy Guarded (send c (.batch v.extBuf sync))
      (fun ok t => t.IsTidy ∧ (ok = false → Ready v t)) s := by
  refine ⟨⟨hs.delivered, hs.tidy, _, _, rfl, hs.batch⟩, fun ok t ht => ?_⟩
  obtain rfl : t = _ := ht.1.1
  cases ok with
  | true => exact ⟨hs.tidy, by simp⟩
  | false => exact ⟨hs.tidy, fun _ => hs⟩

theorem safe_exchange (c : Conn) (sync : Message) (hs : Ready v s) :
    Safe tidy Guarded (exchange c (.batch v.extBuf sync)) (fun _ => Talk.IsTidy) s := by
  have hrelay : (relayUntilReady c).All Quiet := .perform trivial
  refine (safe_send c sync hs).bind fun ok t ht => ?_
  cases ok with
  | true => exact hrelay.safe (stable_quiet _) ht.1
  | false => exact ht.1

theorem safe_fallbackToWriter (sync : Message) (resets : Bool) (hs : Ready v s) :
    Safe tidy Guarded (fallbackToWriter (.batch v.extBuf sync) resets)
      (fun _ => Talk.IsTidy) s := by
  refine Prog.All.then (all_basic trivial) (stable_quiet _) hs fun p t ht => ?_
  refine Prog.All.then (all_basic trivial) (stable_quiet _) ht fun c u hu => ?_
  cases c with
  | none => exact (all_failWith _ _).safe (stable_quiet _) hu.tidy
  | some c =>
    refine (safe_exchange c sync hu).bind fun ok w hw => ?_
    cases ok with
    | true => exact (all_giveBack resets c _).safe (stable_quiet _) hw
    | false => exact (all_discard c p).then (stable_quiet _) hw fun _ _ h => h

theorem safe_readFrom (sync : Message) (collects resets : Bool) {keep : Run Unit}
    (hkeep : keep.All Quiet) (hs : Ready v s) :
    Safe tidy Guarded (readFrom none (.batch v.extBuf sync) collects keep
      (fallbackToWriter (.batch v.extBuf sync) resets))
      (fun _ => Talk.IsTidy) s := by
  have hacquire : (acquireReader none).All Quiet := .perform trivial
  refine hacquire.then (stable_quiet _) hs fun reader t ht => ?_
  cases reader with
  | none => exact safe_fallbackToWriter sync resets ht
  | some reader =>
    refine (safe_send reader.1 sync ht).bind fun ok u hu => ?_
    cases ok with
    | false => exact (all_discard _ _).then (stable_quiet _) (hu.2 rfl) fun _ w hw =>
        safe_fallbackToWriter sync resets hw
    | true =>
      refine (all_relayReply collects reader.1).then (stable_quiet Talk.IsTidy) hu.1
        fun reply w hw => ?_
      cases reply with
      | none => exact (all_discard _ _).then (stable_quiet _) hw fun _ _ h => h
      | some collected =>
        refine Prog.All.then (all_basic trivial) (stable_quiet _) hw fun _ x hx => ?_
        exact (all_onlyIf collected hkeep).then (stable_quiet _) hx fun _ _ h => h

theorem safe_handleExtendedRead (sync : Message) (hs : Ready v s) :
    Safe tidy Guarded (handleExtendedRead env v.extBuf sync) (fun _ => Talk.IsTidy) s := by
  refine safe_cachedOr (fun _ _ => by trivial) (stable_quiet _) (fun extended query t ht => ?_)
    (fun t ht => safe_readFrom sync _ _ ?_ ht) hs
  · have hanswer : (toClient (.cached extended query)).All Quiet := .perform trivial
    exact hanswer.safe (stable_quiet _) ht.tidy
  · cases (if env.queryCache = true then batchKey v.extBuf else none) with
    | none => exact .pure _
    | some key => exact .perform trivial

theorem safe_writeExtended (sync : Message) (hs : Ready v s) :
    Safe tidy Guarded (writeExtended false (.batch v.extBuf sync) v) (fun _ => Talk.IsTidy) s := by
  refine safe_withWriter (stable_quiet _) (fun _ ht => ht.tidy) (fun p c acquired t ht => ?_) hs
  refine (safe_exchange c sync ht).bind fun ok u hu => ?_
  cases ok with
  | true => exact (all_settle _ _ _ _ _ _ _ _).safe (stable_quiet _) hu
  | false => exact (all_dropWriter _ _ _ _).safe (stable_quiet _) hu

theorem safe_executeBatch (sync : Message) (hs : Ready v s) :
    Safe tidy Guarded (executeBatch env sync v) (fun _ => Talk.IsTidy) s := by
  unfold executeBatch
  cases readsOnly v with
  | false => exact safe_writeExtended sync hs
  | true =>
    refine (safe_handleExtendedRead sync hs).bind fun ok t ht => ?_
    cases ok <;> exact ht

theorem safe_dispatch (hmode : env.multiplexMode = false) (hquery : i.msg.type ≠ msgQuery)
    (hready : i.msg.type = msgSync → Ready v s) (hs : s.IsTidy) :
    Safe tidy Guarded (dispatch env i v) (fun _ => Talk.IsTidy) s := by
  by_cases hsync : i.msg.type = msgSync
  · rw [dispatch_sync hsync, handleSync, hmode]
    exact (safe_executeBatch i.msg (hready hsync)).bind fun _ _ h => h
  · have hquiet : (dispatch env i v).All Quiet := by
      refine all_dispatch i v (fun c r hr => ?_) (fun _ _ => trivial)
        (fun _ _ => trivial) fun _ _ => ⟨trivial, trivial⟩
      simp [requests, extRequests, hquery, hsync, hmode] at hr
    exact hquiet.safe (stable_quiet _) hs

theorem safe_round (hmode : env.multiplexMode = false) (v : Vars) (hs : s.IsTidy) :
    Safe tidy Guarded (round env v) (fun _ => Talk.IsTidy) s := by
  refine safe_bind.mpr ⟨hs, fun i t ht => ?_⟩
  obtain ⟨⟨rfl, hquery⟩, htidy⟩ := ht
  cases i with
  | none => exact hs
  | some i =>
    have hbatch : (next (.recv v) s (some i)).IsTidy := by
      by_cases hsync : i.msg.type = msgSync
      · simpa [Talk.IsTidy, next, hsync] using htidy hsync
      · simp [Talk.IsTidy, next, hsync, Tidy]
    change Safe _ _ (handleMessage env i v) _ _
    unfold handleMessage
    split
    · exact hbatch
    · refine safe_bind.mpr ⟨rfl, fun ok t ht => ?_⟩
      obtain rfl : t = _ := ht.1.1
      cases ok with
      | false => exact Prog.All.safe (all_deny _ v trivial) (stable_quiet _) trivial
      | true =>
        refine safe_dispatch hmode hquery (fun hsync => ⟨rfl, ?_, hbatch⟩) hbatch
        simp [next, hsync]

theorem safe_relayQueries (hmode : env.multiplexMode = false) (n : Nat) (session : Session)
    (names : Names) :
    Safe tidy Guarded (relayQueries env n session) (fun _ _ => True) (Talk.new names) := by
  refine safe_loop (I := fun _ => Talk.IsTidy) (Q := fun _ _ => True) n session (fun v t ht => ?_)
    (fun _ _ _ => trivial) (fun _ _ _ => trivial) (stable_quiet _) trivial
  refine (safe_round hmode v ht).mono fun r u hu => ?_
  cases r with
  | next v => exact hu
  | stop v => trivial

end

/-! ## Sessions on shared connections -/

structure Hall where
  world : World
  stmts : Conn → Stmts

def Hall.lend (w : Hall) (c : Option Conn) : Conn → Stmts :=
  c.elim w.stmts fun c => if c ∈ w.world.live then w.stmts
    else Function.update w.stmts c Stmts.empty

def serve (k : Nat) : (o : Op) → Hall → Ans o → Conn → Stmts
  | .acquireWriter, w, c => w.lend c
  | .acquire _, w, c => w.lend c
  | .acquireReader _, w, r => w.lend (r.map Prod.fst)
  | .send c (.batch buf _), w, true =>
      Function.update w.stmts c (run ((buf.take k).map verb) (w.stmts c))
  | .reset c, w, true => Function.update w.stmts c Stmts.empty
  | _, w, _ => w.stmts

def hall (env : Env) (origin : Conn → Pool) : Machine Ans Hall := fun o w ans w' =>
  onPools env origin o w.world ans w'.world ∧ ∃ k, w'.stmts = serve k o w ans

def Puts (name query : Bytes) : (o : Op) → Ans o → Prop
  | .send _ (.batch buf _), true => .parse name query ∈ buf.map verb
  | _, _ => False

section

variable {ι : Type} {w w' : Hall} {f : Conn → Stmts} {c : Conn} {name text : Bytes} {o : Op}
  {ans : Ans o} {s : Talk}

theorem mem_of_update {d : Conn} {m : Stmts} (h : text ∈ Function.update f d m c name) :
    c = d ∧ text ∈ m name ∨ text ∈ f c name := by
  by_cases hc : c = d
  · subst hc
    rw [Function.update_self] at h
    exact .inl ⟨rfl, h⟩
  · rw [Function.update_of_ne hc] at h
    exact .inr h

theorem mem_of_clear {d : Conn} (h : text ∈ Function.update f d Stmts.empty c name) :
    text ∈ f c name :=
  (mem_of_update h).resolve_left fun h => by simp [Stmts.empty] at h

theorem mem_of_lend {d : Option Conn} (h : text ∈ w.lend d c name) : text ∈ w.stmts c name := by
  cases d with
  | none => exact h
  | some d =>
    simp only [Hall.lend, Option.elim_some] at h
    split at h
    · exact h
    · exact mem_of_clear h

theorem mem_of_serve {k : Nat} (h : text ∈ serve k o w ans c name) :
    text ∈ w.stmts c name ∨ Puts name text o ans := by
  unfold serve at h
  split at h
  · exact .inl (mem_of_lend h)
  · exact .inl (mem_of_lend h)
  · exact .inl (mem_of_lend h)
  · rcases mem_of_update h with ⟨rfl, h⟩ | h
    · exact (mem_of_run h).imp_right fun h => List.map_subset _ (List.take_subset k _) h
    · exact .inl h
  · exact .inl (mem_of_clear h)
  · exact .inl h

theorem names_next (o : Op) (s : Talk) (ans : Ans o) : (next o s ans).names = s.names := by
  unfold next
  split <;> rfl

theorem faithful_next (hg : Guarded o s) (h : Faithful s.names s.before) (ans : Ans o) :
    Faithful s.names (next o s ans).before := by
  unfold next
  split
  · exact Tidy.faithful hg h
  · exact h
  · exact h
  · exact h

theorem Talk.isSome_foldl_batch (s : Talk) (h : (s.reached name).isSome) :
    (s.batch.foldl tell s.before name).isSome := by
  unfold reached at h
  split at h
  · exact h
  · exact isSome_foldl_tell (.inl h)

theorem reached_next (hg : Guarded o s) (h : (s.reached name).isSome) (ans : Ans o) :
    ((next o s ans).reached name).isSome := by
  unfold next
  split
  · exact s.isSome_foldl_batch h
  · have hd : s.delivered = false := hg
    simpa [Talk.reached, hd] using h
  · exact s.isSome_foldl_batch h
  · exact h

theorem reached_of_puts (hg : Guarded o s) (h : Puts name text o ans) :
    Fair s.names [] (.parse name text) ∧ ((next o s ans).reached name).isSome := by
  unfold Puts at h
  split at h
  · obtain ⟨-, htidy, buf, sync, hr, hbatch⟩ := hg
    obtain ⟨rfl, rfl⟩ := Request.batch.inj hr
    rw [← hbatch] at h
    exact ⟨Tidy.fair htidy h, isSome_foldl_tell (.inr ⟨text, h⟩)⟩
  · exact h.elim

variable {names : ι → Names}

structure Together (names : ι → Names) (s : ι → Talk) (w : Hall) : Prop where
  keeps : ∀ i, (s i).names = names i
  faithful : ∀ i, Faithful (names i) (s i).before
  sent : ∀ c name, ∀ text ∈ w.stmts c name, name ≠ [] → ∃ i, (names i).own name = true ∧
    ((s i).reached name).isSome ∧ ∀ text' ∈ (names i).text name, text = text'

variable [DecidableEq ι] {i : ι}

theorem Together.step {s : ι → Talk} (h : Together names s w) (hg : Guarded o (s i)) {k : Nat}
    (hw : w'.stmts = serve k o w ans) :
    Together names (Function.update s i (next o (s i) ans)) w' := by
  refine ⟨fun j => ?_, fun j => ?_, fun c name text htext hne => ?_⟩
  · by_cases hj : j = i
    · subst hj
      rw [Function.update_self, names_next, h.keeps]
    · rw [Function.update_of_ne hj, h.keeps]
  · by_cases hj : j = i
    · subst hj
      rw [Function.update_self, ← h.keeps]
      exact faithful_next hg (h.keeps j ▸ h.faithful j) ans
    · rw [Function.update_of_ne hj]
      exact h.faithful j
  · rw [hw] at htext
    rcases mem_of_serve htext with htext | hputs
    · obtain ⟨j, hown, hreached, htexts⟩ := h.sent c name text htext hne
      refine ⟨j, hown, ?_, htexts⟩
      by_cases hj : j = i
      · subst hj
        rw [Function.update_self]
        exact reached_next hg hreached ans
      · rwa [Function.update_of_ne hj]
    · obtain ⟨hfair, hreached⟩ := reached_of_puts hg hputs
      rw [h.keeps] at hfair
      exact ⟨i, hfair.1 hne, by rwa [Function.update_self], hfair.2⟩

variable {env : Env} {origin : Conn → Pool} {x : ι → Run Unit × Talk} {w₀ : World}

/-- No first Parse of a name fails, and every Bind finds what its session has last sent under the
name. -/
theorem statements_private (hmode : env.multiplexMode = false) (n : ι → Nat)
    (sessions : ι → Session)
    (hnames : ∀ i j name, (names i).own name = true → (names j).own name = true → i = j)
    (hr : ReachShared tidy (hall env origin)
      (fun i => (relayQueries env (n i) (sessions i), Talk.new (names i)))
      ⟨w₀, fun _ => Stmts.empty⟩ x w)
    {c : Conn} {buf : List Message} {sync : Message}
    (hsend : (x i).1.head = some (.send c (.batch buf sync))) :
    Private (buf.map verb) (x i).2.before (w.stmts c) := by
  have hsafe : ∀ i, Safe tidy Guarded (relayQueries env (n i) (sessions i)) (fun _ _ => True)
      (Talk.new (names i)) :=
    fun i => safe_relayQueries hmode (n i) (sessions i) (names i)
  have hinit : Together names (fun i => Talk.new (names i)) ⟨w₀, fun _ => Stmts.empty⟩ :=
    ⟨fun _ => rfl,
      fun _ _ _ hq => by simp [Talk.new, Stmts.empty] at hq,
      fun _ _ _ ht => by simp [Stmts.empty] at ht⟩
  have htogether : Together names (fun i => (x i).2) w := by
    refine hr.invariant (fun s w i o ans t w' h hg ht hw => ?_) hsafe hinit
    obtain rfl : t = _ := ht.1.1
    exact h.step hg hw.2.choose_spec
  obtain ⟨hdelivered, htidy, buf', sync', hbuf, hbatch⟩ := (hsafe i).guarded (hr.all.at i) hsend
  obtain ⟨rfl, rfl⟩ := Request.batch.inj hbuf
  have hreached : (x i).2.reached = (x i).2.before := by simp [Talk.reached, hdelivered]
  rw [← hbatch]
  refine Known.isPrivate ⟨List.forall_mem_nil _, fun name text htext hne hown => ?_,
    htogether.keeps i ▸ htogether.faithful i⟩
    htidy
  obtain ⟨j, hj, hsome, htexts⟩ := htogether.sent c name text htext hne
  rw [htogether.keeps] at hown ⊢
  obtain rfl := hnames i j name hown hj
  exact ⟨hreached ▸ hsome, htexts⟩

end

/-! ## Two sessions -/

section

variable (env : Env) (origin : Conn → Pool)

def nextPools (o : Op) (w : World) (ans : Ans o) : Option World :=
  (PoolSession.run env origin o ⟨w, none, none, false, false⟩ ans).map PoolSession.Site.world

def nextBoth (move : (o : Op) → Talk → Ans o → Option Talk) (o : Op) (s : Talk × Hall)
    (ans : Ans o) : Option (Talk × Hall) :=
  (move o s.1 ans).bind fun t => (nextPools env origin o s.2.world ans).map fun w =>
    (t, ⟨w, serve 3 o s.2 ans⟩)

variable {env origin}

theorem onPools_of_nextPools {o : Op} {w w' : World} {ans : Ans o}
    (h : nextPools env origin o w ans = some w') : onPools env origin o w ans w' := by
  obtain ⟨t, ht, hw⟩ := Option.map_eq_some_iff.mp h
  exact ⟨t, PoolSession.step_of_run ht, hw⟩

theorem both_of_nextBoth {M : Machine Ans Talk} {move : (o : Op) → Talk → Ans o → Option Talk}
    (hmove : ∀ o s ans t, move o s ans = some t → M o s ans t) (o : Op) (s : Talk × Hall)
    (ans : Ans o) (t : Talk × Hall) (h : nextBoth env origin move o s ans = some t) :
    M.both (hall env origin) o s ans t := by
  obtain ⟨t', ht', h⟩ := Option.bind_eq_some_iff.mp h
  obtain ⟨w, hw, rfl⟩ := Option.map_eq_some_iff.mp h
  exact ⟨hmove o s.1 ans t' ht', onPools_of_nextPools hw, 3, rfl⟩

end

def parseMsg (name query : String) : Input :=
  plainInput msgParse (ascii name ++ [0] ++ ascii query ++ [0, 0, 0])

def bindMsg (name : String) : Input :=
  plainInput msgBind ([0] ++ ascii name ++ [0, 0, 0, 0, 0, 0, 0])

def executeMsg : Input := plainInput msgExecute [0, 0, 0, 0, 0]

def syncMsg : Input := plainInput msgSync []

def twoSessions (names : Bool → Names) : Bool → Run Unit × Talk := fun i =>
  (relayQueries (plainEnv false) 5 PoolSession.plainSession, Talk.new (names i))

def anyName : Names := ⟨fun _ => true, fun _ => none⟩

def play (move : (o : Op) → Talk → Ans o → Option Talk) (names : Bool → Names) (w : World)
    (turns : List (Bool × Nat × Script)) : (Bool → Run Unit × Talk) × Hall :=
  driveTurns Script.reply (nextBoth (plainEnv false) (fun _ => 0) move) turns (twoSessions names)
    ⟨w, fun _ => Stmts.empty⟩

theorem reach_play {M : Machine Ans Talk} {move : (o : Op) → Talk → Ans o → Option Talk}
    (hmove : ∀ o s ans t, move o s ans = some t → M o s ans t) (names : Bool → Names) (w : World)
    (turns : List (Bool × Nat × Script)) :
    ReachShared M (hall (plainEnv false) fun _ => 0) (twoSessions names) ⟨w, fun _ => Stmts.empty⟩
      (play move names w turns).1 (play move names w turns).2 :=
  reach_driveTurns Script.reply (both_of_nextBoth hmove) turns _ _

def nextExtended : (o : Op) → Talk → Ans o → Option Talk :=
  onlyWhen (always next) (OnRecv fun _ i _ => i.msg.type ≠ msgQuery)

def nextTidy : (o : Op) → Talk → Ans o → Option Talk :=
  onlyWhen nextExtended (OnRecv fun v i s => i.msg.type = msgSync →
    Tidy s.names [] (v.extBuf.map verb))

theorem extended_of_nextExtended :
    ∀ o s ans t, nextExtended o s ans = some t → extended o s ans t :=
  restrict_of_onlyWhen (ofFun_of_always next) _

theorem tidy_of_nextTidy : ∀ o s ans t, nextTidy o s ans = some t → tidy o s ans t :=
  restrict_of_onlyWhen extended_of_nextExtended _

def sending : Run Unit → Option (Conn × Request)
  | .op (.send c r) _ => some (c, r)
  | _ => none

theorem head_of_sending {p : Run Unit} {c : Conn} {r : Request} (h : sending p = some (c, r)) :
    p.head = some (.send c r) := by
  unfold sending at h
  split at h
  · obtain ⟨rfl, rfl⟩ := Prod.mk.inj (Option.some.inj h)
    rfl
  · simp at h

def bindsAgain : (Bool → Run Unit × Talk) × Hall :=
  play nextExtended (fun _ => anyName) Affinity.roomForTwo [(false, 8,
    ⟨[parseMsg "s" "DELETE FROM a", syncMsg], [0], [0]⟩),
    (true, 9, ⟨[parseMsg "s" "DELETE FROM b", syncMsg], [0], [1]⟩), (false, 1, ⟨[], [], []⟩),
    (true, 8, ⟨[bindMsg "s", executeMsg, syncMsg], [0], [0]⟩)]

def parsesTwice : (Bool → Run Unit × Talk) × Hall :=
  play nextExtended (fun _ => anyName) PoolSession.freshSite.world [(false, 9,
    ⟨[parseMsg "s" "DELETE FROM a", syncMsg], [0], [0]⟩),
    (true, 6, ⟨[parseMsg "s" "DELETE FROM b", syncMsg], [0], [0]⟩)]

theorem statements_shared :
    (∃ x w, ReachShared extended (hall (plainEnv false) fun _ => 0) (twoSessions fun _ => anyName)
        ⟨Affinity.roomForTwo, fun _ => Stmts.empty⟩ x w ∧
      (x true).1.head = some (.send 0 (.batch [(bindMsg "s").msg, executeMsg.msg] syncMsg.msg)) ∧
      (x true).2.before (ascii "s") = some (ascii "DELETE FROM b") ∧
      w.stmts 0 (ascii "s") = some (ascii "DELETE FROM a")) ∧
    ∃ x w, ReachShared extended (hall (plainEnv false) fun _ => 0) (twoSessions fun _ => anyName)
        ⟨PoolSession.freshSite.world, fun _ => Stmts.empty⟩ x w ∧
      (x true).1.head = some (.send 0 (.batch [(parseMsg "s" "DELETE FROM b").msg] syncMsg.msg)) ∧
      (x true).2.before (ascii "s") = none ∧
      (takes (w.stmts 0) (verb (parseMsg "s" "DELETE FROM b").msg)).isNone := by
  refine ⟨⟨bindsAgain.1, bindsAgain.2, reach_play extended_of_nextExtended _ _ _,
    head_of_sending ?_, ?_, ?_⟩,
    ⟨parsesTwice.1, parsesTwice.2, reach_play extended_of_nextExtended _ _ _,
      head_of_sending ?_, ?_, ?_⟩⟩
  all_goals decide +kernel

def oneName (i : Bool) : Names := ⟨(· == ascii (if i then "b" else "a")), fun _ => none⟩

theorem oneName_own (i j : Bool) (name : Bytes) (hi : (oneName i).own name = true)
    (hj : (oneName j).own name = true) : i = j := by
  have heq : ascii (if i then "b" else "a") = ascii (if j then "b" else "a") := by
    rw [← eq_of_beq hi, ← eq_of_beq hj]
  cases i with
  | false => cases j with
    | false => rfl
    | true => exact absurd heq (by decide)
  | true => cases j with
    | false => exact absurd heq (by decide)
    | true => rfl

def bindsOwn : (Bool → Run Unit × Talk) × Hall :=
  play nextTidy oneName PoolSession.freshSite.world [(false, 9,
    ⟨[parseMsg "a" "DELETE FROM a", syncMsg], [0], [0]⟩),
    (true, 10, ⟨[parseMsg "b" "DELETE FROM b", bindMsg "b", executeMsg, syncMsg], [0], [0]⟩)]

theorem statements_private_two :
    ∃ x w, ReachShared tidy (hall (plainEnv false) fun _ => 0) (twoSessions oneName)
        ⟨PoolSession.freshSite.world, fun _ => Stmts.empty⟩ x w ∧
      w.stmts 0 (ascii "a") = some (ascii "DELETE FROM a") ∧
      Private ([(parseMsg "b" "DELETE FROM b").msg, (bindMsg "b").msg, executeMsg.msg].map verb)
        (x true).2.before
        (w.stmts 0) := by
  have hreach : ReachShared tidy (hall (plainEnv false) fun _ => 0) (twoSessions oneName)
      ⟨PoolSession.freshSite.world, fun _ => Stmts.empty⟩ bindsOwn.1 bindsOwn.2 :=
      reach_play tidy_of_nextTidy _ _ _
  have hsend : (bindsOwn.1 true).1.head =
      some (.send 0 (.batch [(parseMsg "b" "DELETE FROM b").msg, (bindMsg "b").msg,
      executeMsg.msg] syncMsg.msg)) := head_of_sending (by decide +kernel)
  exact ⟨_, _, hreach, by decide +kernel,
    statements_private rfl (fun _ => 5)
      (fun _ => PoolSession.plainSession) oneName_own hreach hsend⟩

end PgMux.StatementNames
