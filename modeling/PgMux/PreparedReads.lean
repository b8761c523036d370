import PgMux.Balancer
import PgMux.ClientView
import PgMux.Results

/-!
# Reads of the extended protocol

A batch asks for any reader, whatever position the session has noted, and its route was found when
its last statement was parsed. Writes of the extended protocol are noted nowhere.
-/

namespace PgMux.PreparedReads

open Balancer Effects Protocol Relay
open ReadAfterWrite (noted)
open Router hiding Env
open Pools (Conn Pool)

structure Scene where
  balancer : RoundRobin Pool
  reading : Option (Conn × Backend Pool)
  session : Session
  now : Int
  type : Byte
  lastWrite : Option Int
  views : Views
  parsed : Bool

def Scene.new (session : Session) (now : Int) (balancer : RoundRobin Pool) : Scene :=
  ⟨balancer, none, session, now, 0, none, Views.new, false⟩

def writes (env : Env) (s : Session) (w : View) (r : Request) : Bool :=
  (w.texts r).any fun text => queryType env.toEnv s text == .write

def isBatch : Request → Bool
  | .batch _ _ | .synthesized _ => true
  | _ => false

def parsedAfter (type : Byte) (parsed : Bool) : Bool :=
  type == msgParse || parsed && type != msgSync

section

variable (env : Env)

def next : (o : Op) → Scene → Ans o → List Scene
  | .recv v, s, some i =>
    [{ s with
      reading := none
      session := v.session
      now := i.now
      type := i.msg.type
      views := s.views.read i.msg }]
  | .allow, s, admitted =>
    [{ s with
      views := s.views.accept admitted
      parsed := if admitted then parsedAfter s.type s.parsed else s.parsed }]
  | .acquireWriter, s, _ => [{ s with reading := none }]
  | .acquire _, s, _ => [{ s with reading := none }]
  | .acquireReader minLSN, s, none => [{ s with balancer := (s.balancer.choose (minLSN.getD 0)).2 }]
  | .acquireReader minLSN, s, some (c, p) =>
    match s.balancer.choose (minLSN.getD 0) with
    | (.found b, r) => if b.addr = p then [{ s with balancer := r, reading := some (c, b) }] else []
    | _ => []
  | .send c r, s, true =>
    [if !s.reading.any (·.1 == c) && writes env s.session s.views.ahead r then
      { s with lastWrite := some s.now, parsed := false } else s]
  | _, s, _ => [s]

def step : Machine Ans Scene := fun o s ans t =>
  ∃ u ∈ next env o s ans, ∃ b, Relation.ReflTransGen Touch u.balancer b ∧
    t = { u with balancer := b }

abbrev timed : Machine Ans Scene := (step env).restrict (OnRecv fun _ i s => s.now ≤ i.now)

/-- A batch asks for a reader only if all healthy readers have the session's position; with the
timer, writes are noted simple queries and the batch has parsed a statement since. -/
def Heeds : (o : Op) → Scene → Ans o → Scene → Prop
  | .recv v, s, some i, _ => v.session.causalConsistency = false →
    (∀ r ∈ requests env v i, writes env v.session (s.views.view.next i.msg) r = true →
      i.msg.type = msgQuery ∧ noted env.toEnv v.session (extractQueryText i.msg.payload) = true) ∧
    (i.msg.type = msgSync → readsOnly v = true → s.parsed = true)
  | .acquireReader none, s, _, _ => s.session.causalConsistency = true →
    ∀ b ∈ s.balancer.backends, b.healthy = true → s.session.lastWriteLSN ≤ b.replayLSN
  | _, _, _, _ => True

abbrev heedful : Machine Ans Scene := (timed env).restrict (Heeds env)

end

def Suits (s : Scene) (b : Backend Pool) : Prop :=
  if s.session.causalConsistency then s.session.lastWriteLSN ≤ b.replayLSN
  else ∀ w ∈ s.lastWrite, w + s.session.readAfterWriteDelay ≤ s.now

def Fresh : Op → Scene → Prop
  | .send c r, s => isBatch r = true → ∀ b, s.reading = some (c, b) → Suits s b
  | _, _ => True

section

variable {env : Env}

structure Steady (v : Vars) (s : Scene) : Prop where
  past : ∀ w ∈ s.lastWrite, w ≤ s.now
  since : ∀ w ∈ s.lastWrite, ∃ u, v.session.lastWriteTime = some u ∧ w ≤ u
  parsed : s.parsed = true → v.extRoute = .reader → ∀ w ∈ s.lastWrite,
    w + v.session.readAfterWriteDelay ≤ s.now

structure During (env : Env) (v : Vars) (i : Input) (last : Option Int) (parsed : Bool) (w : View)
    (s : Scene) : Prop where
  session : s.session = v.session
  now : s.now = i.now
  type : s.type = i.msg.type
  ahead : s.views.ahead = w
  reading : i.msg.type = msgSync → ∀ x, s.reading = some x → readsOnly v = true ∧
    (v.session.causalConsistency = true → v.session.lastWriteLSN ≤ x.2.replayLSN)
  kept : v.session.causalConsistency = false → s.lastWrite = last ∧ s.parsed = parsed ∨
    s.lastWrite = some i.now ∧ s.parsed = false ∧ i.msg.type = msgQuery ∧ blocked env i = false ∧
      noted env.toEnv v.session (extractQueryText i.msg.payload) = true

variable {r : Request} {t : Scene} {v' : Vars}

theorem sync_of_isBatch {v : Vars} {i : Input} (hr : r ∈ requests env v i)
    (hbatch : isBatch r = true) : i.msg.type = msgSync := by
  unfold requests extRequests at hr
  split at hr
  · split at hr
    · simp at hr
    · obtain rfl := List.mem_singleton.mp hr
      exact nomatch hbatch
  · split at hr
    · assumption
    · split at hr
      · obtain ⟨stmt, _, rfl⟩ := List.mem_map.mp hr
        exact nomatch hbatch
      · simp at hr

theorem unblocked_of_mem {v : Vars} {i : Input} (hquery : i.msg.type = msgQuery)
    (hr : r ∈ requests env v i) : blocked env i = false := by
  rw [requests, if_pos hquery] at hr
  cases hblocked : blocked env i with
  | false => rfl
  | true => simp [hblocked] at hr

variable {v : Vars} {i : Input} {last : Option Int} {parsed : Bool} {w : View} {s : Scene}

theorem During.balancer (h : During env v i last parsed w s) (b : RoundRobin Pool) :
    During env v i last parsed w { s with balancer := b } :=
    ⟨h.session, h.now, h.type, h.ahead, h.reading, h.kept⟩

theorem During.away (h : During env v i last parsed w s) :
    During env v i last parsed w { s with reading := none } :=
  ⟨h.session, h.now, h.type, h.ahead, fun _ _ hx => (nomatch hx), h.kept⟩

theorem During.suits (h : During env v i last parsed w s) (hsync : i.msg.type = msgSync)
    (hout : v.session.causalConsistency = false → readsOnly v = true →
      ∀ x ∈ last, x + v.session.readAfterWriteDelay ≤ i.now) {c : Conn} {b : Backend Pool}
    (hb : s.reading = some (c, b)) : Suits s b := by
  obtain ⟨hreads, hcausal⟩ := h.reading hsync _ hb
  unfold Suits
  rw [h.session, h.now]
  cases hmode : v.session.causalConsistency with
  | true => exact hcausal hmode
  | false =>
    have hlast : s.lastWrite = last := by
      obtain ⟨hlast, _⟩ | ⟨_, _, hquery, _⟩ := h.kept hmode
      · exact hlast
      · rw [hsync] at hquery
        exact absurd hquery (by decide)
    rw [hlast]
    exact hout hmode hreads

theorem During.sent (h : During env v i last parsed w s)
    (hwrites : v.session.causalConsistency = false → ∀ r ∈ requests env v i,
      writes env v.session w r = true → i.msg.type = msgQuery ∧
      noted env.toEnv v.session (extractQueryText i.msg.payload) = true)
    (hr : r ∈ requests env v i) (hw : writes env s.session s.views.ahead r = true) :
    During env v i last parsed w { s with lastWrite := some s.now, parsed := false } := by
  refine ⟨h.session, h.now, h.type, h.ahead, h.reading, fun hmode => .inr ?_⟩
  rw [h.session, h.ahead] at hw
  obtain ⟨hquery, hnoted⟩ := hwrites hmode r hr hw
  exact ⟨congrArg some h.now, rfl, hquery, unblocked_of_mem hquery hr, hnoted⟩

theorem parsedAfter_idem (type : Byte) (parsed : Bool) :
    parsedAfter type (parsedAfter type parsed) = parsedAfter type parsed := by
  unfold parsedAfter
  cases type == msgParse with
  | true => rfl
  | false =>
    cases type != msgSync <;> simp

theorem During.allow {before : Bool} (h : During env v i last (parsedAfter i.msg.type before) w s)
    (admitted : Bool) :
    During env v i last (parsedAfter i.msg.type before) w { s with
        views := s.views.accept admitted
        parsed := if admitted then parsedAfter s.type s.parsed else s.parsed } := by
  refine ⟨h.session, h.now, h.type, by simpa using h.ahead, h.reading, fun hmode => ?_⟩
  have hparsed : ∀ x, s.parsed = x → parsedAfter i.msg.type x = x →
      (if admitted then parsedAfter s.type s.parsed else s.parsed) = x := by
    intro x hx hidem
    rw [hx, h.type]
    split
    · exact hidem
    · rfl
  obtain ⟨hlast, hx⟩ | ⟨hlast, hx, hquery, hnoted⟩ := h.kept hmode
  · exact .inl ⟨hlast, hparsed _ hx (parsedAfter_idem _ _)⟩
  · exact .inr ⟨hlast, hparsed false hx (by rw [hquery]; rfl), hquery, hnoted⟩

theorem acquired_of_next {minLSN : Option Nat} {reader : Conn × Pool}
    (h : t ∈ next env (.acquireReader minLSN) s (some reader)) :
    ∃ b, (s.balancer.choose (minLSN.getD 0)).1 = .found b ∧
      t = { s with
        balancer := (s.balancer.choose (minLSN.getD 0)).2, reading := some (reader.1, b) } := by
  simp only [next] at h
  split at h
  · rename_i b r hchoose
    rw [hchoose]
    exact ⟨b, rfl, (mem_guard.mp h).2⟩
  · cases h

theorem During.acquired (h : During env v i last parsed w s) {minLSN : Option Nat}
    (hmin : minLSN ∈ readerAsks env v i)
    (hheeds : minLSN = none → s.session.causalConsistency = true → ∀ b ∈ s.balancer.backends,
      b.healthy = true → s.session.lastWriteLSN ≤ b.replayLSN)
    {b : Backend Pool} (hb : (s.balancer.choose (minLSN.getD 0)).1 = .found b) (r : RoundRobin Pool)
    (c : Conn) : During env v i last parsed w { s with balancer := r, reading := some (c, b) } := by
  refine ⟨h.session, h.now, h.type, h.ahead, fun hsync x hx => ?_, h.kept⟩
  obtain rfl := Option.some.inj hx
  have hquery : i.msg.type ≠ msgQuery := by rw [hsync]; decide
  rw [readerAsks, if_neg hquery, if_pos hsync, batchAsks] at hmin
  cases hreads : readsOnly v with
  | false => simp [hreads] at hmin
  | true =>
    obtain rfl : minLSN = none := by simpa [hreads] using hmin
    obtain ⟨hmem, hhealthy, _⟩ := RoundRobin.choose_found hb
    have hall := hheeds rfl
    rw [h.session] at hall
    exact ⟨rfl, fun hmode => hall hmode b hmem hhealthy⟩

theorem stable_during
    (hwrites : v.session.causalConsistency = false → ∀ r ∈ requests env v i,
      writes env v.session w r = true → i.msg.type = msgQuery ∧
      noted env.toEnv v.session (extractQueryText i.msg.payload) = true)
    (hout : i.msg.type = msgSync → v.session.causalConsistency = false → readsOnly v = true →
      ∀ x ∈ last, x + v.session.readAfterWriteDelay ≤ i.now) :
    Stable (heedful env) Fresh (Sends (requests env v i) (readerAsks env v i))
      (During env v i last (parsedAfter i.msg.type parsed) w) := by
  intro o s ho hs
  refine ⟨?_, fun ans t ht => ?_⟩
  · cases o with
    | send c r =>
      intro hbatch b hb
      have hsync := sync_of_isBatch ho hbatch
      exact hs.suits hsync (hout hsync) hb
    | _ => trivial
  obtain ⟨⟨⟨u, hu, b, _, rfl⟩, _⟩, hheeds⟩ := ht
  refine During.balancer ?_ b
  cases o with
  | recv v | leave v => exact ho.elim
  | allow => exact List.mem_singleton.mp hu ▸ hs.allow ans
  | acquireWriter | acquire p => exact List.mem_singleton.mp hu ▸ hs.away
  | acquireReader minLSN =>
    cases ans with
    | none => exact List.mem_singleton.mp hu ▸ hs.balancer _
    | some reader =>
      obtain ⟨b', hb', rfl⟩ := acquired_of_next hu
      refine hs.acquired ho (fun hnone => ?_) hb' _ _
      subst hnone
      exact hheeds
  | send c r =>
    cases ans with
    | false => exact List.mem_singleton.mp hu ▸ hs
    | true =>
      rw [List.mem_singleton.mp hu]
      split
      · rename_i hw
        exact hs.sent hwrites ho (Bool.and_eq_true_iff.mp hw).2
      · exact hs
  | _ => exact List.mem_singleton.mp hu ▸ hs

/-! ## From loop head to loop head -/

theorem outside_of_routeLocked {s : Session} {now : Int} {query : Bytes}
    (hmode : s.causalConsistency = false) (h : routeLocked env.toEnv s now query = .reader) :
    recentWrite s now = false := by
  unfold routeLocked at h
  dsimp only at h
  split at h
  · exact nomatch h
  split at h
  · exact nomatch h
  split at h
  · exact nomatch h
  · cases hrecent : recentWrite s now with
    | false => rfl
    | true => simp [hmode, hrecent] at h

theorem le_of_not_recent {s : Session} {now x u : Int} (h : recentWrite s now = false)
    (hu : s.lastWriteTime = some u) (hx : x ≤ u) (hnow : x ≤ now) :
    x + s.readAfterWriteDelay ≤ now := by
  simp only [recentWrite, hu, Bool.and_eq_false_iff, decide_eq_false_iff_not] at h
  omega

theorem Steady.later (h : Steady v s) (hlast : t.lastWrite = s.lastWrite)
    (hparsed : t.parsed = s.parsed) (hnow : s.now ≤ t.now) : Steady v t := by
  refine ⟨fun x hx => ?_, fun x hx => h.since x (hlast ▸ hx), fun hp hr x hx => ?_⟩
  · exact (h.past x (hlast ▸ hx)).trans hnow
  · exact (h.parsed (hparsed ▸ hp) hr x (hlast ▸ hx)).trans hnow

theorem since_behind (hb : Behind env i v v') {x : Int}
    (hx : ∃ u, v.session.lastWriteTime = some u ∧ x ≤ u) (hnow : x ≤ i.now) :
    ∃ u, v'.session.lastWriteTime = some u ∧ x ≤ u := by
  rw [hb.time]
  split
  · obtain htime | htime := (@ReadAfterWrite.passes_routeQueryLocked env.toEnv v.session i.now
      (extractQueryText i.msg.payload)).time
    · exact htime.symm ▸ hx
    · exact ⟨i.now, htime, hnow⟩
  · exact hx

theorem outside_behind (hb : Behind env i v v') (hmode : v.session.causalConsistency = false)
    (h : Steady v s) (hnow : s.now ≤ i.now) (hparsed : parsedAfter i.msg.type s.parsed = true)
    (hroute : v'.extRoute = .reader) :
    ∀ x ∈ s.lastWrite, x + v'.session.readAfterWriteDelay ≤ i.now := by
  intro x hx
  rw [hb.delay]
  obtain hsync | hroute := hb.route hroute
  · simp [parsedAfter, hsync, msgSync, msgParse] at hparsed
  split at hroute
  · obtain ⟨query, hquery⟩ := hroute
    obtain ⟨u, hu, hxu⟩ := h.since x hx
    exact le_of_not_recent (outside_of_routeLocked hmode hquery) hu hxu ((h.past x hx).trans hnow)
  · rename_i hparse
    have hbefore : s.parsed = true := by
      have hne : (i.msg.type == msgParse) = false := by simpa using hparse
      rw [parsedAfter, hne, Bool.false_or, Bool.and_eq_true] at hparsed
      exact hparsed.1
    exact (h.parsed hbefore hroute x hx).trans hnow

theorem steady_behind (hb : Behind env i v v') (hmode : v.session.causalConsistency = false)
    (h : Steady v s) (hnow : s.now ≤ i.now)
    (ht : During env v i s.lastWrite (parsedAfter i.msg.type s.parsed) w t) : Steady v' t := by
  obtain ⟨hlast, hparsed⟩ | ⟨hlast, hparsed, hquery, hblocked, hnoted⟩ := ht.kept hmode
  · refine ⟨fun x hx => ?_, fun x hx => ?_, fun hp hr x hx => ?_⟩
    · rw [hlast] at hx
      exact ht.now ▸ (h.past x hx).trans hnow
    · rw [hlast] at hx
      exact since_behind hb (h.since x hx) ((h.past x hx).trans hnow)
    · rw [hlast] at hx
      exact ht.now ▸ outside_behind hb hmode h hnow (hparsed ▸ hp) hr x hx
  · have hx : ∀ x ∈ t.lastWrite, x = i.now := fun x hx => (Option.some.inj (hlast ▸ hx)).symm
    refine ⟨fun x hx' => ?_, fun x hx' => ?_, fun hp => by simp [hparsed] at hp⟩
    · rw [hx x hx', ht.now]
    · have htime :=
        (@ReadAfterWrite.route_of_noted env.toEnv ⟨i.now, extractQueryText i.msg.payload⟩
        v.session hnoted).2 hmode
      rw [hb.time, if_pos ⟨hquery, hblocked⟩]
      exact ⟨i.now, htime, (hx x hx').le⟩

/-! ## The loop -/

def Loop (v : Vars) (s : Scene) : Prop := v.session.causalConsistency = false → Steady v s

theorem safe_client (m : ClientMsg) (s : Scene) :
    Safe (heedful env) Fresh (toClient m) (fun _ t => ∃ b, t = { s with balancer := b }) s := by
  refine ⟨trivial, fun _ t ht => ?_⟩
  obtain ⟨⟨⟨u, hu, b, _, rfl⟩, _⟩, _⟩ := ht
  obtain rfl := List.mem_singleton.mp hu
  exact ⟨b, rfl⟩

theorem safe_deny (text : ErrorText) (b : Bool) (h : Loop v s) :
    Safe (heedful env) Fresh (do sendError text; sendReadyForQuery b; return .next v)
      (Flow.Post Loop fun _ _ => True) s := by
  refine safe_bind.mpr ((safe_client _ s).bind fun _ t ht => ?_)
  refine safe_bind.mpr ((safe_client _ t).bind fun _ u hu => fun hmode => ?_)
  obtain ⟨b₁, rfl⟩ := ht
  obtain ⟨b₂, rfl⟩ := hu
  exact (h hmode).later rfl rfl (Int.le_refl _)

theorem safe_dispatch (h : Loop v s) (hnow : s.now ≤ i.now)
    (hheeds : v.session.causalConsistency = false →
      (∀ r ∈ requests env v i, writes env v.session (s.views.view.next i.msg) r = true →
      i.msg.type = msgQuery ∧ noted env.toEnv v.session (extractQueryText i.msg.payload) = true) ∧
      (i.msg.type = msgSync → readsOnly v = true → s.parsed = true))
    (ht : During env v i s.lastWrite (parsedAfter i.msg.type s.parsed)
      (s.views.view.next i.msg) t) :
    Safe (heedful env) Fresh (dispatch env i v) (Flow.Post Loop fun _ _ => True) t := by
  have hout : i.msg.type = msgSync → v.session.causalConsistency = false → readsOnly v = true →
      ∀ x ∈ s.lastWrite, x + v.session.readAfterWriteDelay ≤ i.now := by
    intro hsync hmode hreads x hx
    have hroute : v.extRoute = .reader := by
      simp only [readsOnly, Bool.and_eq_true, beq_iff_eq] at hreads
      exact hreads.1.1
    exact ((h hmode).parsed ((hheeds hmode).2 hsync hreads) hroute x hx).trans hnow
  have hstable := @stable_during env v i s.lastWrite s.parsed (s.views.view.next i.msg)
    (fun hmode => (hheeds hmode).1) hout
  refine (((sends_dispatch i v).safe hstable ht).returns (returns_dispatch i v)).mono fun r u hu =>
    ?_
  cases r with
  | stop v' => trivial
  | next v' =>
    intro hmode
    have hmode : v.session.causalConsistency = false := hu.2.causal.symm.trans hmode
    exact steady_behind hu.2 hmode (h hmode) hnow hu.1

theorem safe_round (v : Vars) (h : Loop v s) :
    Safe (heedful env) Fresh (round env v) (Flow.Post Loop fun _ _ => True) s := by
  refine safe_bind.mpr ⟨trivial, fun i t ht => ?_⟩
  obtain ⟨⟨⟨u, hu, b, _, rfl⟩, hclock⟩, hheeds⟩ := ht
  cases i with
  | none => trivial
  | some i =>
    obtain rfl := List.mem_singleton.mp hu
    change Safe _ _ (handleMessage env i v) _ _
    unfold handleMessage
    split
    · trivial
    refine safe_bind.mpr ⟨trivial, fun admitted t ht => ?_⟩
    obtain ⟨⟨⟨u, hu, b', _, rfl⟩, _⟩, _⟩ := ht
    obtain rfl := List.mem_singleton.mp hu
    cases admitted with
    | false => exact safe_deny _ _ fun hmode => (h hmode).later rfl rfl hclock
    | true => exact safe_dispatch h hclock hheeds ⟨rfl, rfl, rfl, rfl, fun _ _ hx => (nomatch hx),
        fun _ => .inl ⟨rfl, rfl⟩⟩

theorem stable_fresh : Stable (heedful env) Fresh (Sends [] []) fun _ => True := by
  intro o s ho _
  refine ⟨?_, fun _ _ _ => trivial⟩
  cases o with
  | send c r => exact absurd ho List.not_mem_nil
  | _ => trivial

/-- A reader that gets a batch was recorded behind the session's position, or the delay is over. -/
theorem reader_suits {n : Nat} {session : Session} {now : Int} {balancer : RoundRobin Pool}
    {p : Run Unit} {t : Scene}
    (hr : Reach (heedful env) (relayQueries env n session) (Scene.new session now balancer) p t)
    {c : Conn} {r : Request} (hp : p.head = some (.send c r)) (hbatch : isBatch r = true)
    {b : Backend Pool} (hb : t.reading = some (c, b)) :
    if t.session.causalConsistency then t.session.lastWriteLSN ≤ b.replayLSN
    else ∀ x ∈ t.lastWrite, x + t.session.readAfterWriteDelay ≤ t.now := by
  have hstart : Loop (Vars.init session) (Scene.new session now balancer) := fun _ =>
    ⟨fun _ hx => (nomatch hx), fun _ hx => (nomatch hx), fun _ _ _ hx => (nomatch hx)⟩
  have hsafe : Safe (heedful env) Fresh (relayQueries env n session) (fun _ _ => True)
      (Scene.new session now balancer) :=
    safe_loop n session (fun v _ h => safe_round v h) (fun _ _ _ => trivial)
      (fun _ _ _ => trivial) stable_fresh hstart
  exact hsafe.guarded hr hp hbatch b hb

end

/-! ## Runs -/

theorem step_of_first (env : Env) (o : Op) (s : Scene) (ans : Ans o) (t : Scene)
    (h : first (next env) o s ans = some t) : step env o s ans t :=
  ⟨t, ofList_of_first _ o s ans t h, t.balancer, .refl, rfl⟩

def causalInput (type : Byte) (payload : Bytes) : Input :=
  { plainInput type payload with cfg :=
    { (plainInput type payload).cfg with causalConsistency := true } }

def causalEnv : Env := { plainEnv false with classify := Classifier.classify id }

def writeThenRead : List Input :=
  [causalInput msgQuery (ascii "INSERT INTO t VALUES (1)" ++ [0]),
    causalInput msgParse ([0] ++ ascii "SELECT * FROM t" ++ [0, 0, 0]), causalInput msgSync []]

theorem batch_to_stale_reader :
    ∃ p t c r b, Reach (timed causalEnv) (relayQueries causalEnv 3 (Session.new 0 true false))
        (Scene.new (Session.new 0 true false) 0 ((RoundRobin.new [1]).setReplayLSN 1 5)) p t ∧
      p.head = some (.send c r) ∧ isBatch r = true ∧ t.reading = some (c, b) ∧
      t.session.causalConsistency = true ∧ b.replayLSN < t.session.lastWriteLSN := by
  have hreach := drive_reach_restrict (Script.replyAt 11 (1, 1)) (step_of_first causalEnv)
    (OnRecv fun _ i s => s.now ≤ i.now) 13 (relayQueries causalEnv 3 (Session.new 0 true false))
    ⟨writeThenRead, [0], [0]⟩
      (Scene.new (Session.new 0 true false) 0 ((RoundRobin.new [1]).setReplayLSN 1 5))
  exact ⟨_, _, 1, .batch [(causalInput msgParse ([0] ++ ascii "SELECT * FROM t" ++ [0, 0, 0])).msg]
    (causalInput msgSync []).msg, ⟨0, 1, true, 5⟩, hreach, rfl,
    rfl, by decide +kernel, by decide +kernel, by decide +kernel⟩

instance (env : Env) :
    (o : Op) → (s : Scene) → (ans : Ans o) → (t : Scene) → Decidable (Heeds env o s ans t)
  | .recv _, _, some _, _ => inferInstanceAs (Decidable (_ → (∀ _ ∈ _, _ → _ ∧ _) ∧ (_ → _ → _)))
  | .acquireReader none, _, _, _ => inferInstanceAs (Decidable (_ → ∀ _ ∈ _, _ → _))
  | .recv _, _, none, _ | .acquireReader (some _), _, _, _ | .leave _, _, _, _
  | .writerPool, _, _, _ | .acquireWriter, _, _, _ | .allow, _, _, _ | .client _, _, _, _
  | .acquire _, _, _, _ | .send _ _, _, _, _ | .relay _, _, _, _ | .collect _, _, _, _
  | .relayDescribe _, _, _, _ | .queryLSN _, _, _, _ | .reset _, _, _, _ | .release _ _, _, _, _
  | .discard _ _, _, _, _ | .nilPool _, _, _, _ | .lookup _ _, _, _, _ | .store _ _, _, _, _
  | .invalidate _, _, _, _ => .isTrue trivial

theorem reader_suits_prepared :
    ∃ p t,
      p.head =
      some (.send 1
        (.batch [(causalInput msgParse ([0] ++ ascii "SELECT * FROM t" ++ [0, 0, 0])).msg]
        (causalInput msgSync []).msg)) ∧
      t.reading = some (1, ⟨0, 1, true, 11⟩) ∧
      (if t.session.causalConsistency then t.session.lastWriteLSN ≤ 11
        else ∀ x ∈ t.lastWrite, x + t.session.readAfterWriteDelay ≤ t.now) ∧
      Reach (heedful causalEnv) (relayQueries causalEnv 3 (Session.new 0 true false))
        (Scene.new (Session.new 0 true false) 0 ((RoundRobin.new [1]).setReplayLSN 1 11)) p t := by
  have hreach := drive_reach_restrict (Script.replyAt 11 (1, 1))
    (restrict_of_onlyWhen (step_of_first causalEnv) (OnRecv fun _ i s => s.now ≤ i.now))
      (Heeds causalEnv) 13
    (relayQueries causalEnv 3 (Session.new 0 true false)) ⟨writeThenRead, [0], [0]⟩
    (Scene.new (Session.new 0 true false) 0 ((RoundRobin.new [1]).setReplayLSN 1 11))
  refine ⟨_, _, rfl, ?reading, reader_suits hreach rfl rfl ?reading, hreach⟩
  decide +kernel

end PgMux.PreparedReads
