import PgMux.ClientView
import PgMux.QueryCache

/-!
# Writes and the cache

A simple write invalidates the tables it changes once its reply is relayed. Batches and synthesized
queries do not. Entries carry the time they were stored at.
-/

namespace PgMux.Invalidation

open Effects Protocol QueryCache Relay
open Router hiding Env
open Pools (Conn)

structure Extractor where
  key : Relay.Config → Bool → Bytes → Key
  writeTables : Relay.Config → Bytes → List Bytes
  readTables : Relay.Config → Bytes → List Bytes

structure Shop where
  cache : Cache
  storedAt : Key → Nat
  clock : Nat
  cfg : Relay.Config
  views : Views
  sent : List Bytes
  written : List (Bytes × Nat)

section

variable (env : Env) (x : Extractor)

def label (cfg : Relay.Config) (text : Bytes) : QueryType :=
  classifyQueryParsed env cfg text (parsedQuery env cfg text)

def owes (cfg : Relay.Config) (texts : List Bytes) : List Bytes :=
  (texts.filter (label env cfg · == .write)).flatMap (x.writeTables cfg)

namespace Shop

def store (s : Shop) (key : Key) (result : Bytes) (tables : List Bytes) (now : Int) : Shop :=
  if 0 < s.cache.cfg.maxSize ∧ s.cache.cfg.maxSize < result.length then s
  else
    { s with
      cache := s.cache.set key result tables now
      storedAt := Function.update s.storedAt key s.clock
      clock := s.clock + 1 }

def relayed (s : Shop) : Shop :=
  { s with written := (owes env x s.cfg s.sent).map (·, s.clock) ++ s.written, sent := [] }

def invalidate (s : Shop) (tables : List Bytes) : Shop :=
  { s with cache := tables.foldl Cache.invalidateTable s.cache }

end Shop

inductive Touch (s : Shop) : Shop → Prop where
  | get (key : Key) (now : Int) : Touch s { s with cache := (s.cache.get key now).2 }
  | store (key : Key) (result : Bytes) (tables : List Bytes) (now : Int) :
      Touch s (s.store key result tables now)
  | invalidate (tables : List Bytes) : Touch s (s.invalidate tables)

/-- A reply to be stored and the time are given from outside. -/
def next (result : Bytes) (now : Int) : (o : Op) → Shop → Ans o → List Shop
  | .recv _, s, some i => [{ s with cfg := i.cfg, views := s.views.read i.msg, sent := [] }]
  | .allow, s, admitted => [{ s with views := s.views.accept admitted }]
  | .send _ r, s, ok => [{ s with sent := if ok then s.views.ahead.texts r else [] }]
  | .relay _, s, ok => [if ok then s.relayed env x else { s with sent := [] }]
  | .collect _, s, reply => [if reply.isSome then s.relayed env x else { s with sent := [] }]
  | .lookup extended query, s, hit =>
    let r := s.cache.get (x.key s.cfg extended query) now
    if hit = r.1.isSome then [{ s with cache := r.2 }] else []
  | .store extended query, s, _ =>
    [s.store (x.key s.cfg extended query) result (x.readTables s.cfg query) now]
  | .invalidate query, s, _ => [s.invalidate (x.writeTables s.cfg query)]
  | _, s, _ => [s]

def step : Machine Ans Shop := fun o s ans t => ∃ result now, t ∈ next env x result now o s ans

def machine : Machine Ans Shop :=
  fun o s ans t => ∃ u, Relation.ReflTransGen Touch s u ∧ step env x o u ans t

structure CleanBut (due : List Bytes) (s : Shop) : Prop where
  clean : ∀ w ∈ s.written, w.1 ∉ due → ∀ e ∈ s.cache.entries, w.1 ∈ e.tables →
    w.2 ≤ s.storedAt e.key
  past : ∀ w ∈ s.written, w.2 ≤ s.clock

abbrev Clean : Shop → Prop := CleanBut []

end

/-! ## Steps -/

section

variable {env : Env} {x : Extractor} {due : List Bytes} {s t : Shop} {i : Input} {v : Vars}

theorem CleanBut.shrink (h : CleanBut due s) {cache : Cache}
    (hcache : ∀ e ∈ cache.entries, e ∈ s.cache.entries) :
    CleanBut due { s with cache := cache } where
  clean w hw hdue e he := h.clean w hw hdue e (hcache e he)
  past := h.past

theorem CleanBut.get (h : CleanBut due s) (key : Key) (now : Int) :
    CleanBut due { s with cache := (s.cache.get key now).2 } := h.shrink fun _ he =>
    Cache.mem_get he

theorem CleanBut.invalidate (h : CleanBut due s) (tables : List Bytes) :
    CleanBut due (s.invalidate tables) := h.shrink fun _ he =>
    (Cache.mem_foldl_invalidateTable he).1

theorem CleanBut.store (h : CleanBut due s) (key : Key) (result : Bytes) (tables : List Bytes)
    (now : Int) : CleanBut due (s.store key result tables now) := by
  unfold Shop.store
  split
  · exact h
  refine ⟨fun w hw hdue e he ht => ?_, fun w hw => Nat.le_succ_of_le (h.past w hw)⟩
  change w.2 ≤ Function.update s.storedAt key s.clock e.key
  by_cases hkey : e.key = key
  · rw [hkey, Function.update_self]
    exact h.past w hw
  · rw [Function.update_of_ne hkey]
    obtain he | rfl := Cache.mem_set he
    · exact h.clean w hw hdue e he ht
    · exact absurd rfl hkey

theorem CleanBut.touch (h : CleanBut due s) (ht : Touch s t) : CleanBut due t := by
  cases ht with
  | get key now => exact h.get key now
  | store key result tables now => exact h.store key result tables now
  | invalidate tables => exact h.invalidate tables

theorem Touch.kept (h : Touch s t) : t.cfg = s.cfg ∧ t.views = s.views ∧ t.sent = s.sent := by
  cases h with
  | get key now | invalidate tables => exact ⟨rfl, rfl, rfl⟩
  | store key result tables now =>
    unfold Shop.store
    split
    · exact ⟨rfl, rfl, rfl⟩
    · exact ⟨rfl, rfl, rfl⟩

theorem CleanBut.settled (h : CleanBut due s) {tables : List Bytes} (hdue : ∀ t ∈ due, t ∈ tables) :
    Clean (s.invalidate tables) where
  clean w hw _ e he ht := by
    obtain ⟨he, hnot⟩ := Cache.mem_foldl_invalidateTable he
    exact h.clean w hw (fun hd => hnot w.1 (hdue w.1 hd) ht) e he ht
  past := h.past

structure Held (env : Env) (x : Extractor) (cfg : Relay.Config) (view : View)
    (due awaited : List Bytes) (s : Shop) : Prop where
  clean : CleanBut due s
  cfg_eq : s.cfg = cfg
  view_eq : s.views.ahead = view
  owes_eq : owes env x cfg s.sent = awaited

def Settled : Op → Shop → Prop
  | .recv _, s | .leave _, s => Clean s
  | _, _ => True

variable {cfg : Relay.Config} {view : View} {awaited : List Bytes}

theorem Held.touches (h : Held env x cfg view due awaited s)
    (ht : Relation.ReflTransGen Touch s t) : Held env x cfg view due awaited t := by
  induction ht with
  | refl => exact h
  | tail _ ht ih =>
    obtain ⟨hcfg, hview, hsent⟩ := ht.kept
    exact ⟨ih.clean.touch ht, hcfg.trans ih.cfg_eq, hview ▸ ih.view_eq, hsent ▸ ih.owes_eq⟩

theorem Held.relayed (h : Held env x cfg view due awaited s) :
    Held env x cfg view (awaited ++ due) [] (s.relayed env x) := by
  have howes : owes env x s.cfg s.sent = awaited := by rw [h.cfg_eq, h.owes_eq]
  refine ⟨⟨fun w hw hdue e he ht => ?_, fun w hw => ?_⟩, h.cfg_eq, h.view_eq, rfl⟩
  · simp only [Shop.relayed, howes] at hw
    simp only [List.mem_append, not_or] at hdue
    obtain hw | hw := List.mem_append.mp hw
    · obtain ⟨t, ht', rfl⟩ := List.mem_map.mp hw
      exact absurd ht' hdue.1
    · exact h.clean.clean w hw hdue.2 e he ht
  · simp only [Shop.relayed, howes] at hw
    obtain hw | hw := List.mem_append.mp hw
    · obtain ⟨t, _, rfl⟩ := List.mem_map.mp hw
      exact Nat.le_refl _
    · exact h.clean.past w hw

theorem Held.unsent (h : Held env x cfg view due awaited s) :
    Held env x cfg view due [] { s with sent := [] } :=
  ⟨⟨h.clean.clean, h.clean.past⟩, h.cfg_eq, h.view_eq, rfl⟩

theorem Held.sent (h : Held env x cfg view due awaited s) (r : Request) :
    Held env x cfg view due (owes env x cfg (view.texts r))
      { s with sent := s.views.ahead.texts r } :=
  ⟨⟨h.clean.clean, h.clean.past⟩, h.cfg_eq, h.view_eq, by rw [h.view_eq]⟩

theorem Held.store (h : Held env x cfg view due awaited s) (key : Key) (result : Bytes)
    (tables : List Bytes) (now : Int) :
    Held env x cfg view due awaited (s.store key result tables now) :=
  h.touches (.single (.store key result tables now))

theorem Held.step {o : Op} {ans : Ans o} {rs : List Request} {ls : List (Option Nat)}
    (h : Held env x cfg view due [] s) (ho : Sends rs ls o)
    (hrs : ∀ r ∈ rs, owes env x cfg (view.texts r) = []) (hstep : step env x o s ans t) :
    Held env x cfg view due [] t := by
  obtain ⟨result, now, hnext⟩ := hstep
  cases o with
  | recv v => exact ho.elim
  | lookup extended query =>
    obtain ⟨-, rfl⟩ := mem_guard.mp hnext
    exact h.touches (.single (.get _ now))
  | allow =>
    obtain rfl := List.mem_singleton.mp hnext
    exact ⟨⟨h.clean.clean, h.clean.past⟩, h.cfg_eq, by simpa using h.view_eq, h.owes_eq⟩
  | send c r =>
    rw [List.mem_singleton.mp hnext]
    cases ans with
    | false => exact h.unsent
    | true =>
      have hsent := h.sent r
      rw [hrs r ho] at hsent
      exact hsent
  | relay c =>
    rw [List.mem_singleton.mp hnext]
    cases ans with
    | true => exact h.relayed
    | false => exact h.unsent
  | collect c =>
    rw [List.mem_singleton.mp hnext]
    cases ans with
    | none => exact h.unsent
    | some b => exact h.relayed
  | store extended query =>
    rw [List.mem_singleton.mp hnext]
    exact h.store _ result _ now
  | invalidate query =>
    rw [List.mem_singleton.mp hnext]
    exact h.touches (.single (.invalidate _))
  | _ => exact List.mem_singleton.mp hnext ▸ h

theorem stable_held {C : Vars → Input → Shop → Prop} {rs : List Request} {ls : List (Option Nat)}
    (hrs : ∀ r ∈ rs, owes env x cfg (view.texts r) = []) :
    Stable ((machine env x).restrict (OnRecv C)) Settled (Sends rs ls)
      (Held env x cfg view due []) := by
  intro o s ho hs
  refine ⟨?_, fun ans t ht => ?_⟩
  · cases o with
    | recv v | leave v => exact ho.elim
    | _ => trivial
  · obtain ⟨⟨u, htouch, hstep⟩, _⟩ := ht
    exact (hs.touches htouch).step ho hrs hstep

/-! ## Messages -/

def Invalidates (env : Env) (x : Extractor) (v : Vars) (i : Input) (t : Bytes) : Prop :=
  let query := extractQueryText i.msg.payload
  i.msg.type = msgQuery ∧ (routeWithTxState env.toEnv v.session i.now query).1.route = .writer ∧
    label env i.cfg query = .write ∧ t ∈ x.writeTables i.cfg query

/-- Whatever the message has written is invalidated by it. -/
def Covered (env : Env) (x : Extractor) (v : Vars) (i : Input) (s : Shop) : Prop :=
  ∀ r ∈ requests env v i, ∀ t ∈ owes env x i.cfg ((s.views.view.next i.msg).texts r),
    Invalidates env x v i t

abbrev covered (env : Env) (x : Extractor) : Machine Ans Shop :=
  (machine env x).restrict (OnRecv (Covered env x))

theorem safe_exchange (h : Held env x cfg view [] [] s) (c : Conn) (msg : Message) :
    Safe (covered env x) Settled (exchange c (.forward msg)) (fun ok t =>
      Held env x cfg view (if ok then owes env x cfg (view.texts (.forward msg)) else [])
        [] t) s := by
  refine safe_bind.mpr ⟨trivial, fun ok t ht => ?_⟩
  obtain ⟨⟨u, htouch, _, _, hnext⟩, _⟩ := ht
  obtain rfl := List.mem_singleton.mp hnext
  have hu := h.touches htouch
  cases ok with
  | false => exact hu.unsent
  | true =>
    refine ⟨trivial, fun ok t ht => ?_⟩
    obtain ⟨⟨w, htouch, _, _, hnext⟩, _⟩ := ht
    obtain rfl := List.mem_singleton.mp hnext
    have hw := (hu.sent (.forward msg)).touches htouch
    cases ok with
    | false => exact hw.unsent
    | true => simpa using hw.relayed

theorem Held.invalidated (h : Held env x cfg view due [] s) {tables : List Bytes}
    (hdue : ∀ t ∈ due, t ∈ tables) : Held env x cfg view [] [] (s.invalidate tables) :=
  ⟨h.clean.settled hdue, h.cfg_eq, h.view_eq, h.owes_eq⟩

theorem safe_handleWriteQuery (h : Held env x cfg view [] [] s) (hcache : env.queryCache = true)
    (c : Conn) (msg : Message) (query : Bytes) (qtype : QueryType) (session : Session)
    (hdue : ∀ t ∈ owes env x cfg (view.texts (.forward msg)), qtype = .write ∧
      t ∈ x.writeTables cfg query) :
    Safe (covered env x) Settled (handleWriteQuery env cfg c msg query qtype session)
      (fun _ t => Held env x cfg view [] [] t) s := by
  refine (safe_exchange h c msg).bind fun ok t ht => ?_
  cases ok with
  | false => exact ht
  | true =>
    have hnone : ∀ r ∈ ([] : List Request), owes env x cfg (view.texts r) = [] :=
      fun r hr => absurd hr List.not_mem_nil
    have hlsn : (lsnAfter (cfg.causalConsistency && qtype == .write) c).All (Sends [] []) := by
      unfold lsnAfter
      split
      · exact .perform trivial
      · exact .pure _
    refine hlsn.then (stable_held hnone) ht fun lsn u hu => ?_
    cases howes : owes env x cfg (view.texts (.forward msg)) with
    | nil =>
      rw [howes] at hu
      have hinv : (onlyIf (env.queryCache && qtype == .write)
          (invalidate query)).All (Sends [] []) :=
        all_onlyIf _ (.perform trivial)
      exact hinv.then (stable_held hnone) hu fun _ w hw => hw
    | cons t ts =>
      have hwrite : qtype = .write := (hdue t (by rw [howes]; exact List.mem_cons_self)).1
      have htables := fun t' ht' => (hdue t' ht').2
      simp only [onlyIf, hcache, hwrite, beq_self_eq_true, Bool.and_self, if_true]
      refine safe_bind.mpr ⟨trivial, fun _ w hw => ?_⟩
      obtain ⟨⟨u', htouch, _, _, hnext⟩, _⟩ := hw
      obtain rfl := List.mem_singleton.mp hnext
      have hu' := hu.touches htouch
      rw [hu'.cfg_eq]
      exact hu'.invalidated htables

theorem stable_quiet : Stable (covered env x) Settled (Sends [] []) (Held env x cfg view due []) :=
  stable_held fun _ hr => absurd hr List.not_mem_nil

theorem safe_writeSimple (h : Held env x i.cfg view [] [] s) (hcache : env.queryCache = true)
    (query : Bytes) (pq : Option PgQuery.ParseResult) (r : RoutedTx)
    (hdue : ∀ t ∈ owes env x i.cfg (view.texts (.forward i.msg)),
      classifyQueryParsed env i.cfg query pq = .write ∧ t ∈ x.writeTables i.cfg query) :
    Safe (covered env x) Settled (writeSimple env i query pq r v)
      (fun _ t => Held env x i.cfg view [] [] t) s := by
  refine safe_withWriter stable_quiet (fun t ht => ht) (fun p c acquired t ht => ?_) h
  refine (safe_handleWriteQuery ht hcache c i.msg query _ v.session hdue).bind fun _ u hu => ?_
  exact (all_settle _ _ _ _ _ _ _ _).safe stable_quiet hu

def writesSimple (env : Env) (v : Vars) (i : Input) : Prop :=
  i.msg.type = msgQuery ∧ blocked env i = false ∧
    (routeWithTxState env.toEnv v.session i.now (extractQueryText i.msg.payload)).1.route = .writer

theorem owes_of_not_writesSimple (hcov : Covered env x v i s) (hnot : ¬ writesSimple env v i) :
    ∀ r ∈ requests env v i, owes env x i.cfg ((s.views.view.next i.msg).texts r) = [] := by
  intro r hr
  by_contra hne
  obtain ⟨t, ht⟩ := List.exists_mem_of_ne_nil _ hne
  obtain ⟨hquery, hroute, _⟩ := hcov r hr t ht
  refine hnot ⟨hquery, ?_, hroute⟩
  rw [← Bool.not_eq_true]
  intro hblocked
  simp [requests, hquery, hblocked] at hr

theorem safe_handleQuery {s₀ : Shop} (hcache : env.queryCache = true) (hcov : Covered env x v i s₀)
    (hsimple : writesSimple env v i) (h : Held env x i.cfg (s₀.views.view.next i.msg) [] [] s) :
    Safe (covered env x) Settled (handleQuery env i v)
      (fun _ t => Held env x i.cfg (s₀.views.view.next i.msg) [] [] t) s := by
  obtain ⟨hquery, hblocked, hroute⟩ := hsimple
  change Safe _ _ (if blocked env i then _ else _) _ _
  rw [hblocked]
  unfold executeQuery
  dsimp only
  rw [hroute]
  refine safe_writeSimple h hcache _ _ _ fun t ht => ?_
  have hmem : Request.forward i.msg ∈ requests env v i := by
    simp [requests, hquery, hblocked]
  exact (hcov _ hmem t ht).2.2

theorem safe_handleMessage {s₀ : Shop} (hcache : env.queryCache = true)
    (hcov : Covered env x v i s₀) (h : Held env x i.cfg (s₀.views.view.next i.msg) [] [] s) :
    Safe (covered env x) Settled (handleMessage env i v)
      (fun _ t => Held env x i.cfg (s₀.views.view.next i.msg) [] [] t) s := by
  by_cases hsimple : writesSimple env v i
  · have hterm : i.msg.type ≠ msgTerminate := by rw [hsimple.1]; decide
    unfold handleMessage
    rw [if_neg hterm, dispatch_query hsimple.1]
    have hallow : allow.All (Sends [] []) := .perform trivial
    refine hallow.then stable_quiet h fun admitted t ht => ?_
    cases admitted with
    | true => exact safe_handleQuery hcache hcov hsimple ht
    | false =>
      exact (all_deny _ v trivial).safe stable_quiet ht
  · exact (all_handleMessage i v).safe (stable_held (owes_of_not_writesSimple hcov hsimple)) h

theorem CleanBut.touches (h : CleanBut due s) (ht : Relation.ReflTransGen Touch s t) :
    CleanBut due t ∧ t.views = s.views := by
  induction ht with
  | refl => exact ⟨h, rfl⟩
  | tail _ ht ih => exact ⟨ih.1.touch ht, ht.kept.2.1.trans ih.2⟩

theorem safe_round (hcache : env.queryCache = true) (v : Vars) (h : Clean s) :
    Safe (covered env x) Settled (round env v) (fun _ t => Clean t) s := by
  refine safe_bind.mpr ⟨h, fun i t ht => ?_⟩
  obtain ⟨⟨u, htouch, _, _, hnext⟩, hcov⟩ := ht
  obtain ⟨hu, hview⟩ := h.touches htouch
  cases i with
  | none => exact List.mem_singleton.mp hnext ▸ hu
  | some i =>
    have hheld : Held env x i.cfg (s.views.view.next i.msg) [] [] t := by
      obtain rfl := List.mem_singleton.mp hnext
      exact ⟨⟨hu.clean, hu.past⟩, rfl, by rw [hview]; rfl, rfl⟩
    exact (safe_handleMessage hcache hcov hheld).mono fun _ _ hend => hend.clean

theorem stable_settled : Stable (covered env x) Settled (Sends [] []) fun _ => True := by
  intro o s ho _
  refine ⟨?_, fun _ _ _ => trivial⟩
  cases o with
  | recv v | leave v => exact ho.elim
  | _ => trivial

/-- An entry of a written table was stored behind the relay of the write's reply. -/
theorem written_invalidated (hcache : env.queryCache = true) {n : Nat} {session : Session}
    {s t : Shop} {p : Run Unit} (hs : s.written = [])
    (hr : Reach (covered env x) (relayQueries env n session) s p t) {v : Vars}
    (hp : p.head = some (.recv v) ∨ p.head = some (.leave v)) :
    ∀ w ∈ t.written, ∀ e ∈ t.cache.entries, w.1 ∈ e.tables → w.2 ≤ t.storedAt e.key := by
  have hstart : Clean s := ⟨by simp [hs], by simp [hs]⟩
  have hsafe : Safe (covered env x) Settled (relayQueries env n session) (fun _ _ => True) s :=
    safe_session n session (fun v _ h => safe_round hcache v h)
      (fun _ _ h => h) stable_settled hstart
  have hclean : Clean t := by
    obtain hp | hp := hp
    · exact hsafe.guarded hr hp
    · exact hsafe.guarded hr hp
  intro w hw e he ht
  exact hclean.clean w hw List.not_mem_nil e he ht

end

instance (env : Env) (x : Extractor) (v : Vars) (i : Input) (t : Bytes) :
    Decidable (Invalidates env x v i t) :=
  inferInstanceAs (Decidable (_ ∧ _))

instance (env : Env) (x : Extractor) (v : Vars) (i : Input) (s : Shop) :
    Decidable (Covered env x v i s) :=
  inferInstanceAs (Decidable (∀ _ ∈ _, ∀ _ ∈ _, _))

theorem machine_of_first (env : Env) (x : Extractor) (o : Op) (s : Shop) (ans : Ans o) (t : Shop)
    (h : first (next env x [] 0) o s ans = some t) : machine env x o s ans t :=
  ⟨s, .refl, [], 0, ofList_of_first _ o s ans t h⟩

def tableT : Extractor := ⟨fun _ _ _ => 7, fun _ _ => [ascii "t"], fun _ _ => [ascii "t"]⟩

def cachedEnv : Env := { plainEnv false with queryCache := true }

def stocked : Shop where
  cache := (Cache.new ⟨100, 60, 0⟩).set 1 [1] [ascii "t"] 0
  storedAt := fun _ => 0
  clock := 1
  cfg := (plainQuery "").cfg
  views := Views.new
  sent := []
  written := []

def insertBatch : List Input :=
  [plainInput msgParse ([0] ++ ascii "INSERT INTO t VALUES (1)" ++ [0, 0, 0]),
    plainInput msgBind [0, 0, 0, 0, 0, 0, 0, 0], plainInput msgExecute [0, 0, 0, 0, 0],
    plainInput msgSync []]

theorem batch_leaves_entry :
    ∃ v p t, Reach (machine cachedEnv tableT)
      (relayQueries cachedEnv 5 (Session.new 0 false false)) stocked p t ∧
      p.head = some (.recv v) ∧ (ascii "t", 1) ∈ t.written ∧
      ∃ e ∈ t.cache.entries, ascii "t" ∈ e.tables ∧ t.storedAt e.key = 0 := by
  have hreach := drive_reach Script.reply (machine_of_first cachedEnv tableT) 13
    (relayQueries cachedEnv 5 (Session.new 0 false false)) ⟨insertBatch, [0], [0]⟩ stocked
  exact ⟨_, _, _, hreach,
    rfl, by decide +kernel, ⟨1, [1], [ascii "t"], 60⟩, by decide +kernel, by decide +kernel,
    by decide +kernel⟩

theorem written_invalidated_simple :
    ∃ v p t, Reach (covered cachedEnv tableT)
      (relayQueries cachedEnv 2 (Session.new 0 false false)) stocked p t ∧
      p.head = some (.recv v) ∧ (ascii "t", 1) ∈ t.written ∧
      ∀ w ∈ t.written, ∀ e ∈ t.cache.entries, w.1 ∈ e.tables → w.2 ≤ t.storedAt e.key := by
  have hreach := drive_reach_restrict Script.reply (machine_of_first cachedEnv tableT)
    (OnRecv (Covered cachedEnv tableT)) 8 (relayQueries cachedEnv 2 (Session.new 0 false false))
    ⟨[plainQuery "INSERT INTO t VALUES (1)"], [0], [0]⟩ stocked
  exact ⟨_, _, _, hreach, rfl, by decide +kernel, written_invalidated rfl rfl hreach (.inl rfl)⟩

end PgMux.Invalidation
