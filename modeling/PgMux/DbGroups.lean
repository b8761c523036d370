import Mathlib.Data.List.AList
import PgMux.Balancer
import PgMux.Breaker
import PgMux.Bytes

/-!
# Database groups

A group has one pool for the writer and one for each address of a reader. A reload makes new pools
where the address or the credentials are new, and closes what it takes to be no longer in use.
-/

namespace PgMux.DbGroups

open Balancer Breaker

structure DBConfig where
  host : Bytes
  port : Int

def DBConfig.addr (c : DBConfig) : Bytes := c.host ++ colon :: ascii (toString c.port)

structure BackendConfig where
  user : Bytes
  password : Bytes
  database : Bytes
  deriving DecidableEq, Repr

structure PoolConfig where
  maxConnections : Int
  idleTimeout : Int
  maxLifetime : Int
  connectionTimeout : Int
  deriving DecidableEq, Repr

structure DatabaseConfig where
  writer : DBConfig
  readers : List DBConfig
  backend : BackendConfig
  pool : PoolConfig

def DatabaseConfig.readerAddrs (cfg : DatabaseConfig) : List Bytes := cfg.readers.map DBConfig.addr

structure CircuitBreakerConfig extends BreakerConfig where
  enabled : Bool

structure Pool where
  ref : Nat
  addr : Bytes
  backend : BackendConfig
  cfg : PoolConfig
  deriving DecidableEq, Repr

abbrev Pools := AList fun _ : Bytes => Pool

abbrev Breakers := AList fun _ : Bytes => CircuitBreaker

/-- A group, with all pools it ever made and those it closed. -/
structure DatabaseGroup where
  writerAddr : Bytes
  writerPool : Pool
  readerPools : Pools
  balancer : RoundRobin Bytes
  writerCB : Option CircuitBreaker
  readerCBs : Option Breakers
  backendCfg : BackendConfig
  made : List Pool
  closed : List Pool

def newPool (made : List Pool) (addr : Bytes) (cfg : DatabaseConfig) : Pool :=
  ⟨made.length, addr, cfg.backend, cfg.pool⟩

def makeReaders (cfg : DatabaseConfig) (kept : Bytes → Option Pool) :
    List Bytes → List Pool → Pools → List Pool × Pools
  | [], made, pools => (made, pools)
  | addr :: addrs, made, pools =>
    match kept addr with
    | some p => makeReaders cfg kept addrs made (pools.insert addr p)
    | none =>
      let p := newPool made addr cfg
      makeReaders cfg kept addrs (made ++ [p]) (pools.insert addr p)

def makeBreakers (cfg : BreakerConfig) (kept : Bytes → Option CircuitBreaker) (addrs : List Bytes) :
    Breakers :=
  addrs.foldl (fun m addr => m.insert addr ((kept addr).getD (.new cfg))) ∅

def newDatabaseGroup (dbCfg : DatabaseConfig) (cbCfg : CircuitBreakerConfig) : DatabaseGroup :=
  let writer := newPool [] dbCfg.writer.addr dbCfg
  let readers := makeReaders dbCfg (fun _ => none) dbCfg.readerAddrs [writer] ∅
  { writerAddr := dbCfg.writer.addr
    writerPool := writer
    readerPools := readers.2
    balancer := .new dbCfg.readerAddrs
    writerCB := if cbCfg.enabled then some (.new cbCfg.toBreakerConfig) else none
    readerCBs :=
      if cbCfg.enabled then
        some (makeBreakers cbCfg.toBreakerConfig (fun _ => none) dbCfg.readerAddrs) else none
    backendCfg := dbCfg.backend
    made := readers.1
    closed := [] }

namespace DatabaseGroup

def credsChanged (g : DatabaseGroup) (dbCfg : DatabaseConfig) : Bool := g.backendCfg ≠ dbCfg.backend

def reloadWriter (g : DatabaseGroup) (dbCfg : DatabaseConfig) : DatabaseGroup :=
  if g.credsChanged dbCfg ∨ dbCfg.writer.addr ≠ g.writerAddr then
    let writer := newPool g.made dbCfg.writer.addr dbCfg
    { g with
      writerAddr := dbCfg.writer.addr
      writerPool := writer
      made := g.made ++ [writer]
      closed := g.closed ++ [g.writerPool] }
  else g

def kept (g : DatabaseGroup) (dbCfg : DatabaseConfig) (addr : Bytes) : Option Pool :=
  if g.credsChanged dbCfg then none else g.readerPools.lookup addr

def reloadReaders (g : DatabaseGroup) (dbCfg : DatabaseConfig) : DatabaseGroup :=
  let readers := makeReaders dbCfg (g.kept dbCfg) dbCfg.readerAddrs g.made ∅
  { g with
    readerPools := readers.2
    balancer := g.balancer.updateBackends dbCfg.readerAddrs
    backendCfg := dbCfg.backend
    made := readers.1
    closed := g.closed ++ (g.readerPools.entries.filter fun e => e.1 ∉ readers.2).map Sigma.snd }

def reloadBreakers (g : DatabaseGroup) (dbCfg : DatabaseConfig) (cbCfg : CircuitBreakerConfig) :
    DatabaseGroup :=
  if cbCfg.enabled then
    { g with
      writerCB := some (g.writerCB.getD (.new cbCfg.toBreakerConfig))
      readerCBs :=
        some (makeBreakers cbCfg.toBreakerConfig (fun addr => g.readerCBs.bind (·.lookup addr))
        dbCfg.readerAddrs) }
  else { g with writerCB := none, readerCBs := none }

def reload (g : DatabaseGroup) (cfg : DatabaseConfig × CircuitBreakerConfig) : DatabaseGroup :=
  ((g.reloadWriter cfg.1).reloadReaders cfg.1).reloadBreakers cfg.1 cfg.2

end DatabaseGroup

/-! ## The loop over the readers -/

variable {made : List Pool}

section

variable (cfg : DatabaseConfig) (kept : Bytes → Option Pool)

def Numbered (made : List Pool) : Prop := ∀ p ∈ made, p.ref < made.length

theorem Numbered.append (h : Numbered made) (addr : Bytes) :
    Numbered (made ++ [newPool made addr cfg]) := by
  intro p hp
  rw [List.length_append, List.length_singleton]
  obtain hp | hp := List.mem_append.mp hp
  · exact Nat.lt_succ_of_lt (h p hp)
  · rw [List.mem_singleton.mp hp]
    exact Nat.lt_succ_self _

theorem makeReaders_made (addrs : List Bytes) (h : Numbered made) (pools : Pools) :
    Numbered (makeReaders cfg kept addrs made pools).1 ∧
    made ⊆ (makeReaders cfg kept addrs made pools).1 ∧
      ∀ p ∈ (makeReaders cfg kept addrs made pools).1, p ∈ made ∨ made.length ≤ p.ref := by
  induction addrs generalizing made pools with
  | nil => exact ⟨h, List.Subset.refl made, fun p hp => .inl hp⟩
  | cons addr addrs ih =>
    unfold makeReaders
    cases kept addr with
    | some q => exact ih h _
    | none =>
      obtain ⟨hnumbered, hsub, hnew⟩ :=
        ih (h.append cfg addr) (pools.insert addr (newPool made addr cfg))
      refine ⟨hnumbered, fun p hp => hsub (List.mem_append_left _ hp), fun p hp => ?_⟩
      obtain hp | hp := hnew p hp
      · obtain hp | hp := List.mem_append.mp hp
        · exact .inl hp
        · rw [List.mem_singleton.mp hp]
          exact .inr (Nat.le_refl _)
      · right
        rw [List.length_append] at hp
        omega

theorem makeReaders_lookup_of_notMem {addr : Bytes} {addrs : List Bytes} (h : addr ∉ addrs)
    (made : List Pool) (pools : Pools) :
    (makeReaders cfg kept addrs made pools).2.lookup addr = pools.lookup addr := by
  induction addrs generalizing made pools with
  | nil => rfl
  | cons addr' addrs ih =>
    obtain ⟨hne, hrest⟩ := List.ne_and_not_mem_of_not_mem_cons h
    unfold makeReaders
    cases kept addr' with
    | some q | none => rw [ih hrest, AList.lookup_insert_ne hne]

theorem makeReaders_lookup_of_mem {addr : Bytes} {addrs : List Bytes} (h : addr ∈ addrs)
    (hmade : Numbered made) (pools : Pools) :
    ∃ p, (makeReaders cfg kept addrs made pools).2.lookup addr = some p ∧
      (kept addr = some p ∨ (kept addr = none ∧ p.addr = addr ∧ made.length ≤ p.ref ∧
        p ∈ (makeReaders cfg kept addrs made pools).1)) := by
  induction addrs generalizing made pools with
  | nil => exact absurd h List.not_mem_nil
  | cons addr' addrs ih =>
    unfold makeReaders
    by_cases hrest : addr ∈ addrs
    · cases kept addr' with
      | some q => exact ih hrest hmade _
      | none =>
        obtain ⟨p, hlookup, hp⟩ := ih hrest (hmade.append cfg addr')
          (pools.insert addr' (newPool made addr' cfg))
        refine ⟨p, hlookup, hp.imp_right fun ⟨hnone, haddr, href, hmem⟩ => ⟨hnone, haddr, ?_, hmem⟩⟩
        rw [List.length_append] at href
        omega
    · obtain rfl : addr = addr' := (List.mem_cons.mp h).resolve_right hrest
      cases hkept : kept addr with
      | some q =>
          exact ⟨q, by rw [makeReaders_lookup_of_notMem cfg kept hrest, AList.lookup_insert],
          .inl rfl⟩
      | none =>
        have hmem := (makeReaders_made cfg kept addrs (hmade.append cfg addr)
          (pools.insert addr (newPool made addr cfg))).2.1
            (List.mem_append_right _ List.mem_cons_self)
        refine ⟨newPool made addr cfg, ?_, .inr ⟨rfl, rfl, Nat.le_refl _, hmem⟩⟩
        rw [makeReaders_lookup_of_notMem cfg kept hrest, AList.lookup_insert]

theorem makeReaders_current_iff (addrs : List Bytes) (hmade : Numbered made) (pools : Pools) :
    (∀ p ∈ (makeReaders cfg kept addrs made pools).1, made.length ≤ p.ref →
      (makeReaders cfg kept addrs made pools).2.lookup p.addr = some p) ↔
        (addrs.filter (kept · = none)).Nodup := by
  induction addrs generalizing made pools with
  | nil =>
    simp only [makeReaders, List.filter_nil, List.nodup_nil, iff_true]
    exact fun p hp href => absurd (hmade p hp) (by omega)
  | cons addr addrs ih =>
    unfold makeReaders
    cases hkept : kept addr with
    | some q => simpa [hkept] using ih hmade (pools.insert addr q)
    | none =>
      let p := newPool made addr cfg
      have hmade' : Numbered (made ++ [p]) := hmade.append cfg addr
      obtain ⟨-, hsub, hnew⟩ := makeReaders_made cfg kept addrs hmade' (pools.insert addr p)
      have hlookup : (makeReaders cfg kept addrs (made ++ [p])
          (pools.insert addr p)).2.lookup addr = some p ↔ addr ∉ addrs := by
        constructor
        · intro hp hmem
          -- a later occurrence has replaced it
          obtain ⟨p', hp', hor⟩ :=
            makeReaders_lookup_of_mem cfg kept hmem hmade' (pools.insert addr p)
          obtain rfl : p = p' := Option.some.inj (hp.symm.trans hp')
          obtain hsome | ⟨-, -, href, -⟩ := hor
          · simp [hkept] at hsome
          · simp only [List.length_append, List.length_singleton, p, newPool] at href
            omega
        · intro hmem
          rw [makeReaders_lookup_of_notMem cfg kept hmem, AList.lookup_insert]
      have hfilter : addr ∈ addrs.filter (kept · = none) ↔ addr ∈ addrs := by simp [hkept]
      rw [List.filter_cons_of_pos (by simpa using hkept), List.nodup_cons, hfilter, ← hlookup,
        ← ih hmade']
      constructor
      · intro h
        refine ⟨h p (hsub (List.mem_append_right _ List.mem_cons_self)) (Nat.le_refl _),
          fun p' hp' href => h p' hp' ?_⟩
        rw [List.length_append] at href
        omega
      · rintro ⟨hp, hrest⟩ p' hp' href
        obtain hold | hlater := hnew p' hp'
        · obtain hold | hself := List.mem_append.mp hold
          · exact absurd (hmade p' hold) (by omega)
          · rw [List.mem_singleton.mp hself]
            exact hp
        · exact hrest p' hp' hlater

end

theorem makeReaders_mem_iff (cfg : DatabaseConfig) (kept : Bytes → Option Pool) (addrs : List Bytes)
    (hmade : Numbered made) (addr : Bytes) :
    addr ∈ (makeReaders cfg kept addrs made ∅).2 ↔ addr ∈ addrs := by
  rw [← AList.lookup_isSome]
  by_cases h : addr ∈ addrs
  · obtain ⟨p, hp, _⟩ := makeReaders_lookup_of_mem cfg kept h hmade ∅
    simp [h, hp]
  · simp [h, makeReaders_lookup_of_notMem cfg kept h]

/-! ## The maps in step -/

theorem mem_foldl_insert {β : Type} (f : Bytes → β) (addrs : List Bytes)
    (m : AList fun _ : Bytes => β) (addr : Bytes) :
    addr ∈ addrs.foldl (fun m addr => m.insert addr (f addr)) m ↔ addr ∈ addrs ∨ addr ∈ m := by
  induction addrs generalizing m with
  | nil => simp
  | cons addr' addrs ih =>
    rw [List.foldl_cons, ih, AList.mem_insert, List.mem_cons]
    tauto

theorem mem_makeBreakers (cfg : BreakerConfig) (kept : Bytes → Option CircuitBreaker)
    (addrs : List Bytes) (addr : Bytes) : addr ∈ makeBreakers cfg kept addrs ↔ addr ∈ addrs := by
  simp [makeBreakers, mem_foldl_insert fun addr => (kept addr).getD (.new cfg)]

theorem addrs_new {α : Type} (addrs : List α) :
    (RoundRobin.new addrs).backends.map Backend.addr = addrs := by
  refine List.ext_getElem (by simp [RoundRobin.new]) fun i _ _ => ?_
  simp [RoundRobin.new, Backend.new]

structure InStep (g : DatabaseGroup) (cfg : DatabaseConfig × CircuitBreakerConfig) : Prop where
  pools : ∀ addr, addr ∈ g.readerPools ↔ addr ∈ cfg.1.readerAddrs
  balancer : g.balancer.backends.map Backend.addr = cfg.1.readerAddrs
  enabled : cfg.2.enabled = true → ∃ m, g.readerCBs = some m ∧ ∀ addr, addr ∈ m ↔
    addr ∈ cfg.1.readerAddrs
  disabled : cfg.2.enabled = false → g.readerCBs = none ∧ g.writerCB = none
  backend : g.backendCfg = cfg.1.backend

theorem numbered_single (dbCfg : DatabaseConfig) (addr : Bytes) :
    Numbered [newPool [] addr dbCfg] := by
  intro p hp
  rw [List.mem_singleton.mp hp]
  exact Nat.zero_lt_one

theorem inStep_new (dbCfg : DatabaseConfig) (cbCfg : CircuitBreakerConfig) :
    InStep (newDatabaseGroup dbCfg cbCfg) (dbCfg, cbCfg) where
  pools := makeReaders_mem_iff dbCfg _ _ (numbered_single dbCfg _)
  balancer := addrs_new _
  enabled h := ⟨_, if_pos h, mem_makeBreakers _ _ _⟩
  disabled h := by simpa [newDatabaseGroup] using h
  backend := rfl

end PgMux.DbGroups
