import PgMux.DbGroups

/-!
# Pool values of accepted configurations

Validation reads the top-level pool only, while each database may give values of its own.
-/

namespace PgMux.ConfigPools

open DbGroups (BackendConfig DBConfig CircuitBreakerConfig newDatabaseGroup)

/-- The file system, the address parsers and Go's quoting. -/
structure Env where
  stat : Bytes → Option Bytes
  parseCIDR : Bytes → Bool
  parseIP : Bytes → Bool
  quote : Bytes → Bytes

structure PoolConfig extends DbGroups.PoolConfig where
  minConnections : Int
  queryTimeout : Int
  resetQuery : Bytes
  preparedStatementMode : Bytes

structure DatabaseConfig where
  writer : DBConfig
  readers : List DBConfig
  backend : BackendConfig
  pool : PoolConfig

structure TLSConfig where
  enabled : Bool
  certFile : Bytes
  keyFile : Bytes

structure AuthConfig where
  enabled : Bool
  users : List Bytes

structure AdminAPIKey where
  key : Bytes
  role : Bytes

structure AdminAuthConfig where
  enabled : Bool
  apiKeys : List AdminAPIKey
  ipAllowlist : List Bytes
  trustedProxies : List Bytes

/-- The databases stand in the order of the iteration over the map. -/
structure Config extends DatabaseConfig where
  tls : TLSConfig
  auth : AuthConfig
  adminAuth : AdminAuthConfig
  circuitBreaker : CircuitBreakerConfig
  databases : List (Bytes × DatabaseConfig)

def orDefault {α : Type} [DecidableEq α] [Inhabited α] (own top : α) : α :=
  if own = default then top else own

def PoolConfig.orDefault (own top : PoolConfig) : PoolConfig where
  minConnections := ConfigPools.orDefault own.minConnections top.minConnections
  maxConnections := ConfigPools.orDefault own.maxConnections top.maxConnections
  idleTimeout := ConfigPools.orDefault own.idleTimeout top.idleTimeout
  maxLifetime := ConfigPools.orDefault own.maxLifetime top.maxLifetime
  connectionTimeout := ConfigPools.orDefault own.connectionTimeout top.connectionTimeout
  queryTimeout := ConfigPools.orDefault own.queryTimeout top.queryTimeout
  resetQuery := ConfigPools.orDefault own.resetQuery top.resetQuery
  preparedStatementMode := ConfigPools.orDefault own.preparedStatementMode top.preparedStatementMode

def backendOr (own top : BackendConfig) : BackendConfig :=
  ⟨orDefault own.user top.user, orDefault own.password top.password,
    orDefault own.database top.database⟩

abbrev second : Int := 1000000000

def defaultPool : PoolConfig where
  minConnections := 2
  maxConnections := 10
  idleTimeout := 600 * second
  maxLifetime := 3600 * second
  connectionTimeout := 5 * second
  queryTimeout := 0
  resetQuery := ascii "DISCARD ALL"
  preparedStatementMode := ascii "proxy"

def applyDefaults (c : Config) : Config :=
  let pool := c.pool.orDefault defaultPool
  let backend := backendOr c.backend ⟨ascii "postgres", [], ascii "postgres"⟩
  { c with
    pool, backend
    databases := c.databases.map fun d =>
      (d.1, { d.2 with
        backend := backendOr d.2.backend ⟨backend.user, backend.password, d.1⟩
        pool := d.2.pool.orDefault pool }) }

def require (ok : Bool) (message : Bytes) : Except Bytes Unit :=
  if ok then .ok () else .error message

def number (n : Int) : Bytes := ascii (toString n)

def each {α : Type} (xs : List α) (check : Nat → α → Except Bytes Unit) : Except Bytes Unit :=
  xs.zipIdx.forM fun x => check x.2 x.1

def checkBackend (path : Bytes) (c : DBConfig) : Except Bytes Unit := do
  require (c.host ≠ []) (path ++ ascii ".host is required")
  require (0 < c.port ∧ c.port ≤ 65535)
    (path ++ ascii ".port must be between 1 and 65535, got " ++ number c.port)

def checkDatabase (path : Bytes) (d : DatabaseConfig) : Except Bytes Unit := do
  checkBackend (path ++ ascii "writer") d.writer
  each d.readers fun i => checkBackend (path ++ ascii "readers[" ++ number i ++ ascii "]")

def checkTLS (env : Env) (c : TLSConfig) : Except Bytes Unit :=
  if c.enabled then do
    require (c.certFile ≠ []) (ascii "tls.cert_file is required when tls is enabled")
    require (c.keyFile ≠ []) (ascii "tls.key_file is required when tls is enabled")
    (env.stat c.certFile).forM fun e => .error (ascii "tls.cert_file: " ++ e)
    (env.stat c.keyFile).forM fun e => .error (ascii "tls.key_file: " ++ e)
  else .ok ()

def checkAddresses (env : Env) (field : String) (cidrs : List Bytes) : Except Bytes Unit :=
  each cidrs fun i cidr => require (env.parseCIDR cidr || env.parseIP cidr)
    (ascii s!"admin.auth.{field}[{i}] " ++ env.quote cidr ++ ascii " is not a valid IP or CIDR")

def checkAdminAuth (env : Env) (c : AdminAuthConfig) : Except Bytes Unit :=
  if c.enabled then do
    require (c.apiKeys ≠ []) (ascii "admin.auth.api_keys is required when admin.auth is enabled")
    each c.apiKeys fun i k => do
      require (k.key ≠ []) (ascii s!"admin.auth.api_keys[{i}].key must not be empty")
      require (k.role = ascii "admin" ∨ k.role = ascii "viewer")
        (ascii s!"admin.auth.api_keys[{i}].role must be \"admin\" or \"viewer\", got " ++
          env.quote k.role)
    checkAddresses env "ip_allowlist" c.ipAllowlist
    checkAddresses env "trusted_proxies" c.trustedProxies
  else .ok ()

def checkPool (env : Env) (p : PoolConfig) : Except Bytes Unit := do
  require (0 ≤ p.minConnections)
    (ascii "pool.min_connections must be >= 0, got " ++ number p.minConnections)
  require (1 ≤ p.maxConnections)
    (ascii "pool.max_connections must be >= 1, got " ++ number p.maxConnections)
  require (p.minConnections ≤ p.maxConnections)
    (ascii "pool.min_connections (" ++ number p.minConnections ++
    ascii ") must be <= pool.max_connections (" ++ number p.maxConnections ++ ascii ")")
  require (p.preparedStatementMode = ascii "proxy" ∨ p.preparedStatementMode = ascii "multiplex")
    (ascii "pool.prepared_statement_mode must be \"proxy\" or \"multiplex\", got " ++
      env.quote p.preparedStatementMode)

def validate (env : Env) (c : Config) : Except Bytes Unit := do
  if c.databases = [] then checkDatabase [] c.toDatabaseConfig
  else c.databases.forM fun d => checkDatabase (ascii "databases." ++ d.1 ++ ascii ".") d.2
  checkTLS env c.tls
  require (!c.auth.enabled || c.auth.users ≠ [])
    (ascii "auth.users is required when auth is enabled")
  checkAdminAuth env c.adminAuth
  checkPool env c.pool

def resolvedDatabases (c : Config) : List (Bytes × DatabaseConfig) :=
  if c.databases = [] then [(c.backend.database, c.toDatabaseConfig)] else c.databases

/-- What `pool.New` does with the outcomes of its dials; a connection is counted where it was
opened. -/
inductive Made where
  | panics
  | fails (opened : Nat)
  | made (opened : Nat)
  deriving DecidableEq

def preCreate (dial : Nat → Bool) : Nat → Nat → Made
  | 0, i => .made i
  | n + 1, i => if dial i then preCreate dial n (i + 1) else .fails i

/-- A slice of pointers takes eight bytes for each, and `make` panics outside the address space. -/
def maxAlloc : Int := 2 ^ 48

def newPool (dial : Nat → Bool) (p : PoolConfig) : Made :=
  if 0 ≤ p.maxConnections ∧ 8 * p.maxConnections ≤ maxAlloc then
    preCreate dial p.minConnections.toNat 0 else .panics

/-- The intervals of the health checks that `Start` starts. -/
def tickers (c : Config) : List Int :=
  (resolvedDatabases c).flatMap fun d =>
    let g := newDatabaseGroup ⟨d.2.writer, d.2.readers, d.2.backend,
      d.2.pool.toPoolConfig⟩ c.circuitBreaker
    c.pool.idleTimeout.tdiv 2 :: g.readerPools.entries.map (fun _ => c.pool.idleTimeout.tdiv 2) ++
      [c.pool.connectionTimeout]

structure Usable (p : PoolConfig) : Prop where
  max : 1 ≤ p.maxConnections
  min : 0 ≤ p.minConnections ∧ p.minConnections ≤ p.maxConnections
  idle : 0 < p.idleTimeout
  opened : ∀ dial, ∃ n : Nat, n ≤ p.maxConnections ∧
    (newPool dial p = .made n ∨ newPool dial p = .fails n)

def AllUsable (c : Config) : Prop :=
  (∀ d ∈ resolvedDatabases c, Usable d.2.pool) ∧ ∀ t ∈ tickers c, 0 < t

/-- What validation leaves to the file: values of a database's own, and times of the top level. -/
structure Fits (c : Config) : Prop where
  idle : c.pool.idleTimeout = 0 ∨ 2 ≤ c.pool.idleTimeout
  connection : 0 ≤ c.pool.connectionTimeout
  single : c.databases = [] → 8 * c.pool.maxConnections ≤ maxAlloc
  own : ∀ d ∈ c.databases, 0 ≤ d.2.pool.minConnections ∧ 0 ≤ d.2.pool.maxConnections ∧
    0 ≤ d.2.pool.idleTimeout ∧ let p := d.2.pool.orDefault (c.pool.orDefault defaultPool)
    p.minConnections ≤ p.maxConnections ∧ 8 * p.maxConnections ≤ maxAlloc

theorem preCreate_opens (dial : Nat → Bool) (n i : Nat) :
    ∃ k, k ≤ i + n ∧ (preCreate dial n i = .made k ∨ preCreate dial n i = .fails k) := by
  induction n generalizing i with
  | zero => exact ⟨i, by omega, .inl rfl⟩
  | succ n ih =>
    rw [preCreate]
    split
    · obtain ⟨k, hk, hmade⟩ := ih (i + 1)
      exact ⟨k, by omega, hmade⟩
    · exact ⟨i, by omega, .inr rfl⟩

theorem usable_iff {p : PoolConfig} :
    Usable p ↔ 0 ≤ p.minConnections ∧ 1 ≤ p.maxConnections ∧ 0 < p.idleTimeout ∧
    p.minConnections ≤ p.maxConnections ∧ 8 * p.maxConnections ≤ maxAlloc := by
  constructor
  · rintro ⟨hmax, ⟨hmin, hle⟩, hidle, hopened⟩
    refine ⟨hmin, hmax, hidle, hle, ?_⟩
    obtain ⟨n, -, hmade⟩ := hopened fun _ => true
    by_contra hroom
    simp [newPool, hroom] at hmade
  · rintro ⟨hmin, hmax, hidle, hle, hroom⟩
    refine ⟨hmax, ⟨hmin, hle⟩, hidle, fun dial => ?_⟩
    obtain ⟨n, hn, hmade⟩ := preCreate_opens dial p.minConnections.toNat 0
    exact ⟨n, by omega, by simpa [newPool, hroom, show 0 ≤ p.maxConnections by omega] using hmade⟩

@[simp] theorem require_eq_ok {ok : Bool} {message : Bytes} :
    require ok message = .ok () ↔ ok = true := by
  cases ok <;> simp [require]

theorem bind_eq_ok {a b : Except Bytes Unit} :
    (a >>= fun _ => b) = .ok () ↔ a = .ok () ∧ b = .ok () := by
  cases a <;> simp [bind, Except.bind]

theorem checkPool_of_validate {env : Env} {c : Config} (h : validate env c = .ok ()) :
    0 ≤ c.pool.minConnections ∧ 1 ≤ c.pool.maxConnections ∧
    c.pool.minConnections ≤ c.pool.maxConnections := by
  have hpool : checkPool env c.pool = .ok () := by
    unfold validate at h
    split at h <;> exact (bind_eq_ok.mp (bind_eq_ok.mp (bind_eq_ok.mp (bind_eq_ok.mp h).2).2).2).2
  simp only [checkPool, bind_eq_ok, require_eq_ok, decide_eq_true_eq] at hpool
  exact ⟨hpool.1, hpool.2.1, hpool.2.2.1⟩

theorem tickers_pos {c : Config} :
    (∀ t ∈ tickers c, 0 < t) ↔ 2 ≤ c.pool.idleTimeout ∧ 0 < c.pool.connectionTimeout := by
  have hhalf : 0 < c.pool.idleTimeout.tdiv 2 ↔ 2 ≤ c.pool.idleTimeout := by
    obtain hnonneg | hneg := Int.le_total 0 c.pool.idleTimeout
    · rw [Int.tdiv_eq_ediv_of_nonneg hnonneg]
      omega
    · rw [← Int.neg_neg c.pool.idleTimeout, Int.neg_tdiv, Int.tdiv_eq_ediv_of_nonneg (by omega)]
      omega
  have hsome : resolvedDatabases c ≠ [] := by
    unfold resolvedDatabases
    split <;> simp_all
  obtain ⟨d, ds, hds⟩ := List.exists_cons_of_ne_nil hsome
  rw [tickers, ← hhalf]
  constructor
  · intro h
    simp only [hds, List.flatMap_cons, List.forall_mem_append, List.forall_mem_cons] at h
    exact ⟨h.1.1.1, h.1.2.1⟩
  · rintro ⟨hidle, hconn⟩ t ht
    simp only [List.mem_flatMap, List.mem_append, List.mem_cons, List.mem_map, List.not_mem_nil,
      or_false] at ht
    obtain ⟨-, -, (rfl | ⟨-, -, rfl⟩) | rfl⟩ := ht
    · exact hidle
    · exact hidle
    · exact hconn

theorem forall_resolved {c : Config} {P : PoolConfig → Prop} :
    (∀ d ∈ resolvedDatabases (applyDefaults c), P d.2.pool) ↔
    (c.databases = [] → P (applyDefaults c).pool) ∧
      ∀ d ∈ c.databases, P (d.2.pool.orDefault (applyDefaults c).pool) := by
  by_cases hnil : c.databases = []
  · simp [resolvedDatabases, applyDefaults, hnil]
  · rw [resolvedDatabases, if_neg (by simpa [applyDefaults] using hnil)]
    simp only [applyDefaults, List.forall_mem_map, hnil, false_implies, true_and]

/-- Zero stands for a value that is not given. -/
theorem orDefault_eq (own top : Int) : orDefault own top = if own = 0 then top else own := rfl

theorem orDefault_pos {own top : Int} (htop : 0 < top) : 0 < orDefault own top ↔ 0 ≤ own := by
  rw [orDefault_eq]
  split <;> omega

theorem orDefault_nonneg {own top : Int} (htop : 0 ≤ top) : 0 ≤ orDefault own top ↔ 0 ≤ own := by
  rw [orDefault_eq]
  split <;> omega

/-- An accepted configuration is usable exactly where the values fit that validation does not read.
-/
theorem accepted_usable_iff {env : Env} {c : Config} (h : validate env (applyDefaults c) = .ok ()) :
    AllUsable (applyDefaults c) ↔ Fits c := by
  obtain ⟨hmin, hmax, hle⟩ := checkPool_of_validate h
  have hidle : 2 ≤ (applyDefaults c).pool.idleTimeout ↔ c.pool.idleTimeout = 0 ∨
      2 ≤ c.pool.idleTimeout := by
    simp only [applyDefaults, PoolConfig.orDefault, orDefault_eq, defaultPool, second]
    split <;> omega
  have hconn : 0 < (applyDefaults c).pool.connectionTimeout ↔ 0 ≤ c.pool.connectionTimeout :=
    orDefault_pos (by decide)
  have hroom : 8 * (applyDefaults c).pool.maxConnections ≤ maxAlloc ↔
      8 * c.pool.maxConnections ≤ maxAlloc := by
    simp only [applyDefaults, PoolConfig.orDefault, orDefault_eq, defaultPool, maxAlloc]
    split <;> omega
  rw [AllUsable, tickers_pos, hidle, hconn, forall_resolved]
  simp only [usable_iff]
  constructor
  · rintro ⟨⟨hsingle, hown⟩, htimes, hconn⟩
    refine ⟨htimes, hconn, fun hnil => hroom.mp (hsingle hnil).2.2.2.2, fun d hd => ?_⟩
    obtain ⟨hmin', hmax', hidle', hrest⟩ := hown d hd
    exact ⟨(orDefault_nonneg hmin).mp hmin', (orDefault_pos hmax).mp hmax',
      (orDefault_pos (by omega)).mp hidle', hrest⟩
  · rintro ⟨htimes, hconn, hsingle, hown⟩
    have htop := hidle.mpr htimes
    refine ⟨⟨fun hnil => ⟨hmin, hmax, by omega, hle, hroom.mpr (hsingle hnil)⟩, fun d hd => ?_⟩,
      htimes, hconn⟩
    obtain ⟨hmin', hmax', hidle', hrest⟩ := hown d hd
    exact ⟨(orDefault_nonneg hmin).mpr hmin', (orDefault_pos hmax).mpr hmax',
      (orDefault_pos (by omega)).mpr hidle', hrest⟩

def anyEnv : Env := ⟨fun _ => none, fun _ => true, fun _ => true, id⟩

def noPool : PoolConfig := ⟨⟨0, 0, 0, 0⟩, 0, 0, [], []⟩

def localhost : DatabaseConfig := ⟨⟨ascii "localhost", 5432⟩, [], ⟨[], [], []⟩, noPool⟩

def single : Config :=
  ⟨localhost, ⟨false, [], []⟩, ⟨false, []⟩, ⟨false, [], [], []⟩, ⟨⟨0, 0, 0, 0⟩, false⟩, []⟩

def twoDatabases : Config :=
  { single with
    databases :=
      [(ascii "app",
        { localhost with
          pool := { noPool with
            minConnections := 1, maxConnections := 4, idleTimeout := 30 * second } }),
      (ascii "logs", { localhost with pool := { noPool with maxConnections := 3 } })] }

theorem accepted_databases_usable :
    validate anyEnv (applyDefaults twoDatabases) = .ok () ∧
    AllUsable (applyDefaults twoDatabases) := by
  have hok : validate anyEnv (applyDefaults twoDatabases) = .ok () := rfl
  refine ⟨hok, (accepted_usable_iff hok).mpr ⟨.inl rfl, by decide, fun _ => by decide, ?_⟩⟩
  decide

def ownMax : Config :=
  { single with databases := [(ascii "app",
    { localhost with pool := { noPool with maxConnections := -1 } })] }

def nanosecond : Config := { single with pool := { noPool with idleTimeout := 1 } }

theorem accepted_panics : validate anyEnv (applyDefaults ownMax) = .ok () ∧
    (resolvedDatabases (applyDefaults ownMax)).map (fun d => newPool (fun _ => true) d.2.pool) =
      [.panics] ∧
    validate anyEnv (applyDefaults nanosecond) = .ok () ∧ 0 ∈ tickers (applyDefaults nanosecond) :=
  ⟨rfl, rfl, rfl, .head _⟩

end PgMux.ConfigPools
