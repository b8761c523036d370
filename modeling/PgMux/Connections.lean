import PgMux.Authentication
import PgMux.Runs
import PgMux.Startup

/-!
# Connections and their cancel keys

`handleConn` from the first message to the end: what a connection takes is settled on every path,
and a cancel key leads to the session it was given to.
-/

namespace PgMux.Connections

open Authentication (Key)
open Decoding Effects Function Protocol Runs

def cancelRequestCode : Nat := 80877102

/-! ## Cancel keys -/

structure Backend where
  addr : Bytes
  pid : UInt32
  secret : UInt32

/-- The sessions are numbered as they start; `keys` and `targets` are the fields of their
`cancelTarget`. -/
structure Server where
  nextProxyPID : UInt32
  cancelMap : Key → Option Nat
  keys : Nat → Key
  targets : Nat → Backend
  started : Nat
  live : List Nat

inductive Event where
  | newCancelTarget (secret : UInt32)
  | removeCancelTarget (n : Nat)
  | setFromConn (n : Nat) (b : Backend)
  | clear (n : Nat)

def Server.new : Server := ⟨0, fun _ => none, fun _ => (0, 0), fun _ => ⟨[], 0, 0⟩, 0, []⟩

def Server.next (s : Server) : Event → Server
  | .newCancelTarget secret =>
    let key := (s.nextProxyPID + 1, secret)
    { nextProxyPID := key.1, cancelMap := update s.cancelMap key (some s.started),
      keys := update s.keys s.started key
      targets := update s.targets s.started ⟨[], 0, 0⟩, started := s.started + 1, live :=
      s.started :: s.live }
  | .removeCancelTarget n =>
    { s with cancelMap := update s.cancelMap (s.keys n) none, live := s.live.filter (· ≠ n) }
  | .setFromConn n b => { s with targets := update s.targets n b }
  | .clear n => { s with targets := update s.targets n ⟨[], 0, 0⟩ }

/-- No session outlives `2 ^ 32` others, after which the counter is where it was. -/
def Enabled (s : Server) : Event → Prop
  | .newCancelTarget _ => ∀ n ∈ s.live, s.started < n + 2 ^ 32
  | .removeCancelTarget n | .setFromConn n _ | .clear n => n ∈ s.live

instance (s : Server) (e : Event) : Decidable (Enabled s e) := by
  cases e
  all_goals unfold Enabled; infer_instance

/-- What `forwardCancel` writes. -/
def cancelBytes (b : Backend) : Bytes :=
  putUint 4 16 ++ (putUint 4 cancelRequestCode ++
    (putUint 4 b.pid.toNat ++ putUint 4 b.secret.toNat))

def requestKey (payload : Bytes) : Option Key := do
  let (_, data) ← uint 4 payload
  let (pid, data) ← uint 4 data
  let (secret, _) ← uint 4 data
  return (.ofNat pid, .ofNat secret)

/-- The address that is dialled and what is written there. -/
def Server.handleCancelRequest (s : Server) (payload : Bytes) : Option (Bytes × Bytes) := do
  let b := s.targets (← s.cancelMap (← requestKey payload))
  if b.addr = [] ∨ b.pid = 0 then none else some (b.addr, cancelBytes b)

structure Keyed (s : Server) : Prop where
  counter : s.nextProxyPID = .ofNat s.started
  recent : ∀ n ∈ s.live, n < s.started ∧ s.started ≤ n + 2 ^ 32 ∧ (s.keys n).1 = .ofNat (n + 1)
  found : ∀ key n, s.cancelMap key = some n ↔ n ∈ s.live ∧ s.keys n = key

theorem ofNat_inj {m n k : Nat} (hm : m < k ∧ k ≤ m + 2 ^ 32) (hn : n < k ∧ k ≤ n + 2 ^ 32)
    (h : UInt32.ofNat (m + 1) = .ofNat (n + 1)) : m = n := by
  have hmod := congrArg UInt32.toNat h
  simp only [UInt32.toNat_ofNat'] at hmod
  omega

theorem Keyed.inj {s : Server} (h : Keyed s) {m n : Nat} (hm : m ∈ s.live) (hn : n ∈ s.live)
    (heq : s.keys m = s.keys n) : m = n := by
  obtain ⟨hlt, hle, hkey⟩ := h.recent m hm
  obtain ⟨hlt', hle', hkey'⟩ := h.recent n hn
  exact ofNat_inj ⟨hlt, hle⟩ ⟨hlt', hle'⟩ (by rw [← hkey, ← hkey', heq])

theorem Keyed.step (s : Server) (e : Event) (h : Keyed s) (he : Enabled s e) :
    Keyed (s.next e) := by
  cases e with
  | newCancelTarget secret =>
    have hpid : s.nextProxyPID + 1 =
      .ofNat (s.started + 1) := by rw [h.counter, UInt32.ofNat_add]; rfl
    -- no live session has this pid
    have hfresh : ∀ n ∈ s.live, n ≠ s.started ∧ s.keys n ≠ (s.nextProxyPID + 1, secret) := by
      intro n hn
      obtain ⟨hlt, -, hkey⟩ := h.recent n hn
      refine ⟨hlt.ne, fun heq => hlt.ne (ofNat_inj ⟨by omega, he n hn⟩
        ⟨Nat.lt_succ_self _, by omega⟩ ?_)⟩
      rw [← hkey, heq, hpid]
    refine ⟨hpid, List.forall_mem_cons.mpr ⟨⟨Nat.lt_succ_self _, Nat.add_le_add_left (by decide) _,
      ?_⟩, fun n hn => ?_⟩, fun key n => ?_⟩
    · simp [Server.next, hpid]
    · obtain ⟨hlt, -, hkey⟩ := h.recent n hn
      exact ⟨by simp [Server.next]; omega,
        he n hn, by simpa [Server.next, (hfresh n hn).1] using hkey⟩
    · simp only [Server.next, List.mem_cons, update_apply]
      grind [h.found key n]
  | removeCancelTarget n =>
    refine ⟨h.counter, fun m hm => h.recent m (List.mem_of_mem_filter hm), fun key m => ?_⟩
    have hinj (hm : m ∈ s.live) := h.inj hm he
    simp only [Server.next, update_apply, List.mem_filter]
    grind [h.found key m]
  | setFromConn n b | clear n => exact ⟨h.counter, h.recent, h.found⟩

theorem requestKey_cancelBytes (b : Backend) :
    requestKey ((cancelBytes b).drop 4) = some (b.pid, b.secret) := by
  have hword {v : Nat} (hv : v < 256 ^ 4) (data : Bytes) :
      uint 4 (putUint 4 v ++ data) = some (v, data) :=
    uint_eq_some_iff.mpr ⟨hv, rfl⟩
  have hlast := hword b.secret.toNat_lt []
  rw [List.append_nil] at hlast
  rw [requestKey, cancelBytes, List.drop_left' length_putUint, hword (by decide)]
  simp [hword b.pid.toNat_lt, hlast]

/-- The keys of live sessions differ, and a request reaches the backend of the session that it
names, which reads its own key. -/
theorem key_reaches_own {es : List Event} (h : Each Server.next Enabled .new es) :
    let s := es.foldl Server.next .new
    (∀ m ∈ s.live, ∀ n ∈ s.live, s.keys m = s.keys n → m = n) ∧
    (∀ payload sent, s.handleCancelRequest payload = some sent ↔
      ∃ n ∈ s.live, requestKey payload = some (s.keys n) ∧ (s.targets n).addr ≠ [] ∧
      (s.targets n).pid ≠ 0 ∧ sent = ((s.targets n).addr, cancelBytes (s.targets n))) ∧
    ∀ b, requestKey ((cancelBytes b).drop 4) = some (b.pid, b.secret) := by
  intro s
  have hkeyed : Keyed s := h.foldl Keyed.step ⟨rfl, by simp [Server.new], by simp [Server.new]⟩
  refine ⟨fun m hm n hn => hkeyed.inj hm hn, fun payload sent => ⟨fun hsent => ?_, ?_⟩,
    requestKey_cancelBytes⟩
  · obtain ⟨key, hkey, hfound⟩ := Option.bind_eq_some_iff.mp hsent
    obtain ⟨n, hn, hreach⟩ := Option.bind_eq_some_iff.mp hfound
    obtain ⟨hlive, rfl⟩ := (hkeyed.found ..).mp hn
    obtain ⟨htarget, hsent⟩ := Option.ite_none_left_eq_some.mp hreach
    rw [not_or] at htarget
    exact ⟨n, hlive, hkey, htarget.1, htarget.2, (Option.some.inj hsent).symm⟩
  · rintro ⟨n, hlive, hkey, haddr, hpid, rfl⟩
    have hfound := (hkeyed.found (s.keys n) n).mpr ⟨hlive, rfl⟩
    simp [Server.handleCancelRequest, hkey, hfound, haddr, hpid]

def twoSessions : List Event :=
  [.newCancelTarget 7, .newCancelTarget 7, .setFromConn 0 ⟨[97], 5, 9⟩]

theorem key_reaches_own_first : (twoSessions.foldl Server.next .new).handleCancelRequest
    (putUint 4 cancelRequestCode ++ (putUint 4 1 ++ putUint 4 7)) = some ([97],
      cancelBytes ⟨[97], 5, 9⟩) :=
  ((@key_reaches_own twoSessions (by decide)).2.1 _ _).mpr
    ⟨0, by decide, by decide, by decide, by decide, by decide⟩

/-! ## One connection -/

inductive ConnOp where
  | readStartup
  | answerSSL (accept : Bool)
  | handleCancelRequest (payload : Bytes)
  | sendError (text : Bytes)
  | sendFatalWithCode (code reason : Bytes)
  | tryAcquire (user db : Bytes)
  | release (user db : Bytes)
  | newCancelTarget
  | removeCancelTarget (key : Key)
  | frontendAuth (user : Bytes) (key : Key)
  | dial (addr : Bytes)
  | writeStartup (raw : Bytes)
  | relayAuth (key : Key)
  | closeAuth
  | relayQueries (key : Key) (db : Bytes)
  | close

/-- A handshake is part of `answerSSL`; `tryAcquire` answers `none` without a tracker, and else the
reason to refuse. -/
abbrev ConnAns : ConnOp → Type
  | .readStartup => Option Bytes
  | .tryAcquire _ _ => Option (Option Bytes)
  | .newCancelTarget => Key
  | .answerSSL _ | .frontendAuth _ _ | .dial _ | .writeStartup _ | .relayAuth _ => Bool
  | _ => Unit

abbrev Serving := Prog ConnAns

def ask (o : ConnOp) : Serving (ConnAns o) := perform o

structure Config where
  tls : Bool
  auth : Bool
  defaultDB : Bytes
  writerAddr : Bytes → Option Bytes
  quoted : Bytes → Bytes

def sslRequestCode : Nat := 80877103

def asksFor (code : Nat) (payload : Bytes) : Bool := (uint 4 payload).any (·.1 = code)

variable (cfg : Config)

def authenticate (payload user addr : Bytes) (key : Key) : Serving Bool := do
  if cfg.auth then ask (.frontendAuth user key)
  else if ← ask (.dial addr) then
    let sent ← ask (.writeStartup (putUint 4 (4 + payload.length) ++ payload))
    let ok ← if sent then ask (.relayAuth key) else pure false
    ask .closeAuth
    return ok
  else
    ask (.sendError (ascii "cannot connect to backend database"))
    return false

/-- From the cancel key on. -/
def relaySession (payload user addr db : Bytes) : Serving Unit := do
  let key ← ask .newCancelTarget
  if ← authenticate cfg payload user addr key then ask (.relayQueries key db)
  ask (.removeCancelTarget key)

def serve (payload : Bytes) : Serving Unit := do
  let param (name : String) :=
    (((parseStartupParams payload).2.2.getD ∅).lookup (ascii name)).getD []
  let dbName := if param "database" = [] then cfg.defaultDB else param "database"
  match cfg.writerAddr dbName with
  | none => ask (.sendError (ascii "unknown database " ++ cfg.quoted dbName))
  | some addr =>
    match ← ask (.tryAcquire (param "user") dbName) with
    | some (some reason) => ask (.sendFatalWithCode (ascii "53300") reason)
    | tracked =>
      relaySession cfg payload (param "user") addr dbName
      if tracked.isSome then ask (.release (param "user") dbName)

def dispatch : Option Bytes → Serving Unit
  | none => pure ()
  | some payload =>
    if asksFor cancelRequestCode payload then ask (.handleCancelRequest payload)
      else serve cfg payload

def handleConn : Serving Unit := do
  let first ← ask .readStartup
  let startup ← if first.any (asksFor sslRequestCode) then
    if ← ask (.answerSSL cfg.tls) then ask .readStartup else pure none
    else pure first
  dispatch cfg startup
  ask .close

/-- What a connection has to give back; a session is its key and whether it is authenticated. -/
structure Owed where
  admitted : Option (Bytes × Bytes)
  session : Option (Key × Bool)
  dialled : Bool
  closed : Bool

namespace Owed

def none : Owed := ⟨.none, .none, false, false⟩

def next : (o : ConnOp) → Owed → ConnAns o → Owed
  | .tryAcquire user db, s, ok =>
      { s with admitted := if ok = some .none then some (user, db) else .none }
  | .release _ _, s, _ => { s with admitted := .none }
  | .newCancelTarget, s, key => { s with session := some (key, false) }
  | .removeCancelTarget _, s, _ => { s with session := .none }
  | .frontendAuth _ key, s, ok | .relayAuth key, s, ok => { s with session := some (key, ok) }
  | .dial _, s, ok => { s with dialled := ok }
  | .closeAuth, s, _ => { s with dialled := false }
  | .close, s, _ => { s with closed := true }
  | _, s, _ => s

def Due : ConnOp → Owed → Prop
  | .handleCancelRequest _, s | .tryAcquire _ _, s | .close, s => s = none
  | .newCancelTarget, s => s.session = .none ∧ s.closed = false
  | .frontendAuth _ key, s | .relayAuth key, s => s.session = some (key, false)
  | .relayQueries key _, s => s.session = some (key, true) ∧ s.dialled = false
  | .removeCancelTarget key, s => s.session.map Prod.fst = some key ∧ s.dialled = false
  | .release user db, s => s = { none with admitted := some (user, db) }
  | _, s => s.closed = false

variable {cfg} {payload user addr db : Bytes} {key : Key} {admitted : Option (Bytes × Bytes)}

theorem safe_authenticate : Safe (.ofFun next) Due (authenticate cfg payload user addr key)
    (fun ok t => t = ⟨admitted, some (key, ok), false, false⟩) ⟨admitted, some (key, false), false,
      false⟩ := by
  unfold authenticate
  split
  · exact ⟨rfl, fun _ _ ht => ht⟩
  refine ⟨rfl, ?_⟩
  rintro (_ | _) _ rfl
  · exact ⟨rfl, fun _ _ ht => ht⟩
  refine ⟨rfl, ?_⟩
  rintro (_ | _) _ rfl
  · exact ⟨rfl, fun _ _ ht => ht⟩
  refine ⟨rfl, ?_⟩
  rintro ok _ rfl
  exact ⟨rfl, fun _ _ ht => ht⟩

theorem safe_relaySession : Safe (.ofFun next) Due (relaySession cfg payload user addr db)
    (fun _ t => t = ⟨admitted, .none, false, false⟩) ⟨admitted, .none, false, false⟩ := by
  refine ⟨⟨rfl, rfl⟩, ?_⟩
  rintro key _ rfl
  refine safe_authenticate.bind ?_
  rintro (_ | _) _ rfl
  · exact ⟨⟨rfl, rfl⟩, fun _ _ ht => ht⟩
  · exact ⟨⟨rfl, rfl⟩, fun _ _ ht => ht ▸ ⟨⟨rfl, rfl⟩, fun _ _ ht => ht⟩⟩

theorem safe_serve : Safe (.ofFun next) Due (serve cfg payload) (fun _ t => t = none) none := by
  unfold serve
  dsimp only
  split
  · exact ⟨rfl, fun _ _ ht => ht⟩
  refine ⟨rfl, ?_⟩
  rintro (_ | _ | reason) _ rfl
  · exact safe_relaySession.bind fun _ _ ht => ht
  · exact safe_relaySession.bind fun _ _ ht => ht ▸ ⟨rfl, fun _ _ ht => ht⟩
  · exact ⟨rfl, fun _ _ ht => ht⟩

theorem safe_dispatch (startup : Option Bytes) :
    Safe (.ofFun next) Due (dispatch cfg startup) (fun _ t => t = none) none := by
  unfold dispatch
  split
  · rfl
  split
  · exact ⟨rfl, fun _ _ ht => ht⟩
  · exact safe_serve

/-- On every path a connection is closed with nothing owed, and queries are relayed behind an
authentication alone. -/
theorem handleConn_settles (cfg : Config) :
    Safe (.ofFun next) Due (handleConn cfg) (fun _ s => s = { none with closed := true }) none := by
  have hrest (startup : Option Bytes) :=
    (@safe_dispatch cfg startup).bind (f := fun _ => ask .close)
        (R := fun _ s => s = { none with closed := true }) <| by
      rintro _ _ rfl
      exact ⟨rfl, fun _ _ ht => ht⟩
  refine ⟨rfl, ?_⟩
  rintro first _ rfl
  simp only [Prog.bind]
  split
  · refine ⟨rfl, ?_⟩
    rintro (_ | _) _ rfl
    · exact hrest .none
    · exact ⟨rfl, fun startup _ ht => ht ▸ hrest startup⟩
  · exact hrest first

end Owed

end PgMux.Connections
