import Mathlib.Data.List.Induction
import Mathlib.Data.Multiset.Count
import PgMux.Bytes

/-!
# Connection limits

The tracker counts the clients of each user and of each database. A client is admitted if both
counts are below their limits, which may change at any time, also to less than what is counted.
-/

namespace PgMux.ConnLimits

structure Config where
  enabled : Bool
  defaultMaxConnectionsPerUser : Int
  defaultMaxConnectionsPerDB : Int
  users : List (Bytes × Int)
  databases : List (Bytes × Int)
  backendDatabase : Bytes

def Config.resolvedDatabases (cfg : Config) : List (Bytes × Int) :=
  if cfg.databases = [] then [(cfg.backendDatabase, 0)] else cfg.databases

structure ConnTracker where
  byUser : Bytes → Nat
  byDB : Bytes → Nat
  userLimits : Bytes → Option Int
  dbLimits : Bytes → Option Int
  defaultUser : Int
  defaultDB : Int

def lower (m : Bytes → Nat) (name : Bytes) : Bytes → Nat :=
  if 0 < m name then Function.update m name (m name - 1) else m

def positive (entries : List (Bytes × Int)) : Bytes → Option Int :=
  entries.foldl (fun m e => if 0 < e.2 then Function.update m e.1 (some e.2) else m) fun _ => none

inductive Rejection where
  | user (name : Bytes) (limit : Int)
  | database (name : Bytes) (limit : Int)
  deriving DecidableEq, Repr

namespace ConnTracker

def updateLimits (ct : ConnTracker) (cfg : Config) : ConnTracker :=
  { ct with
    defaultUser := cfg.defaultMaxConnectionsPerUser
    defaultDB := cfg.defaultMaxConnectionsPerDB
    userLimits := positive cfg.users
    dbLimits := positive cfg.resolvedDatabases }

def new (cfg : Config) : ConnTracker where
  byUser _ := 0
  byDB _ := 0
  userLimits := positive cfg.users
  dbLimits := positive cfg.resolvedDatabases
  defaultUser := cfg.defaultMaxConnectionsPerUser
  defaultDB := cfg.defaultMaxConnectionsPerDB

def tryAcquire (ct : ConnTracker) (user db : Bytes) : Option Rejection × ConnTracker :=
  let userLimit := (ct.userLimits user).getD ct.defaultUser
  if 0 < userLimit ∧ userLimit ≤ ct.byUser user then (some (.user user userLimit), ct)
  else
    let dbLimit := (ct.dbLimits db).getD ct.defaultDB
    if 0 < dbLimit ∧ dbLimit ≤ ct.byDB db then (some (.database db dbLimit), ct)
    else
      (none, { ct with
        byUser := Function.update ct.byUser user (ct.byUser user + 1)
        byDB := Function.update ct.byDB db (ct.byDB db + 1) })

def release (ct : ConnTracker) (user db : Bytes) : ConnTracker :=
  { ct with byUser := lower ct.byUser user, byDB := lower ct.byDB db }

theorem tryAcquire_cases (ct : ConnTracker) (user db : Bytes) :
    (∃ reason, ct.tryAcquire user db = (some reason, ct)) ∨
      ct.tryAcquire user db = (none, { ct with
        byUser := Function.update ct.byUser user (ct.byUser user + 1)
        byDB := Function.update ct.byDB db (ct.byDB db + 1) }) := by
  unfold tryAcquire
  dsimp only
  split
  · exact .inl ⟨_, rfl⟩
  split
  · exact .inl ⟨_, rfl⟩
  · exact .inr rfl

end ConnTracker

/-! ## Counts -/

def Tallies {α : Type} (m : Bytes → Nat) (f : α → Bytes) (xs : Multiset α) : Prop :=
  ∀ name, m name = xs.countP (f · = name)

theorem lower_apply (m : Bytes → Nat) (name name' : Bytes) :
    lower m name name' = if name' = name then m name' - 1 else m name' := by
  unfold lower
  by_cases hname : name' = name
  · subst hname
    split
    · simp
    · simp only [↓reduceIte]
      omega
  · split
    · simp [hname]
    · simp

section

variable {α : Type} {m : Bytes → Nat} {f : α → Bytes} {x : α} {xs : Multiset α}

theorem Tallies.add (h : Tallies m f xs) (x : α) :
    Tallies (Function.update m (f x) (m (f x) + 1)) f (x ::ₘ xs) := by
  intro name
  by_cases hname : name = f x
  · subst hname
    simp [h (f x)]
  · simp [h name, hname, Ne.symm hname]

theorem Tallies.lower (h : Tallies m f (x ::ₘ xs)) : Tallies (lower m (f x)) f xs := by
  intro name
  rw [lower_apply, h name]
  by_cases hname : name = f x
  · subst hname
    simp
  · simp [hname, Ne.symm hname]

end

/-! ## Effective limits -/

def limitOf (entries : List (Bytes × Int)) (default : Int) (name : Bytes) : Option Nat :=
  match (entries.filter fun e => e.1 = name ∧ 0 < e.2).getLast? with
  | some e => some e.2.toNat
  | none => if 0 < default then some default.toNat else none

def Config.userLimit (cfg : Config) : Bytes → Option Nat :=
  limitOf cfg.users cfg.defaultMaxConnectionsPerUser

def Config.dbLimit (cfg : Config) : Bytes → Option Nat :=
  limitOf cfg.resolvedDatabases cfg.defaultMaxConnectionsPerDB

def Below (limit : Option Nat) (n : Nat) : Prop := ∀ l ∈ limit, n < l

def Within (limit : Option Nat) (n : Nat) : Prop := ∀ l ∈ limit, n ≤ l

theorem Below.within_succ {limit : Option Nat} {n : Nat} (h : Below limit n) :
    Within limit (n + 1) := fun l hl => h l hl

theorem positive_append (entries : List (Bytes × Int)) (e : Bytes × Int) :
    positive (entries ++ [e]) =
      if 0 < e.2 then Function.update (positive entries) e.1 (some e.2) else positive entries := by
  simp [positive, List.foldl_append]

theorem positive_eq (entries : List (Bytes × Int)) (name : Bytes) :
    positive entries name = (entries.filter fun e => e.1 = name ∧
      0 < e.2).getLast?.map Prod.snd := by
  induction entries using List.reverseRecOn with
  | nil => rfl
  | append_singleton entries e ih =>
    rw [positive_append, List.filter_append]
    by_cases hpos : 0 < e.2
    · by_cases hname : e.1 = name
      · subst hname
        simp [hpos]
      · simp [hpos, hname, Function.update_of_ne (Ne.symm hname), ih]
    · simp [hpos, ih]

theorem full_iff (entries : List (Bytes × Int)) (default : Int) (name : Bytes) (n : Nat) :
    (0 < (positive entries name).getD default ∧ (positive entries name).getD default ≤ n) ↔
      ¬ Below (limitOf entries default name) n := by
  rw [positive_eq, limitOf]
  cases hlast : (entries.filter fun e => e.1 = name ∧ 0 < e.2).getLast? with
  | some e =>
    have hmem := List.mem_filter.mp (List.mem_of_getLast? hlast)
    have hpos : 0 < e.2 := by simpa using (of_decide_eq_true hmem.2).2
    simp only [Option.map_some, Option.getD_some, Below, Option.mem_def, Option.some.injEq,
      forall_eq']
    omega
  | none =>
    simp only [Option.map_none, Option.getD_none, Below]
    split
    · simp only [Option.mem_def, Option.some.injEq, forall_eq']
      omega
    · simp
      omega

/-! ## Runs -/

structure State where
  tracker : ConnTracker
  cfg : Config
  clients : Multiset (Bytes × Bytes)

def start (cfg : Config) : State := ⟨.new cfg, cfg, 0⟩

inductive Step (s : State) : State → Prop where
  | admitted (user db : Bytes) (h : (s.tracker.tryAcquire user db).1 = none) :
    Step s { s with
      tracker := (s.tracker.tryAcquire user db).2, clients := (user, db) ::ₘ s.clients }
  | rejected (user db : Bytes) (h : (s.tracker.tryAcquire user db).1 ≠ none) :
    Step s { s with tracker := (s.tracker.tryAcquire user db).2 }
  | release {user db : Bytes} {rest : Multiset (Bytes × Bytes)}
      (h : s.clients = (user, db) ::ₘ rest) :
    Step s { s with tracker := s.tracker.release user db, clients := rest }
  | updateLimits (cfg : Config) :
      Step s { s with tracker := s.tracker.updateLimits cfg, cfg := cfg }

abbrev Reachable (cfg : Config) : State → Prop := Relation.ReflTransGen Step (start cfg)

structure Sound (s : State) : Prop where
  byUser : Tallies s.tracker.byUser Prod.fst s.clients
  byDB : Tallies s.tracker.byDB Prod.snd s.clients
  userLimits : s.tracker.userLimits = positive s.cfg.users
  dbLimits : s.tracker.dbLimits = positive s.cfg.resolvedDatabases
  defaultUser : s.tracker.defaultUser = s.cfg.defaultMaxConnectionsPerUser
  defaultDB : s.tracker.defaultDB = s.cfg.defaultMaxConnectionsPerDB

theorem sound_start (cfg : Config) : Sound (start cfg) := by
  constructor
  · exact fun _ => rfl
  · exact fun _ => rfl
  all_goals rfl

theorem Sound.step {s t : State} (h : Sound s) (hstep : Step s t) : Sound t := by
  cases hstep with
  | admitted user db hok =>
    obtain ⟨reason, hr⟩ | hr := s.tracker.tryAcquire_cases user db
    · exact absurd (hr ▸ hok) (by simp)
    · rw [hr]
      exact ⟨h.byUser.add (user, db), h.byDB.add (user, db), h.userLimits, h.dbLimits,
        h.defaultUser, h.defaultDB⟩
  | rejected user db hno =>
    obtain ⟨reason, hr⟩ | hr := s.tracker.tryAcquire_cases user db
    · rw [hr]
      exact h
    · exact absurd (by rw [hr]) hno
  | release hc =>
    have huser := hc ▸ h.byUser
    have hdb := hc ▸ h.byDB
    exact ⟨huser.lower, hdb.lower, h.userLimits, h.dbLimits, h.defaultUser, h.defaultDB⟩
  | updateLimits cfg => exact ⟨h.byUser, h.byDB, rfl, rfl, rfl, rfl⟩

theorem sound_of_reachable {cfg : Config} {s : State} (h : Reachable cfg s) : Sound s := by
  induction h with
  | refl => exact sound_start cfg
  | tail _ hstep ih => exact ih.step hstep

theorem tryAcquire_iff {s : State} (h : Sound s) (user db : Bytes) :
    (s.tracker.tryAcquire user db).1 = none ↔
      Below (s.cfg.userLimit user) (s.tracker.byUser user) ∧
      Below (s.cfg.dbLimit db) (s.tracker.byDB db) := by
  have huser := full_iff s.cfg.users s.cfg.defaultMaxConnectionsPerUser user (s.tracker.byUser user)
  have hdb :=
    full_iff s.cfg.resolvedDatabases s.cfg.defaultMaxConnectionsPerDB db (s.tracker.byDB db)
  rw [← h.userLimits, ← h.defaultUser] at huser
  rw [← h.dbLimits, ← h.defaultDB] at hdb
  unfold ConnTracker.tryAcquire Config.userLimit Config.dbLimit
  dsimp only
  rw [h.defaultUser] at huser ⊢
  rw [h.defaultDB] at hdb ⊢
  split
  · rename_i hfull
    have hnot := huser.mp hfull
    exact ⟨fun hc => (nomatch hc), fun hb => absurd hb.1 hnot⟩
  · rename_i hroom
    have hbelow := not_not.mp (mt huser.mpr hroom)
    split
    · rename_i hfull
      have hnot := hdb.mp hfull
      exact ⟨fun hc => (nomatch hc), fun hb => absurd hb.2 hnot⟩
    · rename_i hroom'
      exact ⟨fun _ => ⟨hbelow, not_not.mp (mt hdb.mpr hroom')⟩, fun _ => rfl⟩

/-- A client is admitted just when both counts are below their limits, and both are within them
then. -/
theorem limits_hold {cfg₀ : Config} {s : State} (h : Reachable cfg₀ s) :
    (∀ user, s.tracker.byUser user = s.clients.countP (·.1 = user)) ∧
      (∀ db, s.tracker.byDB db = s.clients.countP (·.2 = db)) ∧
      (∀ user db,
        ((s.tracker.tryAcquire user db).1 = none ↔
          Below (s.cfg.userLimit user) (s.tracker.byUser user) ∧
          Below (s.cfg.dbLimit db) (s.tracker.byDB db)) ∧ ((s.tracker.tryAcquire user db).1 = none →
          Within (s.cfg.userLimit user) ((s.tracker.tryAcquire user db).2.byUser user) ∧
            Within (s.cfg.dbLimit db) ((s.tracker.tryAcquire user db).2.byDB db)) ∧
        ((s.tracker.tryAcquire user db).1 ≠ none → (s.tracker.tryAcquire user db).2 = s.tracker)) ∧
      ∀ cfg, (s.tracker.updateLimits cfg).byUser = s.tracker.byUser ∧
        (s.tracker.updateLimits cfg).byDB = s.tracker.byDB := by
  have hs := sound_of_reachable h
  refine ⟨hs.byUser, hs.byDB, fun user db => ⟨tryAcquire_iff hs user db, fun hok => ?_,
    fun hno => ?_⟩, fun cfg => ⟨rfl, rfl⟩⟩
  · obtain ⟨huser, hdb⟩ := (tryAcquire_iff hs user db).mp hok
    obtain ⟨reason, hr⟩ | hr := s.tracker.tryAcquire_cases user db
    · exact absurd (hr ▸ hok) (by simp)
    · rw [hr]
      simp only [Function.update_self]
      exact ⟨huser.within_succ, hdb.within_succ⟩
  · obtain ⟨reason, hr⟩ | hr := s.tracker.tryAcquire_cases user db
    · rw [hr]
    · exact absurd (by rw [hr]) hno

def single : Config := ⟨true, 1, 0, [], [], ascii "d"⟩

theorem limits_hold_second : ∃ s, Reachable single s ∧ s.tracker.byUser (ascii "a") = 1 ∧
    (s.tracker.tryAcquire (ascii "a") (ascii "d")).1 ≠ none ∧
    (s.tracker.tryAcquire (ascii "a") (ascii "d")).2 = s.tracker := by
  have hs : Reachable single _ := .single (.admitted (ascii "a") (ascii "d") rfl)
  have hno : (((ConnTracker.new single).tryAcquire (ascii "a") (ascii "d")).2.tryAcquire (ascii "a")
      (ascii "d")).1 ≠ none := by
    decide
  exact ⟨_, hs, by decide, hno, ((limits_hold hs).2.2.1 (ascii "a") (ascii "d")).2.2 hno⟩

end PgMux.ConnLimits
