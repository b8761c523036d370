import PgMux.BoundWriter

/-!
# A session on its pools

The query loop run on the pools, with reloads of the writer pool between its operations. What a
session borrows, uses and gives back in one step is a fact about the pools, so the books of the
ledger are theirs.
-/

namespace PgMux.PoolSession

open Borrowing Effects Protocol Relay
open Pools (Conn Pool World)
open Router (Session)

structure Site where
  world : World
  acquiredPool : Option Pool
  rebinds : Option Pool
  endsUnbound : Bool
  reloaded : Bool

section

variable (env : Env) (origin : Conn → Pool)

def receive (v : Vars) (i : Option Input) (s : Site) : Site :=
  { s with rebinds := i.bind (rebinds v), endsUnbound := i.any (endsUnbound env v) }

/-- What is decided outside of the session in a step: which idle connections have expired, what a
dial gives, and which reader's pool is asked in vain. -/
structure Outside where
  expired : Conn → Bool
  dialled : Option Conn
  asked : Option Pool

def lend (x : Outside) (p : Pool) (s : Site) (c : Option Conn) : List Site :=
  let r := s.world.acquire x.expired x.dialled p
  if r.1 = c ∧ ∀ d ∈ x.dialled, d ∉ s.world.live ∧ origin d = p then [{ s with world := r.2 }]
    else []

def next (x : Outside) : (o : Op) → Site → Ans o → List Site
  | .recv v, s, i => [receive env v i s]
  | .writerPool, s, p => if p = s.world.writerPool then [{ s with acquiredPool := some p }] else []
  | .acquireWriter, s, c => lend origin x s.world.writerPool s c
  | .acquire p, s, c => lend origin x p s c
  | .acquireReader _, s, none => x.asked.elim [s] fun p => lend origin x p s none
  | .acquireReader _, s, some (c, p) => lend origin x p s (some c)
  | .release c p, s, _ => [{ s with world := s.world.release c p }]
  | .discard c p, s, _ => [{ s with world := s.world.discard c p }]
  | _, s, _ => [s]

def step : Machine Ans Site := fun o s ans t => ∃ x, t ∈ next env origin x o s ans

def Reloads (s t : Site) : Prop :=
  ∃ maxConnections, t = { s with world := s.world.reload maxConnections, reloaded := true }

/-- Any number of reloads come before an operation. -/
def hotReload : Machine Ans Site := fun o s ans t =>
  ∃ s₁, Relation.ReflTransGen Reloads s s₁ ∧ step env origin o s₁ ans t

end

/-- The writer pool is the one that was read before the acquire, or the bound writer's. -/
def Steady : (o : Op) → Ans o → Site → Prop
  | .writerPool, p, t => ∀ q ∈ t.rebinds, p = q
  | .acquireWriter, _, t => t.acquiredPool = some t.world.writerPool
  | _, _, _ => True

/-- No batch that runs on the writer ends a transaction while no writer is bound. -/
def EndsBound (env : Env) : (o : Op) → Ans o → Prop
  | .recv v, some i => endsUnbound env v i = false
  | _, _ => True

def Site.ledger (s : Site) : Ledger where
  borrowed := s.world.borrowed
  writerPool := s.world.writerPool
  acquiredPool := s.acquiredPool
  rebinds := s.rebinds
  endsUnbound := s.endsUnbound
  reloaded := s.reloaded

section

variable {env : Env} {origin : Conn → Pool} {s t : Site}

theorem lend_spec {x : Outside} {p : Pool} {c : Option Conn} (h : t ∈ lend origin x p s c)
    (hw : s.world.WellFormed origin) :
    t.world.WellFormed origin ∧ t.ledger = s.ledger.lend (c.toList.map (·, p)) := by
  obtain ⟨⟨hc, hd⟩, rfl⟩ := mem_guard.mp h
  obtain ⟨hb, hp⟩ := World.acquire_eq (Prod.ext hc rfl)
  exact ⟨hw.acquire hd, by simp [Site.ledger, Ledger.lend, hb, hp]⟩

theorem step_ledger {o : Op} {ans : Ans o} (hw : s.world.WellFormed origin)
    (hpre : Sound o s.ledger) (hsteady : s.reloaded = true → Steady o ans t)
    (h : step env origin o s ans t) :
    t.world.WellFormed origin ∧ Borrowing.step env o s.ledger ans t.ledger := by
  obtain ⟨x, h⟩ := h
  cases o with
  | recv v =>
    obtain rfl := List.mem_singleton.mp h
    exact ⟨hw, rfl⟩
  | writerPool =>
    obtain ⟨hp, rfl⟩ := mem_guard.mp h
    exact ⟨hw, hp, hsteady, rfl⟩
  | acquireWriter =>
    obtain ⟨hwt, hl⟩ := lend_spec h hw
    refine ⟨hwt, fun hr => ?_, hl⟩
    have hst := hsteady hr
    obtain ⟨⟨hc, -⟩, rfl⟩ := mem_guard.mp h
    simpa [Site.ledger, Steady, (World.acquire_eq (Prod.ext hc rfl)).2] using hst
  | acquire p => exact lend_spec h hw
  | acquireReader lsn =>
    cases ans with
    | none =>
      rw [next] at h
      cases hasked : x.asked with
      | none =>
        rw [hasked] at h
        obtain rfl := List.mem_singleton.mp h
        exact ⟨hw, rfl⟩
      | some p =>
        rw [hasked] at h
        exact @lend_spec _ _ _ x p none h hw
    | some r => exact lend_spec h hw
  | release c p =>
    obtain rfl := List.mem_singleton.mp h
    exact ⟨hw.release hpre, rfl⟩
  | discard c p =>
    obtain rfl := List.mem_singleton.mp h
    exact ⟨hw.discard hpre, rfl⟩
  | _ =>
    obtain rfl := List.mem_singleton.mp h
    exact ⟨hw, rfl⟩

theorem step_flags {o : Op} {ans : Ans o} (h : step env origin o s ans t) (he : EndsBound env o ans)
    (hr : s.reloaded = false) (hu : s.endsUnbound = false) :
    t.reloaded = false ∧ t.endsUnbound = false := by
  obtain ⟨x, h⟩ := h
  have hacq : ∀ {p c}, t ∈ lend origin x p s c → t.reloaded = false ∧ t.endsUnbound = false := by
    intro p c h
    obtain ⟨-, rfl⟩ := mem_guard.mp h
    exact ⟨hr, hu⟩
  cases o with
  | recv v =>
    obtain rfl := List.mem_singleton.mp h
    cases ans with
    | none => exact ⟨hr, rfl⟩
    | some i => exact ⟨hr, he⟩
  | writerPool =>
    obtain ⟨-, rfl⟩ := mem_guard.mp h
    exact ⟨hr, hu⟩
  | acquireWriter | acquire p => exact hacq h
  | acquireReader lsn =>
    cases ans with
    | none =>
      rw [next] at h
      cases hasked : x.asked with
      | none =>
        rw [hasked] at h
        exact List.mem_singleton.mp h ▸ ⟨hr, hu⟩
      | some p =>
        rw [hasked] at h
        exact hacq h
    | some r => exact hacq h
  | _ =>
    obtain rfl := List.mem_singleton.mp h
    exact ⟨hr, hu⟩

theorem reloads_ledger (h : Relation.ReflTransGen Reloads s t) (hw : s.world.WellFormed origin) :
    t.world.WellFormed origin ∧ Drift s.ledger t.ledger := by
  induction h with
  | refl => exact ⟨hw, .inl rfl⟩
  | tail _ hr ih =>
    obtain ⟨maxConnections, rfl⟩ := hr
    exact ⟨ih.1.reload maxConnections, ih.2.replace _⟩

theorem sound_drift {o : Op} {l l' : Ledger} (h : Sound o l) (hd : Drift l l') : Sound o l' := by
  obtain rfl | ⟨p, rfl⟩ := hd
  · exact h
  · cases o <;> exact h

variable {session : Session}

theorem safe_hotReload (n : Nat) (hs : session.inTransaction = false)
    (hw : s.world.WellFormed origin) (hb : s.world.borrowed = []) :
    Safe ((hotReload env origin).restrict fun o _ => Steady o)
      (fun o s => s.world.WellFormed origin ∧ Sound o s.ledger)
      (relayQueries env n session)
      (fun _ s => s.world.WellFormed origin ∧
          (s.endsUnbound = false → s.world.borrowed = [])) s := by
  refine Safe.simulate Site.ledger (fun o s ans t hw hpre hM => ?_) (safe_relayQueries n hs hb) hw
  obtain ⟨⟨s₁, hrel, hstep⟩, hsteady⟩ := hM
  obtain ⟨hw₁, hd⟩ := reloads_ledger hrel hw
  obtain ⟨hwt, hl⟩ := step_ledger hw₁ (sound_drift hpre hd) (fun _ => hsteady) hstep
  exact ⟨hwt, s₁.ledger, hd, hl⟩

theorem safe_session (n : Nat) (hs : session.inTransaction = false) (hw : s.world.WellFormed origin)
    (hr : s.reloaded = false) (hu : s.endsUnbound = false) (hb : s.world.borrowed = []) :
    Safe ((step env origin).restrict fun o _ ans _ => EndsBound env o ans)
      (fun o s => (s.world.WellFormed origin ∧ s.reloaded = false ∧ s.endsUnbound = false) ∧
        Sound o s.ledger)
      (relayQueries env n session)
        (fun _ s => (s.world.WellFormed origin ∧ s.reloaded = false ∧ s.endsUnbound = false) ∧
        (s.endsUnbound = false → s.world.borrowed = [])) s := by
  refine Safe.simulate Site.ledger (fun o s ans t hi hpre hM => ?_) (safe_relayQueries n hs hb)
    ⟨hw, hr, hu⟩
  obtain ⟨hstep, hbound⟩ := hM
  obtain ⟨hwt, hl⟩ := step_ledger hi.1 hpre (fun h => absurd h (by simp [hi.2.1])) hstep
  exact ⟨⟨hwt, step_flags hstep hbound hi.2.1 hi.2.2⟩, s.ledger, .inl rfl, hl⟩

variable {n : Nat} {s₀ : Site} {p : Run Unit}

/-- Every connection goes back to the pool whose `Acquire` returned it. -/
theorem released_to_lender (hs : session.inTransaction = false) (hw : s₀.world.WellFormed origin)
    (hb : s₀.world.borrowed = [])
    (hr : Reach ((hotReload env origin).restrict fun o _ => Steady o)
      (relayQueries env n session) s₀ p s) :
    (∀ c q, p.head = some (.release c q) ∨ p.head = some (.discard c q) →
      (c, q) ∈ s.world.borrowed) ∧
      ∀ q, (s.world.pools q).numOpen = (s.world.own origin q).card := by
  have hsafe := @safe_hotReload env _ _ _ n hs hw hb
  refine ⟨fun c q hhead => ?_, ?_⟩
  · cases hhead with
    | inl hhead | inr hhead => exact (hsafe.guarded hr hhead).2
  · exact (hsafe.holds hr (fun _ _ h => h.1) fun _ _ h => h.1).numOpen_eq

/-- Only what is borrowed is given back, to its lender, and at the end nothing is borrowed. -/
theorem connections_conserved (hs : session.inTransaction = false) (hw : s₀.world.WellFormed origin)
    (hr₀ : s₀.reloaded = false) (hu₀ : s₀.endsUnbound = false) (hb : s₀.world.borrowed = [])
    (hr : Reach ((step env origin).restrict fun o _ ans _ => EndsBound env o ans)
      (relayQueries env n session) s₀ p s) :
    (∀ v, p.head = some (.recv v) ∨ p.head = some (.leave v) →
        v.boundWriter.isSome = v.boundWriterPool.isSome) ∧
      (∀ c, p.head ≠ some (.nilPool c)) ∧
      (∀ c q, p.head = some (.release c q) ∨ p.head = some (.discard c q) →
        (c, q) ∈ s.world.borrowed) ∧ (∀ a, p = .ret a → s.world.borrowed = []) := by
  have hsafe := @safe_session env _ _ _ n hs hw hr₀ hu₀ hb
  refine ⟨fun v hv => ?_, fun c hc => ?_, fun c q hq => ?_, ?_⟩
  · cases hv with
    | inl hv | inr hv => exact (hsafe.guarded hr hv).2
  · obtain ⟨hi, hnil⟩ := hsafe.guarded hr hc
    exact absurd hnil (by simp [Sound, Site.ledger, hi.2.2])
  · cases hq with
    | inl hq | inr hq => exact (hsafe.guarded hr hq).2
  · rintro a rfl
    obtain ⟨hi, hend⟩ := hsafe.reach hr
    exact hend hi.2.2

end

/-! ## Runs on fixed inputs -/

section

variable (env : Env) (origin : Conn → Pool)

/-- No connection has expired, and what is not live is dialled. -/
def outside (o : Op) (s : Site) (ans : Ans o) : Outside :=
  let got : Option Conn := match o, ans with
    | .acquireWriter, c => c
    | .acquire _, c => c
    | .acquireReader _, r => r.map Prod.fst
    | _, _ => none
  ⟨fun _ => false, got.filter (· ∉ s.world.live), none⟩

def run (o : Op) (s : Site) (ans : Ans o) : Option Site :=
  (next env origin (outside o s ans) o s ans).head?

def reloadUnless (b : Bool) (s : Site) : Site :=
  if b then s else { s with world := s.world.reload 1, reloaded := true }

def nextReload (o : Op) (s : Site) (ans : Ans o) : Option Site :=
  match o, ans with
  | .writerPool, p => run env origin .writerPool (reloadUnless (p == s.world.writerPool) s) p
  | .acquireWriter, c =>
    run env origin .acquireWriter (reloadUnless (c.all (origin · == s.world.writerPool)) s) c
  | o, ans => run env origin o s ans

variable {env origin}

theorem step_of_run {o : Op} {s t : Site} {ans : Ans o} (h : run env origin o s ans = some t) :
    step env origin o s ans t := ⟨_, List.mem_of_mem_head? h⟩

theorem reloads_reloadUnless (b : Bool) (s : Site) :
    Relation.ReflTransGen Reloads s (reloadUnless b s) := by
  cases b with
  | true => exact .refl
  | false => exact .single ⟨1, rfl⟩

theorem hotReload_of_nextReload {o : Op} {s t : Site} {ans : Ans o}
    (h : nextReload env origin o s ans = some t) : hotReload env origin o s ans t := by
  unfold nextReload at h
  split at h
  · exact ⟨_, reloads_reloadUnless _ s, step_of_run h⟩
  · exact ⟨_, reloads_reloadUnless _ s, step_of_run h⟩
  · exact ⟨s, .refl, step_of_run h⟩

end

instance : (o : Op) → (ans : Ans o) → (t : Site) → Decidable (Steady o ans t)
  | .writerPool, p, t => inferInstanceAs (Decidable (∀ q ∈ t.rebinds, p = q))
  | .acquireWriter, _, t => inferInstanceAs (Decidable (t.acquiredPool = some t.world.writerPool))
  | .recv _, _, _ | .leave _, _, _ | .allow, _, _ | .client _, _, _ | .acquire _, _, _
  | .acquireReader _, _, _ | .send _ _, _, _ | .relay _, _, _ | .collect _, _, _
  | .relayDescribe _, _, _ | .queryLSN _, _, _ | .reset _, _, _ | .release _ _, _, _
  | .discard _ _, _, _ | .nilPool _, _, _ | .lookup _ _, _, _ | .store _ _, _, _
  | .invalidate _, _, _ => .isTrue trivial

instance (env : Env) : (o : Op) → (ans : Ans o) → Decidable (EndsBound env o ans)
  | .recv v, some i => inferInstanceAs (Decidable (endsUnbound env v i = false))
  | .recv _, none | .leave _, _ | .writerPool, _ | .acquireWriter, _ | .allow, _ | .client _, _
  | .acquire _, _ | .acquireReader _, _ | .send _ _, _ | .relay _, _ | .collect _, _
  | .relayDescribe _, _ | .queryLSN _, _ | .reset _, _ | .release _ _, _ | .discard _ _, _
  | .nilPool _, _ | .lookup _ _, _ | .store _ _, _ | .invalidate _, _ => .isTrue trivial

def freshSite : Site where
  world := ⟨fun p => ⟨1, [], 0, p != 0⟩, 1, 0, ∅, []⟩
  acquiredPool := none
  rebinds := none
  endsUnbound := false
  reloaded := false

theorem freshSite_wellFormed (origin : Conn → Pool) : freshSite.world.WellFormed origin where
  numOpen_eq _ := rfl
  idle_own _ _ h := absurd h List.not_mem_nil
  idle_nodup _ := List.nodup_nil
  borrowed_own _ h := absurd h List.not_mem_nil
  borrowed_nodup := List.nodup_nil
  borrowed_idle _ h := absurd h List.not_mem_nil
  origin_lt _ h := absurd h (Finset.notMem_empty _)
  uncreated p hp := by
    have hne : p ≠ 0 := Nat.ne_of_gt hp
    simpa [freshSite] using hne
  writerPool_lt := Nat.zero_lt_one

def plainSession : Session := Session.new 0 false false

theorem released_to_other_pool :
    ∃ p s s', Reach (hotReload (plainEnv false) id)
      (relayQueries (plainEnv false) 1 plainSession) freshSite p s ∧
      p.head = some (.release 1 0) ∧ s.world.borrowed = [(1, 1)] ∧
      (∃ p', Reach (hotReload (plainEnv false) id)
        (relayQueries (plainEnv false) 1 plainSession) freshSite p' s') ∧
      (s'.world.pools 1).numOpen = 1 ∧ s'.world.own id 1 = ∅ := by
  have hreach := fun n =>
    drive_reach Script.reply (fun o s ans t =>
    @hotReload_of_nextReload (plainEnv false) id o s t ans)
    n (relayQueries (plainEnv false) 1 plainSession) ⟨[plainQuery "INSERT INTO t VALUES (1)"], [0],
      [1]⟩ freshSite
  exact ⟨_, _, _, hreach 6,
    rfl, by decide +kernel, ⟨_, hreach 7⟩, by decide +kernel, by decide +kernel⟩

theorem released_to_lender_reload :
    ∃ p s, p.head = some (.release 0 0) ∧ (0, 0) ∈ s.world.borrowed ∧
    (s.world.pools 0).closed = true ∧ (s.world.pools 0).numOpen = (s.world.own id 0).card ∧
      Reach ((hotReload (plainEnv false) id).restrict fun o _ => Steady o)
        (relayQueries (plainEnv false) 2 plainSession) freshSite p s := by
  have hreach := drive_reach_restrict Script.reply
    (fun o s ans t => @hotReload_of_nextReload (plainEnv false) id o s t ans)
      (fun o _ => Steady o) 11
    (relayQueries (plainEnv false) 2 plainSession) ⟨[plainQuery "BEGIN", plainQuery "COMMIT"],
      [0, 1], [0]⟩ freshSite
  have hlender := released_to_lender rfl (freshSite_wellFormed id) rfl hreach
  exact ⟨_, _, rfl, hlender.1 0 0 (.inl rfl), by decide +kernel, hlender.2 0, hreach⟩

theorem commit_unbound_nilPool :
    ∃ p s, Reach (step (plainEnv false) id)
      (relayQueries (plainEnv false) 2 plainSession) freshSite p s ∧
      p.head = some (.nilPool 0) ∧ s.world.borrowed = [(0, 0)] := by
  have hreach :=
    drive_reach Script.reply (fun o s ans t => @step_of_run (plainEnv false) id o s t ans) 8
    (relayQueries (plainEnv false) 2 plainSession)
    ⟨[plainInput msgParse ([0] ++ ascii "COMMIT" ++ [0, 0, 0]), plainInput msgSync []], [0],
      [0]⟩ freshSite
  exact ⟨_, _, hreach, rfl, by decide +kernel⟩

theorem connections_conserved_batches :
    ∃ s, s.world.borrowed = [] ∧
      Reach ((step (plainEnv false) id).restrict fun o _ ans _ => EndsBound (plainEnv false) o ans)
        (relayQueries (plainEnv false) 5 plainSession) freshSite (.ret ()) s := by
  have hreach :=
    drive_reach_restrict Script.reply (fun o s ans t => @step_of_run (plainEnv false) id o s t ans)
    (fun o _ ans _ => EndsBound (plainEnv false) o ans) 40
      (relayQueries (plainEnv false) 5 plainSession)
    ⟨[plainInput msgParse ([0] ++ ascii "BEGIN" ++ [0, 0, 0]), plainInput msgSync [],
      plainInput msgParse ([0] ++ ascii "COMMIT" ++ [0, 0, 0]), plainInput msgSync []], [0, 0],
        [0]⟩ freshSite
  exact ⟨_, (connections_conserved rfl (freshSite_wellFormed id) rfl rfl rfl hreach).2.2.2 () rfl,
    hreach⟩

end PgMux.PoolSession
