import PgMux.Hygiene
import PgMux.PgBlocks

/-!
# Open transactions and the pools

Each connection carries the transaction status of its server session. A session may release it
inside a block where its own idea of the transaction differs from the server's, where the client
leaves in a block, or where the request that would have closed it is lost.
-/

namespace PgMux.OpenTransactions

open Effects PgBlocks Relay
open Hygiene (bare)
open Router (Session)
open Pools (Conn Pool)

structure Blocks where
  status : Conn → Status
  views : Views
  bare : Bool

def Blocks.new : Blocks := ⟨fun _ => .idle, Views.new, false⟩

def Blocks.set (s : Blocks) (c : Conn) (st : Status) : Blocks :=
  { s with status := Function.update s.status c st }

section

variable (server : Server) (env : Env)

/-- Every status a step may leave. A message read moves the client's view of its statements, a
request that was sent leaves a status the server can leave, and a connection that is lent or was
reset is outside a block. -/
def next : (o : Op) → Blocks → Ans o → List Blocks
  | .recv v, s, some i => [{ s with views := s.views.read i.msg, bare := bare env v i }]
  | .allow, s, admitted => [{ s with views := s.views.accept admitted }]
  | .acquireWriter, s, c => if ∀ d ∈ c, s.status d = .idle then [s] else []
  | .acquire _, s, c => if ∀ d ∈ c, s.status d = .idle then [s] else []
  | .acquireReader _, s, r => if ∀ d ∈ r, s.status d.1 = .idle then [s] else []
  | .send c r, s, true => (server s.views.ahead (s.status c) r).map (s.set c)
  | .reset c, s, true => if s.status c = .idle then [s] else []
  | .discard c _, s, _ => [s.set c .idle]
  | _, s, _ => [s]

abbrev step : Machine Ans Blocks := .ofList (next server env)

/-- What the message asks for leaves no block open, from a fresh connection and from the bound
writer. -/
def Closes (v : Vars) (i : Input) (s : Blocks) : Prop :=
  ∀ r ∈ requests env v i, server.EndsIdle (s.views.view.next i.msg) .idle r ∧
    ∀ c ∈ v.boundWriter, server.EndsIdle (s.views.view.next i.msg) (s.status c) r

/-- The condition on a step: a message read outside what the session takes for a transaction closes
what it opens, a failed send was of a session outside a block, and a client that leaves outside a
transaction leaves no block open. -/
def Tidy : (o : Op) → Blocks → Ans o → Blocks → Prop
  | .recv v, s, some i, _ => bare env v i = true → Closes server env v i s
  | .send c _, s, false, _ => s.bare = true → s.status c = .idle
  | .leave v, s, _, _ => v.connDirty = false → ∀ c ∈ v.boundWriter, s.status c = .idle
  | _, _, _, _ => True

abbrev tidy : Machine Ans Blocks := (step server env).restrict (Tidy server env)

end

section

variable {server : Server} {env : Env}

variable (server) in
structure Follows (s : Blocks) (u : Hygiene.Ward) : Prop where
  unfit : ∀ c, c ∈ u.unfit ↔ s.status c ≠ .idle
  bare : s.bare = !u.may
  fresh : u.may = false → ∀ r ∈ u.allowed, server.EndsIdle s.views.ahead .idle r
  closes : u.may = false → ∀ r ∈ u.allowed, ∀ c, server.EndsIdle s.views.ahead (s.status c) r

variable {s : Blocks} {u : Hygiene.Ward}

theorem Follows.fit (h : Follows server s u) {c : Conn} (hc : c ∉ u.unfit) :
    s.status c = .idle := by
  rwa [h.unfit, not_not] at hc

theorem Follows.erase (h : Follows server s u) {c : Conn} (hc : s.status c = .idle) :
    Follows server s { u with unfit := u.unfit.erase c } := by
  refine ⟨fun d => ?_, h.bare, h.fresh, h.closes⟩
  rw [Finset.mem_erase, h.unfit]
  exact ⟨fun hd => hd.2, fun hd => ⟨fun hdc => hd (hdc ▸ hc), hd⟩⟩

theorem Follows.set_idle (h : Follows server s u) (c : Conn) :
    Follows server (s.set c .idle) { u with unfit := u.unfit.erase c } := by
  refine ⟨fun d => ?_, h.bare, h.fresh, fun hmay r hr d => ?_⟩
  · rw [Finset.mem_erase, h.unfit, Blocks.set]
    by_cases hdc : d = c
    · simp [hdc]
    · simp [hdc]
  · rw [Blocks.set]
    by_cases hdc : d = c
    · subst hdc
      simpa using h.fresh hmay r hr
    · simpa [hdc] using h.closes hmay r hr d

theorem Follows.set (h : Follows server s u) (c : Conn) {st : Status} (hst : st ≠ .idle)
    (hmay : u.may = true) : Follows server (s.set c st) { u with unfit := insert c u.unfit } := by
  refine ⟨fun d => ?_, h.bare, fun hno => by simp [hmay] at hno, fun hno => by simp [hmay] at hno⟩
  rw [Finset.mem_insert, h.unfit, Blocks.set]
  by_cases hdc : d = c
  · simp [hdc, hst]
  · simp [hdc]

theorem follows_recv {v : Vars} {i : Input} (h : Follows server s u) (hkept : Hygiene.Kept true v u)
    (htidy : bare env v i = true → Closes server env v i s) :
    Follows server { s with views := s.views.read i.msg, bare := bare env v i }
      ⟨u.unfit, !bare env v i, requests env v i⟩ := by
  refine ⟨h.unfit, by simp, fun hmay r hr => ?_, fun hmay r hr c => ?_⟩
  · exact (htidy (by simpa using hmay) r hr).1
  · obtain ⟨hfresh, hbound⟩ := htidy (by simpa using hmay) r hr
    by_cases hc : s.status c = .idle
    · simpa [hc, Views.read] using hfresh
    · exact hbound c (hkept c ((h.unfit c).mpr hc)).1

theorem follows_step {o : Op} {t : Blocks} {ans : Ans o} (h : Follows server s u)
    (hpre : Hygiene.Releases true o u ∧ Hygiene.Asked o u) (ht : tidy server env o s ans t) :
    ∃ w, Hygiene.step true env o u ans w ∧ Follows server t w := by
  obtain ⟨hreleases, hasked⟩ := hpre
  obtain ⟨ht, htidy⟩ := ht
  cases o with
  | recv v =>
    cases ans with
    | none =>
      obtain rfl : t = s := List.mem_singleton.mp ht
      exact ⟨u, rfl, h⟩
    | some i =>
      obtain rfl : t = _ := List.mem_singleton.mp ht
      refine ⟨⟨u.unfit, !bare env v i, requests env v i⟩, ⟨rfl, fun hmay => ?_, rfl⟩,
        follows_recv h hreleases htidy⟩
      exact ⟨by simpa using hmay, .inl rfl⟩
  | allow =>
    obtain rfl : t = _ := List.mem_singleton.mp ht
    exact ⟨u, rfl, h.unfit, h.bare, by simpa using h.fresh, by simpa using h.closes⟩
  | leave v =>
    obtain rfl : t = s := List.mem_singleton.mp ht
    refine ⟨u, ⟨fun _ hdirty c hc hunfit => ?_, rfl⟩, h⟩
    exact (h.unfit c).mp hunfit (htidy hdirty c hc)
  | send c r =>
    cases ans with
    | false =>
      obtain rfl : t = s := List.mem_singleton.mp ht
      by_cases hidle : t.status c = .idle
      · exact ⟨_, .inl rfl, h.erase hidle⟩
      · have hbare : t.bare = false := Bool.eq_false_iff.mpr fun hbare => hidle (htidy hbare)
        have hmay : u.may = true := by simpa [hbare] using h.bare
        have hset : t.set c (t.status c) = t := by rw [Blocks.set, Function.update_eq_self]
        exact ⟨_, .inr ⟨hmay, rfl⟩, hset ▸ h.set c hidle hmay⟩
    | true =>
      obtain ⟨st, hst, rfl⟩ := List.mem_map.mp ht
      by_cases hidle : st = .idle
      · exact ⟨_, .inl rfl, hidle ▸ h.set_idle c⟩
      · cases hmay : u.may with
        | true => exact ⟨_, .inr ⟨hmay, rfl⟩, h.set c hidle hmay⟩
        | false => exact absurd (h.closes hmay r hasked c st hst) hidle
  | acquireWriter | acquire p =>
    obtain ⟨hidle, rfl⟩ := mem_guard.mp ht
    cases ans with
    | none => exact ⟨u, rfl, h⟩
    | some c => exact ⟨_, rfl, h.erase (hidle c rfl)⟩
  | acquireReader minLSN =>
    obtain ⟨hidle, rfl⟩ := mem_guard.mp ht
    cases ans with
    | none => exact ⟨u, rfl, h⟩
    | some r => exact ⟨_, rfl, h.erase (hidle r rfl)⟩
  | reset c =>
    cases ans with
    | false =>
      obtain rfl : t = s := List.mem_singleton.mp ht
      exact ⟨u, rfl, h⟩
    | true =>
      obtain ⟨hidle, rfl⟩ := mem_guard.mp ht
      exact ⟨_, rfl, h.erase hidle⟩
  | release c p =>
    obtain rfl : t = s := List.mem_singleton.mp ht
    exact ⟨_, rfl, h.erase (h.fit hreleases)⟩
  | discard c p =>
    obtain rfl : t = _ := List.mem_singleton.mp ht
    exact ⟨_, rfl, h.set_idle c⟩
  | _ =>
    obtain rfl : t = s := List.mem_singleton.mp ht
    exact ⟨u, rfl, h⟩

def Idle : Op → Blocks → Prop
  | .release c _, s => s.status c = .idle
  | _, _ => True

theorem follows_new : Follows server Blocks.new ⟨∅, true, []⟩ :=
  ⟨by simp [Blocks.new], rfl, (fun hno => nomatch hno), (fun hno => nomatch hno)⟩

theorem safe_relayQueries (n : Nat) (session : Session) :
    Safe (tidy server env) Idle (relayQueries env n session) (fun _ _ => True) Blocks.new := by
  have hfit := @Hygiene.safe_relayQueries true env ⟨∅, true, []⟩ n session rfl
  have hrefined := hfit.refine (M := tidy server env)
    (fun o s u ans t hR hpre => follows_step hR hpre) follows_new
  refine (hrefined.mono fun _ _ _ => trivial).guard fun o s hpre => ?_
  obtain ⟨u, hR, hreleases, _⟩ := hpre
  cases o with
  | release c p => exact hR.fit hreleases
  | _ => trivial

/-- In every run whose steps are tidy, a connection is outside a block when it is given back to its
pool, whatever the server does with a text. -/
theorem released_idle {n : Nat} {session : Session} {t : Blocks} {p : Run Unit}
    (hr : Reach (tidy server env) (relayQueries env n session) Blocks.new p t) {c : Conn} {q : Pool}
    (hp : p.head = some (.release c q)) : t.status c = .idle :=
  (safe_relayQueries n session).guarded hr hp

end

theorem open_block_released :
    ∃ p t, Reach (step commands (plainEnv false))
        (relayQueries (plainEnv false) 2 (Session.new 0 false false)) Blocks.new p t ∧
      p.head = some (.release 0 0) ∧ t.status 0 = .inTx := by
  have hreach := drive_reach Script.reply (ofList_of_first (next commands (plainEnv false))) 8
    (relayQueries (plainEnv false) 2 (Session.new 0 false false))
    ⟨[plainQuery "BEGIN"], [0], [0]⟩ Blocks.new
  exact ⟨_, _, hreach, rfl, by decide +kernel⟩

instance (server : Server) (env : Env) (v : Vars) (i : Input) (s : Blocks) :
    Decidable (Closes server env v i s) :=
  inferInstanceAs (Decidable (∀ _ ∈ _, _ ∧ ∀ _ ∈ _, _))

instance (server : Server) (env : Env) :
    (o : Op) → (s : Blocks) → (ans : Ans o) → (t : Blocks) → Decidable (Tidy server env o s ans t)
  | .recv v, s, some i, _ =>
    inferInstanceAs (Decidable (bare env v i = true → Closes server env v i s))
  | .send c _, s, false, _ => inferInstanceAs (Decidable (s.bare = true → s.status c = .idle))
  | .leave v, s, _, _ =>
    inferInstanceAs (Decidable (v.connDirty = false → ∀ c ∈ v.boundWriter, s.status c = .idle))
  | .recv _, _, none, _ | .send _ _, _, true, _ | .writerPool, _, _, _ | .acquireWriter, _, _, _
  | .allow, _, _, _ | .client _, _, _, _ | .acquire _, _, _, _ | .acquireReader _, _, _, _
  | .relay _, _, _, _ | .collect _, _, _, _ | .relayDescribe _, _, _, _ | .queryLSN _, _, _, _
  | .reset _, _, _, _ | .release _ _, _, _, _ | .discard _ _, _, _, _ | .nilPool _, _, _, _
  | .lookup _ _, _, _, _ | .store _ _, _, _, _ | .invalidate _, _, _, _ => .isTrue trivial

theorem released_idle_commit :
    ∃ p t, p.head = some (.release 0 0) ∧ t.status 0 = .idle ∧
      Reach (tidy commands (plainEnv false))
        (relayQueries (plainEnv false) 3 (Session.new 0 false false)) Blocks.new p t := by
  have hreach :=
    drive_reach_restrict Script.reply (ofList_of_first (next commands (plainEnv false)))
    (Tidy commands (plainEnv false)) 16
    (relayQueries (plainEnv false) 3 (Session.new 0 false false))
    ⟨[plainQuery "BEGIN", plainQuery "INSERT INTO t VALUES (1)", plainQuery "COMMIT"],
      [0, 0, 0], [0]⟩
    Blocks.new
  exact ⟨_, _, rfl, released_idle hreach rfl, hreach⟩

end PgMux.OpenTransactions
