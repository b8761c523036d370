import Mathlib.Data.Multiset.Filter
import PgMux.ConnLimits
import PgMux.Runs

/-!
# Connection limits across reloads

A client is counted by the tracker that admits it, but released by the one that the server has when
the client leaves.
-/

namespace PgMux.LimitReload

open ConnLimits

inductive Place where
  | checked
  | unlimited
  | admitted (tracker : Nat)
  deriving DecidableEq, Repr

structure Client where
  user : Bytes
  db : Bytes
  place : Place
  deriving DecidableEq, Repr

structure Server where
  connTracker : Option (Nat × ConnTracker)
  made : Nat
  clients : Multiset Client
  nilRelease : Bool

inductive Event where
  | connect (user db : Bytes)
  | acquire (user db : Bytes)
  | disconnect (c : Client)
  | reload (cfg : Config)

namespace Server

def new (cfg : Config) : Server :=
  if cfg.enabled then ⟨some (0, .new cfg), 1, 0, false⟩ else ⟨none, 0, 0, false⟩

def connect (s : Server) (user db : Bytes) : Server :=
  { s with clients := ⟨user, db, if s.connTracker.isSome then .checked
    else .unlimited⟩ ::ₘ s.clients }

def acquire (s : Server) (user db : Bytes) : Server :=
  let rest := s.clients.erase ⟨user, db, .checked⟩
  match s.connTracker with
  | none => { s with clients := rest }
  | some (p, ct) =>
    match ct.tryAcquire user db with
    | (some _, ct) => { s with connTracker := some (p, ct), clients := rest }
    | (none, ct) =>
      { s with connTracker := some (p, ct), clients := ⟨user, db, .admitted p⟩ ::ₘ rest }

def disconnect (s : Server) (c : Client) : Server :=
  let rest := s.clients.erase c
  match c.place with
  | .admitted _ =>
    match s.connTracker with
    | none => { s with clients := rest, nilRelease := true }
    | some (q, ct) => { s with connTracker := some (q, ct.release c.user c.db), clients := rest }
  | _ => { s with clients := rest }

def reload (s : Server) (cfg : Config) : Server :=
  if cfg.enabled then
    match s.connTracker with
    | some (p, ct) => { s with connTracker := some (p, ct.updateLimits cfg) }
    | none => { s with connTracker := some (s.made, .new cfg), made := s.made + 1 }
  else { s with connTracker := none }

def next (s : Server) : Event → Server
  | .connect user db => s.connect user db
  | .acquire user db => s.acquire user db
  | .disconnect c => s.disconnect c
  | .reload cfg => s.reload cfg

end Server

def Enabled (s : Server) : Event → Prop
  | .acquire user db => ⟨user, db, .checked⟩ ∈ s.clients
  | .disconnect c => c ∈ s.clients ∧ c.place ≠ .checked
  | _ => True

instance (s : Server) (e : Event) : Decidable (Enabled s e) := by
  cases e
  all_goals unfold Enabled; infer_instance

def through (p : Nat) (clients : Multiset Client) : Multiset Client :=
  clients.filter (·.place = .admitted p)

def Right (s : Server) : Prop :=
  s.nilRelease = false ∧ ∀ p ct, s.connTracker = some (p, ct) →
    Tallies ct.byUser Client.user (through p s.clients) ∧
    Tallies ct.byDB Client.db (through p s.clients)

/-- The server has the tracker that admitted the client, or one that counts neither its user nor its
database. -/
def Own (s : Server) : Event → Prop
  | .disconnect ⟨user, db, .admitted p⟩ =>
    match s.connTracker with
    | some (q, ct) => q = p ∨ (ct.byUser user = 0 ∧ ct.byDB db = 0)
    | none => False
  | _ => True

instance (s : Server) (e : Event) : Decidable (Own s e) := by
  unfold Own
  split
  · split
    all_goals infer_instance
  · infer_instance

/-! ## Counting through one tracker -/

section

variable {p : Nat} {c : Client} {clients : Multiset Client}

theorem through_cons_of_eq (hp : c.place = .admitted p) :
    through p (c ::ₘ clients) = c ::ₘ through p clients :=
  Multiset.filter_cons_of_pos _ hp

theorem through_cons_of_ne (hp : c.place ≠ .admitted p) :
    through p (c ::ₘ clients) = through p clients :=
  Multiset.filter_cons_of_neg _ hp

theorem through_erase_of_eq (hp : c.place = .admitted p) (hc : c ∈ clients) :
    through p clients = c ::ₘ through p (clients.erase c) := by
  rw [← through_cons_of_eq hp, Multiset.cons_erase hc]

theorem through_erase_of_ne (hp : c.place ≠ .admitted p) (hc : c ∈ clients) :
    through p (clients.erase c) = through p clients := by
  rw [← through_cons_of_ne hp, Multiset.cons_erase hc]

end

theorem lower_of_zero {m : Bytes → Nat} {name : Bytes} (h : m name = 0) : lower m name = m := by
  unfold lower
  rw [if_neg (by omega)]

theorem eq_zero_of_lower {m : Bytes → Nat} {name : Bytes} (h : lower m name = m) : m name = 0 := by
  have hname := congrFun h name
  rw [lower_apply] at hname
  simp only [↓reduceIte] at hname
  omega

theorem tallies_unique {α : Type} {m m' : Bytes → Nat} {f : α → Bytes} {xs : Multiset α}
    (h : Tallies m f xs) (h' : Tallies m' f xs) : m = m' := by
  funext name
  rw [h name, h' name]

/-! ## What a step keeps -/

structure Sound (s : Server) : Prop where
  right : Right s
  current : ∀ p ct, s.connTracker = some (p, ct) → p < s.made
  admitted : ∀ c ∈ s.clients, ∀ p, c.place = .admitted p → p < s.made

theorem sound_new (cfg : Config) : Sound (.new cfg) := by
  unfold Server.new
  split
  · refine ⟨⟨rfl, fun p ct h => ?_⟩, fun p ct h => ?_,
      fun c hc => absurd hc (Multiset.notMem_zero c)⟩
    · cases h
      exact ⟨fun _ => rfl, fun _ => rfl⟩
    · cases h
      exact Nat.zero_lt_one
  · refine ⟨⟨rfl, fun p ct h => ?_⟩, fun p ct h => ?_,
      fun c hc => absurd hc (Multiset.notMem_zero c)⟩
    all_goals simp at h

section

variable {s : Server} (hs : Sound s)

include hs

theorem Sound.connect (user db : Bytes) : Sound (s.connect user db) := by
  let c : Client := ⟨user, db, if s.connTracker.isSome then .checked else .unlimited⟩
  have hplace : ∀ p, c.place ≠ .admitted p := by
    intro p
    dsimp only [c]
    split
    all_goals simp
  refine ⟨⟨hs.right.1, fun p ct h => ?_⟩, hs.current, fun c hc p hp => ?_⟩
  · have hthrough : through p (c ::ₘ s.clients) = through p s.clients :=
      through_cons_of_ne (hplace p)
    simp only [Server.connect, hthrough, c]
    exact hs.right.2 p ct h
  · obtain rfl | hc := Multiset.mem_cons.mp hc
    · exact absurd hp (hplace p)
    · exact hs.admitted c hc p hp

theorem Sound.erase {c : Client} (hc : c ∈ s.clients) (hplace : ∀ p, c.place ≠ .admitted p) :
    Sound { s with clients := s.clients.erase c } := by
  refine ⟨⟨hs.right.1, fun p ct h => ?_⟩, hs.current,
    fun c' hc' => hs.admitted c' (Multiset.mem_of_mem_erase hc')⟩
  simp only [through_erase_of_ne (hplace p) hc]
  exact hs.right.2 p ct h

theorem Sound.acquire {user db : Bytes} (hc : ⟨user, db, .checked⟩ ∈ s.clients) :
    Sound (s.acquire user db) := by
  have herase := hs.erase hc (by simp)
  unfold Server.acquire
  cases hct : s.connTracker with
  | none =>
    simp only [hct] at herase ⊢
    exact herase
  | some pct =>
    obtain ⟨p, ct⟩ := pct
    obtain ⟨reason, hr⟩ | hr := ct.tryAcquire_cases user db
    · simp only [hr, ← hct]
      exact herase
    · simp only [hr]
      have hp := hs.current p ct hct
      refine ⟨⟨hs.right.1, fun p' ct' h => ?_⟩, fun p' ct' h => ?_, fun c hc p' hp' => ?_⟩
      · obtain ⟨huser, hdb⟩ := herase.right.2 p ct hct
        cases h
        rw [through_cons_of_eq rfl]
        exact ⟨huser.add ⟨user, db, .admitted p⟩, hdb.add ⟨user, db, .admitted p⟩⟩
      · cases h
        exact hp
      · obtain rfl | hc := Multiset.mem_cons.mp hc
        · cases hp'
          exact hp
        · exact herase.admitted c hc p' hp'

theorem Sound.reload (cfg : Config) : Sound (s.reload cfg) := by
  unfold Server.reload
  split
  · split
    · rename_i p ct hct
      refine ⟨⟨hs.right.1, fun p' ct' h => ?_⟩, fun p' ct' h => ?_, hs.admitted⟩
      · cases h
        exact hs.right.2 p ct hct
      · cases h
        exact hs.current p ct hct
    · refine ⟨⟨hs.right.1, fun p' ct' h => ?_⟩, fun p' ct' h => ?_, fun c hc p hp => ?_⟩
      · -- nobody was admitted through a tracker that did not exist
        have hempty : through s.made s.clients = 0 :=
          Multiset.filter_eq_nil.mpr fun c hc hp => Nat.lt_irrefl _ (hs.admitted c hc s.made hp)
        cases h
        simp only [hempty]
        exact ⟨fun _ => rfl, fun _ => rfl⟩
      · cases h
        exact Nat.lt_succ_self _
      · exact Nat.lt_succ_of_lt (hs.admitted c hc p hp)
  · refine ⟨⟨hs.right.1, fun p' ct' h => ?_⟩, fun p' ct' h => ?_, hs.admitted⟩
    all_goals simp at h

theorem Sound.disconnect {c : Client} (hc : c ∈ s.clients) (hown : Own s (.disconnect c)) :
    Sound (s.disconnect c) := by
  obtain ⟨user, db, place⟩ := c
  unfold Server.disconnect
  cases place with
  | checked | unlimited => exact hs.erase hc (by simp)
  | admitted p =>
    have hrest : ∀ c' ∈ s.clients.erase ⟨user, db, .admitted p⟩, ∀ p', c'.place = .admitted p' →
        p' < s.made :=
      fun c' hc' => hs.admitted c' (Multiset.mem_of_mem_erase hc')
    cases hct : s.connTracker with
    | none => simp [Own, hct] at hown
    | some qct =>
      obtain ⟨q, ct⟩ := qct
      obtain ⟨huser, hdb⟩ := hs.right.2 q ct hct
      simp only [Own, hct] at hown
      refine ⟨⟨hs.right.1, fun q' ct' h => ?_⟩, fun q' ct' h => ?_, hrest⟩
      · cases h
        by_cases hq : q = p
        · subst hq
          rw [through_erase_of_eq rfl hc] at huser hdb
          exact ⟨huser.lower, hdb.lower⟩
        · obtain ⟨hzero, hzero'⟩ := hown.resolve_left hq
          have hne : (⟨user, db, .admitted p⟩ : Client).place ≠
            .admitted q := by simpa using Ne.symm hq
          simp only [ConnTracker.release, lower_of_zero hzero, lower_of_zero hzero',
            through_erase_of_ne hne hc]
          exact ⟨huser, hdb⟩
      · cases h
        exact hs.current q ct hct

theorem own_of_right {c : Client} (hc : c ∈ s.clients) (hright : Right (s.disconnect c)) :
    Own s (.disconnect c) := by
  obtain ⟨user, db, place⟩ := c
  cases place with
  | checked | unlimited => trivial
  | admitted p =>
    cases hct : s.connTracker with
    | none => simp [Server.disconnect, hct, Right] at hright
    | some qct =>
      obtain ⟨q, ct⟩ := qct
      obtain ⟨huser, hdb⟩ := hs.right.2 q ct hct
      simp only [Own, hct]
      by_cases hq : q = p
      · exact .inl hq
      · -- the clients of the tracker are the same as before, and so must be its counts
        right
        have hne : (⟨user, db, .admitted p⟩ : Client).place ≠
          .admitted q := by simpa using Ne.symm hq
        simp only [Server.disconnect, hct, Right] at hright
        obtain ⟨huser', hdb'⟩ := hright.2 q _ rfl
        rw [through_erase_of_ne hne hc] at huser' hdb'
        exact ⟨eq_zero_of_lower (tallies_unique huser' huser),
          eq_zero_of_lower (tallies_unique hdb' hdb)⟩

end

/-- The counts stay right just when every client leaves while its own tracker is there, or none that
counts it. -/
theorem counts_right_iff (cfg : Config) {events : List Event}
    (h : Runs.Each Server.next Enabled (.new cfg) events) :
    (∀ s ∈ Runs.states Server.next (.new cfg) events, Right s) ↔
    Runs.Each Server.next Own (.new cfg) events := by
  refine Runs.right_iff_each (I := Sound) (fun s e hs he hown => ?_) (fun s e hs he hright => ?_)
    (sound_new cfg) h
  · have hnext : Sound (s.next e) := by
      cases e with
      | connect user db => exact hs.connect user db
      | acquire user db => exact hs.acquire he
      | disconnect c => exact hs.disconnect he.1 hown
      | reload cfg => exact hs.reload cfg
    exact ⟨hnext, hnext.right⟩
  · cases e with
    | disconnect c => exact own_of_right hs he.1 hright
    | _ => trivial

def limited : Config := ⟨true, 0, 0, [], [], ascii "d"⟩

def unlimited : Config := { limited with enabled := false }

def admitting (rest : List Event) : List Event :=
  .connect (ascii "a") (ascii "d") :: .acquire (ascii "a") (ascii "d") :: rest

def leaving (p : Nat) : Event := .disconnect ⟨ascii "a", ascii "d", .admitted p⟩

theorem counts_right_kept :
    Runs.Each Server.next Enabled (.new limited) (admitting [.reload single, leaving 0]) ∧
      ∀ s ∈ Runs.states Server.next (.new limited) (admitting [.reload single, leaving 0]),
      Right s :=
  ⟨by decide, (counts_right_iff limited (by decide)).mpr (by decide)⟩

def disabled : List Event := admitting [.reload unlimited, leaving 0]

def cycled : List Event := admitting (.reload unlimited :: .reload limited :: admitting [leaving 0])

theorem counts_wrong :
    (Runs.Each Server.next Enabled (.new limited) disabled ∧
      ∃ s ∈ Runs.states Server.next (.new limited) disabled, s.nilRelease = true) ∧
    Runs.Each Server.next Enabled (.new limited) cycled ∧
      ∃ s ∈ Runs.states Server.next (.new limited) cycled,
      s.clients = {⟨ascii "a", ascii "d", .admitted 1⟩} ∧
        s.connTracker.map (fun x => (x.1, x.2.byUser (ascii "a"), x.2.byDB (ascii "d"))) = some (1,
          0, 0) := by
  decide

end PgMux.LimitReload
