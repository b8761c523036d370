import PgMux.Wire

/-!
# The Data API

A request takes a connection from a pool, runs its query, resets the connection and gives it back. A
watchdog sets a past deadline on it once the context of the request is cancelled.
-/

namespace PgMux.DataApi

open Effects Protocol Wire

inductive ApiErr where
  | noPool | acquire | sendQuery | readResponse
  | query (msg : Bytes)
  | executeCancelled | drainCancelled
  deriving DecidableEq, Repr

def errorFields : Nat → Bytes → Bytes → Bytes
  | 0, _, msg => msg
  | n + 1, payload, msg =>
    match payload with
    | [] => msg
    | type :: rest =>
      if type = 0 then msg
      else
        let field := rest.takeWhile (· ≠ 0)
        errorFields n (rest.drop (field.length + 1)) (if type = 77 then field else msg)

def parseErrorResponse (payload : Bytes) : Bytes := errorFields payload.length payload []

def skipToReady : Nat → Talk (Option Unit)
  | 0 => return none
  | n + 1 => do
    match ← read with
    | none => return some ()
    | some m => if m.type = msgReadyForQuery then return some () else skipToReady n

def readResponse {ρ : Type} (add : ρ → Message → ρ) : Nat → ρ → Talk (Option (Except ApiErr ρ))
  | 0, _ => return none
  | n + 1, resp => do
    match ← read with
    | none => return some (.error .readResponse)
    | some msg =>
      if msg.type = msgErrorResponse then
        return (← skipToReady n).map fun _ => .error (.query (parseErrorResponse msg.payload))
      else if msg.type = msgReadyForQuery then return some (.ok resp)
      else readResponse add n (add resp msg)

def executeQuery {ρ : Type} (add : ρ → Message → ρ) (empty : ρ) (sql : Bytes) (n : Nat) :
    Talk (Option (Except ApiErr ρ)) := do
  if sql = [] then readResponse add n empty
  else if ← request ⟨msgQuery, sql ++ [0]⟩ then readResponse add n empty
  else return some (.error .sendQuery)

def drainUntilReady : Nat → Talk (Option Bool)
  | 0 => return none
  | n + 1 => do
    match ← read with
    | none => return some false
    | some m => if m.type = msgReadyForQuery then return some true else drainUntilReady n

inductive ApiOp where
  | acquire | spawn
  | wire (o : WireOp)
  | loadCancelled | closeStop | waitDone
  | discard | release

abbrev ApiAns : ApiOp → Type
  | .wire o => WireAns o
  | .acquire | .loadCancelled => Bool
  | .spawn | .closeStop | .waitDone | .discard | .release => Unit

abbrev Api := Prog ApiAns

def onConn {α : Type} : Talk α → Api α
  | .ret a => .ret a
  | .op o k => .op (.wire o) fun ans => onConn (k ans)

def stopWatchdog : Api Unit := do
  perform ApiOp.closeStop
  perform ApiOp.waitDone

def discardStopped {α : Type} (result : α) : Api α := do
  stopWatchdog
  perform ApiOp.discard
  return result

def discardCancelled {α : Type} (result : α) : Api α := do
  perform ApiOp.waitDone
  perform ApiOp.discard
  return result

section

variable {ρ : Type} (add : ρ → Message → ρ) (empty : ρ) (resetQuery sql : Bytes)

def resetAndRelease (n : Nat) (resp : ρ) : Api (Option (Except ApiErr ρ)) := do
  if ← onConn (request ⟨msgQuery, resetQuery ++ [0]⟩) then
    match ← onConn (drainUntilReady n) with
    | none => return none
    | some drained =>
      if ← perform ApiOp.loadCancelled then discardCancelled (some (.error .drainCancelled))
      else if drained then
        stopWatchdog
        perform ApiOp.release
        return some (.ok resp)
      else discardStopped (some (.ok resp))
  else discardStopped (some (.ok resp))

def executeOnPool (hasPool : Bool) (n : Nat) : Api (Option (Except ApiErr ρ)) := do
  if hasPool then
    if ← perform ApiOp.acquire then
      perform ApiOp.spawn
      match ← onConn (executeQuery add empty sql n) with
      | none => return none
      | some result =>
        if ← perform ApiOp.loadCancelled then discardCancelled (some (.error .executeCancelled))
        else
          match result with
          | .error e => discardStopped (some (.error e))
          | .ok resp => resetAndRelease resetQuery n resp
    else return some (.error .acquire)
  else return some (.error .noPool)

end

/-! ## The watchdog -/

inductive Dog where
  | absent | waiting | chosen | stored | expired | gone
  deriving DecidableEq, Repr

/-- What the caller and the watchdog share. -/
structure Shared where
  ctxDone : Bool
  cancelled : Bool
  deadline : Bool
  stopClosed : Bool
  dog : Dog
  looks : Nat
  late : Bool
  deriving DecidableEq, Repr

def Shared.start : Shared := ⟨false, false, false, false, .absent, 0, false⟩

inductive Tick (s : Shared) : Shared → Prop where
  | cancel : Tick s { s with ctxDone := true }
  | choose (hdog : s.dog = .waiting) (hdone : s.ctxDone = true) : Tick s { s with dog := .chosen }
  | stop (hdog : s.dog = .waiting) (hclosed : s.stopClosed = true) : Tick s { s with dog := .gone }
  | store (hdog : s.dog = .chosen) :
    Tick s { s with cancelled := true, dog := .stored, late := s.late || decide (2 ≤ s.looks) }
  | expire (hdog : s.dog = .stored) : Tick s { s with deadline := true, dog := .expired }
  | leave (hdog : s.dog = .expired) : Tick s { s with dog := .gone }

abbrev Ticks : Shared → Shared → Prop := Relation.ReflTransGen Tick

def Refused : (o : WireOp) → WireAns o → Prop
  | .request _, ok | .forward _, ok | .toClient _, ok | .copyBoth, ok => ok = false
  | .read, m | .fromClient, m => m = none

variable {κ : Type}

def act (line : Machine WireAns κ) : Machine ApiAns (Shared × κ) := fun o x ans y =>
  match o, ans with
  | .acquire, _ => y = x
  | .spawn, _ => y = ({ x.1 with dog := .waiting }, x.2)
  | .wire o, ans => y.1 = x.1 ∧ if x.1.deadline then Refused o ans ∧ y.2 = x.2
      else line o x.2 ans y.2
  | .loadCancelled, ans => ans = x.1.cancelled ∧ y = ({ x.1 with looks := x.1.looks + 1 }, x.2)
  | .closeStop, _ => y = ({ x.1 with stopClosed := true }, x.2)
  | .waitDone, _ => x.1.dog = .gone ∧ y = x
  | .discard, _ | .release, _ => y = x

def api (line : Machine WireAns κ) : Machine ApiAns (Shared × κ) := fun o x ans y =>
  ∃ s, Ticks x.1 s ∧ act line o (s, x.2) ans y

def Coherent (s : Shared) : Prop :=
  match s.dog with
  | .absent | .waiting | .chosen => s.cancelled = false ∧ s.deadline = false
  | .stored => s.cancelled = true ∧ s.deadline = false
  | .expired => s.cancelled = true ∧ s.deadline = true
  | .gone => s.deadline = s.cancelled

structure Unseen (k : Nat) (s : Shared) : Prop where
  coherent : Coherent s
  looks : s.looks = k
  late : s.late = (decide (2 ≤ k) && s.cancelled)

variable {s t : Shared} {k : Nat}

theorem Coherent.tick (h : Coherent s) (hstep : Tick s t) : Coherent t := by
  unfold Coherent at h
  cases hstep with
  | cancel => exact h
  | choose hdog hdone =>
    rw [hdog] at h
    exact h
  | stop hdog hclosed | leave hdog =>
    rw [hdog] at h
    exact h.2.trans h.1.symm
  | store hdog =>
    rw [hdog] at h
    exact ⟨rfl, h.2⟩
  | expire hdog =>
    rw [hdog] at h
    exact ⟨h.1, rfl⟩

theorem Unseen.tick (h : Unseen k s) (hstep : Tick s t) : Unseen k t := by
  obtain ⟨hcoherent, hlooks, hlate⟩ := h
  refine ⟨hcoherent.tick hstep, ?_, ?_⟩
  · cases hstep with
    | _ => exact hlooks
  · cases hstep with
    | store hdog =>
      unfold Coherent at hcoherent
      rw [hdog] at hcoherent
      simp only [hlate, hcoherent.1, hlooks, Bool.and_false, Bool.false_or, Bool.and_true]
    | _ => exact hlate

theorem keeps_ticks {P : Shared → Prop} (hP : ∀ s t, P s → Tick s t → P t) (hs : P s)
    (h : Ticks s t) : P t := by
  induction h with
  | refl => exact hs
  | tail _ hstep ih => exact hP _ _ ih hstep

theorem Unseen.ticks (h : Unseen k s) (hsteps : Ticks s t) : Unseen k t :=
  keeps_ticks (fun _ _ h hstep => h.tick hstep) h hsteps

theorem ticks_start (h : s = { Shared.start with ctxDone := s.ctxDone }) (hticks : Ticks s t) :
    t = { Shared.start with ctxDone := t.ctxDone } := by
  refine keeps_ticks (P := fun s => s = { Shared.start with ctxDone := s.ctxDone })
    (fun s t hs hstep => ?_) h hticks
  have hdog : s.dog = .absent := by rw [hs]; rfl
  cases hstep with
  | cancel => rw [hs]
  | choose hdog' | stop hdog' | store hdog' | expire hdog' | leave hdog' => simp [hdog] at hdog'

theorem Coherent.cancelled (h : Coherent s) (hdeadline : s.deadline = true) :
    s.cancelled = true := by
  unfold Coherent at h
  split at h
  all_goals simp_all

theorem deadline_tick (h : s.deadline = true) (hstep : Tick s t) : t.deadline = true := by
  cases hstep with
  | expire => rfl
  | _ => exact h

theorem Unseen.look (h : Unseen k s) (hlook : s.cancelled = false) :
    Unseen (k + 1) { s with looks := s.looks + 1 } :=
  ⟨h.coherent, congrArg (· + 1) h.looks, by simp [h.late, hlook]⟩

/-! ## What is released -/

theorem onConn_all {α : Type} (p : Talk α) : (onConn p).All fun o => ∃ w, o = .wire w := by
  induction p with
  | ret a => trivial
  | op o k ih => exact ⟨⟨o, rfl⟩, ih⟩

section

variable {line : Machine WireAns κ} {pre : ApiOp → Shared × κ → Prop}

theorem stable_onConn {P : Shared → Prop} (hP : ∀ s t, P s → Tick s t → P t)
    (hpre : ∀ w x, pre (.wire w) x) :
    Stable (api line) pre (fun o => ∃ w, o = .wire w) fun x => P x.1 := by
  rintro _ x ⟨w, rfl⟩ hx
  refine ⟨hpre w x, fun ans y ⟨s, hticks, hsame, _⟩ => ?_⟩
  change P y.1
  rw [hsame]
  exact keeps_ticks hP hx hticks

theorem safe_of_unreleased {α : Type} {p : Api α} (hp : p.All (· ≠ .release))
    (hpre : ∀ o x, o ≠ .release → pre o x) (x : Shared × κ) :
    Safe (api line) pre p (fun _ _ => True) x :=
  hp.safe (P := fun _ => True) (fun o x ho _ => ⟨hpre o x ho, fun _ _ _ => trivial⟩) trivial

theorem unreleased_discardStopped {α : Type} (result : α) :
    (discardStopped result).All (· ≠ .release) :=
  ⟨nofun, fun _ => ⟨nofun, fun _ => ⟨nofun, fun _ => trivial⟩⟩⟩

theorem unreleased_discardCancelled {α : Type} (result : α) :
    (discardCancelled result).All (· ≠ .release) :=
  ⟨nofun, fun _ => ⟨nofun, fun _ => trivial⟩⟩

def Settled (s : Shared) : Prop := s.dog = .gone ∧ s.deadline = s.late

def Leaves {α : Type} (k : Nat) (Q : α → κ → Prop) (a : α) (x : Shared × κ) : Prop :=
  Unseen k x.1 ∧ (x.1.deadline = true ∨ Q a x.2)

variable {x : Shared × κ}

theorem Leaves.look {α : Type} {Q : α → κ → Prop} {a : α} (h : Leaves k Q a x)
    (hticks : Ticks x.1 s) (hlook : s.cancelled = false) :
    Unseen (k + 1) { s with looks := s.looks + 1 } ∧ Q a x.2 := by
  have hs : Unseen k s := h.1.ticks hticks
  refine ⟨hs.look hlook, h.2.resolve_left fun hdeadline => ?_⟩
  have hcancelled := hs.coherent.cancelled (keeps_ticks (fun _ _ => deadline_tick) hdeadline hticks)
  simp [hlook] at hcancelled

theorem safe_onConn_expired (hpre : ∀ o x, pre (.wire o) x) {α : Type} (p : Talk α)
    {Q : α → κ → Prop} (h : Unseen k x.1) (hdeadline : x.1.deadline = true) :
    Safe (api line) pre (onConn p) (Leaves k Q) x := by
  have hstable : Stable (api line) pre (fun o => ∃ w, o = .wire w) fun x =>
      Unseen k x.1 ∧ x.1.deadline = true :=
    stable_onConn (P := fun s => Unseen k s ∧ s.deadline = true)
      (fun _ _ h hstep => ⟨h.1.tick hstep, deadline_tick h.2 hstep⟩) hpre
  exact ((onConn_all p).safe hstable ⟨h, hdeadline⟩).mono fun _ _ hx => ⟨hx.1, .inl hx.2⟩

theorem safe_stop_release {α : Type} (hpre : ∀ o x, o ≠ .release → pre o x) (result : α)
    (h : Unseen 2 x.1) (hrelease : ∀ s, Settled s → pre .release (s, x.2)) :
    Safe (api line) pre (do stopWatchdog; perform ApiOp.release; return result)
      (fun _ _ => True) x := by
  refine ⟨hpre _ _ nofun, fun _ y ⟨s, hticks, hy⟩ => ?_⟩
  have hs : Unseen 2 y.1 := by
    obtain rfl : y = ({ s with stopClosed := true }, x.2) := hy
    exact ⟨(h.ticks hticks).coherent, (h.ticks hticks).looks, (h.ticks hticks).late⟩
  refine ⟨hpre _ _ nofun, fun _ z ⟨s', hticks', hgone, hz⟩ => ?_⟩
  obtain rfl : z = (s', x.2) := by rw [hz, hy]
  have hs' : Unseen 2 s' := hs.ticks hticks'
  refine ⟨hrelease s' ⟨hgone, ?_⟩, fun _ _ _ => trivial⟩
  have hcoherent := hs'.coherent
  unfold Coherent at hcoherent
  rw [hgone] at hcoherent
  rw [hs'.late]
  simpa using hcoherent

section

variable {ρ : Type} {add : ρ → Message → ρ} {empty : ρ} {resetQuery sql : Bytes} {n : Nat}
  {Q : Option (Except ApiErr ρ) → κ → Prop} {R : Bool → κ → Prop} {D : Option Bool → κ → Prop}

theorem safe_resetAndRelease (hpre : ∀ o x, o ≠ .release → pre o x) (resp : ρ)
    (hreset : Safe (api line) pre (onConn (request ⟨msgQuery, resetQuery ++ [0]⟩)) (Leaves 1 R) x)
    (hdrain : ∀ y, Leaves 1 R true y → Safe (api line) pre (onConn (drainUntilReady n))
      (Leaves 1 D) y)
    (hrelease : ∀ x, Settled x.1 → D (some true) x.2 → pre .release x) :
    Safe (api line) pre (resetAndRelease resetQuery n resp) (fun _ _ => True) x := by
  refine hreset.bind fun ok y hy => ?_
  cases ok with
  | false => exact safe_of_unreleased (unreleased_discardStopped _) hpre y
  | true =>
    refine (hdrain y hy).bind fun drained z hz => ?_
    cases drained with
    | none => trivial
    | some drained =>
      refine ⟨hpre _ _ nofun, fun looked w ⟨s, hticks, hlook, hw⟩ => ?_⟩
      cases looked with
      | true => exact safe_of_unreleased (unreleased_discardCancelled _) hpre w
      | false =>
        cases drained with
        | false => exact safe_of_unreleased (unreleased_discardStopped _) hpre w
        | true =>
          obtain ⟨hunseen, hD⟩ := hz.look hticks hlook.symm
          subst hw
          exact safe_stop_release hpre _ hunseen fun s hs => hrelease _ hs hD

theorem safe_executeOnPool (hpre : ∀ o x, o ≠ .release → pre o x) (hasPool : Bool) (c : κ)
    (hquery : ∀ s, Unseen 0 s → Safe (api line) pre (onConn (executeQuery add empty sql n))
      (Leaves 0 Q) (s, c))
    (hreset : ∀ resp x, Unseen 1 x.1 → Q (some (.ok resp)) x.2 →
      Safe (api line) pre (onConn (request ⟨msgQuery, resetQuery ++ [0]⟩)) (Leaves 1 R) x)
    (hdrain : ∀ y, Leaves 1 R true y → Safe (api line) pre (onConn (drainUntilReady n))
      (Leaves 1 D) y)
    (hrelease : ∀ x, Settled x.1 → D (some true) x.2 → pre .release x) :
    Safe (api line) pre (executeOnPool add empty resetQuery sql hasPool n) (fun _ _ => True)
      (.start, c) := by
  unfold executeOnPool
  split
  · refine ⟨hpre _ _ nofun, fun acquired x ⟨s, hticks, hx⟩ => ?_⟩
    obtain rfl : x = (s, c) := hx
    cases acquired with
    | false => trivial
    | true =>
      refine ⟨hpre _ _ nofun, fun _ y ⟨s', hticks', hy⟩ => ?_⟩
      obtain rfl : y = ({ s' with dog := .waiting }, c) := hy
      have hspawned : Unseen 0 { s' with dog := .waiting } := by
        rw [ticks_start (ticks_start rfl hticks) hticks']
        exact ⟨⟨rfl, rfl⟩, rfl, rfl⟩
      change Safe _ _ (onConn (executeQuery add empty sql n) >>= _) _ _
      refine (hquery _ hspawned).bind fun result z hz => ?_
      cases result with
      | none => trivial
      | some result =>
        refine ⟨hpre _ _ nofun, fun looked w ⟨s'', hticks'', hlook, hw⟩ => ?_⟩
        cases looked with
        | true => exact safe_of_unreleased (unreleased_discardCancelled _) hpre w
        | false =>
          cases result with
          | error e => exact safe_of_unreleased (unreleased_discardStopped _) hpre w
          | ok resp =>
            obtain ⟨hunseen, hQ⟩ := hz.look hticks'' hlook.symm
            subst hw
            exact safe_resetAndRelease hpre resp (hreset resp _ hunseen hQ) hdrain hrelease
  · trivial

end

/-- A connection is released with a past deadline just if the cancellation was told after the second
look. -/
theorem released_deadline_iff {ρ : Type} (add : ρ → Message → ρ) (empty : ρ)
    (resetQuery sql : Bytes) (hasPool : Bool) (n : Nat) (c : κ) {p : Api (Option (Except ApiErr ρ))}
    {x : Shared × κ}
    (h : Reach (api line) (executeOnPool add empty resetQuery sql hasPool n) (.start, c) p x)
    (hp : p.head = some .release) :
    x.1.dog = .gone ∧ (x.1.deadline = false ↔ x.1.late = false) := by
  have hleaves : ∀ (k : Nat) {α : Type} (q : Talk α) (x : Shared × κ), Unseen k x.1 →
      Safe (api line) (fun o x => o = .release → Settled x.1) (onConn q)
        (Leaves k fun _ _ => True) x := by
    intro k α q x hx
    have hstable : Stable (api line) (fun o x => o = .release → Settled x.1)
        (fun o => ∃ w, o = .wire w) fun x => Unseen k x.1 :=
      stable_onConn (fun _ _ h hstep => h.tick hstep) fun _ _ => nofun
    exact ((onConn_all q).safe hstable hx).mono fun _ _ hy => ⟨hy, .inr trivial⟩
  have hsafe : Safe (api line) (fun o x => o = .release → Settled x.1)
      (executeOnPool add empty resetQuery sql hasPool n)
      (fun _ _ => True) (.start, c) :=
    safe_executeOnPool (fun _ _ hne heq => absurd heq hne) hasPool c (fun s hs =>
      hleaves 0 _ (s, c) hs)
      (fun _ x hx _ => hleaves 1 _ x hx) (fun y hy => hleaves 1 _ y hy.1) fun _ hs _ _ => hs
  obtain ⟨hgone, hsame⟩ := hsafe.guarded h hp rfl
  exact ⟨hgone, by rw [hsame]⟩

end

/-! ## Scripted connections -/

structure Stream where
  writes : List Bool
  incoming : List Message
  deriving DecidableEq, Repr

def Stream.answer : World WireAns Stream
  | .request _, c | .forward _, c => (c.writes.headD false, { c with writes := c.writes.tail })
  | .read, c => (c.incoming.head?, { c with incoming := c.incoming.tail })
  | .toClient _, c | .copyBoth, c => (false, c)
  | .fromClient, c => (none, c)

section

variable {line : Machine WireAns κ}

theorem reach_onConn {α β : Type} {p q : Talk α} {c d : κ} (h : Reach line p c q d)
    (hs : s.deadline = false) (f : α → Api β) :
    Reach (api line) (onConn p >>= f) (s, c) (onConn q >>= f) (s, d) := by
  induction h with
  | refl => exact .refl
  | @step o k q c d e ans hstep _ ih =>
    refine Reach.ask ans (s, d) ⟨s, .refl, rfl, ?_⟩ ih
    rw [if_neg (by simp [hs])]
    exact hstep

def stopping : Shared := ⟨false, false, false, true, .waiting, 2, false⟩

theorem reach_release {ρ : Type} {add : ρ → Message → ρ} {empty : ρ} {resetQuery sql : Bytes}
    {n : Nat} {c c₁ c₂ c₃ : κ} {resp : ρ}
    (hquery : Reach line (executeQuery add empty sql n) c (.ret (some (.ok resp))) c₁)
    (hreset : line (.request ⟨msgQuery, resetQuery ++ [0]⟩) c₁ true c₂)
    (hdrain : Reach line (drainUntilReady n) c₂ (.ret (some true)) c₃) (hticks : Ticks stopping t)
    (hgone : t.dog = .gone) :
    Reach (api line) (executeOnPool add empty resetQuery sql true n) (.start, c)
      (do perform ApiOp.release; return some (.ok resp)) (t, c₃) := by
  refine Reach.ask true (.start, c) ⟨_, .refl, rfl⟩ ?_
  refine Reach.ask () ({ Shared.start with dog := .waiting }, c) ⟨_, .refl, rfl⟩ ?_
  refine (reach_onConn hquery rfl _).trans ?_
  refine Reach.ask false ({ Shared.start with dog := .waiting, looks := 1 }, c₁)
    ⟨_, .refl, rfl, rfl⟩ ?_
  refine (reach_onConn (.ask true c₂ hreset .refl) rfl _).trans ?_
  refine (reach_onConn hdrain rfl _).trans ?_
  refine Reach.ask false ({ Shared.start with dog := .waiting, looks := 2 }, c₃)
    ⟨_, .refl, rfl, rfl⟩ ?_
  refine Reach.ask () (stopping, c₃) ⟨_, .refl, rfl⟩ ?_
  refine Reach.ask () (t, c₃) ⟨t, hticks, hgone, rfl⟩ ?_
  exact .refl

end

def answered : Stream := ⟨[true, true], [⟨msgReadyForQuery, [73]⟩, ⟨msgReadyForQuery, [73]⟩]⟩

def call : Api (Option (Except ApiErr Unit)) :=
  executeOnPool (fun _ _ => ()) () (ascii "DISCARD ALL") (ascii "SELECT 1") true 1

theorem reach_call (hticks : Ticks stopping t) (hgone : t.dog = .gone) :
    Reach (api (.ofWorld Stream.answer)) call (.start, answered)
      (do perform ApiOp.release; return some (.ok ())) (t, ⟨[], []⟩) :=
  reach_release (reach_eval Stream.answer _ _) rfl (reach_eval Stream.answer _ _) hticks hgone

theorem released_in_time : ∃ p x, Reach (api (.ofWorld Stream.answer)) call (.start, answered) p x ∧
    p.head = some .release ∧ x.1.late = false ∧ x.1.deadline = false := by
  have hrun := reach_call (.single (.stop rfl rfl)) rfl
  exact ⟨_, _, hrun, rfl, rfl, (released_deadline_iff _ _ _ _ _ _ _ hrun rfl).2.mpr rfl⟩

theorem released_expired : ∃ p x, Reach (api (.ofWorld Stream.answer)) call (.start, answered) p x ∧
    p.head = some .release ∧ x.1.deadline = true := by
  have hticks : Ticks stopping ⟨true, true, true, true, .gone, 2, true⟩ :=
    .tail (.tail (.tail (.tail (.single .cancel) (.choose rfl rfl)) (.store rfl)) (.expire rfl))
      (.leave rfl)
  exact ⟨_, _, reach_call hticks rfl, rfl, rfl⟩

end PgMux.DataApi
