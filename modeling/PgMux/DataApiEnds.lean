import PgMux.DataApi

/-!
# What a call of the Data API leaves behind

The caller, the watchdog and a cancellation, one step at a time and in any order. A run that stops
has returned, unless the connection blocks without a deadline; then the connection was given back
once.
-/

namespace PgMux.DataApi

open Effects Protocol Wire

variable {κ α : Type}

structure Tally where
  acquired : Bool
  released : Nat
  discarded : Nat
  closed : Nat
  deriving DecidableEq, Repr

def Tally.empty : Tally := ⟨false, 0, 0, 0⟩

def Tally.count (t : Tally) : (o : ApiOp) → ApiAns o → Tally
  | .acquire, ok => { t with acquired := ok }
  | .release, _ => { t with released := t.released + 1 }
  | .discard, _ => { t with discarded := t.discarded + 1 }
  | .closeStop, _ => { t with closed := t.closed + 1 }
  | .spawn, _ | .wire _, _ | .loadCancelled, _ | .waitDone, _ => t

structure Config (κ α : Type) where
  prog : Api α
  tally : Tally
  shared : Shared
  line : κ

inductive Move (line : Machine WireAns κ) : Config κ α → Config κ α → Prop where
  | caller {o : ApiOp} {k : ApiAns o → Api α} {t : Tally} {s s' : Shared} {c c' : κ}
      (ans : ApiAns o)
      (h : act line o (s, c) ans (s', c')) : Move line ⟨.op o k, t, s, c⟩
        ⟨k ans, t.count o ans, s', c'⟩
  | watchdog {p : Api α} {t : Tally} {s s' : Shared} {c : κ} (h : Tick s s')
      (hmoves : s'.dog ≠ s.dog) : Move line ⟨p, t, s, c⟩ ⟨p, t, s', c⟩

inductive Step (line : Machine WireAns κ) : Config κ α → Config κ α → Prop where
  | move {x y : Config κ α} (h : Move line x y) : Step line x y
  | cancel {p : Api α} {t : Tally} {s : Shared} {c : κ} (h : s.ctxDone = false) :
      Step line ⟨p, t, s, c⟩ ⟨p, t, { s with ctxDone := true }, c⟩

abbrev Steps (line : Machine WireAns κ) : Config κ α → Config κ α → Prop :=
  Relation.ReflTransGen (Step line)

def Blocked (line : Machine WireAns κ) (x : Config κ α) : Prop :=
  ∃ o k, x.prog = .op (.wire o) k ∧ x.shared.deadline = false ∧ ∀ ans c, ¬ line o x.line ans c

def reads : (o : WireOp) → WireAns o → Nat
  | .read, some _ => 1
  | _, _ => 0

def Counts (line : Machine WireAns κ) (left : κ → Nat) : Prop :=
  ∀ o c ans d, line o c ans d → left d + reads o ans ≤ left c

structure Ended (t : Tally) (s : Shared) : Prop where
  once : t.released + t.discarded = if t.acquired then 1 else 0
  dog : s.dog = if t.acquired then .gone else .absent

/-! ## Every run ends -/

def Shared.rank (s : Shared) : Nat :=
  (if s.ctxDone then 0 else 1) +
    match s.dog with
    | .absent | .gone => 0
    | .waiting => 4
    | .chosen => 3
    | .stored => 2
    | .expired => 1

variable {s t : Shared} {c : κ}

theorem Tick.lowers (h : Tick s t) (hmoves : t.dog ≠ s.dog) : t.rank < s.rank := by
  cases h with
  | cancel => exact absurd rfl hmoves
  | choose hdog | stop hdog | store hdog | expire hdog | leave hdog => simp [Shared.rank, hdog]

variable {p : Api α}

theorem acc_of_caller {line : Machine WireAns κ}
    (hp : ∀ o k, p = .op o k → ∀ ans t s c, Acc (fun y x => Step line x y) ⟨k ans, t, s, c⟩)
    (t : Tally) (s : Shared) (c : κ) : Acc (fun y x => Step line x y) ⟨p, t, s, c⟩ := by
  induction hrank : s.rank using Nat.strong_induction_on generalizing s with
  | _ r ih =>
    refine .intro _ fun y hy => ?_
    cases hy with
    | move hy =>
      cases hy with
      | caller ans h => exact hp _ _ rfl _ _ _ _
      | watchdog h hmoves => exact ih _ (hrank ▸ h.lowers hmoves) _ rfl
    | cancel h => exact ih _ (by simp [← hrank, Shared.rank, h]) _ rfl

theorem acc_step (line : Machine WireAns κ) (p : Api α) (t : Tally) (s : Shared) (c : κ) :
    Acc (fun y x => Step line x y) ⟨p, t, s, c⟩ := by
  induction p generalizing t s c with
  | ret a =>
    refine acc_of_caller (fun o k h => ?_) t s c
    simp at h
  | op o k ih =>
    refine acc_of_caller (fun o' k' h => ?_) t s c
    cases h
    exact ih

theorem exists_not_step (line : Machine WireAns κ) (run : Nat → Config κ α) :
    ∃ i, ¬ Step line (run i) (run (i + 1)) := by
  by_contra hforever
  have hsteps : ∀ i, Step line (run i) (run (i + 1)) := by simpa using hforever
  have hacc : ∀ x, Acc (fun y x => Step line x y) x → ∀ i, run i ≠ x := by
    intro x hx
    induction hx with
    | intro x _ ih =>
      rintro i rfl
      exact ih _ (hsteps i) (i + 1) rfl
  exact hacc _ (acc_step line _ _ _ _) 0 rfl

/-! ## The connection -/

def refusing (line : Machine WireAns κ) : Machine WireAns κ :=
  fun o c ans d => line o c ans d ∨ Refused o ans ∧ d = c

def counted (line : Machine WireAns κ) : Machine ApiAns (Tally × Shared × κ) := fun o x ans y =>
  y.1 = x.1.count o ans ∧ api line o x.2 ans y.2

section

variable {line : Machine WireAns κ} {left : κ → Nat}

theorem Counts.refusing (h : Counts line left) : Counts (refusing line) left := by
  rintro o c ans d (hline | ⟨hrefused, rfl⟩)
  · exact h o c ans d hline
  · cases o with
    | read =>
      obtain rfl : ans = none := hrefused
      exact Nat.le_refl _
    | _ => exact Nat.le_refl _

variable {Q : α → κ → Prop} {n : Nat}

theorem safe_read (h : Counts line left) {f : Option Message → Talk α}
    (hnone : ∀ d, left d ≤ left c → Safe (refusing line) (fun _ _ => True) (f none) Q d)
    (hsome : ∀ m d, left d < left c → Safe (refusing line) (fun _ _ => True) (f (some m)) Q d) :
    Safe (refusing line) (fun _ _ => True) (read >>= f) Q c := by
  refine safe_bind.mpr ⟨trivial, fun ans d hd => ?_⟩
  have hleft := h.refusing _ _ _ _ hd
  cases ans with
  | none => exact hnone d hleft
  | some m => exact hsome m d hleft

def Enough (left : κ → Nat) (b : Nat) (r : Option α) (d : κ) : Prop := r.isSome = true ∧ left d ≤ b

theorem safe_toReady {loop : Nat → Talk (Option α)} {failed ready : α}
    (hloop : ∀ n, loop (n + 1) = read >>= fun r => r.elim (return some failed) fun m => if m.type =
      msgReadyForQuery then return some ready else loop n)
    (h : Counts line left) {b : Nat} (hb : left c ≤ b) (hn : left c < n) :
    Safe (refusing line) (fun _ _ => True) (loop n) (Enough left b) c := by
  induction n generalizing c with
  | zero => omega
  | succ n ih =>
    rw [hloop]
    refine safe_read h (fun d hd => ⟨rfl, by omega⟩) fun m d hd => ?_
    dsimp only [Option.elim]
    split
    · exact ⟨rfl, by omega⟩
    · exact ih (by omega) (by omega)

theorem skipToReady_succ (n : Nat) : skipToReady (n + 1) = read >>= fun r =>
    r.elim (return some ()) fun m => if m.type = msgReadyForQuery then return some ()
        else skipToReady n := by
  refine congrArg (Prog.op _) (funext fun r => ?_)
  cases r <;> rfl

theorem drainUntilReady_succ (n : Nat) : drainUntilReady (n + 1) = read >>= fun r =>
    r.elim (return some false) fun m => if m.type = msgReadyForQuery then return some true
        else drainUntilReady n := by
  refine congrArg (Prog.op _) (funext fun r => ?_)
  cases r <;> rfl

theorem safe_readResponse {ρ : Type} {add : ρ → Message → ρ} (h : Counts line left) {b : Nat}
    (resp : ρ) (hb : left c ≤ b) (hn : left c < n) :
    Safe (refusing line) (fun _ _ => True) (readResponse add n resp) (Enough left b) c := by
  induction n generalizing c resp with
  | zero => omega
  | succ n ih =>
    refine safe_read h (fun d hd => ⟨rfl, by omega⟩) fun m d hd => ?_
    dsimp only
    split
    · refine (safe_toReady skipToReady_succ h (b := b) (by omega) (by omega)).bind fun r e he => ?_
      exact ⟨by simpa using he.1, he.2⟩
    split
    · exact ⟨rfl, by omega⟩
    · exact ih _ (by omega) (by omega)

theorem safe_request (h : Counts line left) {m : Message} {f : Bool → Talk α}
    (hf : ∀ ok d, left d ≤ left c → Safe (refusing line) (fun _ _ => True) (f ok) Q d) :
    Safe (refusing line) (fun _ _ => True) (request m >>= f) Q c :=
  safe_bind.mpr ⟨trivial, fun ok d hd => hf ok d (h.refusing _ _ _ _ hd)⟩

theorem safe_executeQuery {ρ : Type} {add : ρ → Message → ρ} {empty : ρ} {sql : Bytes}
    (h : Counts line left) (hn : left c < n) :
    Safe (refusing line) (fun _ _ => True) (executeQuery add empty sql n)
      (Enough left (left c)) c := by
  unfold executeQuery
  split
  · exact safe_readResponse h empty (Nat.le_refl _) hn
  · refine safe_request h fun ok d hd => ?_
    cases ok with
    | true => exact safe_readResponse h empty hd (by omega)
    | false => exact ⟨rfl, hd⟩

/-! ## The caller -/

structure Watched (s : Shared) : Prop where
  started : s.dog ≠ .absent
  coherent : Coherent s

structure Awaited (s : Shared) : Prop extends Watched s where
  told : s.stopClosed = true ∨ s.cancelled = true

theorem Watched.tick (h : Watched s) (hstep : Tick s t) : Watched t where
  started := by
    cases hstep with
    | cancel => exact h.started
    | _ => simp
  coherent := h.coherent.tick hstep

theorem Awaited.tick (h : Awaited s) (hstep : Tick s t) : Awaited t where
  toWatched := h.toWatched.tick hstep
  told := by
    cases hstep with
    | store => exact .inr rfl
    | _ => exact h.told

theorem Awaited.moves (h : Awaited s) : s.dog = .gone ∨ ∃ t, Tick s t ∧ t.dog ≠ s.dog := by
  have hcoherent := h.coherent
  unfold Coherent at hcoherent
  cases hdog : s.dog with
  | absent => exact absurd hdog h.started
  | gone => exact .inl rfl
  | waiting =>
    rw [hdog] at hcoherent
    have hclosed : s.stopClosed = true := h.told.resolve_right (by simp [hcoherent.1])
    exact .inr ⟨_, .stop hdog hclosed, nofun⟩
  | chosen => exact .inr ⟨_, .store hdog, nofun⟩
  | stored => exact .inr ⟨_, .expire hdog, nofun⟩
  | expired => exact .inr ⟨_, .leave hdog, nofun⟩

theorem dog_ticks (h : s.dog = .gone ∨ s.dog = .absent) (hticks : Ticks s t) : t.dog = s.dog := by
  refine keeps_ticks (P := fun u => u.dog = s.dog) (fun u v hu hstep => ?_) rfl hticks
  cases hstep with
  | cancel => exact hu
  | choose hdog | stop hdog | store hdog | expire hdog | leave hdog => simp [← hu, hdog] at h

def Guard (o : ApiOp) (x : Tally × Shared × κ) : Prop :=
  x.1.closed ≤ 1 ∧ (o = .waitDone → Awaited x.2.1)

def Final (r : Option α) (x : Tally × Shared × κ) : Prop :=
  r.isSome = true ∧ x.1.closed ≤ 1 ∧ Ended x.1 x.2.1

variable {x : Tally × Shared × κ}

theorem safe_onConn {p : Talk α} (hclosed : x.1.closed ≤ 1)
    (hp : Safe (refusing line) (fun _ _ => True) p Q x.2.2) (hwatched : Watched x.2.1) :
    Safe (counted line) Guard (onConn p) (fun a y => y.1 = x.1 ∧ Watched y.2.1 ∧ Q a y.2.2) x := by
  induction p generalizing x with
  | ret a => exact ⟨rfl, hwatched, hp⟩
  | op o k ih =>
    refine ⟨⟨hclosed, nofun⟩, fun ans y ⟨hcount, s, hticks, hsame, hline⟩ => ?_⟩
    have hsteps : refusing line o x.2.2 ans y.2.2 := by
      split at hline
      · exact .inr hline
      · exact .inl hline
    have hwatched' : Watched y.2.1 := by
      rw [hsame]
      exact keeps_ticks (fun _ _ => Watched.tick) hwatched hticks
    have hcount' : y.1 = x.1 := hcount
    rw [← hcount'] at hclosed ⊢
    exact ih ans hclosed (hp.2 ans _ hsteps) hwatched'

structure Holding (t : Tally) : Prop where
  acquired : t.acquired = true
  kept : t.released + t.discarded = 0
  closed : t.closed ≤ 1

theorem safe_waitDone {Q : α → Tally × Shared × κ → Prop} (hclosed : x.1.closed ≤ 1)
    (hawaited : Awaited x.2.1)
    (hp : ∀ s, s.dog = .gone → Safe (counted line) Guard p Q (x.1, s, x.2.2)) :
    Safe (counted line) Guard (do perform ApiOp.waitDone; p) Q x := by
  refine ⟨⟨hclosed, fun _ => hawaited⟩, fun _ y ⟨hcount, s, _, hgone, hy⟩ => ?_⟩
  obtain rfl : y = (x.1, s, x.2.2) := Prod.ext hcount hy
  exact hp s hgone

theorem final_of_once {result : α} {t : Tally} {s' : Shared} (hacquired : t.acquired = true)
    (honce : t.released + t.discarded = 1) (hclosed : t.closed ≤ 1) (hgone : s.dog = .gone)
    (hticks : Ticks s s') : Final (some result) (t, s', c) := by
  refine ⟨rfl, hclosed, ?_, ?_⟩
  · simpa [hacquired] using honce
  · simpa [hacquired] using (dog_ticks (.inl hgone) hticks).trans hgone

theorem safe_discard (result : α) {t : Tally} (ht : Holding t) (hs : s.dog = .gone) :
    Safe (counted line) Guard (do perform ApiOp.discard; return some result) Final (t, s, c) := by
  refine ⟨⟨ht.closed, nofun⟩, fun _ y ⟨hcount, s', hticks, hy⟩ => ?_⟩
  obtain rfl : y = ({ t with discarded := t.discarded + 1 }, s', c) := Prod.ext hcount hy
  exact final_of_once ht.acquired (congrArg (· + 1) ht.kept) ht.closed hs hticks

theorem safe_release (result : α) {t : Tally} (ht : Holding t) (hs : s.dog = .gone) :
    Safe (counted line) Guard (do perform ApiOp.release; return some result) Final (t, s, c) := by
  refine ⟨⟨ht.closed, nofun⟩, fun _ y ⟨hcount, s', hticks, hy⟩ => ?_⟩
  obtain rfl : y = ({ t with released := t.released + 1 }, s', c) := Prod.ext hcount hy
  refine final_of_once ht.acquired ?_ ht.closed hs hticks
  have hkept := ht.kept
  dsimp only
  omega

theorem safe_stopWatchdog {Q : α → Tally × Shared × κ → Prop} (hclosed : x.1.closed = 0)
    (hwatched : Watched x.2.1)
    (hp : ∀ s, s.dog = .gone → Safe (counted line) Guard p Q ({ x.1 with closed := 1 }, s, x.2.2)) :
    Safe (counted line) Guard (do stopWatchdog; p) Q x := by
  refine ⟨⟨by omega, nofun⟩, fun _ y ⟨hcount, s, hticks, hy⟩ => ?_⟩
  obtain rfl : y = ({ x.1 with closed := x.1.closed + 1 }, { s with stopClosed := true }, x.2.2) :=
    Prod.ext hcount hy
  have hs : Watched s := keeps_ticks (fun _ _ => Watched.tick) hwatched hticks
  rw [hclosed]
  exact safe_waitDone (Nat.le_refl 1) ⟨⟨hs.started, hs.coherent⟩, .inl rfl⟩ hp

def Open (t : Tally) : Prop := t = ⟨true, 0, 0, 0⟩

theorem safe_discardStopped (result : α) (hx : Open x.1) (hwatched : Watched x.2.1) :
    Safe (counted line) Guard (discardStopped (some result)) Final x := by
  refine safe_stopWatchdog (by rw [hx]) hwatched fun s hs => safe_discard result ?_ hs
  rw [hx]
  exact ⟨rfl, rfl, Nat.le_refl 1⟩

theorem safe_discardCancelled (result : α) (hx : Open x.1) (hawaited : Awaited x.2.1) :
    Safe (counted line) Guard (discardCancelled (some result)) Final x := by
  have hholding : Holding x.1 := by
    rw [hx]
    exact ⟨rfl, rfl, Nat.zero_le 1⟩
  exact safe_waitDone hholding.closed hawaited fun s hs => safe_discard result hholding hs

theorem safe_loadCancelled {f : Bool → Api α} {Q : α → Tally × Shared × κ → Prop} (hx : Open x.1)
    (hwatched : Watched x.2.1)
    (hseen : ∀ s, Awaited s → Safe (counted line) Guard (f true) Q (x.1, s, x.2.2))
    (hunseen : ∀ s, Watched s → Safe (counted line) Guard (f false) Q (x.1, s, x.2.2)) :
    Safe (counted line) Guard (perform ApiOp.loadCancelled >>= f) Q x := by
  refine ⟨⟨by simp [show x.1 = _ from hx], nofun⟩,
    fun looked y ⟨hcount, s, hticks, hlook, hy⟩ => ?_⟩
  obtain rfl : y = (x.1, { s with looks := s.looks + 1 }, x.2.2) := Prod.ext hcount hy
  have hs : Watched s := keeps_ticks (fun _ _ => Watched.tick) hwatched hticks
  cases looked with
  | true => exact hseen _ ⟨⟨hs.started, hs.coherent⟩, .inr hlook.symm⟩
  | false => exact hunseen _ ⟨hs.started, hs.coherent⟩

section

variable {ρ : Type} {add : ρ → Message → ρ} {empty : ρ} {resetQuery sql : Bytes} {n : Nat}

theorem safe_counted_resetAndRelease (h : Counts line left) (resp : ρ) (hx : Open x.1)
    (hwatched : Watched x.2.1) (hn : left x.2.2 < n) :
    Safe (counted line) Guard (resetAndRelease resetQuery n resp) Final x := by
  have hclosed : x.1.closed ≤ 1 := by simp [show x.1 = _ from hx]
  have hrequest : Safe (refusing line) (fun _ _ => True) (request ⟨msgQuery, resetQuery ++ [0]⟩)
      (fun _ d => left d < n) x.2.2 :=
    ⟨trivial, fun _ d hd => Nat.lt_of_le_of_lt (h.refusing _ _ _ _ hd) hn⟩
  refine (safe_onConn hclosed hrequest hwatched).bind fun ok y hy => ?_
  obtain ⟨hty, hwatched, hleft⟩ := hy
  rw [← hty] at hx hclosed
  cases ok with
  | false => exact safe_discardStopped _ hx hwatched
  | true =>
    have hdrain := safe_toReady drainUntilReady_succ h (Nat.le_refl _) hleft
    refine (safe_onConn hclosed hdrain hwatched).bind fun drained z hz => ?_
    obtain ⟨htz, hwatched, hsome, -⟩ := hz
    rw [← htz] at hx
    cases drained with
    | none => simp at hsome
    | some drained =>
      refine safe_loadCancelled hx hwatched (fun s hs => safe_discardCancelled _ hx hs) fun s hs =>
        ?_
      cases drained with
      | false => exact safe_discardStopped _ hx hs
      | true =>
        refine safe_stopWatchdog (by rw [hx]) hs fun s hs => safe_release _ ?_ hs
        rw [hx]
        exact ⟨rfl, rfl, Nat.le_refl 1⟩

theorem safe_counted_executeOnPool (h : Counts line left) (hasPool : Bool) (hn : left c < n) :
    Safe (counted line) Guard (executeOnPool add empty resetQuery sql hasPool n) Final (.empty,
      .start, c) := by
  unfold executeOnPool
  split
  · refine ⟨⟨Nat.zero_le 1, nofun⟩, fun acquired x ⟨hcount, s, hticks, hx⟩ => ?_⟩
    obtain rfl : x = (⟨acquired, 0, 0, 0⟩, s, c) := Prod.ext hcount hx
    cases acquired with
    | false => exact ⟨rfl, Nat.zero_le 1, rfl, dog_ticks (.inr rfl) hticks⟩
    | true =>
      refine ⟨⟨Nat.zero_le 1, nofun⟩, fun _ y ⟨hcount, s', hticks', hy⟩ => ?_⟩
      obtain rfl : y = (⟨true, 0, 0, 0⟩, { s' with dog := .waiting }, c) := Prod.ext hcount hy
      have hspawned : Watched { s' with dog := .waiting } := by
        rw [ticks_start (ticks_start rfl hticks) hticks']
        exact ⟨nofun, rfl, rfl⟩
      have hquery : Safe (refusing line) (fun _ _ => True) (executeQuery add empty sql n)
          (Enough left (left c)) c :=
        safe_executeQuery h hn
      change Safe _ _ (onConn (executeQuery add empty sql n) >>= _) _ _
      refine (safe_onConn (Nat.zero_le 1) hquery hspawned).bind fun result z hz => ?_
      obtain ⟨htally, hwatched, hsome, hleft⟩ := hz
      cases result with
      | none => simp at hsome
      | some result =>
        refine safe_loadCancelled htally hwatched (fun s hs => safe_discardCancelled _ htally hs)
          fun s hs => ?_
        cases result with
        | error e => exact safe_discardStopped _ htally hs
        | ok resp =>
            exact safe_counted_resetAndRelease h resp htally hs (Nat.lt_of_le_of_lt hleft hn)
  · exact ⟨rfl, Nat.zero_le 1, rfl, rfl⟩

end

/-! ## Runs -/

theorem Steps.reach {x y : Config κ α} (h : Steps line x y) :
    ∃ s, Reach (counted line) x.prog (x.tally, x.shared, x.line) y.prog (y.tally, s, y.line) ∧
    Ticks s y.shared := by
  induction h with
  | refl => exact ⟨_, .refl, .refl⟩
  | @tail y z _ hstep ih =>
    obtain ⟨s, hreach, hticks⟩ := ih
    cases hstep with
    | move hmove =>
      cases hmove with
      | caller ans hact => exact ⟨_, hreach.trans (.ask _ _ ⟨rfl, _, hticks, hact⟩ .refl), .refl⟩
      | watchdog htick _ => exact ⟨s, hreach, hticks.tail htick⟩
    | cancel _ => exact ⟨s, hreach, hticks.tail .cancel⟩

theorem exists_refused (o : WireOp) : ∃ ans, Refused o ans := by
  cases o with
  | read | fromClient => exact ⟨none, rfl⟩
  | _ => exact ⟨false, rfl⟩

theorem move_or_blocked {o : ApiOp} {k : ApiAns o → Api α} {t : Tally}
    (hwait : o = .waitDone → Awaited s) :
    (∃ y, Move line ⟨.op o k, t, s, c⟩ y) ∨ Blocked line (⟨.op o k, t, s, c⟩ : Config κ α) := by
  by_cases hwire : ∃ w, o = .wire w
  · obtain ⟨w, rfl⟩ := hwire
    cases hdeadline : s.deadline with
    | true =>
      obtain ⟨ans, hrefused⟩ := exists_refused w
      have hact : act line (.wire w) (s, c) ans (s, c) := ⟨rfl, by simpa [hdeadline] using hrefused⟩
      exact .inl ⟨_, .caller ans hact⟩
    | false =>
      by_cases hanswer : ∃ ans d, line w c ans d
      · obtain ⟨ans, d, hline⟩ := hanswer
        have hact : act line (.wire w) (s, c) ans (s, d) := ⟨rfl, by simpa [hdeadline] using hline⟩
        exact .inl ⟨_, .caller ans hact⟩
      · exact .inr ⟨w, k, rfl, hdeadline, fun ans d hline => hanswer ⟨ans, d, hline⟩⟩
  · refine .inl ?_
    cases o with
    | wire w => exact absurd ⟨w, rfl⟩ hwire
    | waitDone =>
      obtain hgone | ⟨t, htick, hmoves⟩ := (hwait rfl).moves
      · exact ⟨_, .caller () ⟨hgone, rfl⟩⟩
      · exact ⟨_, .watchdog htick hmoves⟩
    | acquire => exact ⟨_, .caller true rfl⟩
    | loadCancelled => exact ⟨_, .caller _ ⟨rfl, rfl⟩⟩
    | _ => exact ⟨_, .caller () rfl⟩

/-- Every run ends, and a call that has returned has given its connection back and left no
watchdog. -/
theorem call_leaks_nothing {ρ : Type} (add : ρ → Message → ρ) (empty : ρ) (resetQuery sql : Bytes)
    (hasPool : Bool) (h : Counts line left) {c : κ} {n : Nat} (hn : left c < n) :
    (∀ run : Nat → Config κ (Option (Except ApiErr ρ)),
      run 0 = ⟨executeOnPool add empty resetQuery sql hasPool n, .empty, .start, c⟩ →
        ∃ i, ¬ Step line (run i) (run (i + 1))) ∧
    ∀ x, Steps line ⟨executeOnPool add empty resetQuery sql hasPool n, .empty, .start, c⟩ x →
      x.tally.closed ≤ 1 ∧
      ((¬ ∃ y, Move line x y) → Blocked line x ∨ ∃ r, x.prog = .ret (some r)) ∧
      ∀ r, x.prog = .ret r → r.isSome = true ∧ Ended x.tally x.shared := by
  refine ⟨fun run _ => exists_not_step line run, fun x hx => ?_⟩
  obtain ⟨s, hreach, hticks⟩ := hx.reach
  have hsafe := (safe_counted_executeOnPool h hasPool hn).reach hreach
  obtain ⟨p, t, s', d⟩ := x
  cases p with
  | ret r =>
    obtain ⟨hsome, hclosed, honce, hdog⟩ := hsafe
    have hended : Ended t s' := by
      refine ⟨honce, (dog_ticks ?_ hticks).trans hdog⟩
      cases hacquired : t.acquired with
      | true => exact .inl (by simpa [hacquired] using hdog)
      | false => exact .inr (by simpa [hacquired] using hdog)
    refine ⟨hclosed, fun _ => .inr ?_, ?_⟩
    · obtain ⟨r, rfl⟩ := Option.isSome_iff_exists.mp hsome
      exact ⟨r, rfl⟩
    · intro r' hr
      obtain rfl := Prog.ret.inj hr
      exact ⟨hsome, hended⟩
  | op o k =>
    obtain ⟨⟨hclosed, hwait⟩, -⟩ := hsafe
    have hawaited : o = .waitDone → Awaited s' :=
      fun ho => keeps_ticks (fun _ _ => Awaited.tick) (hwait ho) hticks
    refine ⟨hclosed, fun hstuck => .inl ((move_or_blocked hawaited).resolve_left hstuck), ?_⟩
    intro r hr
    cases hr

end

theorem counts_answer : Counts (.ofWorld Stream.answer) fun c => c.incoming.length := by
  rintro o c ans d hd
  cases o with
  | read =>
    obtain ⟨rfl, rfl⟩ := Prod.mk.inj hd
    cases hin : c.incoming <;> simp [hin, reads]
  | _ =>
    obtain ⟨rfl, rfl⟩ := Prod.mk.inj hd
    simp [reads]

theorem steps_onConn {β : Type} {line : Machine WireAns κ} {p q : Talk β} {d : κ}
    (h : Reach line p c q d) (hs : s.deadline = false) (f : β → Api α) (t : Tally) :
    Steps line ⟨onConn p >>= f, t, s, c⟩ ⟨onConn q >>= f, t, s, d⟩ := by
  induction h with
  | refl => exact .refl
  | @step o k q c d e ans hstep _ ih =>
    have hact : act line (.wire o) (s, c) ans (s, d) := ⟨rfl, by simpa [hs] using hstep⟩
    exact .head (.move (.caller ans hact)) ih

def calling : Config Stream (Option (Except ApiErr Unit)) :=
  ⟨executeOnPool (fun _ _ => ()) () (ascii "DISCARD ALL") (ascii "SELECT 1") true 3, .empty, .start,
    answered⟩

theorem steps_calling : Steps (.ofWorld Stream.answer) calling
    ⟨.ret (some (.ok ())), ⟨true, 1, 0, 1⟩, { stopping with dog := .gone }, ⟨[], []⟩⟩ := by
  refine .head (.move (.caller true rfl)) ?_
  refine .head (.move (.caller () rfl)) ?_
  refine .trans (steps_onConn (reach_eval Stream.answer _ answered) rfl _ _) ?_
  refine .head (.move (.caller false ⟨rfl, rfl⟩)) ?_
  refine .trans (steps_onConn (reach_eval Stream.answer (request _) _) rfl _ _) ?_
  refine .trans (steps_onConn (reach_eval Stream.answer (drainUntilReady 3) _) rfl _ _) ?_
  refine .head (.move (.caller false ⟨rfl, rfl⟩)) ?_
  refine .head (.move (.caller () rfl)) ?_
  refine .head (.move (.watchdog (.stop rfl rfl) nofun)) ?_
  refine .head (.move (.caller () ⟨rfl, rfl⟩)) ?_
  exact .single (.move (.caller () rfl))

theorem call_leaks_nothing_answered :
    ∃ x, Steps (.ofWorld Stream.answer) calling x ∧ (∃ r, x.prog = .ret (some r)) ∧
    x.tally.closed ≤ 1 ∧ Ended x.tally x.shared := by
  have hcall := (call_leaks_nothing (fun _ _ => ()) () (ascii "DISCARD ALL")
    (ascii "SELECT 1") true counts_answer
    (by decide : answered.incoming.length < 3)).2 _ steps_calling
  exact ⟨_, steps_calling, ⟨_, rfl⟩, hcall.1, (hcall.2.2 _ rfl).2⟩

end PgMux.DataApi
