import Mathlib.Data.Multiset.Bind
import PgMux.Pools

/-!
# Calls of a pool

One pool and any number of goroutines in its functions. What happens under the lock is one step, and
so is every wait. The channel of the released connections holds tokens, and a token that does not
fit is dropped.
-/

namespace PgMux.PoolCalls

open Pools

/-! ## The regions under the lock -/

inductive Try where
  | refused
  | got (c : Conn)
  | mayDial
  | full
  deriving DecidableEq, Repr

def tryAcquire (expired : Conn → Bool) (st : PoolState) : Try × PoolState × List Conn :=
  if st.closed then (.refused, st, [])
  else
    let stale := st.idle.takeWhile expired
    let numOpen := st.numOpen - stale.length
    match st.idle.dropWhile expired with
    | c :: idle => (.got c, { st with idle := idle, numOpen := numOpen }, stale)
    | [] =>
      if numOpen < st.maxConnections then
        (.mayDial, { st with idle := [], numOpen := numOpen + 1 }, stale)
      else (.full, { st with idle := [], numOpen := numOpen }, stale)

def uncount (st : PoolState) : PoolState := { st with numOpen := st.numOpen - 1 }

def replenish (minConnections : Int) : Nat → Conn → PoolState → PoolState × Conn
  | 0, next, st => (st, next)
  | n + 1, next, st =>
    if st.numOpen < minConnections then
      replenish minConnections n (next + 1)
        { st with idle := next :: st.idle, numOpen := st.numOpen + 1 }
    else (st, next)

def sweep (expired : Conn → Bool) (st : PoolState) : PoolState :=
  { st with
    idle := st.idle.filter (!expired ·)
    numOpen := st.numOpen - (st.idle.filter expired).length }

inductive Tried (st : PoolState) : Try × PoolState × List Conn → Prop where
  | refused (hclosed : st.closed = true) : Tried st (.refused, st, [])
  | got (hopen : st.closed = false) {stale idle : List Conn} {c : Conn}
      (hidle : st.idle = stale ++ c :: idle) :
    Tried st (.got c, { st with idle := idle, numOpen := st.numOpen - stale.length }, stale)
  | mayDial (hopen : st.closed = false) (hroom : st.numOpen - st.idle.length < st.maxConnections) :
    Tried st (.mayDial, { st with idle := [], numOpen := st.numOpen - st.idle.length + 1 }, st.idle)
  | full (hopen : st.closed = false) (hfull : st.maxConnections ≤ st.numOpen - st.idle.length) :
    Tried st (.full, { st with idle := [], numOpen := st.numOpen - st.idle.length }, st.idle)

theorem tried (expired : Conn → Bool) (st : PoolState) : Tried st (tryAcquire expired st) := by
  have hidle : st.idle = st.idle.takeWhile expired ++ st.idle.dropWhile expired :=
    (List.takeWhile_append_dropWhile).symm
  unfold tryAcquire
  split
  · rename_i hclosed
    exact .refused hclosed
  · rename_i hopen
    rw [Bool.not_eq_true] at hopen
    dsimp only
    cases hothers : st.idle.dropWhile expired with
    | cons c idle => exact .got hopen (hothers ▸ hidle)
    | nil =>
      rw [hothers, List.append_nil] at hidle
      rw [← hidle]
      dsimp only
      split
      · rename_i hroom
        exact .mayDial hopen hroom
      · rename_i hfull
        exact .full hopen (Int.not_lt.mp hfull)

theorem acquire_eq_tryAcquire (expired : Conn → Bool) (dialled : Option Conn) (st : PoolState) :
    st.acquire expired dialled = match tryAcquire expired st with
      | (.refused, st, closed) => (none, st, closed)
      | (.got c, st, closed) => (some c, st, closed)
      | (.mayDial, st, closed) => (dialled, if dialled.isSome then st else uncount st, closed)
      | (.full, st, closed) => (none, st, closed) := by
  unfold PoolState.acquire tryAcquire
  split
  · rfl
  dsimp only
  cases st.idle.dropWhile expired with
  | cons c idle => rfl
  | nil =>
    dsimp only
    by_cases hroom : st.numOpen - (st.idle.takeWhile expired).length < st.maxConnections
    · cases dialled with
      | none => simp [hroom, uncount]
      | some c => simp [hroom]
    · simp [hroom]

/-! ## Calls and steps -/

structure Limits where
  minConnections : Nat
  maxConnections : Nat
  min_le_max : minConnections ≤ maxConnections

inductive Place where
  | acquire
  | dial
  | dialFailed
  | dialled (c : Conn)
  | poll
  | slow
  | parked
  | discard (c : Conn)
  | signal
  deriving DecidableEq, Repr

/-- The pool with its tokens, its calls and its connections. -/
structure Sys where
  pool : PoolState
  tokens : Nat
  calls : Multiset Place
  lent : Multiset Conn
  dead : List Conn
  next : Conn

def start (l : Limits) : Sys where
  pool := ⟨l.maxConnections, (List.range l.minConnections).reverse, l.minConnections, false⟩
  tokens := 0
  calls := 0
  lent := 0
  dead := []
  next := l.minConnections

def send (l : Limits) (tokens : Nat) : Nat :=
  if tokens < l.maxConnections then tokens + 1 else tokens

namespace Sys

def tryAcquire (expired : Conn → Bool) (rest : Multiset Place) (s : Sys) : Sys :=
  match PoolCalls.tryAcquire expired s.pool with
  | (result, pool, closed) =>
    let s := { s with pool := pool, dead := closed ++ s.dead }
    match result with
    | .refused => { s with calls := rest }
    | .got c => { s with calls := rest, lent := c ::ₘ s.lent }
    | .mayDial => { s with calls := .dial ::ₘ rest }
    | .full => { s with calls := .poll ::ₘ rest }

def recheck (c : Conn) (rest : Multiset Place) (s : Sys) : Sys :=
  if s.pool.closed then { s with pool := uncount s.pool, calls := rest, dead := c :: s.dead }
  else { s with calls := rest, lent := c ::ₘ s.lent }

def release (l : Limits) (c : Conn) (lent : Multiset Conn) (s : Sys) : Sys :=
  let (pool, closed) := s.pool.release c
  { s with
    pool := pool
    dead := closed ++ s.dead
    lent := lent
    tokens := if s.pool.closed then s.tokens else send l s.tokens }

def healthCheck (l : Limits) (expired : Conn → Bool) (dials : Nat) (s : Sys) : Sys :=
  if s.pool.closed then s
  else
    let (pool, next) := replenish l.minConnections dials s.next (sweep expired s.pool)
    { s with pool := pool, dead := s.pool.idle.filter expired ++ s.dead, next := next }

def close (s : Sys) : Sys :=
  let (pool, closed) := s.pool.close
  { s with pool := pool, dead := closed ++ s.dead }

end Sys

inductive Step (l : Limits) (ok : Sys → Prop) (s : Sys) : Sys → Prop where
  | call : Step l ok s { s with calls := .acquire ::ₘ s.calls }
  | tryAcquire {rest : Multiset Place} (h : s.calls = .acquire ::ₘ rest) (expired : Conn → Bool) :
    Step l ok s (s.tryAcquire expired rest)
  | dialled {rest : Multiset Place} (h : s.calls = .dial ::ₘ rest) :
    Step l ok s { s with calls := .dialled s.next ::ₘ rest, next := s.next + 1 }
  | dialFailed {rest : Multiset Place} (h : s.calls = .dial ::ₘ rest) :
    Step l ok s { s with calls := .dialFailed ::ₘ rest }
  | uncount {rest : Multiset Place} (h : s.calls = .dialFailed ::ₘ rest) (hok : ok s) :
    Step l ok s { s with pool := uncount s.pool, calls := rest }
  | recheck {rest : Multiset Place} {c : Conn} (h : s.calls = .dialled c ::ₘ rest) :
      Step l ok s (s.recheck c rest)
  | receive {rest : Multiset Place} {p : Place} (hp : p = .poll ∨ p = .parked)
      (h : s.calls = p ::ₘ rest)
      (htoken : 0 < s.tokens) :
      Step l ok s { s with calls := .acquire ::ₘ rest, tokens := s.tokens - 1 }
  | miss {rest : Multiset Place} (h : s.calls = .poll ::ₘ rest) (htoken : s.tokens = 0) :
    Step l ok s { s with calls := .slow ::ₘ rest }
  | park {rest : Multiset Place} (h : s.calls = .slow ::ₘ rest) :
      Step l ok s { s with calls := .parked ::ₘ rest }
  | cancel {rest : Multiset Place} {p : Place} (hp : p = .poll ∨ p = .parked)
      (h : s.calls = p ::ₘ rest) : Step l ok s { s with calls := rest }
  | release {lent : Multiset Conn} {c : Conn} (h : s.lent = c ::ₘ lent) :
      Step l ok s (s.release l c lent)
  | discard {lent : Multiset Conn} {c : Conn} (h : s.lent = c ::ₘ lent) :
    Step l ok s { s with calls := .discard c ::ₘ s.calls, lent := lent, dead := c :: s.dead }
  | discarded {rest : Multiset Place} {c : Conn} (h : s.calls = .discard c ::ₘ rest) :
    Step l ok s { s with pool := s.pool.decOpen, calls := .signal ::ₘ rest }
  | signal {rest : Multiset Place} (h : s.calls = .signal ::ₘ rest) :
    Step l ok s { s with calls := rest, tokens := send l s.tokens }
  | healthCheck (expired : Conn → Bool) (dials : Nat) : Step l ok s (s.healthCheck l expired dials)
  | close : Step l ok s s.close

abbrev Reachable (l : Limits) (ok : Sys → Prop) : Sys → Prop :=
  Relation.ReflTransGen (Step l ok) (start l)

end PgMux.PoolCalls
