import Mathlib.Algebra.Group.Int.Defs
import Mathlib.Data.Rat.Defs

/-!
# The circuit breaker

A breaker counts successes and failures of a backend in windows. Durations and times are in
nanoseconds, and the threshold is a rational.
-/

namespace PgMux.Breaker

inductive State where
  | closed | opened | halfOpen
  deriving DecidableEq, Repr

structure BreakerConfig where
  errorThreshold : Rat
  openDuration : Int
  halfOpenMax : Int
  windowSize : Int
  deriving DecidableEq, Repr

structure CircuitBreaker where
  cfg : BreakerConfig
  state : State
  successes : Nat
  failures : Nat
  total : Nat
  openedAt : Int
  halfOpenOK : Nat
  deriving DecidableEq, Repr

def CircuitBreaker.new (cfg : BreakerConfig) : CircuitBreaker where
  cfg :=
    { windowSize := if cfg.windowSize ≤ 0 then 10 else cfg.windowSize
      halfOpenMax := if cfg.halfOpenMax ≤ 0 then 3 else cfg.halfOpenMax
      openDuration := if cfg.openDuration ≤ 0 then 10 * 10 ^ 9 else cfg.openDuration
      errorThreshold := if cfg.errorThreshold ≤ 0 then 1 / 2 else cfg.errorThreshold }
  state := .closed
  successes := 0
  failures := 0
  total := 0
  openedAt := 0
  halfOpenOK := 0

namespace CircuitBreaker

def resetCounters (cb : CircuitBreaker) : CircuitBreaker :=
  { cb with successes := 0, failures := 0, total := 0 }

def evaluateWindow (cb : CircuitBreaker) (now : Int) : CircuitBreaker :=
  if (cb.total : Int) < cb.cfg.windowSize then cb
  else
    let errorRate : Rat := cb.failures / cb.total
    if cb.cfg.errorThreshold ≤ errorRate then
      { cb with state := .opened, openedAt := now }.resetCounters
    else cb.resetCounters

/-- The error, if the circuit is open. -/
def allow (cb : CircuitBreaker) (now : Int) : Option String × CircuitBreaker :=
  match cb.state with
  | .closed => (none, cb)
  | .opened =>
    if cb.cfg.openDuration ≤ now - cb.openedAt then
      (none, { cb with state := .halfOpen, halfOpenOK := 0 })
    else (some "circuit breaker is open", cb)
  | .halfOpen => (none, cb)

def recordSuccess (cb : CircuitBreaker) (now : Int) : CircuitBreaker :=
  match cb.state with
  | .closed => { cb with successes := cb.successes + 1, total := cb.total + 1 }.evaluateWindow now
  | .opened => cb
  | .halfOpen =>
    if cb.cfg.halfOpenMax ≤ cb.halfOpenOK + 1 then
      { cb with halfOpenOK := cb.halfOpenOK + 1, state := .closed }.resetCounters
    else { cb with halfOpenOK := cb.halfOpenOK + 1 }

def recordFailure (cb : CircuitBreaker) (now : Int) : CircuitBreaker :=
  match cb.state with
  | .closed => { cb with failures := cb.failures + 1, total := cb.total + 1 }.evaluateWindow now
  | .opened => cb
  | .halfOpen => { cb with state := .opened, openedAt := now }

def getState (cb : CircuitBreaker) (now : Int) : State × CircuitBreaker :=
  if cb.state = .opened ∧ cb.cfg.openDuration ≤ now - cb.openedAt then
    (.halfOpen, { cb with state := .halfOpen, halfOpenOK := 0 })
  else (cb.state, cb)

end CircuitBreaker

/-! ## Calls -/

inductive Call where
  | allow | recordSuccess | recordFailure | state
  deriving DecidableEq, Repr

structure Event where
  call : Call
  now : Int
  deriving DecidableEq, Repr

def CircuitBreaker.step (cb : CircuitBreaker) (e : Event) : CircuitBreaker :=
  match e.call with
  | .allow => (cb.allow e.now).2
  | .recordSuccess => cb.recordSuccess e.now
  | .recordFailure => cb.recordFailure e.now
  | .state => (cb.getState e.now).2

def after (cfg : BreakerConfig) (es : List Event) : CircuitBreaker := es.foldl .step (.new cfg)

end PgMux.Breaker
