import PgMux.Balancer
import PgMux.DataApiReset

/-!
# Reads of the Data API

`executeRead` answers from the cache, or asks the reader that the balancer names and, behind any
error, takes that reader out and asks the writer. Here a backend can only fail a request by an
ErrorResponse.
-/

namespace PgMux.DataApi

open Balancer Effects Protocol Wire
open DataApiReset (arrives upToReady ready_ne_error)

structure Link where
  incoming : List Message
  sent : List Message
  deriving DecidableEq, Repr

def Link.answer (reply : Message → List Message) : World ApiAns Link
  | .wire (.request m), c | .wire (.forward m), c => (true, ⟨c.incoming ++ reply m, c.sent ++ [m]⟩)
  | .wire .read, c => (c.incoming.head?, { c with incoming := c.incoming.tail })
  | .wire (.toClient _), c | .wire .copyBoth, c => (true, c)
  | .wire .fromClient, c => (none, c)
  | .acquire, c => (true, c)
  | .loadCancelled, c => (false, c)
  | .spawn, c | .closeStop, c | .waitDone, c | .discard, c | .release, c => ((), c)

inductive Target (α : Type) where
  | writer
  | reader (addr : α)
  deriving DecidableEq, Repr

abbrev queryMessage (sql : Bytes) : Message := ⟨msgQuery, sql ++ [0]⟩

structure ReadRequest (α ρ : Type) where
  sql : Bytes
  sql_ne : sql ≠ []
  cached : Option ρ
  reply : Target α → Message → List Message

structure ReadResult (α ρ : Type) where
  result : Option (Except ApiErr ρ)
  sent : List (Target α × Message)
  stored : Option ρ
  balancer : Option (RoundRobin α)

section

variable {α ρ : Type} (add : ρ → Message → ρ) (empty : ρ) (resetQuery : Bytes)

def onPool (x : ReadRequest α ρ) (t : Target α) :
    Option (Except ApiErr ρ) × List (Target α × Message) :=
  let rounds :=
    (x.reply t (queryMessage x.sql)).length + (x.reply t (queryMessage resetQuery)).length + 1
  let run := eval (Link.answer (x.reply t)) (executeOnPool add empty resetQuery x.sql true rounds)
    ⟨[], []⟩
  (run.1, run.2.sent.map (t, ·))

variable [DecidableEq α] (readerPools : α → Bool)

def executeRead (balancer : Option (RoundRobin α)) (x : ReadRequest α ρ) : ReadResult α ρ :=
  let onWriter (balancer : Option (RoundRobin α)) : ReadResult α ρ :=
    let w := onPool add empty resetQuery x .writer
    ⟨w.1, w.2, none, balancer⟩
  match x.cached, balancer.map RoundRobin.next with
  | some resp, _ => ⟨some (.ok resp), [], none, balancer⟩
  | none, none => onWriter none
  | none, some (.nothing, r) => onWriter (some r)
  | none, some (.panic, r) => ⟨none, [], none, some r⟩
  | none, some (.found addr, r) =>
    if readerPools addr then
      let (result, sent) := onPool add empty resetQuery x (.reader addr)
      match result with
      | none => ⟨none, sent, none, some r⟩
      | some (.ok resp) => ⟨some (.ok resp), sent, some resp, some r⟩
      | some (.error _) =>
        let w := onWriter (some (r.markUnhealthy addr))
        { w with sent := sent ++ w.sent }
    else onWriter (some r)

def executeReads :
    Option (RoundRobin α) → List (ReadRequest α ρ) → List (ReadResult α ρ) × Option (RoundRobin α)
  | balancer, [] => ([], balancer)
  | balancer, x :: xs =>
    let r := executeRead add empty resetQuery readerPools balancer x
    let (rs, balancer) := executeReads r.balancer xs
    (r :: rs, balancer)

end

def clean (ms : List Message) : Bool :=
  arrives ms && !(upToReady ms).any (·.type = msgErrorResponse)

section

variable {α ρ : Type} (add : ρ → Message → ρ) (reply : Message → List Message)

theorem eval_readResponse_clean {n : Nat} {incoming : List Message} (sent : List Message) (resp : ρ)
    (hclean : clean incoming) (hn : incoming.length ≤ n) : ∃ r rest, rest.length ≤ incoming.length ∧
      eval (Link.answer reply) (onConn (readResponse add n resp)) ⟨incoming, sent⟩ = (some (.ok r),
        ⟨rest, sent⟩) := by
  induction incoming generalizing n resp with
  | nil => simp [clean, arrives] at hclean
  | cons m ms ih =>
    obtain ⟨n, rfl⟩ : ∃ k, n = k + 1 := ⟨n - 1, by simp at hn; omega⟩
    by_cases hready : m.type = msgReadyForQuery
    · refine ⟨resp, ms, by simp, ?_⟩
      change eval (Link.answer reply) (onConn (if m.type = msgErrorResponse then _ else _))
        ⟨ms, sent⟩ = _
      rw [if_neg (by rw [hready]; exact ready_ne_error), if_pos hready]
      rfl
    · have herror : m.type ≠ msgErrorResponse ∧ clean ms := by
        simpa [clean, arrives, upToReady, hready, and_left_comm] using hclean
      obtain ⟨r, rest, hlen, hrest⟩ := ih (add resp m) herror.2 (Nat.le_of_succ_le_succ hn)
      refine ⟨r, rest, by simp; omega, ?_⟩
      change eval (Link.answer reply) (onConn (if m.type = msgErrorResponse then _ else _))
        ⟨ms, sent⟩ = _
      rw [if_neg herror.1, if_neg hready]
      exact hrest

theorem eval_drain {n : Nat} {incoming : List Message} (sent : List Message)
    (hn : incoming.length < n) : ∃ b rest,
    eval (Link.answer reply) (onConn (drainUntilReady n))
      ⟨incoming, sent⟩ = (some b, ⟨rest, sent⟩) := by
  obtain ⟨n, rfl⟩ : ∃ k, n = k + 1 := ⟨n - 1, by omega⟩
  induction incoming generalizing n with
  | nil => exact ⟨false, [], rfl⟩
  | cons m ms ih =>
    obtain ⟨n, rfl⟩ : ∃ k, n = k + 1 := ⟨n - 1, by simp at hn; omega⟩
    by_cases hready : m.type = msgReadyForQuery
    · refine ⟨true, ms, ?_⟩
      change eval (Link.answer reply) (onConn (if m.type = msgReadyForQuery then _ else _))
        ⟨ms, sent⟩ = _
      rw [if_pos hready]
      rfl
    · obtain ⟨b, rest, hrest⟩ := ih n (by simpa using hn)
      refine ⟨b, rest, ?_⟩
      change eval (Link.answer reply) (onConn (if m.type = msgReadyForQuery then _ else _))
        ⟨ms, sent⟩ = _
      rw [if_neg hready]
      exact hrest

theorem eval_reset {resetQuery : Bytes} {n : Nat} (resp : ρ) {incoming sent : List Message}
    (hn : (incoming ++ reply (queryMessage resetQuery)).length < n) :
    (eval (Link.answer reply) (resetAndRelease resetQuery n resp) ⟨incoming, sent⟩).1 =
      some (.ok resp) := by
  obtain ⟨b, rest, hdrain⟩ := eval_drain reply (sent ++ [queryMessage resetQuery]) hn
  unfold resetAndRelease
  rw [eval_bind]
  change (eval (Link.answer reply) (if true = true then _ else _)
    ⟨incoming ++ reply (queryMessage resetQuery), _⟩).1 = _
  rw [if_pos rfl, eval_bind, hdrain]
  cases b <;> rfl

theorem onPool_clean (empty : ρ) (resetQuery : Bytes) {x : ReadRequest α ρ} {t : Target α}
    (h : clean (x.reply t (queryMessage x.sql))) :
    ∃ r, (onPool add empty resetQuery x t).1 = some (.ok r) := by
  unfold onPool
  dsimp only
  generalize hn : (x.reply t (queryMessage x.sql)).length +
    (x.reply t (queryMessage resetQuery)).length + 1 = n
  obtain ⟨r, rest, hlen, hread⟩ :=
    eval_readResponse_clean add (x.reply t) (n := n) [queryMessage x.sql] empty h (by omega)
  have hquery : eval (Link.answer (x.reply t)) (onConn (executeQuery add empty x.sql n)) ⟨[], []⟩ =
      (some (.ok r), ⟨rest, [queryMessage x.sql]⟩) := by
    unfold executeQuery
    rw [if_neg x.sql_ne]
    exact hread
  refine ⟨r, ?_⟩
  change (eval (Link.answer (x.reply t)) (onConn (executeQuery add empty x.sql n) >>= _)
    ⟨[], []⟩).1 = _
  rw [eval_bind, hquery]
  exact eval_reset (x.reply t) r (by rw [List.length_append]; omega)

end

def flags {α : Type} (balancer : Option (RoundRobin α)) : Option (List (α × Bool)) :=
  balancer.map fun r => r.backends.map fun b => (b.addr, b.healthy)

def ReadResult.OneBackend {α ρ : Type} (r : ReadResult α ρ) : Prop :=
  ∀ e ∈ r.sent, ∀ e' ∈ r.sent, e.1 = e'.1

section

variable {α ρ : Type} (add : ρ → Message → ρ) (empty : ρ) (resetQuery : Bytes)

theorem onPool_target (x : ReadRequest α ρ) (t : Target α) :
    ∀ e ∈ (onPool add empty resetQuery x t).2, e.1 = t := by
  intro e he
  obtain ⟨m, -, rfl⟩ := List.mem_map.mp he
  rfl

variable [DecidableEq α] (readerPools : α → Bool)

theorem executeRead_clean {x : ReadRequest α ρ}
    (hclean : ∀ addr, clean (x.reply (.reader addr) (queryMessage x.sql)))
    (balancer : Option (RoundRobin α)) :
    flags (executeRead add empty resetQuery readerPools balancer x).balancer = flags balancer ∧
      (executeRead add empty resetQuery readerPools balancer x).OneBackend := by
  have hone (t : Target α) : ∀ e ∈ (onPool add empty resetQuery x t).2,
      ∀ e' ∈ (onPool add empty resetQuery x t).2, e.1 = e'.1 := by
    intro e he e' he'
    rw [onPool_target add empty resetQuery x t e he, onPool_target add empty resetQuery x t e' he']
  unfold executeRead ReadResult.OneBackend
  cases x.cached with
  | some resp => exact ⟨rfl, by simp⟩
  | none =>
    cases balancer with
    | none => exact ⟨rfl, hone .writer⟩
    | some r =>
      have hflags : flags (some r.next.2) = flags (some r) := by
        simp only [flags, Option.map_some, RoundRobin.next, RoundRobin.nextWithLSN,
          RoundRobin.backends_choose]
      obtain ⟨pick, r', hnext⟩ : ∃ pick r', r.next = (pick, r') := ⟨_, _, rfl⟩
      rw [hnext] at hflags
      simp only [Option.map_some, hnext]
      cases pick with
      | panic => exact ⟨hflags, by simp⟩
      | nothing => exact ⟨hflags, hone .writer⟩
      | found addr =>
        dsimp only
        split_ifs
        · obtain ⟨resp, hresp⟩ := onPool_clean add empty resetQuery (hclean addr)
          rw [hresp]
          exact ⟨hflags, hone (.reader addr)⟩
        · exact ⟨hflags, hone .writer⟩

/-- Reads to which no reader answers with an error leave every health flag. -/
theorem reads_keep_health {xs : List (ReadRequest α ρ)}
    (hclean : ∀ x ∈ xs, ∀ addr, clean (x.reply (.reader addr) (queryMessage x.sql)))
    (balancer : Option (RoundRobin α)) :
    flags (executeReads add empty resetQuery readerPools balancer xs).2 = flags balancer ∧
      ∀ r ∈ (executeReads add empty resetQuery readerPools balancer xs).1, r.OneBackend := by
  induction xs generalizing balancer with
  | nil => exact ⟨rfl, by simp [executeReads]⟩
  | cons x xs ih =>
    obtain ⟨hx, hxs⟩ := List.forall_mem_cons.mp hclean
    obtain ⟨hflags, hone⟩ := executeRead_clean add empty resetQuery readerPools hx balancer
    obtain ⟨hrest, hall⟩ :=
      ih hxs (executeRead add empty resetQuery readerPools balancer x).balancer
    exact ⟨hrest.trans hflags, List.forall_mem_cons.mpr ⟨hone, hall⟩⟩

end

def selectOne (ms : List Message) : ReadRequest Nat Unit where
  sql := ascii "SELECT 1"
  sql_ne := by decide
  cached := none
  reply := fun _ _ => ms ++ [⟨msgReadyForQuery, [73]⟩]

def readTwice (ms : List Message) : List (ReadResult Nat Unit) × Option (RoundRobin Nat) :=
  executeReads (fun _ _ => ()) () (ascii "DISCARD ALL") (fun _ => true) (some (.new [7]))
    [selectOne ms, selectOne ms]

theorem reads_keep_health_twice :
    clean [⟨msgReadyForQuery, [73]⟩] ∧ flags (readTwice []).2 = some [(7, true)] :=
  ⟨by decide +kernel, (reads_keep_health _ _ _ _ (by
    intro x hx addr
    rw [show x = selectOne [] by simpa using hx]
    exact show clean [⟨msgReadyForQuery, [73]⟩] by decide +kernel) _).1⟩

theorem error_takes_reader_out :
    flags (some (.new [7])) = some [(7, true)] ∧
    flags (readTwice [⟨msgErrorResponse, [0]⟩]).2 = some [(7, false)] ∧
      (readTwice [⟨msgErrorResponse, [0]⟩]).1.map ReadResult.sent =
        [[(.reader 7, queryMessage (ascii "SELECT 1")), (.writer, queryMessage (ascii "SELECT 1"))],
          [(.writer, queryMessage (ascii "SELECT 1"))]] := by
  decide +kernel

end PgMux.DataApi
