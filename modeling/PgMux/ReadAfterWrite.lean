import PgMux.Classifier

/-!
# The window behind a write

With the timer in place of causal consistency, a session keeps its reads on the writer for a while
after a write. Only one path of `routeQueryLocked` notes the time of a write.
-/

namespace PgMux.ReadAfterWrite

open Classifier Router

structure Call where
  now : Int
  query : Bytes

section

variable (env : Env)

def routeAt (s : Session) (c : Call) : Route := (routeQueryLocked env s c.now c.query).1

def sessionAfter (s : Session) (calls : List Call) : Session :=
  calls.foldl (fun s c => (routeQueryLocked env s c.now c.query).2) s

def containsWrite (s : Session) (query : Bytes) : Bool :=
  (splitStatements query).any fun stmt => queryType env s stmt == .write

/-- The query takes the path on which its type decides, and it counts as a write. -/
def noted (s : Session) (query : Bytes) : Bool :=
  !s.inTransaction && queryType env s query == .write &&
    if isSingleStatement query then hasTxPrefix query == .other
    else !(updateTransactionState env s query).inTransaction &&
      !containsTransactionKeyword env query

/-- Behind a call with a write, the session stays on the writer until the delay is over. -/
def KeepsWindow (s : Session) (calls : List Call) : Prop :=
  ∀ before c rest, calls = before ++ c :: rest →
    containsWrite env (sessionAfter env s before) c.query = true →
    ∀ mid c' tail, c :: rest = mid ++ c' :: tail → c'.now < c.now + s.readAfterWriteDelay →
      routeAt env (sessionAfter env s (before ++ mid)) c' = .writer

def allNoted (s : Session) : List Call → Bool
  | [] => true
  | c :: calls =>
    (!containsWrite env s c.query || noted env s c.query) &&
      allNoted (routeQueryLocked env s c.now c.query).2 calls

variable {env}

theorem sessionAfter_append (s : Session) (xs ys : List Call) :
    sessionAfter env s (xs ++ ys) = sessionAfter env (sessionAfter env s xs) ys := List.foldl_append

variable {c : Call} {s : Session}

theorem noted_of_allNoted {before rest : List Call}
    (h : allNoted env s (before ++ c :: rest) = true)
    (hwrite : containsWrite env (sessionAfter env s before) c.query = true) :
    noted env (sessionAfter env s before) c.query = true := by
  induction before generalizing s with
  | nil =>
    have hnow := (Bool.and_eq_true_iff.mp h).1
    change containsWrite env s c.query = true at hwrite
    change noted env s c.query = true
    simpa [hwrite] using hnow
  | cons c' before ih => exact ih (Bool.and_eq_true_iff.mp h).2 hwrite

/-! ## One call -/

theorem routeByType_of_recent {now : Int} {query : Bytes} (hcausal : s.causalConsistency = false)
    (hrecent : recentWrite s now = true) : (routeByType env s now query).1 = .writer := by
  unfold routeByType
  cases queryType env s query with
  | write => rfl
  | read => simp [hcausal, hrecent]

theorem route_of_recent (hcausal : s.causalConsistency = false)
    (hrecent : recentWrite s c.now = true) : routeAt env s c = .writer := by
  unfold routeAt routeQueryLocked
  split
  · cases hasTxPrefix c.query with
    | start | finish => rfl
    | other =>
      cases hin : s.inTransaction with
      | true => simp
      | false => simpa using routeByType_of_recent hcausal hrecent
  · dsimp only
    split
    · rfl
    split
    · rfl
    · exact routeByType_of_recent hcausal hrecent

structure Passes (s s' : Session) (now : Int) : Prop where
  delay : s'.readAfterWriteDelay = s.readAfterWriteDelay
  causal : s'.causalConsistency = s.causalConsistency
  time : s'.lastWriteTime = s.lastWriteTime ∨ s'.lastWriteTime = some now

theorem passes_routeByType (s : Session) (now : Int) (query : Bytes) :
    Passes s (routeByType env s now query).2 now := by
  unfold routeByType
  cases queryType env s query with
  | write =>
    dsimp only
    split
    · exact ⟨rfl, rfl, .inl rfl⟩
    · exact ⟨rfl, rfl, .inr rfl⟩
  | read =>
    dsimp only
    split
    · exact ⟨rfl, rfl, .inl rfl⟩
    split
    · exact ⟨rfl, rfl, .inl rfl⟩
    · exact ⟨rfl, rfl, .inl rfl⟩

theorem passes_routeQueryLocked (s : Session) (now : Int) (query : Bytes) :
    Passes s (routeQueryLocked env s now query).2 now := by
  unfold routeQueryLocked
  split
  · cases hasTxPrefix query with
    | start | finish => exact ⟨rfl, rfl, .inl rfl⟩
    | other =>
      cases s.inTransaction with
      | true => exact ⟨rfl, rfl, .inl rfl⟩
      | false => exact passes_routeByType s now query
  · dsimp only
    split
    · exact ⟨rfl, rfl, .inl rfl⟩
    split
    · exact ⟨rfl, rfl, .inl rfl⟩
    · obtain ⟨hdelay, hcausal, htime⟩ :=
        passes_routeByType (updateTransactionState env s query) now query
      exact ⟨hdelay, hcausal, htime⟩

theorem route_of_noted (h : noted env s c.query = true) :
    routeAt env s c = .writer ∧ (s.causalConsistency = false →
      (routeQueryLocked env s c.now c.query).2.lastWriteTime = some c.now) := by
  simp only [noted, Bool.and_eq_true, Bool.not_eq_true', beq_iff_eq] at h
  obtain ⟨⟨hin, htype⟩, hpath⟩ := h
  have hwrite : ∀ s' : Session, queryType env s' c.query = .write →
      (routeByType env s' c.now c.query).1 = .writer ∧
      (s'.causalConsistency = false → (routeByType env s' c.now c.query).2.lastWriteTime =
        some c.now) := by
    intro s' htype
    unfold routeByType
    rw [htype]
    exact ⟨rfl, fun hcausal => by simp [hcausal]⟩
  unfold routeAt routeQueryLocked
  split
  · rename_i hsingle
    have hword : hasTxPrefix c.query = .other := by simpa [hsingle] using hpath
    simpa [hword, hin] using hwrite s htype
  · rename_i hsingle
    simp only [hsingle, if_false, Bool.and_eq_true, Bool.not_eq_true', Bool.false_eq_true] at hpath
    have htype' : queryType env (updateTransactionState env s c.query) c.query = .write := htype
    obtain ⟨hroute, htime⟩ := hwrite _ htype'
    refine ⟨by simpa [hpath.1, hpath.2, hin] using hroute, fun hcausal => ?_⟩
    simpa [hpath.1, hpath.2, hin] using htime hcausal

/-! ## Runs -/

structure Since (d : Int) (t : Int) (s : Session) : Prop where
  delay : s.readAfterWriteDelay = d
  causal : s.causalConsistency = false
  time : ∃ u, s.lastWriteTime = some u ∧ t ≤ u

theorem Since.step {d t : Int} (h : Since d t s) (hc : t ≤ c.now) :
    Since d t (routeQueryLocked env s c.now c.query).2 := by
  have hpass := @passes_routeQueryLocked env s c.now c.query
  refine ⟨hpass.delay.trans h.delay, hpass.causal.trans h.causal, ?_⟩
  obtain ⟨u, hu, htu⟩ := h.time
  obtain htime | htime := hpass.time
  · exact ⟨u, htime.trans hu, htu⟩
  · exact ⟨c.now, htime, hc⟩

theorem Since.run {d t : Int} (h : Since d t s) {calls : List Call}
    (hcalls : ∀ c ∈ calls, t ≤ c.now) : Since d t (sessionAfter env s calls) := by
  induction calls generalizing s with
  | nil => exact h
  | cons c calls ih =>
    exact ih (h.step (hcalls c List.mem_cons_self)) fun c' hc' =>
      hcalls c' (List.mem_cons_of_mem c hc')

theorem Since.route {d t : Int} (h : Since d t s) (hd : 0 < d) (hc : c.now < t + d) :
    routeAt env s c = .writer := by
  obtain ⟨u, hu, htu⟩ := h.time
  refine route_of_recent h.causal ?_
  have hwithin : c.now - u < d := by omega
  simp [recentWrite, hu, h.delay, hd, hwithin]

theorem sessionAfter_fixed (s : Session) (calls : List Call) :
    (sessionAfter env s calls).readAfterWriteDelay = s.readAfterWriteDelay ∧
      (sessionAfter env s calls).causalConsistency = s.causalConsistency := by
  induction calls generalizing s with
  | nil => exact ⟨rfl, rfl⟩
  | cons c calls ih =>
    have hpass := @passes_routeQueryLocked env s c.now c.query
    obtain ⟨hdelay, hcausal⟩ := ih (routeQueryLocked env s c.now c.query).2
    exact ⟨hdelay.trans hpass.delay, hcausal.trans hpass.causal⟩

/-- In a run whose writes are all noted, no call within the delay of a write goes to a reader. -/
theorem keepsWindow_of_noted {s : Session} (hcausal : s.causalConsistency = false)
    (hdelay : 0 < s.readAfterWriteDelay) {calls : List Call}
    (hclock : calls.Pairwise (·.now ≤ ·.now)) (hnoted : allNoted env s calls = true) :
    KeepsWindow env s calls := by
  intro before c rest hcalls hwrite mid c' tail hsplit hwithin
  have hc := noted_of_allNoted (hcalls ▸ hnoted) hwrite
  obtain ⟨hdelay', hcausal'⟩ := @sessionAfter_fixed env s before
  obtain ⟨hroute, htime⟩ := route_of_noted (s := sessionAfter env s before) (c := c) hc
  rw [sessionAfter_append]
  cases mid with
  | nil =>
    obtain rfl : c = c' := (List.cons.inj hsplit).1
    exact hroute
  | cons c₁ mid =>
    obtain ⟨rfl, hrest⟩ := List.cons.inj hsplit
    have hpass := @passes_routeQueryLocked env (sessionAfter env s before) c.now c.query
    have hsince : Since s.readAfterWriteDelay c.now
        (routeQueryLocked env (sessionAfter env s before) c.now c.query).2 :=
      ⟨hpass.delay.trans hdelay', (hpass.causal.trans hcausal').trans hcausal,
        c.now, htime (hcausal'.trans hcausal), Int.le_refl _⟩
    have hlater : ∀ x ∈ mid, c.now ≤ x.now := by
      intro x hx
      rw [hcalls, hrest] at hclock
      exact (List.pairwise_cons.mp (List.pairwise_append.mp hclock).2.1).1 x
        (List.mem_append_left _ hx)
    exact (hsince.run hlater).route hdelay hwithin

end

def committedWrite : List Call :=
  [⟨0, ascii "BEGIN"⟩, ⟨1, ascii "INSERT INTO t VALUES (1)"⟩, ⟨2, ascii "COMMIT"⟩,
    ⟨3, ascii "SELECT * FROM t"⟩]

theorem committed_write_forgotten :
    let env := stringEnv id fun _ => .write
    let s := Session.new 500 false false
    classify id (ascii "INSERT INTO t VALUES (1)") = .write ∧
      containsWrite env (sessionAfter env s (committedWrite.take 1))
        (ascii "INSERT INTO t VALUES (1)") = true ∧
      routeAt env (sessionAfter env s (committedWrite.take 3)) ⟨3, ascii "SELECT * FROM t"⟩ =
        .reader ∧ ¬ KeepsWindow env s committedWrite := by
  intro env s
  have hreader : routeAt env (sessionAfter env s (committedWrite.take 3))
      ⟨3, ascii "SELECT * FROM t"⟩ = .reader := by
    decide +kernel
  have hwrite : containsWrite env (sessionAfter env s (committedWrite.take 1))
      (ascii "INSERT INTO t VALUES (1)") = true := by decide +kernel
  refine ⟨by decide +kernel, hwrite, hreader, fun h => ?_⟩
  have hroute := h (committedWrite.take 1) _ _ rfl hwrite (committedWrite.drop 1 |>.take 2) _ _ rfl
    (by decide +kernel)
  exact absurd (hreader.symm.trans hroute) (by decide)

theorem keepsWindow_of_noted_inserts :
    KeepsWindow (stringEnv id fun _ => .write) (Session.new 500 false false)
      [⟨0, ascii "INSERT INTO t VALUES (1)"⟩, ⟨1, ascii "SELECT 1; UPDATE t SET x = 2"⟩,
        ⟨3, ascii "SELECT * FROM t"⟩] :=
  keepsWindow_of_noted rfl (by decide) (by decide +kernel) (by decide +kernel)

end PgMux.ReadAfterWrite
