import PgMux.QueryCache

/-!
# Readers and writers around the cache

A reader that misses fetches the rows and stores them later; a writer changes the rows and
invalidates later. Each call of the cache is atomic, the pairs are not: rows fetched before a write
can be stored behind its invalidation.
-/

namespace PgMux.CacheRace

open QueryCache

structure State where
  rows : Bytes
  cache : Cache
  fetched : List Bytes
  pending : Nat

inductive Event where
  | get (now : Int)
  | fetch
  | store (now : Int) (rows : Bytes)
  | write (rows : Bytes)
  | invalidate
  deriving DecidableEq, Repr

section

variable (key : Key) (table : Bytes)

def step (s : State) : Event → Option State
  | .get now => some { s with cache := (s.cache.get key now).2 }
  -- a reader that missed the cache earlier has the rows of now
  | .fetch => some { s with fetched := s.rows :: s.fetched }
  | .store now rows =>
    if rows ∈ s.fetched then
      some { s with cache := s.cache.set key rows [table] now, fetched := s.fetched.erase rows }
    else none
  | .write rows => some { s with rows := rows, pending := s.pending + 1 }
  | .invalidate =>
    if s.pending = 0 then none
    else some { s with cache := s.cache.invalidateTable table, pending := s.pending - 1 }

def run (s : State) (events : List Event) : Option State := events.foldlM (step key table) s

def State.Quiet (s : State) : Prop := s.fetched = [] ∧ s.pending = 0

/-- A reader stores rows that are current, or some writer has yet to invalidate. -/
def fresh (s : State) : Event → Bool
  | .store _ rows => rows == s.rows || s.pending != 0
  | _ => true

def allFresh (s : State) : List Event → Bool
  | [] => true
  | e :: events => fresh s e && (step key table s e).all fun t => allFresh t events

structure Current (s : State) : Prop where
  indexed : ∀ e ∈ s.cache.entries, e.key = key → table ∈ e.tables
  current : ∀ e ∈ s.cache.entries, e.key = key → e.result = s.rows ∨ s.pending ≠ 0

variable {key table}

theorem Current.step {s t : State} {e : Event} (h : Current key table s) (hfresh : fresh s e = true)
    (hstep : step key table s e = some t) : Current key table t := by
  cases e with
  | get now =>
    obtain rfl := Option.some.inj hstep
    exact ⟨fun e he => h.indexed e (Cache.mem_get he), fun e he => h.current e (Cache.mem_get he)⟩
  | fetch =>
    obtain rfl := Option.some.inj hstep
    exact ⟨h.indexed, h.current⟩
  | store now rows =>
    simp only [CacheRace.step] at hstep
    split at hstep
    · obtain rfl := Option.some.inj hstep
      refine ⟨fun e he hkey => ?_, fun e he hkey => ?_⟩
      · obtain he | rfl := Cache.mem_set he
        · exact h.indexed e he hkey
        · exact List.mem_singleton.mpr rfl
      · obtain he | rfl := Cache.mem_set he
        · exact h.current e he hkey
        · simpa [fresh] using hfresh
    · simp at hstep
  | write rows =>
    obtain rfl := Option.some.inj hstep
    exact ⟨h.indexed, fun _ _ _ => .inr (Nat.succ_ne_zero _)⟩
  | invalidate =>
    simp only [CacheRace.step] at hstep
    split at hstep
    · simp at hstep
    · obtain rfl := Option.some.inj hstep
      refine ⟨fun e he hkey => ?_, fun e he hkey => ?_⟩
      · exact h.indexed e (Cache.mem_invalidateTable he).1 hkey
      · obtain ⟨hmem, hnot⟩ := Cache.mem_invalidateTable he
        exact absurd (h.indexed e hmem hkey) hnot

theorem Current.run {s t : State} {events : List Event} (h : Current key table s)
    (hfresh : allFresh key table s events = true) (hrun : run key table s events = some t) :
    Current key table t := by
  induction events generalizing s with
  | nil =>
    obtain rfl := Option.some.inj hrun
    exact h
  | cons e events ih =>
    simp only [allFresh, Bool.and_eq_true] at hfresh
    simp only [CacheRace.run, List.foldlM_cons, Option.bind_eq_bind,
      Option.bind_eq_some_iff] at hrun
    obtain ⟨u, hstep, hrest⟩ := hrun
    have hu : allFresh key table u events = true := by simpa [hstep] using hfresh.2
    exact ih (h.step hfresh.1 hstep) hu hrest

/-- Once all operations have finished, a lookup finds nothing or the rows in the database. -/
theorem get_current {cfg : Config} {rows : Bytes} {events : List Event} {t : State}
    (hfresh : allFresh key table ⟨rows, Cache.new cfg, [], 0⟩ events = true)
    (hrun : run key table ⟨rows, Cache.new cfg, [], 0⟩ events = some t) (hquiet : t.Quiet)
    (now : Int) {result : Bytes} (hget : (t.cache.get key now).1 = some result) :
    result = t.rows := by
  have hstart : Current key table ⟨rows, Cache.new cfg, [], 0⟩ :=
    ⟨fun e he => absurd he List.not_mem_nil, fun e he => absurd he List.not_mem_nil⟩
  obtain ⟨e, he, hkey, rfl⟩ := Cache.get_eq_some hget
  obtain hcur | hpending := (hstart.run hfresh hrun).current e he hkey
  · exact hcur
  · exact absurd hquiet.2 hpending

end

def plainConfig : Config := ⟨100, 60, 0⟩

def start : State := ⟨[1], Cache.new plainConfig, [], 0⟩

theorem stale_entry_survives :
    ∃ t, run 7 (ascii "t") start [.get 0, .fetch, .write [2], .invalidate, .store 1 [1]] = some t ∧
    t.Quiet ∧ t.rows = [2] ∧ (t.cache.get 7 2).1 = some [1] :=
  ⟨_, rfl, ⟨rfl, rfl⟩, rfl, by decide +kernel⟩

theorem get_current_overlap :
    ∃ t, run 7 (ascii "t") start
        [.get 0, .fetch, .write [2], .store 1 [1], .invalidate, .get 2, .fetch,
          .store 3 [2]] = some t ∧ (t.cache.get 7 4).1 = some [2] ∧ t.rows = [2] := by
  have hrun : ∃ t, run 7 (ascii "t") start
      [.get 0, .fetch, .write [2], .store 1 [1], .invalidate, .get 2, .fetch, .store 3 [2]] =
        some t ∧ t.Quiet ∧
        (t.cache.get 7 4).1 = some [2] := ⟨_, rfl, ⟨by decide +kernel, rfl⟩, by decide +kernel⟩
  obtain ⟨t, hrun, hquiet, hget⟩ := hrun
  exact ⟨t, hrun, hget, (get_current (by decide +kernel) hrun hquiet 4 hget).symm⟩

end PgMux.CacheRace
