import Mathlib.Data.Finset.Card

/-!
# Connection pools

`PoolState` is what the pool package guards by its lock; the world around it knows which connections
are live and which of them a session has borrowed from which pool. A reload closes and replaces the
writer pool.
-/

namespace PgMux.Pools

abbrev Conn := Nat

abbrev Pool := Nat

structure PoolState where
  maxConnections : Int
  idle : List Conn
  numOpen : Int
  closed : Bool
  deriving DecidableEq, Repr

namespace PoolState

def acquire (expired : Conn → Bool) (dialled : Option Conn) (st : PoolState) :
    Option Conn × PoolState × List Conn :=
  if st.closed then (none, st, [])
  else
    let stale := st.idle.takeWhile expired
    let numOpen := st.numOpen - stale.length
    match st.idle.dropWhile expired with
    | c :: idle => (some c, { st with idle := idle, numOpen := numOpen }, stale)
    | [] =>
      if numOpen < st.maxConnections ∧ dialled.isSome then
        (dialled, { st with idle := [], numOpen := numOpen + 1 }, stale)
      else (none, { st with idle := [], numOpen := numOpen }, stale)

def decOpen (st : PoolState) : PoolState :=
  if 0 < st.numOpen then { st with numOpen := st.numOpen - 1 } else st

def release (c : Conn) (st : PoolState) : PoolState × List Conn :=
  if st.closed then (st.decOpen, [c]) else ({ st with idle := c :: st.idle }, [])

def discard (c : Conn) (st : PoolState) : PoolState × List Conn := (st.decOpen, [c])

def close (st : PoolState) : PoolState × List Conn :=
  if st.closed then (st, [])
  else ({ st with closed := true, idle := [], numOpen := st.numOpen - st.idle.length }, st.idle)

end PoolState

/-- Pools from `created` on do not exist yet. -/
structure World where
  pools : Pool → PoolState
  created : Nat
  writerPool : Pool
  live : Finset Conn
  borrowed : List (Conn × Pool)

namespace World

def put (p : Pool) (r : PoolState × List Conn) (s : World) : World :=
  { s with pools := Function.update s.pools p r.1, live := s.live \ r.2.toFinset }

def acquire (expired : Conn → Bool) (dialled : Option Conn) (p : Pool) (s : World) :
    Option Conn × World :=
  match (s.pools p).acquire expired dialled with
  | (none, r) => (none, s.put p r)
  | (some c, r) =>
    let s := s.put p r
    (some c, { s with live := insert c s.live, borrowed := (c, p) :: s.borrowed })

def release (c : Conn) (p : Pool) (s : World) : World :=
  { s.put p ((s.pools p).release c) with borrowed := s.borrowed.erase (c, p) }

def discard (c : Conn) (p : Pool) (s : World) : World :=
  { s.put p ((s.pools p).discard c) with borrowed := s.borrowed.erase (c, p) }

def reload (maxConnections : Int) (s : World) : World :=
  let s := s.put s.writerPool (s.pools s.writerPool).close
  { s with
    pools := Function.update s.pools s.created ⟨maxConnections, [], 0, false⟩
    created := s.created + 1
    writerPool := s.created }

def own (origin : Conn → Pool) (s : World) (p : Pool) : Finset Conn := s.live.filter (origin · = p)

/-- Every pool counts its own live connections. -/
structure WellFormed (origin : Conn → Pool) (s : World) : Prop where
  numOpen_eq : ∀ p, (s.pools p).numOpen = (s.own origin p).card
  idle_own : ∀ p, ∀ c ∈ (s.pools p).idle, c ∈ s.own origin p
  idle_nodup : ∀ p, (s.pools p).idle.Nodup
  borrowed_own : ∀ e ∈ s.borrowed, e.1 ∈ s.own origin e.2
  borrowed_nodup : (s.borrowed.map Prod.fst).Nodup
  borrowed_idle : ∀ e ∈ s.borrowed, ∀ p, e.1 ∉ (s.pools p).idle
  origin_lt : ∀ c ∈ s.live, origin c < s.created
  uncreated : ∀ p, s.created ≤ p → (s.pools p).closed = true
  writerPool_lt : s.writerPool < s.created

section

variable {origin : Conn → Pool} {s : World} {p : Pool} {c : Conn}

@[simp] theorem mem_own : c ∈ s.own origin p ↔ c ∈ s.live ∧ origin c = p := by simp [own]

theorem own_put (r : PoolState × List Conn) (q : Pool) :
    (s.put p r).own origin q = s.own origin q \ r.2.toFinset := by
  ext c
  simp only [mem_own, put, Finset.mem_sdiff]
  tauto

theorem card_own_put {st : PoolState} {T : List Conn} (hT : T.Nodup)
    (hown : ∀ c ∈ T, c ∈ s.own origin p) (q : Pool) :
    (((s.put p (st, T)).own origin q).card : Int) =
      (s.own origin q).card - if q = p then (T.length : Int) else 0 := by
  rw [own_put]
  by_cases hq : q = p
  · have hsub : T.toFinset ⊆ s.own origin q := by
      intro c hc
      rw [hq]
      exact hown c (List.mem_toFinset.mp hc)
    have hle := Finset.card_le_card hsub
    rw [Finset.card_sdiff_of_subset hsub, List.toFinset_card_of_nodup hT, if_pos hq]
    rw [List.toFinset_card_of_nodup hT] at hle
    omega
  · have hdis : Disjoint (s.own origin q) T.toFinset := by
      rw [Finset.disjoint_left]
      intro c hc hcT
      have hp := (mem_own.mp (hown c (List.mem_toFinset.mp hcT))).2
      exact hq ((mem_own.mp hc).2.symm.trans hp)
    rw [Finset.sdiff_eq_self_of_disjoint hdis, if_neg hq, Int.sub_zero]

def setOpen (pools : Pool → PoolState) (p : Pool) (n : Int) : Pool → PoolState :=
  Function.update pools p { pools p with numOpen := n }

@[simp] theorem idle_setOpen (pools : Pool → PoolState) (n : Int) (q : Pool) :
    (setOpen pools p n q).idle = (pools q).idle := by
  by_cases hq : q = p
  · simp [setOpen, hq]
  · simp [setOpen, hq]

@[simp] theorem closed_setOpen (pools : Pool → PoolState) (n : Int) (q : Pool) :
    (setOpen pools p n q).closed = (pools q).closed := by
  by_cases hq : q = p
  · simp [setOpen, hq]
  · simp [setOpen, hq]

namespace WellFormed

theorem put {st : PoolState} {T : List Conn} (h : s.WellFormed origin) (hT : T.Nodup)
    (hown : ∀ c ∈ T, c ∈ s.own origin p) (hb : ∀ e ∈ s.borrowed, e.1 ∉ T)
    (hn : st.numOpen = (s.pools p).numOpen - T.length)
    (hi : ∀ c ∈ st.idle, c ∈ (s.pools p).idle ∧ c ∉ T) (hnd : st.idle.Nodup)
    (hc : (s.pools p).closed → st.closed) : (s.put p (st, T)).WellFormed origin where
  numOpen_eq q := by
    rw [card_own_put hT hown, ← h.numOpen_eq q]
    by_cases hq : q = p
    · subst hq
      simp [World.put, hn]
    · simp [World.put, hq]
  idle_own q c hcq := by
    rw [own_put, Finset.mem_sdiff, List.mem_toFinset]
    by_cases hq : q = p
    · subst hq
      have hst : c ∈ st.idle := by simpa [World.put] using hcq
      exact ⟨h.idle_own q c (hi c hst).1, (hi c hst).2⟩
    · have hcq' : c ∈ (s.pools q).idle := by simpa [World.put, hq] using hcq
      have hcown := h.idle_own q c hcq'
      refine ⟨hcown, fun hcT => hq ?_⟩
      exact (mem_own.mp hcown).2.symm.trans (mem_own.mp (hown c hcT)).2
  idle_nodup q := by
    by_cases hq : q = p
    · subst hq
      simpa [World.put] using hnd
    · simpa [World.put, hq] using h.idle_nodup q
  borrowed_own e he := by
    rw [own_put, Finset.mem_sdiff, List.mem_toFinset]
    exact ⟨h.borrowed_own e he, hb e he⟩
  borrowed_nodup := h.borrowed_nodup
  borrowed_idle e he q := by
    by_cases hq : q = p
    · subst hq
      intro hcq
      have hst : e.1 ∈ st.idle := by simpa [World.put] using hcq
      exact h.borrowed_idle e he q (hi e.1 hst).1
    · simpa [World.put, hq] using h.borrowed_idle e he q
  origin_lt c hcl := h.origin_lt c (Finset.mem_sdiff.mp hcl).1
  uncreated q hq := by
    by_cases hqp : q = p
    · subst hqp
      simpa [World.put] using hc (h.uncreated q hq)
    · simpa [World.put, hqp] using h.uncreated q hq
  writerPool_lt := h.writerPool_lt

theorem unborrow (h : s.WellFormed origin) (e : Conn × Pool) :
    { s with borrowed := s.borrowed.erase e }.WellFormed origin :=
  { h with
    borrowed_own := fun d hd => h.borrowed_own d (List.mem_of_mem_erase hd)
    borrowed_nodup := h.borrowed_nodup.sublist (List.erase_sublist.map Prod.fst)
    borrowed_idle := fun d hd => h.borrowed_idle d (List.mem_of_mem_erase hd) }

theorem lend (h : s.WellFormed origin) (hc : c ∈ s.own origin p) (hb : ∀ e ∈ s.borrowed, e.1 ≠ c)
    (hi : ∀ q, c ∉ (s.pools q).idle) :
    { s with live := insert c s.live, borrowed := (c, p) :: s.borrowed }.WellFormed origin := by
  rw [Finset.insert_eq_of_mem (mem_own.mp hc).1]
  exact
    { h with
      borrowed_own := List.forall_mem_cons.mpr ⟨hc, h.borrowed_own⟩
      borrowed_nodup :=
        List.nodup_cons.mpr ⟨by simpa using fun q hq => hb (c, q) hq rfl, h.borrowed_nodup⟩
      borrowed_idle := List.forall_mem_cons.mpr ⟨hi, h.borrowed_idle⟩ }

theorem dial (h : s.WellFormed origin) (hc : c ∉ s.live) (ho : origin c = p)
    (hp : (s.pools p).closed = false) : { s with
      pools := setOpen s.pools p ((s.pools p).numOpen + 1)
      live := insert c s.live
      borrowed := (c, p) :: s.borrowed }.WellFormed origin where
  numOpen_eq q := by
    have hq := h.numOpen_eq q
    by_cases hqp : q = p
    · subst hqp
      have hnot : c ∉ s.own origin q := fun hco => hc (mem_own.mp hco).1
      have hown : (s.live.filter (origin · = q)).card + 1 =
          ((insert c s.live).filter (origin · = q)).card := by
        rw [Finset.filter_insert, if_pos ho]
        exact (Finset.card_insert_of_notMem hnot).symm
      simp [setOpen, hq, own, ← hown]
    · have hown : (insert c s.live).filter (origin · = q) = s.live.filter (origin · = q) := by
        rw [Finset.filter_insert, if_neg (fun hcq => hqp (hcq.symm.trans ho))]
      simp [setOpen, hqp, hq, own, hown]
  idle_own q d hd := by
    rw [idle_setOpen] at hd
    have hdo := mem_own.mp (h.idle_own q d hd)
    exact mem_own.mpr ⟨Finset.mem_insert_of_mem hdo.1, hdo.2⟩
  idle_nodup q := by
    rw [idle_setOpen]
    exact h.idle_nodup q
  borrowed_own := by
    refine List.forall_mem_cons.mpr ⟨mem_own.mpr ⟨Finset.mem_insert_self c s.live, ho⟩,
      fun d hd => ?_⟩
    have hdo := mem_own.mp (h.borrowed_own d hd)
    exact mem_own.mpr ⟨Finset.mem_insert_of_mem hdo.1, hdo.2⟩
  borrowed_nodup := by
    refine List.nodup_cons.mpr ⟨fun hcb => ?_, h.borrowed_nodup⟩
    obtain ⟨e, he, hec⟩ := List.mem_map.mp hcb
    have heq : e.1 = c := hec
    exact hc (heq ▸ (mem_own.mp (h.borrowed_own e he)).1)
  borrowed_idle := by
    refine List.forall_mem_cons.mpr ⟨fun q hq => ?_, fun d hd q => ?_⟩
    · rw [idle_setOpen] at hq
      exact hc (mem_own.mp (h.idle_own q c hq)).1
    · rw [idle_setOpen]
      exact h.borrowed_idle d hd q
  origin_lt d hd := by
    cases Finset.mem_insert.mp hd with
    | inl heq =>
      have hlt : p < s.created := by
        by_contra hge
        have hcl := h.uncreated p (Nat.le_of_not_lt hge)
        simp [hp] at hcl
      rw [heq, ho]
      exact hlt
    | inr hdl => exact h.origin_lt d hdl
  uncreated q hq := by
    rw [closed_setOpen]
    exact h.uncreated q hq
  writerPool_lt := h.writerPool_lt

theorem restore (h : s.WellFormed origin) (hc : c ∈ s.own origin p) (hb : ∀ e ∈ s.borrowed, e.1 ≠ c)
    (hi : c ∉ (s.pools p).idle) :
    (s.put p ({ s.pools p with idle := c :: (s.pools p).idle }, [])).WellFormed origin where
  numOpen_eq q := by
    rw [own_put]
    by_cases hq : q = p
    · subst hq
      simpa [World.put] using h.numOpen_eq q
    · simpa [World.put, hq] using h.numOpen_eq q
  idle_own q d hd := by
    rw [own_put]
    by_cases hq : q = p
    · subst hq
      have hd' : d = c ∨ d ∈ (s.pools q).idle := by simpa [World.put] using hd
      cases hd' with
      | inl heq => simpa [heq] using hc
      | inr hdi => simpa using h.idle_own q d hdi
    · have hd' : d ∈ (s.pools q).idle := by simpa [World.put, hq] using hd
      simpa using h.idle_own q d hd'
  idle_nodup q := by
    by_cases hq : q = p
    · subst hq
      simpa [World.put] using ⟨hi, h.idle_nodup q⟩
    · simpa [World.put, hq] using h.idle_nodup q
  borrowed_own d hd := by
    rw [own_put]
    simpa using h.borrowed_own d hd
  borrowed_nodup := h.borrowed_nodup
  borrowed_idle d hd q := by
    have hdi := h.borrowed_idle d hd q
    by_cases hq : q = p
    · subst hq
      simpa [World.put] using ⟨hb d hd, hdi⟩
    · simpa [World.put, hq] using hdi
  origin_lt d hd := h.origin_lt d (Finset.mem_sdiff.mp hd).1
  uncreated q hq := by
    have hcl := h.uncreated q hq
    by_cases hqp : q = p
    · subst hqp
      simpa [World.put] using hcl
    · simpa [World.put, hqp] using hcl
  writerPool_lt := h.writerPool_lt

theorem drop (h : s.WellFormed origin) (hc : c ∈ s.own origin p) (hb : ∀ e ∈ s.borrowed, e.1 ≠ c)
    (hi : c ∉ (s.pools p).idle) : (s.put p ((s.pools p).decOpen, [c])).WellFormed origin := by
  have hpos : 0 < (s.pools p).numOpen := by
    have hcard := Finset.card_pos.mpr ⟨c, hc⟩
    have hn := h.numOpen_eq p
    omega
  have hdec : (s.pools p).decOpen = { s.pools p with numOpen := (s.pools p).numOpen - 1 } := by
    simp [PoolState.decOpen, hpos]
  rw [hdec]
  refine h.put (List.nodup_singleton c) ?_ ?_ rfl ?_ (h.idle_nodup p) id
  · simpa using mem_own.mp hc
  · simpa using hb
  · intro d hd
    have hdc : d ≠ c := fun heq => hi (heq ▸ hd)
    simpa using ⟨hd, hdc⟩

theorem ne_of_mem_erase (h : s.WellFormed origin) (hc : (c, p) ∈ s.borrowed) :
    ∀ e ∈ s.borrowed.erase (c, p), e.1 ≠ c := by
  intro e he hec
  have hmem := List.mem_of_mem_erase he
  have hinj := List.inj_on_of_nodup_map h.borrowed_nodup hmem hc hec
  have hnd : s.borrowed.Nodup := h.borrowed_nodup.of_map
  exact (hnd.mem_erase_iff.mp he).1 hinj

theorem discard (h : s.WellFormed origin) (hc : (c, p) ∈ s.borrowed) :
    (s.discard c p).WellFormed origin :=
  (h.unborrow (c, p)).drop (h.borrowed_own _ hc) (h.ne_of_mem_erase hc) (h.borrowed_idle _ hc p)

theorem release (h : s.WellFormed origin) (hc : (c, p) ∈ s.borrowed) :
    (s.release c p).WellFormed origin := by
  have hfree := h.ne_of_mem_erase hc
  cases hcl : (s.pools p).closed with
  | true =>
    simp only [World.release, PoolState.release, hcl, ↓reduceIte]
    exact (h.unborrow (c, p)).drop (h.borrowed_own _ hc) hfree (h.borrowed_idle _ hc p)
  | false =>
    simp only [World.release, PoolState.release, hcl, Bool.false_eq_true, ↓reduceIte]
    rw [← hcl]
    exact (h.unborrow (c, p)).restore (h.borrowed_own _ hc) hfree (h.borrowed_idle _ hc p)

theorem create (h : s.WellFormed origin) (maxConnections : Int) : { s with
      pools := Function.update s.pools s.created ⟨maxConnections, [], 0, false⟩
      created := s.created + 1
      writerPool := s.created }.WellFormed origin where
  numOpen_eq q := by
    by_cases hq : q = s.created
    · have hnone : s.live.filter (origin · = q) = ∅ := by
        refine Finset.filter_eq_empty_iff.mpr fun c hc ho => ?_
        have hlt : origin c < s.created := h.origin_lt c hc
        rw [ho, hq] at hlt
        exact Nat.lt_irrefl _ hlt
      simp [← hq, own, hnone]
    · simpa [hq, own] using h.numOpen_eq q
  idle_own q c hc := by
    by_cases hq : q = s.created
    · simp [hq] at hc
    · have hc' : c ∈ (s.pools q).idle := by simpa [hq] using hc
      exact h.idle_own q c hc'
  idle_nodup q := by
    by_cases hq : q = s.created
    · simp [hq]
    · simpa [hq] using h.idle_nodup q
  borrowed_own := h.borrowed_own
  borrowed_nodup := h.borrowed_nodup
  borrowed_idle c hc q := by
    by_cases hq : q = s.created
    · simp [hq]
    · simpa [hq] using h.borrowed_idle c hc q
  origin_lt c hc := Nat.lt_succ_of_lt (h.origin_lt c hc)
  uncreated q hq := by
    have hne : q ≠ s.created := by
      intro heq
      rw [heq] at hq
      exact absurd hq (Nat.not_succ_le_self s.created)
    have hq' : s.created ≤ q := Nat.le_of_succ_le hq
    simpa [hne] using h.uncreated q hq'
  writerPool_lt := Nat.lt_succ_self s.created

theorem reload (h : s.WellFormed origin) (maxConnections : Int) :
    (s.reload maxConnections).WellFormed origin := by
  have hclose : (s.put s.writerPool (s.pools s.writerPool).close).WellFormed origin := by
    cases hcl : (s.pools s.writerPool).closed with
    | true =>
      simp only [PoolState.close, hcl, ↓reduceIte]
      refine h.put List.nodup_nil ?_ ?_ ?_ ?_ (h.idle_nodup _) id
      all_goals simp
    | false =>
      simp only [PoolState.close, hcl, Bool.false_eq_true, ↓reduceIte]
      refine h.put (h.idle_nodup _) (h.idle_own _) ?_ rfl ?_ List.nodup_nil ?_
      · exact fun e he => h.borrowed_idle e he _
      · simp
      · simp
  exact hclose.create maxConnections

theorem evict {stale rest : List Conn} (h : s.WellFormed origin)
    (hidle : (s.pools p).idle = stale ++ rest) {idle : List Conn} (hsub : idle.Sublist rest) :
    (s.put p ({ s.pools p with idle := idle, numOpen := (s.pools p).numOpen - stale.length },
      stale)).WellFormed origin := by
  have hnd := h.idle_nodup p
  rw [hidle] at hnd
  obtain ⟨hstale, hrest, hdis⟩ := List.nodup_append'.mp hnd
  have hmem : ∀ c ∈ stale, c ∈ (s.pools p).idle := by
    intro c hc
    rw [hidle]
    exact List.mem_append_left rest hc
  refine h.put hstale (fun c hc => h.idle_own p c (hmem c hc)) ?_ rfl ?_ (hrest.sublist hsub) id
  · exact fun e he hes => h.borrowed_idle e he p (hmem e.1 hes)
  · intro c hc
    have hcr := hsub.subset hc
    refine ⟨?_, fun hcs => hdis hcs hcr⟩
    rw [hidle]
    exact List.mem_append_right stale hcr

theorem acquire {expired : Conn → Bool} {dialled : Option Conn} (h : s.WellFormed origin)
    (hd : ∀ c ∈ dialled, c ∉ s.live ∧ origin c = p) :
    (s.acquire expired dialled p).2.WellFormed origin := by
  have hidle : (s.pools p).idle =
      (s.pools p).idle.takeWhile expired ++ (s.pools p).idle.dropWhile expired :=
    (List.takeWhile_append_dropWhile).symm
  cases hcl : (s.pools p).closed with
  | true =>
    simp only [World.acquire, PoolState.acquire, hcl, ↓reduceIte]
    refine h.put List.nodup_nil ?_ ?_ ?_ ?_ (h.idle_nodup _) id
    all_goals simp
  | false =>
    simp only [World.acquire, PoolState.acquire, hcl, Bool.false_eq_true, ↓reduceIte]
    generalize (s.pools p).idle.takeWhile expired = stale at hidle ⊢
    generalize (s.pools p).idle.dropWhile expired = rest at hidle ⊢
    rw [← hcl]
    cases rest with
    | cons c idle =>
      have hcown : c ∈ s.own origin p := h.idle_own p c (by simp [hidle])
      have hnd := h.idle_nodup p
      simp only [hidle, List.nodup_append', List.nodup_cons, List.disjoint_cons_right] at hnd
      refine (h.evict hidle (List.sublist_cons_self c idle)).lend ?_ ?_ ?_
      · rw [own_put, Finset.mem_sdiff, List.mem_toFinset]
        exact ⟨hcown, hnd.2.2.1⟩
      · intro e he hec
        exact h.borrowed_idle e he p (by simp [hidle, hec])
      · intro q hq
        by_cases hqp : q = p
        · subst hqp
          simp [World.put, hnd.2.1.1] at hq
        · have hq' : c ∈ (s.pools q).idle := by simpa [World.put, hqp] using hq
          exact hqp ((mem_own.mp (h.idle_own q c hq')).2.symm.trans (mem_own.mp hcown).2)
    | nil =>
      have hev := h.evict hidle (List.Sublist.refl [])
      cases dialled with
      | none => simpa using hev
      | some c =>
        obtain ⟨hlive, ho⟩ := hd c rfl
        by_cases hn : (s.pools p).numOpen - (stale.length : Int) < (s.pools p).maxConnections
        · simp only [hn, Option.isSome_some, and_self, ↓reduceIte]
          have hnew :=
          hev.dial (fun hc => hlive (Finset.mem_sdiff.mp hc).1) ho (by simp [World.put, hcl])
          simpa [World.put, setOpen] using hnew
        · simpa [hn] using hev

end WellFormed

theorem acquire_eq {expired : Conn → Bool} {dialled ans : Option Conn} {t : World}
    (ha : s.acquire expired dialled p = (ans, t)) :
    t.borrowed = ans.toList.map (·, p) ++ s.borrowed ∧ t.writerPool = s.writerPool := by
  unfold World.acquire at ha
  generalize (s.pools p).acquire expired dialled = r at ha
  obtain ⟨c, r⟩ := r
  cases c with
  | none | some c =>
    obtain ⟨rfl, rfl⟩ := Prod.mk.inj ha
    exact ⟨rfl, rfl⟩

end

end World

end PgMux.Pools
