import Mathlib.Tactic.Abel
import PgMux.PoolCalls

/-!
# The accounts of a pool

What a pool counts as open is idle, held by a caller, on its way into one of its functions, or being
dialled. One step keeps the accounts, so every interleaving does.
-/

namespace PgMux.PoolCalls

open Pools

def Place.conns : Place → Multiset Conn
  | .dialled c | .discard c => {c}
  | _ => 0

def Place.pending : Place → Nat
  | .dial | .dialFailed => 1
  | _ => 0

variable {p : Place} {rest : Multiset Place}

namespace Sys

def owned (s : Sys) : Multiset Conn := s.pool.idle + s.lent + s.calls.bind Place.conns

def pending (s : Sys) : Nat := (s.calls.map Place.pending).sum

theorem owned_of_calls {s : Sys} (h : s.calls = p ::ₘ rest) :
    s.owned = s.pool.idle + s.lent + p.conns + rest.bind Place.conns := by
  rw [owned, h, Multiset.cons_bind, add_assoc _ p.conns]

theorem pending_of_calls {s : Sys} (h : s.calls = p ::ₘ rest) :
    s.pending = p.pending + (rest.map Place.pending).sum := by
  rw [pending, h, Multiset.map_cons, Multiset.sum_cons]

end Sys

structure Accounts (l : Limits) (s : Sys) : Prop where
  max_eq : s.pool.maxConnections = l.maxConnections
  numOpen_eq : s.pool.numOpen = s.owned.card + s.pending
  numOpen_le : s.pool.numOpen ≤ l.maxConnections
  nodup : s.owned.Nodup
  lt_next : ∀ c ∈ s.owned, c < s.next
  dead_or_owned : ∀ c < s.next, c ∈ s.dead ∨ c ∈ s.owned
  idle_nil : s.pool.closed = true → s.pool.idle = []
  discard_dead : ∀ c, .discard c ∈ s.calls → c ∈ s.dead

section

variable {l : Limits} {s t : Sys}

theorem accounts_start (l : Limits) : Accounts l (start l) := by
  have howned : (start l).owned = Multiset.range l.minConnections := by
    simp [Sys.owned, start, Multiset.range]
  refine ⟨rfl, ?_, ?_, ?_, ?_, ?_, nofun, fun c hc => absurd hc (Multiset.notMem_zero _)⟩
  · rw [howned, Multiset.card_range]
    simp [Sys.pending, start]
  · exact Int.ofNat_le.mpr l.min_le_max
  · rw [howned]
    exact Multiset.nodup_range _
  · rw [howned]
    exact fun c hc => Multiset.mem_range.mp hc
  · rw [howned]
    exact fun c hc => .inr (Multiset.mem_range.mpr hc)

theorem Accounts.shrink (h : Accounts l s) (gone : Multiset Conn)
    (howned : s.owned = gone + t.owned) (hgone : ∀ c ∈ gone, c ∈ t.dead)
    (hdead : ∀ c ∈ s.dead, c ∈ t.dead) (hnext : t.next = s.next)
    (hmax : t.pool.maxConnections = s.pool.maxConnections)
    (hopen : t.pool.numOpen - t.pending = s.pool.numOpen - s.pending - gone.card)
    (hle : t.pool.numOpen ≤ l.maxConnections) (hidle : t.pool.closed = true → t.pool.idle = [])
    (hdiscard : ∀ c, .discard c ∈ t.calls → .discard c ∈ s.calls ∨ c ∈ t.dead) : Accounts l t where
  max_eq := hmax.trans h.max_eq
  numOpen_eq := by
    have hcard := congrArg Multiset.card howned
    rw [Multiset.card_add] at hcard
    have hnum := h.numOpen_eq
    omega
  numOpen_le := hle
  nodup := (Multiset.nodup_add.mp (howned ▸ h.nodup)).2.1
  lt_next c hc := hnext ▸ h.lt_next c (howned ▸ Multiset.mem_add.mpr (.inr hc))
  dead_or_owned c hc := by
    obtain hmem | hmem := h.dead_or_owned c (hnext ▸ hc)
    · exact .inl (hdead c hmem)
    · rw [howned, Multiset.mem_add] at hmem
      exact hmem.imp_left (hgone c)
  idle_nil := hidle
  discard_dead c hc := (hdiscard c hc).elim (fun hc => hdead c (h.discard_dead c hc)) id

theorem Accounts.grow (h : Accounts l s) (howned : t.owned = s.next ::ₘ s.owned)
    (hdead : t.dead = s.dead) (hnext : t.next = s.next + 1)
    (hmax : t.pool.maxConnections = s.pool.maxConnections)
    (hopen : t.pool.numOpen - t.pending = s.pool.numOpen - s.pending + 1)
    (hle : t.pool.numOpen ≤ l.maxConnections) (hidle : t.pool.closed = true → t.pool.idle = [])
    (hdiscard : ∀ c, .discard c ∈ t.calls → .discard c ∈ s.calls ∨ c ∈ t.dead) : Accounts l t where
  max_eq := hmax.trans h.max_eq
  numOpen_eq := by
    rw [howned, Multiset.card_cons]
    have hnum := h.numOpen_eq
    omega
  numOpen_le := hle
  nodup := by
    rw [howned]
    exact Multiset.nodup_cons.mpr ⟨fun hmem => Nat.lt_irrefl _ (h.lt_next _ hmem), h.nodup⟩
  lt_next c hc := by
    rw [howned, Multiset.mem_cons] at hc
    rw [hnext]
    obtain rfl | hc := hc
    · exact Nat.lt_succ_self _
    · exact Nat.lt_succ_of_lt (h.lt_next c hc)
  dead_or_owned c hc := by
    rw [howned, hdead, Multiset.mem_cons]
    rw [hnext] at hc
    obtain rfl | hlt := Nat.lt_succ_iff_lt_or_eq.mp hc |>.symm
    · exact .inr (.inl rfl)
    · exact (h.dead_or_owned c hlt).imp_right .inr
  idle_nil := hidle
  discard_dead c hc := (hdiscard c hc).elim (fun hc => hdead ▸ h.discard_dead c hc) id

theorem Accounts.move (h : Accounts l s) {calls : Multiset Place} (tokens : Nat)
    (hconns : calls.bind Place.conns = s.calls.bind Place.conns)
    (hpending : (calls.map Place.pending).sum = (s.calls.map Place.pending).sum)
    (hdiscard : ∀ c, .discard c ∈ calls → .discard c ∈ s.calls) :
    Accounts l { s with calls := calls, tokens := tokens } := by
  have howned : s.owned = 0 + { s with calls := calls, tokens := tokens }.owned := by
    simp [Sys.owned, hconns]
  refine h.shrink 0 howned (by simp) (fun _ hc => hc) rfl rfl ?_ h.numOpen_le h.idle_nil fun c hc =>
    .inl (hdiscard c hc)
  simp [Sys.pending, hpending]

theorem Accounts.goTo (h : Accounts l s) {q : Place} (hcalls : s.calls = p ::ₘ rest) (tokens : Nat)
    (hconns : q.conns = p.conns) (hpending : q.pending = p.pending)
    (hdiscard : ∀ c, .discard c ≠ q) :
    Accounts l { s with calls := q ::ₘ rest, tokens := tokens } := by
  refine h.move tokens ?_ ?_ fun c hc => ?_
  · rw [hcalls, Multiset.cons_bind, Multiset.cons_bind, hconns]
  · rw [hcalls, Multiset.map_cons, Multiset.map_cons, Multiset.sum_cons, Multiset.sum_cons,
      hpending]
  · rw [hcalls]
    exact Multiset.mem_cons_of_mem ((Multiset.mem_cons.mp hc).resolve_left (hdiscard c))

theorem Accounts.leave (h : Accounts l s) (hcalls : s.calls = p ::ₘ rest) (tokens : Nat)
    (hconns : p.conns = 0) (hpending : p.pending = 0) :
    Accounts l { s with calls := rest, tokens := tokens } := by
  refine h.move tokens ?_ ?_ fun c hc => ?_
  · rw [hcalls, Multiset.cons_bind, hconns, zero_add]
  · rw [hcalls, Multiset.map_cons, Multiset.sum_cons, hpending, zero_add]
  · rw [hcalls]
    exact Multiset.mem_cons_of_mem hc

theorem Accounts.tryAcquire (h : Accounts l s) (hcalls : s.calls = .acquire ::ₘ rest)
    (expired : Conn → Bool) : Accounts l (s.tryAcquire expired rest) := by
  have hle := h.numOpen_le
  have hmax := h.max_eq
  unfold Sys.tryAcquire
  have htried := tried expired s.pool
  generalize PoolCalls.tryAcquire expired s.pool = r at htried ⊢
  cases htried with
  | refused hclosed =>
    exact h.leave hcalls s.tokens rfl rfl
  | @got hopen stale idle c hidle =>
    refine h.shrink stale ?_ (by simp +contextual)
      (by simp +contextual) rfl rfl ?_ ?_ ?_ (by simp +contextual [hcalls])
    · rw [Sys.owned_of_calls hcalls, hidle]
      simp only [Sys.owned, Place.conns, ← Multiset.coe_add, ← Multiset.cons_coe,
        ← Multiset.singleton_add]
      abel
    · rw [Sys.pending_of_calls hcalls]
      simp only [Sys.pending, Place.pending, Multiset.coe_card]
      omega
    · dsimp only
      omega
    · simp [hopen]
  | mayDial hopen hroom | full hopen hfull =>
    refine h.shrink s.pool.idle ?_ (by simp +contextual)
      (by simp +contextual) rfl rfl ?_ ?_ (fun _ => rfl)
      (by simp +contextual [hcalls])
    · rw [Sys.owned_of_calls hcalls, Sys.owned_of_calls rfl]
      simp only [Place.conns, Multiset.coe_nil]
      abel
    · rw [Sys.pending_of_calls hcalls, Sys.pending_of_calls rfl]
      simp only [Place.pending, Multiset.coe_card]
      omega
    · dsimp only
      omega

variable {c : Conn}

theorem Accounts.numOpen_pos (h : Accounts l s) (hc : c ∈ s.owned) : 0 < s.pool.numOpen := by
  have hcard := Multiset.card_pos_iff_exists_mem.mpr ⟨c, hc⟩
  have hnum := h.numOpen_eq
  omega

theorem Accounts.decOpen_eq (h : Accounts l s) (hc : c ∈ s.owned) :
    s.pool.decOpen = uncount s.pool :=
  if_pos (h.numOpen_pos hc)

theorem Accounts.recheck (h : Accounts l s) (hcalls : s.calls = .dialled c ::ₘ rest) :
    Accounts l (s.recheck c rest) := by
  have hle := h.numOpen_le
  unfold Sys.recheck
  split
  · refine h.shrink {c} ?_ (by simp)
      (by simp +contextual) rfl rfl ?_ ?_ h.idle_nil (by simp +contextual [hcalls])
    · rw [Sys.owned_of_calls hcalls]
      simp only [Sys.owned, Place.conns, uncount]
      abel
    · rw [Sys.pending_of_calls hcalls]
      simp only [Sys.pending, Place.pending, uncount, Multiset.card_singleton]
      omega
    · simp only [uncount]
      omega
  · refine h.shrink 0 ?_ (by simp)
      (by simp) rfl rfl ?_ h.numOpen_le h.idle_nil (by simp +contextual [hcalls])
    · rw [Sys.owned_of_calls hcalls]
      simp only [Sys.owned, Place.conns, ← Multiset.singleton_add]
      abel
    · rw [Sys.pending_of_calls hcalls]
      simp only [Sys.pending, Place.pending, Multiset.card_zero]
      omega

theorem Accounts.release (h : Accounts l s) {lent : Multiset Conn} (hlent : s.lent = c ::ₘ lent) :
    Accounts l (s.release l c lent) := by
  have hle := h.numOpen_le
  have hmem : c ∈ s.owned := by simp [Sys.owned, hlent]
  unfold Sys.release PoolState.release
  cases hclosed : s.pool.closed with
  | true =>
    simp only [↓reduceIte, h.decOpen_eq hmem]
    refine h.shrink {c} ?_ (by simp)
      (by simp +contextual) rfl rfl ?_ ?_ h.idle_nil (by simp +contextual)
    · simp only [Sys.owned, hlent, uncount, ← Multiset.singleton_add]
      abel
    · simp only [Sys.pending, uncount, Multiset.card_singleton]
      omega
    · simp only [uncount]
      omega
  | false =>
    simp only [Bool.false_eq_true, ↓reduceIte]
    refine h.shrink 0 ?_ (by simp) (by simp) rfl rfl ?_ h.numOpen_le (by simp) (by simp +contextual)
    · simp only [Sys.owned, hlent, ← Multiset.cons_coe, ← Multiset.singleton_add]
      abel
    · simp [Sys.pending]

theorem Accounts.discard (h : Accounts l s) {lent : Multiset Conn} (hlent : s.lent = c ::ₘ lent) :
    Accounts l { s with calls := .discard c ::ₘ s.calls, lent := lent, dead := c :: s.dead } := by
  refine h.shrink 0 ?_ (by simp) (by simp +contextual) rfl rfl ?_ h.numOpen_le h.idle_nil ?_
  · simp only [Sys.owned, hlent, Multiset.cons_bind, Place.conns]
    simp only [← Multiset.singleton_add]
    abel
  · simp [Sys.pending, Place.pending]
  · intro d hd
    obtain heq | hd := Multiset.mem_cons.mp hd
    · obtain rfl := Place.discard.inj heq
      exact .inr List.mem_cons_self
    · exact .inl hd

theorem Accounts.discarded (h : Accounts l s) (hcalls : s.calls = .discard c ::ₘ rest) :
    Accounts l { s with pool := s.pool.decOpen, calls := .signal ::ₘ rest } := by
  have hle := h.numOpen_le
  have hmem : c ∈ s.owned := by simp [Sys.owned_of_calls hcalls, Place.conns]
  have hdead : c ∈ s.dead := h.discard_dead c (by simp [hcalls])
  rw [h.decOpen_eq hmem]
  refine h.shrink {c} ?_ (by simpa using hdead)
    (by simp) rfl rfl ?_ ?_ h.idle_nil (by simp +contextual [hcalls])
  · rw [Sys.owned_of_calls hcalls, Sys.owned_of_calls rfl]
    simp only [Place.conns, uncount]
    abel
  · rw [Sys.pending_of_calls hcalls, Sys.pending_of_calls rfl]
    simp only [Place.pending, uncount, Multiset.card_singleton]
    omega
  · simp only [uncount]
    omega

theorem Accounts.close (h : Accounts l s) : Accounts l s.close := by
  have hle := h.numOpen_le
  unfold Sys.close PoolState.close
  cases hclosed : s.pool.closed with
  | true =>
    exact h
  | false =>
    simp only [Bool.false_eq_true, ↓reduceIte]
    refine h.shrink s.pool.idle ?_ (by simp +contextual)
      (by simp +contextual) rfl rfl ?_ ?_ (fun _ => rfl)
      (by simp +contextual)
    · simp only [Sys.owned, Multiset.coe_nil]
      abel
    · simp only [Sys.pending, Multiset.coe_card]
      omega
    · dsimp only
      omega

theorem Accounts.replenish (h : Accounts l s) (hopen : s.pool.closed = false) (dials : Nat) :
    Accounts l { s with
      pool := (replenish l.minConnections dials s.next s.pool).1
      next := (replenish l.minConnections dials s.next s.pool).2 } := by
  induction dials generalizing s with
  | zero => exact h
  | succ dials ih =>
    unfold PoolCalls.replenish
    split
    · rename_i hlow
      have hmin := l.min_le_max
      refine ih (s := { s with
        pool := { s.pool with idle := s.next :: s.pool.idle, numOpen := s.pool.numOpen + 1 }
        next := s.next + 1 }) ?_ hopen
      refine h.grow ?_ rfl rfl rfl ?_ ?_ ?_ (by simp +contextual)
      · simp only [Sys.owned, ← Multiset.cons_coe, ← Multiset.singleton_add]
        abel
      · simp only [Sys.pending]
        omega
      · dsimp only
        omega
      · simp [hopen]
    · exact h

theorem Accounts.sweep (h : Accounts l s) (hopen : s.pool.closed = false) (expired : Conn → Bool) :
    Accounts l { s with
      pool := sweep expired s.pool, dead := s.pool.idle.filter expired ++ s.dead } := by
  have hle := h.numOpen_le
  refine h.shrink (s.pool.idle.filter expired) ?_ (by simp +contextual)
    (by simp +contextual) rfl rfl ?_ ?_ ?_
    (by simp +contextual)
  · have hsplit : (s.pool.idle : Multiset Conn) =
        (s.pool.idle.filter expired : Multiset Conn) + (s.pool.idle.filter (!expired ·) :
          Multiset Conn) := by
      rw [Multiset.coe_add, Multiset.coe_eq_coe]
      exact (List.filter_append_perm expired s.pool.idle).symm
    simp only [Sys.owned, PoolCalls.sweep, hsplit]
    abel
  · simp only [Sys.pending, PoolCalls.sweep, Multiset.coe_card]
    omega
  · simp only [PoolCalls.sweep]
    omega
  · simp [PoolCalls.sweep, hopen]

theorem Accounts.healthCheck (h : Accounts l s) (expired : Conn → Bool) (dials : Nat) :
    Accounts l (s.healthCheck l expired dials) := by
  unfold Sys.healthCheck
  split
  · exact h
  · rename_i hopen
    rw [Bool.not_eq_true] at hopen
    exact (h.sweep hopen expired).replenish hopen dials

theorem Accounts.dialled (h : Accounts l s) (hcalls : s.calls = .dial ::ₘ rest) :
    Accounts l { s with calls := .dialled s.next ::ₘ rest, next := s.next + 1 } := by
  refine h.grow ?_ rfl rfl rfl ?_ h.numOpen_le h.idle_nil (by simp +contextual [hcalls])
  · rw [Sys.owned_of_calls hcalls, Sys.owned_of_calls rfl]
    simp only [Place.conns, ← Multiset.singleton_add]
    abel
  · rw [Sys.pending_of_calls hcalls, Sys.pending_of_calls rfl]
    simp only [Place.pending]
    omega

theorem Accounts.uncount (h : Accounts l s) (hcalls : s.calls = .dialFailed ::ₘ rest) :
    Accounts l { s with pool := uncount s.pool, calls := rest } := by
  have hle := h.numOpen_le
  refine h.shrink 0 ?_ (by simp) (by simp) rfl rfl ?_ ?_ h.idle_nil (by simp +contextual [hcalls])
  · rw [Sys.owned_of_calls hcalls]
    simp only [Sys.owned, Place.conns, PoolCalls.uncount]
    abel
  · rw [Sys.pending_of_calls hcalls]
    simp only [Sys.pending, Place.pending, PoolCalls.uncount, Multiset.card_zero]
    omega
  · simp only [PoolCalls.uncount]
    omega

theorem Accounts.step {ok : Sys → Prop} (h : Accounts l s) (hstep : Step l ok s t) :
    Accounts l t := by
  cases hstep with
  | call => exact h.move s.tokens (by simp [Place.conns]) (by simp [Place.pending]) (by simp)
  | tryAcquire hcalls expired => exact h.tryAcquire hcalls expired
  | dialled hcalls => exact h.dialled hcalls
  | dialFailed hcalls | miss hcalls htoken
  | park hcalls => exact h.goTo hcalls s.tokens rfl rfl nofun
  | uncount hcalls hok => exact h.uncount hcalls
  | recheck hcalls => exact h.recheck hcalls
  | receive hp hcalls htoken =>
    obtain rfl | rfl := hp
    · exact h.goTo hcalls (s.tokens - 1) rfl rfl nofun
    · exact h.goTo hcalls (s.tokens - 1) rfl rfl nofun
  | cancel hp hcalls =>
    obtain rfl | rfl := hp
    · exact h.leave hcalls s.tokens rfl rfl
    · exact h.leave hcalls s.tokens rfl rfl
  | release hlent => exact h.release hlent
  | discard hlent => exact h.discard hlent
  | discarded hcalls => exact h.discarded hcalls
  | signal hcalls => exact h.leave hcalls (send l s.tokens) rfl rfl
  | healthCheck expired dials => exact h.healthCheck expired dials
  | close => exact h.close

theorem accounts_of_reachable {ok : Sys → Prop} (h : Reachable l ok s) : Accounts l s := by
  induction h with
  | refl => exact accounts_start l
  | tail _ hstep ih => exact ih.step hstep

theorem step_of_closed {ok : Sys → Prop} (hclosed : s.pool.closed = true) (hstep : Step l ok s t) :
    t.pool.closed = true ∧ t.lent ≤ s.lent := by
  cases hstep with
  | @tryAcquire rest hcalls expired => simp [Sys.tryAcquire, tryAcquire, hclosed]
  | recheck hcalls => simp [Sys.recheck, uncount, hclosed]
  | @release lent c hlent =>
    have hdec : s.pool.decOpen.closed = true := by
      unfold PoolState.decOpen
      split
      · exact hclosed
      · exact hclosed
    simp [Sys.release, PoolState.release, hclosed, hdec, hlent, Multiset.le_cons_self]
  | @discard lent c hlent => exact ⟨hclosed, hlent ▸ Multiset.le_cons_self lent c⟩
  | discarded hcalls =>
    refine ⟨?_, le_rfl⟩
    unfold PoolState.decOpen
    split
    · exact hclosed
    · exact hclosed
  | healthCheck expired dials => simp [Sys.healthCheck, hclosed]
  | close => simp [Sys.close, PoolState.close, hclosed]
  | _ => exact ⟨hclosed, le_rfl⟩

/-! ## Idle, borrowed and being dialled -/

def Place.borrowed : Place → Multiset Conn
  | .discard c => {c}
  | _ => 0

def Place.dialling : Place → Nat
  | .dial | .dialFailed | .dialled _ => 1
  | _ => 0

def Sys.borrowed (s : Sys) : Multiset Conn := s.lent + s.calls.bind Place.borrowed

def Sys.dialling (s : Sys) : Nat := (s.calls.map Place.dialling).sum

theorem card_conns (p : Place) : p.conns.card + p.pending = p.borrowed.card + p.dialling := by
  cases p
  all_goals rfl

theorem borrowed_le_conns (p : Place) : p.borrowed ≤ p.conns := by
  cases p with
  | dialled c => exact Multiset.zero_le _
  | _ => exact le_rfl

theorem card_owned (s : Sys) :
    s.owned.card + s.pending = s.pool.idle.length + s.borrowed.card + s.dialling := by
  have hcalls : (s.calls.bind Place.conns).card + (s.calls.map Place.pending).sum =
      (s.calls.bind Place.borrowed).card + (s.calls.map Place.dialling).sum := by
    rw [Multiset.card_bind, Multiset.card_bind, ← Multiset.sum_map_add, ← Multiset.sum_map_add]
    exact congrArg Multiset.sum (Multiset.map_congr rfl fun p _ => card_conns p)
  simp only [Sys.owned, Sys.pending, Sys.borrowed, Sys.dialling, Multiset.card_add,
    Multiset.coe_card]
  omega

theorem bind_borrowed_le (calls : Multiset Place) :
    calls.bind Place.borrowed ≤ calls.bind Place.conns := by
  induction calls using Multiset.induction_on with
  | empty => simp
  | cons p calls ih =>
    rw [Multiset.cons_bind, Multiset.cons_bind]
    exact add_le_add (borrowed_le_conns p) ih

theorem idle_add_borrowed_le (s : Sys) : (s.pool.idle : Multiset Conn) + s.borrowed ≤ s.owned := by
  rw [Sys.borrowed, ← add_assoc]
  exact add_le_add le_rfl (bind_borrowed_le s.calls)

/-- The pool counts what is idle, borrowed or being dialled, within its limit; a closed one hands
out nothing. -/
theorem pool_accounts {l : Limits} {s : Sys} (h : Reachable l (fun _ => True) s) :
    s.pool.numOpen = s.pool.idle.length + s.borrowed.card + s.dialling ∧
      0 ≤ s.pool.numOpen ∧ s.pool.numOpen ≤ l.maxConnections ∧
      ((s.pool.idle : Multiset Conn) + s.borrowed).Nodup ∧
      (s.pool.closed = true →
        s.pool.idle = [] ∧ (∀ t, Step l (fun _ => True) s t → t.pool.closed = true ∧
          t.lent ≤ s.lent) ∧ ∀ c < s.next, c ∈ s.dead ∨ c ∈ s.lent ∨ .dialled c ∈ s.calls) := by
  have haccounts := accounts_of_reachable h
  have hnum := haccounts.numOpen_eq
  have hcard := card_owned s
  refine ⟨by omega, by omega, haccounts.numOpen_le, ?_,
    fun hclosed => ⟨haccounts.idle_nil hclosed, ?_, fun c hc => ?_⟩⟩
  · exact Multiset.nodup_of_le (idle_add_borrowed_le s) haccounts.nodup
  · exact fun t hstep => step_of_closed hclosed hstep
  · obtain hdead | howned := haccounts.dead_or_owned c hc
    · exact .inl hdead
    · rw [Sys.owned, haccounts.idle_nil hclosed, Multiset.coe_nil, zero_add, Multiset.mem_add,
        Multiset.mem_bind] at howned
      obtain hlent | ⟨p, hp, hmem⟩ := howned
      · exact .inr (.inl hlent)
      · cases p with
        | dialled d =>
          obtain rfl := Multiset.mem_singleton.mp hmem
          exact .inr (.inr hp)
        | discard d =>
          obtain rfl := Multiset.mem_singleton.mp hmem
          exact .inl (haccounts.discard_dead c hp)
        | _ => exact absurd hmem (Multiset.notMem_zero c)

end

def single : Limits := ⟨0, 1, Nat.zero_le 1⟩

theorem pool_accounts_closed :
    ∃ s, Reachable single (fun _ => True) s ∧ s.pool.closed = true ∧ s.lent = {0} ∧
    s.pool.numOpen = s.pool.idle.length + s.borrowed.card + s.dialling := by
  have hrun : ∃ s, Reachable single (fun _ => True) s ∧ s.pool.closed = true ∧ s.lent = {0} := by
    refine ⟨_,
      .tail (.tail (.tail (.tail (.tail .refl .call) (@Step.tryAcquire _ _ _ 0 rfl fun _ => false))
      (@Step.dialled _ _ _ 0 rfl)) (@Step.recheck _ _ _ 0 0 rfl)) .close, ?_, ?_⟩
    · rfl
    · rfl
  obtain ⟨s, hreach, hclosed, hlent⟩ := hrun
  exact ⟨s, hreach, hclosed, hlent, (pool_accounts hreach).1⟩

end PgMux.PoolCalls
