import PgMux.PoolAccounts

/-!
# Waiting for a connection

What could be taken from a pool is matched by tokens, by calls about to look and by those about to
send a token, or there are tokens for all who wait. Only the region behind a failed dial, which
frees room and sends nothing, breaks this.
-/

namespace PgMux.PoolCalls

open Pools

def Place.looking : Place → Nat
  | .acquire => 1
  | _ => 0

def Place.signalling : Place → Nat
  | .signal => 1
  | _ => 0

def Place.waiting : Place → Nat
  | .poll | .slow | .parked => 1
  | _ => 0

def count (f : Place → Nat) (calls : Multiset Place) : Nat := (calls.map f).sum

@[simp] theorem count_cons (f : Place → Nat) (p : Place) (calls : Multiset Place) :
    count f (p ::ₘ calls) = f p + count f calls := by
  rw [count, Multiset.map_cons, Multiset.sum_cons]
  rfl

def free (st : PoolState) : Int := st.idle.length + (st.maxConnections - st.numOpen)

def Matched (s : Sys) : Prop :=
  free s.pool ≤ s.tokens + count Place.looking s.calls + count Place.signalling s.calls ∨
    count Place.waiting s.calls ≤ s.tokens + count Place.signalling s.calls

/-- There is a match for one more free connection. -/
def Spare (s : Sys) : Prop :=
  free s.pool < s.tokens + count Place.looking s.calls + count Place.signalling s.calls ∨
    count Place.waiting s.calls ≤ s.tokens + count Place.signalling s.calls

instance (s : Sys) : Decidable (Spare s) := inferInstanceAs (Decidable (_ ∨ _))

section

variable {l : Limits} {s t : Sys}

theorem Accounts.free_le (h : Accounts l s) : free s.pool ≤ l.maxConnections := by
  have hcard := card_owned s
  have hnum := h.numOpen_eq
  have hmax := h.max_eq
  unfold free
  omega

variable {rest : Multiset Place}

theorem Matched.tryAcquire (h : Matched s) (hopen : s.pool.closed = false)
    (hcalls : s.calls = .acquire ::ₘ rest) (expired : Conn → Bool) :
    Matched (s.tryAcquire expired rest) := by
  have htried := tried expired s.pool
  unfold Sys.tryAcquire
  generalize PoolCalls.tryAcquire expired s.pool = r at htried ⊢
  simp only [Matched, free, hcalls, count_cons, Place.looking, Place.signalling,
    Place.waiting] at h ⊢
  cases htried with
  | refused hclosed => simp [hopen] at hclosed
  | got hopen hidle =>
    simp only [hidle, List.length_append, List.length_cons] at h ⊢
    omega
  | mayDial hopen hroom | full hopen hfull =>
    simp only [count_cons, Place.looking, Place.signalling, Place.waiting, List.length_nil]
    omega

theorem Accounts.send (h : Accounts l s) (tokens : Nat) :
    send l tokens = tokens + 1 ∨ free s.pool ≤ send l tokens := by
  have hfree := h.free_le
  unfold PoolCalls.send
  split
  · exact .inl rfl
  · right
    omega

theorem Matched.release (hs : Accounts l s) (h : Matched s) (hopen : s.pool.closed = false)
    {lent : Multiset Conn} {c : Conn} (hlent : s.lent = c ::ₘ lent) :
    Matched (s.release l c lent) := by
  have ht := (hs.release hlent).send s.tokens
  simp only [Matched, Sys.release, PoolState.release, hopen, free, Bool.false_eq_true, ↓reduceIte,
    List.length_cons] at h ht ⊢
  omega

theorem Matched.discarded (hs : Accounts l s) (h : Matched s) {c : Conn}
    (hcalls : s.calls = .discard c ::ₘ rest) :
    Matched { s with pool := s.pool.decOpen, calls := .signal ::ₘ rest } := by
  have hmem : c ∈ s.owned := by simp [Sys.owned_of_calls hcalls, Place.conns]
  rw [hs.decOpen_eq hmem]
  simp only [Matched, uncount, hcalls, free, count_cons, Place.looking, Place.signalling,
    Place.waiting] at h ⊢
  omega

theorem Matched.signal (hs : Accounts l s) (h : Matched s) (hcalls : s.calls = .signal ::ₘ rest) :
    Matched { s with calls := rest, tokens := send l s.tokens } := by
  have ht := hs.send s.tokens
  simp only [Matched, hcalls, count_cons, Place.looking, Place.signalling, Place.waiting] at h ⊢
  omega

theorem free_replenish (minConnections : Int) (dials : Nat) (next : Conn) (st : PoolState) :
    free (replenish minConnections dials next st).1 = free st := by
  induction dials generalizing next st with
  | zero => rfl
  | succ dials ih =>
    unfold replenish
    split
    · rw [ih]
      simp only [free, List.length_cons]
      omega
    · rfl

theorem free_sweep (expired : Conn → Bool) (st : PoolState) :
    free (sweep expired st) = free st := by
  have hlen := (List.filter_append_perm expired st.idle).length_eq
  rw [List.length_append] at hlen
  simp only [sweep, free]
  omega

theorem Matched.healthCheck (h : Matched s) (expired : Conn → Bool) (dials : Nat) :
    Matched (s.healthCheck l expired dials) := by
  unfold Sys.healthCheck
  split
  · exact h
  · simpa only [Matched, free_replenish, free_sweep] using h

theorem Matched.goTo (h : Matched s) {p q : Place} (hcalls : s.calls = p ::ₘ rest)
    (hlooking : q.looking = p.looking) (hsignalling : q.signalling = p.signalling)
    (hwaiting : q.waiting = p.waiting) : Matched { s with calls := q ::ₘ rest } := by
  simpa only [Matched, hcalls, count_cons, hlooking, hsignalling, hwaiting] using h

theorem Matched.step (hs : Accounts l s) (h : Matched s) (hopen : s.pool.closed = false)
    (hstep : Step l Spare s t) : t.pool.closed = true ∨ Matched t := by
  cases hstep with
  | close => exact .inl (by simp [Sys.close, PoolState.close, hopen])
  | tryAcquire hcalls expired => exact .inr (h.tryAcquire hopen hcalls expired)
  | recheck hcalls =>
    right
    simp only [Matched, Sys.recheck, hopen, hcalls, count_cons, Place.looking, Place.signalling,
      Place.waiting, Bool.false_eq_true, ↓reduceIte] at h ⊢
    omega
  | release hlent => exact .inr (h.release hs hopen hlent)
  | discarded hcalls => exact .inr (h.discarded hs hcalls)
  | signal hcalls => exact .inr (h.signal hs hcalls)
  | healthCheck expired dials => exact .inr (h.healthCheck expired dials)
  | uncount hcalls hok =>
    right
    simp only [Matched, Spare, uncount, free, hcalls, count_cons, Place.looking, Place.signalling,
      Place.waiting] at hok ⊢
    omega
  | receive hp hcalls htoken | cancel hp hcalls =>
    right
    obtain rfl | rfl := hp
    all_goals
      simp only [Matched, hcalls, count_cons, Place.looking, Place.signalling, Place.waiting] at h ⊢
      omega
  | call =>
    right
    simp only [Matched, count_cons, Place.looking, Place.signalling, Place.waiting] at h ⊢
    omega
  | discard hlent =>
      exact .inr (by simpa [Matched, Place.looking, Place.signalling, Place.waiting] using h)
  | dialled hcalls | dialFailed hcalls | miss hcalls htoken
  | park hcalls => exact .inr (h.goTo hcalls rfl rfl rfl)

theorem matched_of_reachable (h : Reachable l Spare s) : s.pool.closed = true ∨ Matched s := by
  induction h with
  | refl => exact .inr (.inr (Nat.zero_le _))
  | @tail s t hreach hstep ih =>
    obtain hclosed | hmatched := ih
    · exact .inl (step_of_closed hclosed hstep).1
    · cases hopen : s.pool.closed with
      | true => exact .inl (step_of_closed hopen hstep).1
      | false => exact hmatched.step (accounts_of_reachable hreach) hopen hstep

end

def Quiescent (s : Sys) : Prop := (∀ p ∈ s.calls, p = .parked) ∧ s.tokens = 0

theorem count_eq_zero {f : Place → Nat} {calls : Multiset Place}
    (hparked : ∀ p ∈ calls, p = .parked) (hf : f .parked = 0) : count f calls = 0 := by
  refine Multiset.sum_eq_zero fun n hn => ?_
  obtain ⟨p, hp, rfl⟩ := Multiset.mem_map.mp hn
  rw [hparked p hp, hf]

/-- An open pool in which nothing happens any more has nothing to give to those who wait. -/
theorem no_lost_wakeup {l : Limits} {s : Sys} (h : Reachable l Spare s)
    (hopen : s.pool.closed = false) (hquiet : Quiescent s) (hparked : .parked ∈ s.calls) :
    s.pool.idle = [] ∧ s.pool.numOpen = l.maxConnections := by
  have haccounts := accounts_of_reachable h
  have hle := haccounts.numOpen_le
  have hmax := haccounts.max_eq
  obtain hclosed | hmatched := matched_of_reachable h
  · simp [hopen] at hclosed
  obtain ⟨rest, hcalls⟩ := Multiset.exists_cons_of_mem hparked
  have hlooking : count Place.looking s.calls = 0 := count_eq_zero hquiet.1 rfl
  have hsignalling : count Place.signalling s.calls = 0 := count_eq_zero hquiet.1 rfl
  have hwaiting : 0 < count Place.waiting s.calls := by
    rw [hcalls, count_cons, Place.waiting]
    omega
  have htokens := hquiet.2
  have hfree : free s.pool ≤ 0 := by
    unfold Matched at hmatched
    omega
  unfold free at hfree
  refine ⟨List.eq_nil_of_length_eq_zero ?_, ?_⟩
  · omega
  · omega

theorem no_lost_wakeup_lent :
    ∃ s, Reachable single Spare s ∧ s.lent = {0} ∧ s.pool.numOpen = 1 := by
  have hrun : ∃ s, Reachable single Spare s ∧ s.lent = {0} ∧ s.pool.closed = false ∧
      s.calls = {.parked} ∧ s.tokens = 0 := by
    refine ⟨_, .tail (.tail (.tail (.tail (.tail (.tail (.tail (.tail .refl .call)
      (@Step.tryAcquire _ _ _ 0 rfl fun _ => false)) (@Step.dialled _ _ _ 0 rfl))
        (@Step.recheck _ _ _ 0 0 rfl)) .call)
      (@Step.tryAcquire _ _ _ 0 rfl fun _ => false)) (@Step.miss _ _ _ 0 rfl rfl))
        (@Step.park _ _ _ 0 rfl), rfl, rfl, rfl, rfl⟩
  obtain ⟨s, hreach, hlent, hopen, hcalls, htokens⟩ := hrun
  have hquiet : Quiescent s := ⟨by simp [hcalls], htokens⟩
  exact ⟨s, hreach, hlent, (no_lost_wakeup hreach hopen hquiet (by simp [hcalls])).2⟩

theorem wakeup_lost_failed_dial :
    ∃ s, Reachable single (fun _ => True) s ∧ s.pool.closed = false ∧ Quiescent s ∧
    .parked ∈ s.calls ∧ s.pool.numOpen = 0 ∧ single.maxConnections = 1 := by
  have hrun : ∃ s, Reachable single (fun _ => True) s ∧ s.pool.closed = false ∧
      s.calls = {.parked} ∧ s.tokens = 0 ∧ s.pool.numOpen = 0 := by
    refine ⟨_, .tail (.tail (.tail (.tail (.tail (.tail (.tail (.tail .refl .call)
      (@Step.tryAcquire _ _ _ 0 rfl fun _ => false)) .call)
        (@Step.tryAcquire _ _ _ {.dial} rfl fun _ => false))
      (@Step.miss _ _ _ {.dial} rfl rfl)) (@Step.park _ _ _ {.dial} rfl))
        (@Step.dialFailed _ _ _ {.parked} ?_))
      (@Step.uncount _ _ _ {.parked} rfl trivial), rfl, rfl, rfl, rfl⟩
    exact Multiset.cons_swap Place.parked Place.dial 0
  obtain ⟨s, hreach, hopen, hcalls, htokens, hnum⟩ := hrun
  exact ⟨s, hreach, hopen, ⟨by simp [hcalls], htokens⟩, by simp [hcalls], hnum, rfl⟩

end PgMux.PoolCalls
