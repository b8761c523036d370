import PgMux.Balancer
import PgMux.Runs

/-!
# The balancer's state for each address

A ledger keeps one entry for each address of the current list. As long as no list introduces an
address twice, every object of the balancer says what the ledger says about its address.
-/

namespace PgMux.Balancer

inductive Change (α : Type) where
  | updateBackends (addrs : List α)
  | markUnhealthy (addr : α)
  | setReplayLSN (addr : α) (lsn : Nat)
  | checkBackends (dials : α → Bool)
  | nextWithLSN (minLSN : Nat)

structure Record where
  marked : Bool
  lsn : Nat
  deriving DecidableEq

abbrev Ledger (α : Type) := α → Option Record

variable {α : Type}

def Ledger.set (l : Ledger α) (here : α → Bool) (f : Record → Record) : Ledger α :=
  fun a => if here a then (l a).map f else l a

def Backend.entry (b : Backend α) : Record := ⟨!b.healthy, b.replayLSN⟩

structure Kept (l : Ledger α) (r : RoundRobin α) : Prop where
  entry : ∀ b ∈ r.backends, l b.addr = some b.entry
  absent : ∀ a, a ∉ r.backends.map Backend.addr → l a = none
  one : ∀ b ∈ r.backends, ∀ b' ∈ r.backends, b.addr = b'.addr ↔ b.ref = b'.ref
  old : ∀ b ∈ r.backends, b.ref < r.fresh

variable {l : Ledger α} {r : RoundRobin α} {addrs : List α} {a : α}

theorem Ledger.set_some {e : Record} (h : l a = some e) (here : α → Bool) (f : Record → Record) :
    l.set here f a = some (if here a then f e else e) := by
  rw [Ledger.set, h]
  split <;> rfl

theorem Kept.set (h : Kept l r) {here : α → Bool} {f : Record → Record} {g : Backend α → Backend α}
    (hsame : ∀ b, (g b).ref = b.ref ∧ (g b).addr = b.addr)
    (hg : ∀ b, (g b).entry = if here b.addr then f b.entry else b.entry) :
    Kept (l.set here f) { r with backends := r.backends.map g } where
  entry := by
    refine List.forall_mem_map.mpr fun b hb => ?_
    rw [(hsame b).2, Ledger.set, h.entry b hb, hg]
    split <;> rfl
  absent a ha := by
    have hl : l a = none := h.absent a (by simpa [(hsame _).2] using ha)
    simp [Ledger.set, hl]
  one := by
    refine List.forall_mem_map.mpr fun b hb => List.forall_mem_map.mpr fun b' hb' => ?_
    rw [(hsame b).1, (hsame b').1, (hsame b).2, (hsame b').2]
    exact h.one b hb b' hb'
  old := by
    refine List.forall_mem_map.mpr fun b hb => ?_
    rw [(hsame b).1]
    exact h.old b hb

theorem kept_empty : Kept (fun _ => none) (⟨[], 0, 0⟩ : RoundRobin α) := by
  constructor <;> simp

variable [DecidableEq α]

def RoundRobin.after (r : RoundRobin α) : Change α → RoundRobin α
  | .updateBackends addrs => r.updateBackends addrs
  | .markUnhealthy addr => r.markUnhealthy addr
  | .setReplayLSN addr lsn => r.setReplayLSN addr lsn
  | .checkBackends dials => r.checkBackends fun b => dials b.addr
  | .nextWithLSN minLSN => (r.nextWithLSN minLSN).2

def Ledger.after (l : Ledger α) : Change α → Ledger α
  | .updateBackends addrs => fun a => if a ∈ addrs then some ((l a).getD ⟨false, 0⟩) else none
  | .markUnhealthy addr => l.set (· = addr) ({ · with marked := true })
  | .setReplayLSN addr lsn => l.set (· = addr) ({ · with lsn })
  | .checkBackends dials => l.set dials ({ · with marked := false })
  | .nextWithLSN _ => l

def Ledger.new (addrs : List α) : Ledger α := Ledger.after (fun _ => none) (.updateBackends addrs)

/-- An address that a new list names twice is one the balancer has. -/
def introducesOnce (r : RoundRobin α) : Change α → Bool
  | .updateBackends addrs => addrs.Pairwise fun a a' => a = a' → a ∈ r.backends.map Backend.addr
  | _ => true

/-- The changes behind which a marked address may be returned again. -/
def clears (a : α) : Change α → Bool
  | .updateBackends addrs => a ∉ addrs
  | .checkBackends dials => dials a
  | _ => false

/-- With one object for an address, the first match stands for all of them. -/
theorem Kept.modify (h : Kept l r) (addr : α) {f : Record → Record} {g : Backend α → Backend α}
    (hsame : ∀ b, (g b).ref = b.ref ∧ (g b).addr = b.addr) (hg : ∀ b, (g b).entry = f b.entry) :
    Kept (l.set (· = addr) f) (r.modify addr g) := by
  unfold RoundRobin.modify
  cases hfind : r.backends.find? (·.addr = addr) with
  | none =>
    have hl : l.set (· = addr) f = l := by
      funext a
      by_cases ha : a = addr
      · have hnone : l a = none := h.absent a fun hmem => by
          obtain ⟨b, hb, rfl⟩ := List.mem_map.mp hmem
          simpa [ha] using List.find?_eq_none.mp hfind b hb
        simp [Ledger.set, hnone]
      · simp [Ledger.set, ha]
    rwa [hl]
  | some b₀ =>
    have hb₀ : b₀ ∈ r.backends := List.mem_of_find?_eq_some hfind
    have haddr : b₀.addr = addr := by simpa using List.find?_some hfind
    have hmap : (r.backends.map fun b => if b.ref = b₀.ref then g b else b) =
        r.backends.map fun b => if b.addr = addr then g b else b :=
      List.map_congr_left fun b hb => by simp only [← haddr, h.one b hb b₀ hb₀]
    dsimp only
    rw [hmap]
    refine h.set (fun b => ?_) fun b => ?_
    · split
      · exact hsame b
      · exact ⟨rfl, rfl⟩
    · by_cases hb : b.addr = addr
      · simp [hb, hg]
      · simp [hb]

theorem Kept.reload (h : Kept l r) (haddrs : introducesOnce r (.updateBackends addrs)) :
    Kept (l.after (.updateBackends addrs)) (r.updateBackends addrs) := by
  have haddrs := List.pairwise_iff_getElem.mp (of_decide_eq_true haddrs)
  -- In a slot stands the object the balancer had for the address, or a new one where it had none.
  have hslot {b : Backend α} (hb : b ∈ (r.updateBackends addrs).backends) : ∃ i,
      ∃ hi : i < addrs.length, b.addr = addrs[i] ∧
      (b ∈ r.backends ∨ b.addr ∉ r.backends.map Backend.addr ∧
        b = .new (r.fresh + i) addrs[i]) := by
    obtain ⟨i, hi, rfl⟩ := List.mem_mapIdx.mp hb
    refine ⟨i, hi, ?_⟩
    cases hfind : r.backends.reverse.find? (·.addr = addrs[i]) with
    | some b =>
        exact ⟨by simpa using List.find?_some hfind,
        .inl (List.mem_reverse.mp (List.mem_of_find?_eq_some hfind))⟩
    | none => exact ⟨rfl, .inr ⟨by simpa [Backend.new] using List.find?_eq_none.mp hfind, rfl⟩⟩
  constructor
  · intro b hb
    obtain ⟨i, hi, haddr, hold | ⟨hnew, rfl⟩⟩ := hslot hb
    · simp [Ledger.after, haddr ▸ List.getElem_mem hi, h.entry b hold]
    · have hnone : l addrs[i] = none := h.absent _ hnew
      simp [Ledger.after, Backend.new, Backend.entry, hnone]
  · intro a ha
    rw [RoundRobin.addrs_updateBackends] at ha
    exact if_neg ha
  · intro b hb b' hb'
    obtain ⟨i, hi, haddr, hold | ⟨hnew, rfl⟩⟩ := hslot hb
    · obtain ⟨j, hj, haddr', hold' | ⟨hnew', rfl⟩⟩ := hslot hb'
      · exact h.one b hold b' hold'
      · refine iff_of_false (fun heq => hnew' (List.mem_map.mpr ⟨b, hold, heq⟩)) ?_
        exact Nat.ne_of_lt (Nat.lt_add_right j (h.old b hold))
    · obtain ⟨j, hj, haddr', hold' | ⟨hnew', rfl⟩⟩ := hslot hb'
      · refine iff_of_false (fun heq => hnew (List.mem_map.mpr ⟨b', hold', heq.symm⟩)) ?_
        exact Nat.ne_of_gt (Nat.lt_add_right i (h.old b' hold'))
      · constructor
        · intro heq
          rcases Nat.lt_trichotomy i j with hlt | rfl | hlt
          · exact absurd (haddrs i j hi hj hlt heq) hnew
          · rfl
          · exact absurd (haddrs j i hj hi hlt heq.symm) hnew'
        · intro heq
          obtain rfl : i = j := Nat.add_left_cancel heq
          rfl
  · intro b hb
    obtain ⟨i, hi, haddr, hold | ⟨hnew, rfl⟩⟩ := hslot hb
    · exact Nat.lt_add_right _ (h.old b hold)
    · exact Nat.add_lt_add_left hi r.fresh

theorem Kept.after (h : Kept l r) (c : Change α) (hc : introducesOnce r c) :
    Kept (l.after c) (r.after c) := by
  cases c with
  | updateBackends addrs => exact h.reload hc
  | markUnhealthy addr
  | setReplayLSN addr lsn => exact h.modify addr (fun _ => ⟨rfl, rfl⟩) fun _ => rfl
  | checkBackends dials =>
    refine h.set (fun b => ?_) fun b => ?_
    · split <;> exact ⟨rfl, rfl⟩
    · cases hb : b.healthy with
      | true => simp [Backend.entry, hb]
      | false => by_cases hd : dials b.addr <;> simp [Backend.entry, hb, hd]
  | nextWithLSN minLSN =>
    obtain ⟨k, hk⟩ := r.scan_keeps (RoundRobin.serves minLSN) r.backends.length
    rw [RoundRobin.after, RoundRobin.nextWithLSN, RoundRobin.choose, hk]
    exact ⟨h.entry, h.absent, h.one, h.old⟩

theorem new_eq_updateBackends (addrs : List α) :
    RoundRobin.new addrs = RoundRobin.updateBackends ⟨[], 0, 0⟩ addrs := by
  simp [RoundRobin.new, RoundRobin.updateBackends]

theorem kept_run {calls : List (Change α)} (hnew : addrs.Nodup)
    (hcalls : Runs.Each RoundRobin.after (introducesOnce · ·) (.new addrs) calls) :
    Kept (calls.foldl Ledger.after (.new addrs)) (calls.foldl RoundRobin.after (.new addrs)) := by
  have hstart : Kept (.new addrs) (.new addrs) := by
    rw [new_eq_updateBackends]
    exact kept_empty.reload (by simpa [introducesOnce, List.Nodup] using hnew)
  generalize Ledger.new addrs = l, RoundRobin.new addrs = r at hstart hcalls ⊢
  induction calls generalizing l r with
  | nil => exact hstart
  | cons c calls ih => exact ih _ _ (hstart.after c hcalls.1) hcalls.2

/-- A mark stays until the address is cleared. -/
theorem marked_foldl {calls : List (Change α)} (hl : ∃ e, l a = some e ∧ e.marked)
    (hcalls : ∀ c ∈ calls, clears a c = false) :
    ∃ e, calls.foldl Ledger.after l a = some e ∧ e.marked := by
  induction calls generalizing l with
  | nil => exact hl
  | cons c calls ih =>
    refine ih ?_ fun c hc => hcalls c (List.mem_cons_of_mem _ hc)
    have hc := hcalls c List.mem_cons_self
    obtain ⟨e, he, hmark⟩ := hl
    cases c with
    | updateBackends addrs =>
      have ha : a ∈ addrs := by simpa [clears] using hc
      exact ⟨e, by simp [Ledger.after, ha, he], hmark⟩
    | markUnhealthy addr | setReplayLSN addr lsn =>
      rw [Ledger.after, Ledger.set_some he]
      exact ⟨_, rfl, by split <;> simp [hmark]⟩
    | checkBackends dials =>
      have ha : dials a = false := hc
      exact ⟨e, by simp [Ledger.after, Ledger.set_some he, ha], hmark⟩
    | nextWithLSN minLSN => exact ⟨e, he, hmark⟩

/-- Every object says what the ledger says about its address, and an address of the list that is
marked is not returned until it is reached again or absent from a list. -/
theorem state_per_address {calls : List (Change α)} (hnew : addrs.Nodup)
    (hcalls : Runs.Each RoundRobin.after (introducesOnce · ·) (.new addrs) calls) :
    (∀ b ∈ (calls.foldl RoundRobin.after (.new addrs)).backends,
      calls.foldl Ledger.after (.new addrs) b.addr = some ⟨!b.healthy, b.replayLSN⟩) ∧
    ∀ a pre post, calls = pre ++ .markUnhealthy a :: post →
    (pre.foldl Ledger.after (.new addrs) a).isSome → (∀ c ∈ post, clears a c = false) →
      ∀ minLSN, ((calls.foldl RoundRobin.after (.new addrs)).nextWithLSN minLSN).1 ≠ .found a := by
  have hkept := kept_run hnew hcalls
  refine ⟨hkept.entry, ?_⟩
  rintro a pre post rfl hin hpost minLSN hfound
  obtain ⟨b, hb, rfl⟩ := Pick.map_found hfound
  obtain ⟨hmem, hhealthy, -⟩ := RoundRobin.choose_found hb
  obtain ⟨e₀, he₀⟩ := Option.isSome_iff_exists.mp hin
  have hset : ∃ e, (pre.foldl Ledger.after (.new addrs)).after (.markUnhealthy b.addr) b.addr =
      some e ∧ e.marked := by
    simp [Ledger.after, Ledger.set_some he₀]
  obtain ⟨e, he, hmark⟩ := marked_foldl hset hpost
  have hentry := hkept.entry b hmem
  rw [List.foldl_append, List.foldl_cons, he] at hentry
  obtain rfl := Option.some.inj hentry
  simp [Backend.entry, hhealthy] at hmark

def reloads : List (Change Nat) :=
  [.setReplayLSN 1 5, .markUnhealthy 1, .updateBackends [2, 1, 1, 3], .checkBackends (· = 2),
    .nextWithLSN 3]

theorem state_per_address_reloads :
    ((reloads.foldl RoundRobin.after (.new [1, 2])).nextWithLSN 3).1 ≠ .found 1 :=
  (state_per_address (by decide) (by decide)).2 1 [.setReplayLSN 1 5] _ rfl (by decide)
    (by decide) 3

/-- MarkUnhealthy finds the first of two objects for one address, and Next returns the address of
the other. -/
theorem repeated_address_returned : ((RoundRobin.new [1, 1]).markUnhealthy 1).next.1 = .found 1 :=
  by decide

end PgMux.Balancer
