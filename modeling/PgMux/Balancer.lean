import Mathlib.Algebra.Group.Nat.Defs
import Mathlib.Data.List.Basic

/-!
# The balancer

Round robin over the readers of a database, with a health flag and a recorded replay position for
each. The counter is a 64-bit word that becomes a signed index: from its middle on an index can be
negative, which panics.
-/

namespace PgMux.Balancer

structure Backend (α : Type) where
  ref : Nat
  addr : α
  healthy : Bool
  replayLSN : Nat
  deriving DecidableEq, Repr

structure RoundRobin (α : Type) where
  backends : List (Backend α)
  index : Nat
  fresh : Nat

inductive Pick (β : Type) where
  | panic | nothing
  | found (b : β)
  deriving DecidableEq, Repr

def Pick.map {β γ : Type} (f : β → γ) : Pick β → Pick γ
  | .panic => .panic
  | .nothing => .nothing
  | .found b => .found (f b)

theorem Pick.map_found {β γ : Type} {f : β → γ} {p : Pick β} {c : γ} (h : p.map f = .found c) :
    ∃ b, p = .found b ∧ f b = c := by
  cases p with
  | panic | nothing => exact nomatch h
  | found b => exact ⟨b, rfl, Pick.found.inj h⟩

variable {α : Type}

def Backend.new (ref : Nat) (addr : α) : Backend α := ⟨ref, addr, true, 0⟩

def slot (index n : Nat) : Option Nat :=
  if index < 2 ^ 63 then some (index % n)
  else if (2 ^ 64 - index) % n = 0 then some 0
  else none

namespace RoundRobin

def new (addrs : List α) : RoundRobin α := ⟨addrs.mapIdx Backend.new, 0, addrs.length⟩

def scan (ok : Backend α → Bool) : Nat → RoundRobin α → Pick (Backend α) × RoundRobin α
  | 0, r => (.nothing, r)
  | k + 1, r =>
    let r' := { r with index := (r.index + 1) % 2 ^ 64 }
    match (slot r.index r.backends.length).bind (r.backends[·]?) with
    | none => (.panic, r')
    | some b => if ok b then (.found b, r') else scan ok k r'

def serves (minLSN : Nat) (b : Backend α) : Bool :=
  b.healthy && (minLSN == 0 || minLSN ≤ b.replayLSN)

/-- What `NextWithLSN` returns; with position 0 this is `Next`. -/
def choose (r : RoundRobin α) (minLSN : Nat) : Pick (Backend α) × RoundRobin α :=
  scan (serves minLSN) r.backends.length r

def nextWithLSN (r : RoundRobin α) (minLSN : Nat) : Pick α × RoundRobin α :=
  ((r.choose minLSN).1.map Backend.addr, (r.choose minLSN).2)

def next (r : RoundRobin α) : Pick α × RoundRobin α := r.nextWithLSN 0

theorem scan_found {ok : Backend α → Bool} {k : Nat} {r : RoundRobin α} {b : Backend α}
    (h : (scan ok k r).1 = .found b) : b ∈ r.backends ∧ ok b = true := by
  induction k generalizing r with
  | zero => exact nomatch h
  | succ k ih =>
    rw [scan] at h
    cases hb : (slot r.index r.backends.length).bind (r.backends[·]?) with
    | none => simp [hb] at h
    | some b' =>
      simp only [hb] at h
      split at h
      · rename_i hok
        obtain rfl : b' = b := Pick.found.inj h
        obtain ⟨j, _, hj⟩ := Option.bind_eq_some_iff.mp hb
        exact ⟨List.mem_of_getElem? hj, hok⟩
      · exact @ih { r with index := (r.index + 1) % 2 ^ 64 } h

theorem scan_keeps (ok : Backend α → Bool) (k : Nat) (r : RoundRobin α) :
    ∃ i, (scan ok k r).2 = { r with index := i } := by
  induction k generalizing r with
  | zero => exact ⟨r.index, rfl⟩
  | succ k ih =>
    rw [scan]
    split
    · exact ⟨_, rfl⟩
    · split
      · exact ⟨_, rfl⟩
      · exact ih _

theorem backends_choose (r : RoundRobin α) (minLSN : Nat) :
    (r.choose minLSN).2.backends = r.backends := by
  obtain ⟨i, hi⟩ := scan_keeps (serves minLSN) r.backends.length r
  rw [choose, hi]

theorem choose_found {r : RoundRobin α} {minLSN : Nat} {b : Backend α}
    (h : (r.choose minLSN).1 = .found b) :
    b ∈ r.backends ∧ b.healthy = true ∧ minLSN ≤ b.replayLSN := by
  obtain ⟨hmem, hok⟩ := scan_found h
  simp only [serves, Bool.and_eq_true, Bool.or_eq_true, beq_iff_eq, decide_eq_true_eq] at hok
  refine ⟨hmem, hok.1, ?_⟩
  obtain hzero | hle := hok.2
  · rw [hzero]
    exact Nat.zero_le _
  · exact hle

section

variable [DecidableEq α]

def modify (r : RoundRobin α) (addr : α) (f : Backend α → Backend α) : RoundRobin α :=
  match r.backends.find? (·.addr = addr) with
  | none => r
  | some b => { r with backends := r.backends.map fun b' => if b'.ref = b.ref then f b' else b' }

def markUnhealthy (r : RoundRobin α) (addr : α) : RoundRobin α :=
  r.modify addr fun b => { b with healthy := false }

def setReplayLSN (r : RoundRobin α) (addr : α) (lsn : Nat) : RoundRobin α :=
  r.modify addr fun b => { b with replayLSN := lsn }

def updateBackends (r : RoundRobin α) (addrs : List α) : RoundRobin α :=
  { r with
    backends := addrs.mapIdx fun i addr =>
      (r.backends.reverse.find? (·.addr = addr)).getD (Backend.new (r.fresh + i) addr)
    fresh := r.fresh + addrs.length }

theorem addrs_updateBackends (r : RoundRobin α) (addrs : List α) :
    (r.updateBackends addrs).backends.map Backend.addr = addrs := by
  refine List.ext_getElem (by simp [updateBackends]) fun i _ hi => ?_
  simp only [updateBackends, List.getElem_map, List.getElem_mapIdx]
  cases hfind : r.backends.reverse.find? (·.addr = addrs[i]) with
  | none => rfl
  | some b => simpa using List.find?_some hfind

def checkBackends (r : RoundRobin α) (dials : Backend α → Bool) : RoundRobin α :=
  { r with backends := r.backends.map fun b => if !b.healthy && dials b then
    { b with healthy := true } else b }

end

end RoundRobin

/-! ## Recorded positions -/

structure Recorded (replayed : α → Nat) (r : RoundRobin α) : Prop where
  behind : ∀ b ∈ r.backends, b.replayLSN ≤ replayed b.addr
  addr_eq : ∀ b ∈ r.backends, ∀ b' ∈ r.backends, b.ref = b'.ref → b.addr = b'.addr

section

variable {replayed : α → Nat} {r : RoundRobin α}

theorem recorded_new (addrs : List α) : Recorded replayed (RoundRobin.new addrs) where
  behind b hb := by
    obtain ⟨k, hk, rfl⟩ := List.mem_mapIdx.mp hb
    exact Nat.zero_le _
  addr_eq b hb b' hb' href := by
    obtain ⟨k, hk, rfl⟩ := List.mem_mapIdx.mp hb
    obtain ⟨k', hk', rfl⟩ := List.mem_mapIdx.mp hb'
    obtain rfl : k = k' := href
    rfl

theorem Recorded.choose (h : Recorded replayed r) (minLSN : Nat) :
    Recorded replayed (r.choose minLSN).2 where
  behind := by rw [RoundRobin.backends_choose]; exact h.behind
  addr_eq := by rw [RoundRobin.backends_choose]; exact h.addr_eq

theorem Recorded.mono (h : Recorded replayed r) {later : α → Nat}
    (hle : ∀ a, replayed a ≤ later a) : Recorded later r where
  behind b hb := Nat.le_trans (h.behind b hb) (hle b.addr)
  addr_eq := h.addr_eq

theorem Recorded.map (h : Recorded replayed r) {f : Backend α → Backend α}
    (hsame : ∀ b, (f b).ref = b.ref ∧ (f b).addr = b.addr)
    (hbehind : ∀ b ∈ r.backends, (f b).replayLSN ≤ replayed b.addr) :
    Recorded replayed { r with backends := r.backends.map f } where
  behind b hb := by
    obtain ⟨b₀, hb₀, rfl⟩ := List.mem_map.mp hb
    rw [(hsame b₀).2]
    exact hbehind b₀ hb₀
  addr_eq b hb b' hb' href := by
    obtain ⟨b₀, hb₀, rfl⟩ := List.mem_map.mp hb
    obtain ⟨b₁, hb₁, rfl⟩ := List.mem_map.mp hb'
    rw [(hsame b₀).1, (hsame b₁).1] at href
    rw [(hsame b₀).2, (hsame b₁).2]
    exact h.addr_eq b₀ hb₀ b₁ hb₁ href

theorem Recorded.checkBackends (h : Recorded replayed r) (dials : Backend α → Bool) :
    Recorded replayed (r.checkBackends dials) := by
  refine h.map (fun b => ?_) fun b hb => ?_
  · split
    · exact ⟨rfl, rfl⟩
    · exact ⟨rfl, rfl⟩
  · split
    · exact h.behind b hb
    · exact h.behind b hb

variable [DecidableEq α]

theorem Recorded.modify (h : Recorded replayed r) {addr : α} {f : Backend α → Backend α}
    (hsame : ∀ b, (f b).ref = b.ref ∧ (f b).addr = b.addr)
    (hbehind : ∀ b ∈ r.backends, b.addr = addr → (f b).replayLSN ≤ replayed addr) :
    Recorded replayed (r.modify addr f) := by
  unfold RoundRobin.modify
  cases hfind : r.backends.find? (·.addr = addr) with
  | none => exact h
  | some b₀ =>
    have hmem : b₀ ∈ r.backends := List.mem_of_find?_eq_some hfind
    have haddr₀ : b₀.addr = addr := by simpa using List.find?_some hfind
    refine h.map (fun b => ?_) fun b hb => ?_
    · split
      · exact hsame b
      · exact ⟨rfl, rfl⟩
    · split
      · rename_i href
        have haddr : b.addr = addr := (h.addr_eq b hb b₀ hmem href).trans haddr₀
        rw [haddr]
        exact hbehind b hb haddr
      · exact h.behind b hb

theorem Recorded.setReplayLSN (h : Recorded replayed r) {addr : α} {lsn : Nat}
    (hlsn : lsn ≤ replayed addr) : Recorded replayed (r.setReplayLSN addr lsn) :=
  h.modify (fun _ => ⟨rfl, rfl⟩) fun _ _ _ => hlsn

theorem Recorded.markUnhealthy (h : Recorded replayed r) (addr : α) :
    Recorded replayed (r.markUnhealthy addr) := by
  refine h.modify (fun _ => ⟨rfl, rfl⟩) fun b hb haddr => ?_
  rw [← haddr]
  exact h.behind b hb

end

inductive Touch [DecidableEq α] (r : RoundRobin α) : RoundRobin α → Prop where
  | choose (minLSN : Nat) : Touch r (r.choose minLSN).2
  | markUnhealthy (addr : α) : Touch r (r.markUnhealthy addr)
  | setReplayLSN (addr : α) (lsn : Nat) : Touch r (r.setReplayLSN addr lsn)
  | updateBackends (addrs : List α) : Touch r (r.updateBackends addrs)
  | checkBackends (dials : Backend α → Bool) : Touch r (r.checkBackends dials)

end PgMux.Balancer
