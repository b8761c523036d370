import Mathlib.Data.Int.CardIntervalMod
import PgMux.Balancer

/-!
# Fairness of the balancer

The serving places below a value of the counter give the rank of an entry among the serving ones,
and each call takes the next rank.
-/

namespace PgMux.Balancer

/-! ## Going round a list -/

section

variable {β : Type} (ok : β → Bool) (l : List β)

def hit (x : Nat) : Bool := l[x % l.length]?.any ok

def rank (x : Nat) : Nat := Nat.count (hit ok l ·) x

theorem rank_succ (x : Nat) : rank ok l (x + 1) = rank ok l x + if hit ok l x then 1 else 0 :=
  Nat.count_succ _ x

theorem rank_eq_of_le {x : Nat} (hx : x ≤ l.length) :
    rank ok l x = ((l.take x).filter ok).length := by
  induction x with
  | zero => rfl
  | succ x ih =>
    have hlt : x < l.length := hx
    rw [rank_succ, ih (Nat.le_of_succ_le hx), List.take_succ_eq_append_getElem hlt,
      List.filter_append, List.length_append]
    cases hok : ok l[x] <;> simp [hit, Nat.mod_eq_of_lt hlt, hlt, hok]

theorem rank_add_length (x : Nat) :
    rank ok l (l.length + x) = (l.filter ok).length + rank ok l x := by
  have hperiod : ∀ k, hit ok l (l.length + k) = hit ok l k := fun k => by simp [hit]
  simp only [rank, Nat.count_add, hperiod]
  rw [← rank, rank_eq_of_le ok l (Nat.le_refl _), List.take_length]

theorem rank_cycles (q x : Nat) :
    rank ok l (l.length * q + x) = (l.filter ok).length * q + rank ok l x := by
  induction q with
  | zero => simp
  | succ q ih =>
    rw [Nat.mul_succ, Nat.mul_succ, Nat.add_right_comm, Nat.add_comm (_ + x), rank_add_length, ih]
    omega

theorem getElem_rank {x : Nat} {b : β} (hb : l[x % l.length]? = some b) (hok : ok b = true) :
    (l.filter ok)[rank ok l x % (l.filter ok).length]? = some b := by
  have hlt : x % l.length < l.length := (List.getElem?_eq_some_iff.mp hb).1
  have hsplit : l.filter ok = (l.take (x % l.length)).filter ok ++ b ::
      (l.drop (x % l.length + 1)).filter ok := by
    have hl := List.take_append_drop (x % l.length) l
    rw [List.drop_eq_getElem_cons hlt, (List.getElem?_eq_some_iff.mp hb).2] at hl
    nth_rewrite 1 [← hl]
    simp [hok]
  have hrank : rank ok l x = (l.filter ok).length * (x / l.length) +
      ((l.take (x % l.length)).filter ok).length := by
    rw [← rank_eq_of_le ok l (Nat.le_of_lt hlt), ← rank_cycles, Nat.div_add_mod]
  have hmod : rank ok l x % (l.filter ok).length = ((l.take (x % l.length)).filter ok).length := by
    rw [hrank, Nat.mul_add_mod, Nat.mod_eq_of_lt]
    rw [hsplit]
    simp
  rw [hmod]
  nth_rewrite 1 [hsplit]
  simp

theorem count_residue_le {h c d : Nat} (hc : c < h) (hd : d < h) (a k : Nat) :
    Nat.count (fun j => (a + j) % h = c) k ≤ Nat.count (fun j => (a + j) % h = d) k + 1 := by
  have hcount : ∀ e, e < h → ∀ x, Nat.count (fun j => j % h = e) x = x / h + if e < x % h then 1
      else 0 := by
    intro e he x
    have hmod := Nat.count_modEq_card x (Nat.zero_lt_of_lt he) e
    simpa only [Nat.ModEq, Nat.mod_eq_of_lt he] using hmod
  have hshift : ∀ e, Nat.count (fun j => j % h = e) (a + k) =
      Nat.count (fun j => j % h = e) a + Nat.count (fun j => (a + j) % h = e) k :=
      fun e => Nat.count_add _ a k
  have hc' := hshift c
  have hd' := hshift d
  rw [hcount c hc, hcount c hc] at hc'
  rw [hcount d hd, hcount d hd] at hd'
  split_ifs at hc' hd' <;> omega

end

/-! ## Calls -/

namespace RoundRobin

variable {α : Type}

abbrev serving (r : RoundRobin α) (minLSN : Nat) : List (Backend α) :=
  r.backends.filter (serves minLSN)

def increments (ok : Backend α → Bool) : Nat → RoundRobin α → Nat
  | 0, _ => 0
  | k + 1, r =>
    match (slot r.index r.backends.length).bind (r.backends[·]?) with
    | none => 1
    | some b => if ok b then 1 else increments ok k { r with index := (r.index + 1) % 2 ^ 64 } + 1

def calls (minLSN : Nat) : Nat → RoundRobin α → List (Pick α)
  | 0, _ => []
  | k + 1, r => (r.nextWithLSN minLSN).1 :: calls minLSN k (r.nextWithLSN minLSN).2

def callIncrements (minLSN : Nat) : Nat → RoundRobin α → Nat
  | 0, _ => 0
  | k + 1, r =>
    increments (serves minLSN) r.backends.length r +
      callIncrements minLSN k (r.nextWithLSN minLSN).2

variable {ok : Backend α → Bool} {r : RoundRobin α}

theorem slot_of_lt {x n : Nat} (hx : x < 2 ^ 63) : slot x n = some (x % n) := if_pos hx

theorem scan_eq_found {k : Nat} (hpos : 0 < r.backends.length)
    (hwrap : r.index + increments ok k r ≤ 2 ^ 63)
    (hsome : rank ok r.backends r.index < rank ok r.backends (r.index + k)) :
    ∃ b y, scan ok k r = (.found b, { r with index := y + 1 }) ∧
      r.backends[y % r.backends.length]? = some b ∧ ok b = true ∧
      rank ok r.backends y = rank ok r.backends r.index ∧
      y + 1 = r.index + increments ok k r := by
  induction k generalizing r with
  | zero => simp at hsome
  | succ k ih =>
    have hlt : r.index < 2 ^ 63 := by
      rw [increments] at hwrap
      split at hwrap
      · omega
      · split at hwrap <;> omega
    have hindex : (r.index + 1) % 2 ^ 64 = r.index + 1 := Nat.mod_eq_of_lt (by omega)
    have hmod : r.index % r.backends.length < r.backends.length := Nat.mod_lt _ hpos
    obtain ⟨b, hb⟩ : ∃ b, r.backends[r.index % r.backends.length]? = some b :=
      ⟨_, List.getElem?_eq_getElem hmod⟩
    have hnext : (slot r.index r.backends.length).bind (r.backends[·]?) = some b := by
      simp [slot_of_lt hlt, hb]
    simp only [scan, increments, hnext, hindex] at hwrap ⊢
    cases hok : ok b with
    | true => exact ⟨b, r.index, by simp, hb, hok, rfl, by simp⟩
    | false =>
      simp only [hok, Bool.false_eq_true, ↓reduceIte] at hwrap ⊢
      have hmiss : rank ok r.backends (r.index + 1) = rank ok r.backends r.index := by
        simp [rank_succ, hit, hb, hok]
      have hrest : rank ok r.backends (r.index + 1) < rank ok r.backends (r.index + 1 + k) := by
        rw [hmiss, Nat.add_right_comm, Nat.add_assoc]
        exact hsome
      obtain ⟨b', y, hscan, hy, hok', hrank, hend⟩ :=
        @ih { r with index := r.index + 1 } hpos (by dsimp only; omega) hrest
      exact ⟨b', y, hscan, hy, hok', hrank.trans hmiss, by dsimp only at hend; omega⟩

theorem nextWithLSN_eq {minLSN : Nat} (hsome : r.serving minLSN ≠ [])
    (hwrap : r.index + increments (serves minLSN) r.backends.length r ≤ 2 ^ 63) :
    ∃ b r', r.nextWithLSN minLSN = (.found b.addr, r') ∧ r'.backends = r.backends ∧
      r'.index = r.index + increments (serves minLSN) r.backends.length r ∧
      rank (serves minLSN) r.backends r'.index = rank (serves minLSN) r.backends r.index + 1 ∧
      (r.serving minLSN)[rank (serves minLSN) r.backends r.index % (r.serving minLSN).length]? =
        some b := by
  have hpos : 0 < r.backends.length := List.length_pos_iff.mpr fun hnil => hsome (by simp [hnil])
  have hcycle : rank (serves minLSN) r.backends r.index <
      rank (serves minLSN) r.backends (r.index + r.backends.length) := by
    rw [Nat.add_comm r.index, rank_add_length]
    exact Nat.lt_add_of_pos_left (List.length_pos_iff.mpr hsome)
  obtain ⟨b, y, hscan, hb, hok, hrank, hend⟩ := scan_eq_found hpos hwrap hcycle
  refine ⟨b, { r with index := y + 1 }, ?_, rfl, hend, ?_, ?_⟩
  · rw [nextWithLSN, choose, hscan]
    rfl
  · dsimp only
    simp [rank_succ, hrank, hit, hb, hok]
  · rw [← hrank]
    exact getElem_rank _ _ hb hok

theorem getElem_calls {minLSN k : Nat} (hsome : r.serving minLSN ≠ [])
    (hwrap : r.index + callIncrements minLSN k r ≤ 2 ^ 63) {j : Nat} (hj : j < k) :
    (calls minLSN k r)[j]? = (r.serving minLSN)[(rank (serves minLSN) r.backends r.index + j) %
      (r.serving minLSN).length]?.map fun b => .found b.addr := by
  induction k generalizing r j with
  | zero => exact absurd hj (Nat.not_lt_zero j)
  | succ k ih =>
    rw [callIncrements] at hwrap
    obtain ⟨b, r', hcall, hbackends, hindex, hrank, hb⟩ := nextWithLSN_eq hsome (by omega)
    rw [calls, hcall]
    cases j with
    | zero => simp [hb]
    | succ j =>
      rw [hcall] at hwrap
      have hrest := @ih r' (by rwa [serving, hbackends])
        (by dsimp only at hwrap; omega) j (Nat.lt_of_succ_lt_succ hj)
      rw [List.getElem?_cons_succ, hrest, serving, hbackends, hrank, Nat.add_assoc,
        Nat.add_comm 1 j]

/-- Consecutive calls return the serving entries in the order of the list, over and over. -/
theorem calls_round_robin (r : RoundRobin α) (minLSN k : Nat) (hsome : r.serving minLSN ≠ [])
    (hwrap : r.index + callIncrements minLSN k r ≤ 2 ^ 63) :
    ∃ a, (∀ j < k, (calls minLSN k r)[j]? = (r.serving minLSN)[(a + j) %
        (r.serving minLSN).length]?.map fun b => .found b.addr) ∧
      ∀ c < (r.serving minLSN).length, ∀ d < (r.serving minLSN).length,
        Nat.count (fun j => (a + j) % (r.serving minLSN).length = c) k ≤
          Nat.count (fun j => (a + j) % (r.serving minLSN).length = d) k + 1 :=
  ⟨rank (serves minLSN) r.backends r.index, fun _ hj => getElem_calls hsome hwrap hj,
    fun _ hc _ hd => count_residue_le hc hd _ k⟩

def twoServing : RoundRobin Nat :=
  { RoundRobin.new [7, 8, 9] with backends := [.new 0 7, ⟨1, 8, false, 0⟩, .new 2 9], index := 4 }

theorem calls_round_robin_twoServing : calls 0 3 twoServing = [.found 9, .found 7, .found 9] ∧
    ∃ a, (∀ j < 3, (calls 0 3 twoServing)[j]? = (twoServing.serving 0)[(a + j) %
        (twoServing.serving 0).length]?.map fun b => .found b.addr) ∧
      ∀ c < (twoServing.serving 0).length, ∀ d < (twoServing.serving 0).length,
        Nat.count (fun j => (a + j) % (twoServing.serving 0).length = c) 3 ≤
          Nat.count (fun j => (a + j) % (twoServing.serving 0).length = d) 3 + 1 :=
  ⟨by decide +kernel, calls_round_robin twoServing 0 3 (by decide) (by decide +kernel)⟩

end RoundRobin

end PgMux.Balancer
