import Mathlib.Data.List.Perm.Subperm
import Mathlib.Logic.Function.Iterate
import PgMux.Balancer
import PgMux.Runs

/-!
# Concurrent calls of the balancer

Any number of calls share one counter. A call looks at as many backends as there are, but at the
counts that it happens to draw, which need not lead to all of them.
-/

namespace PgMux.BalancerCalls

open Balancer RoundRobin

structure Call (α : Type) where
  minLSN : Nat
  drawn : List Nat
  result : Option (Pick (Backend α))

structure Calls (α : Type) where
  backends : List (Backend α)
  index : Nat
  calls : List (Call α)

inductive Event where
  | call (minLSN : Nat)
  | draw (i : Nat)

variable {α : Type}

def Call.look (backends : List (Backend α)) (index : Nat) (c : Call α) : Call α :=
  let c' := { c with drawn := index :: c.drawn }
  match (slot index backends.length).bind (backends[·]?) with
  | none => { c' with result := some .panic }
  | some b =>
    if serves c.minLSN b then { c' with result := some (.found b) }
    else if c'.drawn.length < backends.length then c'
    else { c' with result := some .nothing }

namespace Calls

def call (s : Calls α) (minLSN : Nat) : Calls α :=
  { s with calls := s.calls ++ [⟨minLSN, [], if s.backends.length = 0 then some .nothing
    else none⟩] }

def draw (s : Calls α) (i : Nat) : Calls α :=
  match s.calls[i]? with
  | none => s
  | some c =>
    if c.result.isSome then s
    else
      { s with
        index := (s.index + 1) % 2 ^ 64, calls := s.calls.set i (c.look s.backends s.index) }

def next (s : Calls α) : Event → Calls α
  | .call minLSN => s.call minLSN
  | .draw i => s.draw i

end Calls

def Enabled (s : Calls α) : Event → Prop
  | .call minLSN => ∃ b ∈ s.backends, serves minLSN b
  | .draw _ => s.index < 2 ^ 63

instance (s : Calls α) (e : Event) : Decidable (Enabled s e) := by
  cases e
  all_goals unfold Enabled; infer_instance

/-- No call is led to a backend that it looked at before. -/
def Apart (s : Calls α) : Event → Prop
  | .call _ => True
  | .draw i => ∀ c ∈ s.calls[i]?, c.result = none → ∀ j ∈ c.drawn,
      j % s.backends.length ≠ s.index % s.backends.length

instance (s : Calls α) (e : Event) : Decidable (Apart s e) := by
  cases e
  all_goals unfold Apart; infer_instance

/-! ## One call -/

structure Good (backends : List (Backend α)) (c : Call α) : Prop where
  served : ∃ b ∈ backends, serves c.minLSN b
  short : c.result = none → c.drawn.length < backends.length
  apart : c.result = none → (c.drawn.map (· % backends.length)).Nodup
  passed : c.result = none → ∀ j ∈ c.drawn, ∀ b ∈ backends[j % backends.length]?,
    serves c.minLSN b = false
  found : c.result = none ∨ ∃ b ∈ backends, serves c.minLSN b ∧ c.result = some (.found b)

theorem mem_of_nodup_length {n k : Nat} {places : List Nat} (hnodup : places.Nodup)
    (hlt : ∀ p ∈ places, p < n) (hlength : n ≤ places.length) (hk : k < n) : k ∈ places := by
  have hsub : places.Subperm (List.range n) := hnodup.subperm fun p hp =>
    List.mem_range.mpr (hlt p hp)
  have hperm := hsub.perm_of_length_le (by simpa using hlength)
  exact hperm.mem_iff.mpr (List.mem_range.mpr hk)

variable {c : Call α} {i : Nat} {s : Calls α}

theorem Good.look {backends : List (Backend α)} {index : Nat} (h : Good backends c)
    (hnone : c.result = none) (hindex : index < 2 ^ 63)
    (hapart : ∀ j ∈ c.drawn, j % backends.length ≠ index % backends.length) :
    Good backends (c.look backends index) := by
  obtain ⟨b₀, hb₀, hserves₀⟩ := h.served
  have hpos : 0 < backends.length := List.length_pos_of_mem hb₀
  have hplace : index % backends.length < backends.length := Nat.mod_lt _ hpos
  have hnodup : ((index :: c.drawn).map (· % backends.length)).Nodup := by
    refine List.nodup_cons.mpr ⟨fun hmem => ?_, h.apart hnone⟩
    obtain ⟨j, hj, heq⟩ := List.mem_map.mp hmem
    exact hapart j hj heq
  have hget : (slot index backends.length).bind (backends[·]?) =
      some backends[index % backends.length] := by
    rw [slot, if_pos hindex, Option.bind_some, List.getElem?_eq_getElem hplace]
  unfold Call.look
  simp only [hget]
  split
  · rename_i hok
    exact ⟨h.served, by simp, by simp, by simp, .inr ⟨_, List.getElem_mem hplace, hok, rfl⟩⟩
  · rename_i hno
    have hpassed : ∀ j ∈ index :: c.drawn, ∀ b ∈ backends[j % backends.length]?,
    serves c.minLSN b = false := by
      intro j hj b hb
      obtain rfl | hj := List.mem_cons.mp hj
      · obtain rfl : backends[j % backends.length] = b := by simpa [hplace] using hb
        exact Bool.eq_false_iff.mpr hno
      · exact h.passed hnone j hj b hb
    split
    · rename_i hshort
      exact ⟨h.served, fun _ => hshort, fun _ => hnodup, fun _ => hpassed, .inl hnone⟩
    · -- the call has looked at all the backends, the one that serves it among them
      rename_i hlong
      exfalso
      obtain ⟨k, hk, hget₀⟩ := List.mem_iff_getElem.mp hb₀
      have hmem : k ∈ (index :: c.drawn).map (· % backends.length) := by
        refine mem_of_nodup_length hnodup (fun p hp => ?_) (by simpa using hlong) hk
        obtain ⟨j, _, rfl⟩ := List.mem_map.mp hp
        exact Nat.mod_lt _ hpos
      obtain ⟨j, hj, rfl⟩ := List.mem_map.mp hmem
      have hfalse := hpassed j hj b₀ (by simp [hk, hget₀])
      simp [hserves₀] at hfalse

/-! ## A call alone -/

theorem Calls.draw_of_running (hc : s.calls[i]? = some c) (hnone : c.result = none) :
    s.draw i = { s with
      index := (s.index + 1) % 2 ^ 64, calls := s.calls.set i (c.look s.backends s.index) } := by
  simp [draw, hc, hnone]

theorem Calls.draws_of_returned (hc : s.calls[i]? = some c) {pick : Pick (Backend α)}
    (hpick : c.result = some pick) (k : Nat) :
    ((draw · i)^[k] s).calls[i]?.bind Call.result = some pick ∧
    ((draw · i)^[k] s).index = s.index := by
  induction k with
  | zero => simp [hc, hpick]
  | succ k ih =>
    have hstay : s.draw i = s := by simp [draw, hc, hpick]
    rw [Function.iterate_succ_apply, hstay]
    exact ih

theorem draws_eq_scan (k : Nat) {s : Calls α} {i : Nat} {c : Call α} (hc : s.calls[i]? = some c)
    (hnone : c.result = none) (hlength : c.drawn.length + (k + 1) = s.backends.length)
    (fresh : Nat) :
    let t := (Calls.draw · i)^[k + 1] s
    let done := scan (serves c.minLSN) (k + 1) ⟨s.backends, s.index, fresh⟩
    t.calls[i]?.bind Call.result = some done.1 ∧ t.index = done.2.index := by
  have hi : i < s.calls.length := (List.getElem?_eq_some_iff.mp hc).1
  have hlook : (s.calls.set i (c.look s.backends s.index))[i]? = some (c.look s.backends s.index) :=
    List.getElem?_set_self hi
  rw [Function.iterate_succ_apply, Calls.draw_of_running hc hnone, scan]
  cases hb : (slot s.index s.backends.length).bind (s.backends[·]?) with
  | none => exact Calls.draws_of_returned hlook (by simp [Call.look, hb]) k
  | some b =>
    by_cases hok : serves c.minLSN b = true
    · simp only [hok, ↓reduceIte]
      exact Calls.draws_of_returned hlook (by simp [Call.look, hb, hok]) k
    · simp only [hok]
      cases k with
      | zero =>
        have hlast : ¬ c.drawn.length + 1 < s.backends.length := by omega
        exact Calls.draws_of_returned hlook (by simp [Call.look, hb, hok, hlast, scan]) 0
      | succ k =>
        have hmore : c.drawn.length + 1 < s.backends.length := by omega
        have hstill : c.look s.backends s.index = { c with drawn := s.index :: c.drawn } := by
          simp [Call.look, hb, hok, hmore]
        rw [hstill] at hlook ⊢
        have hlength' : (s.index :: c.drawn).length + (k + 1) = s.backends.length := by
          rw [List.length_cons]
          omega
        exact draws_eq_scan k (s := { s with index := _, calls := _ })
          (c := { c with drawn := _ }) hlook hnone hlength' fresh

/-- A call that nobody interrupts is the call of the balancer as a whole. -/
theorem alone_eq_choose (s : Calls α) (minLSN fresh : Nat) :
    let t := (Calls.draw · s.calls.length)^[s.backends.length] (s.call minLSN)
    let done := choose ⟨s.backends, s.index, fresh⟩ minLSN
    t.calls[s.calls.length]?.bind Call.result = some done.1 ∧ t.index = done.2.index := by
  have hc : (s.call minLSN).calls[s.calls.length]? =
      some ⟨minLSN, [], if s.backends.length = 0 then some .nothing else none⟩ := by
    simp [Calls.call]
  cases hn : s.backends.length with
  | zero => simp [hn, Calls.call, choose, scan]
  | succ n =>
    simp only [hn, Nat.add_one_ne_zero, ↓reduceIte] at hc
    simp only [choose, hn]
    exact draws_eq_scan n hc rfl (by simp [Calls.call, hn]) fresh

/-! ## All calls -/

def Sound (backends : List (Backend α)) (s : Calls α) : Prop :=
  s.backends = backends ∧ ∀ c ∈ s.calls, Good backends c

theorem Sound.call {backends : List (Backend α)} (hs : Sound backends s) {minLSN : Nat}
    (hserved : ∃ b ∈ s.backends, serves minLSN b) : Sound backends (s.call minLSN) := by
  obtain ⟨rfl, hgood⟩ := hs
  have hlength : s.backends.length ≠ 0 := by
    obtain ⟨b, hb, _⟩ := hserved
    exact Nat.ne_of_gt (List.length_pos_of_mem hb)
  refine ⟨rfl, fun c hc => ?_⟩
  obtain hc | hc := List.mem_append.mp hc
  · exact hgood c hc
  · obtain rfl := List.mem_singleton.mp hc
    refine ⟨hserved, fun _ => Nat.pos_of_ne_zero hlength, by simp, by simp, ?_⟩
    exact .inl (if_neg hlength)

theorem Sound.draw {backends : List (Backend α)} (hs : Sound backends s) (hindex : s.index < 2 ^ 63)
    (hapart : Apart s (.draw i)) : Sound backends (s.draw i) := by
  obtain ⟨rfl, hgood⟩ := hs
  unfold Calls.draw
  split
  · exact ⟨rfl, hgood⟩
  · rename_i c hc
    split
    · exact ⟨rfl, hgood⟩
    · rename_i hrunning
      have hnone : c.result = none := by simpa using hrunning
      refine ⟨rfl, fun c' hc' => ?_⟩
      obtain hc' | rfl := List.mem_or_eq_of_mem_set hc'
      · exact hgood c' hc'
      · exact (hgood c (List.mem_of_getElem? hc)).look hnone hindex (hapart c hc hnone)

/-- Every call that has returned has found a backend that serves it. -/
theorem always_found (backends : List (Backend α)) (index : Nat) {events : List Event}
    (h : Runs.Each Calls.next Enabled ⟨backends, index, []⟩ events)
    (hapart : Runs.Each Calls.next Apart ⟨backends, index, []⟩ events) :
    ∀ s ∈ Runs.states Calls.next ⟨backends, index, []⟩ events, ∀ c ∈ s.calls, ∀ pick ∈ c.result,
      ∃ b ∈ backends, serves c.minLSN b ∧ pick = .found b := by
  have hstart : Sound backends ⟨backends, index, []⟩ := ⟨rfl, by simp⟩
  have hsound := (h.and hapart).invariant (I := Sound backends) (fun s e hs he => ?_) hstart
  · intro s hs c hc pick hpick
    obtain hnone | ⟨b, hb, hok, hfound⟩ := ((hsound s hs).2 c hc).found
    · exact absurd hpick (by simp [hnone])
    · exact ⟨b, hb, hok, Option.some.inj (hpick.symm.trans hfound)⟩
  · cases e with
    | call minLSN => exact hs.call he.1
    | draw i => exact hs.draw he.1 he.2

def half : Calls String := ⟨[⟨0, "a", true, 0⟩, ⟨1, "b", false, 0⟩], 0, []⟩

theorem always_found_second :
    Runs.Each Calls.next Enabled half [.call 0, .draw 0, .call 0, .draw 1, .draw 1] ∧
      ∀ s ∈ Runs.states Calls.next half [.call 0, .draw 0, .call 0, .draw 1, .draw 1],
      ∀ c ∈ s.calls, ∀ pick ∈ c.result, ∃ b ∈ half.backends, serves c.minLSN b ∧ pick = .found b :=
  ⟨by decide, always_found half.backends 0 (by decide) (by decide)⟩

theorem nothing_found :
    Runs.Each Calls.next Enabled half [.call 0, .call 0, .call 0, .draw 1, .draw 0, .draw 2,
      .draw 0] ∧
      ∃ s ∈ Runs.states Calls.next half [.call 0, .call 0, .call 0, .draw 1, .draw 0, .draw 2,
        .draw 0], ∃ c ∈ s.calls, c.drawn = [3, 1] ∧ c.result = some .nothing := by
  decide

end PgMux.BalancerCalls
