import Mathlib.Tactic.Linarith

/-!
# The rate limiter

Every call of `Allow` first adds the tokens of the time since the last call, up to the capacity, and
then takes one if there is one. Tokens and times are rationals.
-/

namespace PgMux.RateLimiting

structure RateLimiter where
  rate : Rat
  burst : Int
  tokens : Rat
  lastTime : Rat
  deriving DecidableEq, Repr

namespace RateLimiter

def new (rate : Rat) (burst : Int) (now : Rat) : RateLimiter := ⟨rate, burst, burst, now⟩

def refill (rl : RateLimiter) (now : Rat) : RateLimiter :=
  let elapsed := now - rl.lastTime
  let tokens := rl.tokens + elapsed * rl.rate
  { rl with lastTime := now, tokens := if rl.burst < tokens then rl.burst else tokens }

def allow (rl : RateLimiter) (now : Rat) : Bool × RateLimiter :=
  let rl := rl.refill now
  if 1 ≤ rl.tokens then (true, { rl with tokens := rl.tokens - 1 }) else (false, rl)

def after (rl : RateLimiter) (times : List Rat) : RateLimiter :=
  times.foldl (fun rl now => (rl.allow now).2) rl

def admitted : RateLimiter → List Rat → Nat
  | _, [] => 0
  | rl, now :: times => (rl.allow now).1.toNat + admitted (rl.allow now).2 times

def Full (rl : RateLimiter) (now : Rat) : Prop := (rl.refill now).tokens = rl.burst

/-! ## One call -/

variable {rl : RateLimiter} {now : Rat}

@[simp] theorem allow_rate (rl : RateLimiter) (now : Rat) : (rl.allow now).2.rate = rl.rate := by
  unfold allow
  dsimp only
  split <;> rfl

@[simp] theorem allow_burst (rl : RateLimiter) (now : Rat) : (rl.allow now).2.burst = rl.burst := by
  unfold allow
  dsimp only
  split <;> rfl

@[simp] theorem allow_lastTime (rl : RateLimiter) (now : Rat) :
    (rl.allow now).2.lastTime = now := by
  unfold allow
  dsimp only
  split <;> rfl

theorem allow_tokens (rl : RateLimiter) (now : Rat) :
    (rl.allow now).2.tokens + (rl.allow now).1.toNat = (rl.refill now).tokens := by
  unfold allow
  dsimp only
  split
  · simp
  · simp

theorem allow_eq_false_iff : (rl.allow now).1 = false ↔ (rl.refill now).tokens < 1 := by
  unfold allow
  dsimp only
  split
  · next h => simpa using h
  · next h => simpa using h

theorem refill_le_burst (rl : RateLimiter) (now : Rat) : (rl.refill now).tokens ≤ rl.burst := by
  simp only [refill]
  split
  · exact le_refl _
  · next h => exact le_of_not_gt h

theorem refill_le (rl : RateLimiter) (now : Rat) :
    (rl.refill now).tokens ≤ rl.tokens + (now - rl.lastTime) * rl.rate := by
  simp only [refill]
  split
  · next h => exact le_of_lt h
  · exact le_refl _

theorem refill_of_not_full (h : ¬ rl.Full now) :
    (rl.refill now).tokens = rl.tokens + (now - rl.lastTime) * rl.rate := by
  unfold Full at h
  simp only [refill] at h ⊢
  split at h
  · exact absurd rfl h
  · next hle => exact if_neg hle

structure Sound (rl : RateLimiter) : Prop where
  rate : 0 ≤ rl.rate
  nonneg : 0 ≤ rl.tokens
  le : rl.tokens ≤ rl.burst

theorem Sound.refill_nonneg (h : Sound rl) (hnow : rl.lastTime ≤ now) :
    0 ≤ (rl.refill now).tokens := by
  have hgain : 0 ≤ (now - rl.lastTime) * rl.rate := mul_nonneg (sub_nonneg.mpr hnow) h.rate
  have hnonneg := h.nonneg
  have hle := h.le
  simp only [refill]
  split
  · linarith
  · linarith

theorem Sound.allow (h : Sound rl) (hnow : rl.lastTime ≤ now) : Sound (rl.allow now).2 := by
  have htokens := allow_tokens rl now
  have hle := refill_le_burst rl now
  have hnonneg := h.refill_nonneg hnow
  refine ⟨by simpa using h.rate, ?_, ?_⟩
  · cases hgranted : (rl.allow now).1 with
    | false => simp [hgranted] at htokens; linarith
    | true =>
      have hone : 1 ≤ (rl.refill now).tokens := by
        by_contra hless
        simp [allow_eq_false_iff.mpr (lt_of_not_ge hless)] at hgranted
      simp [hgranted] at htokens
      linarith
  · have hpos : (0 : Rat) ≤ (rl.allow now).1.toNat := Nat.cast_nonneg _
    rw [allow_burst]
    linarith

theorem sound_new {rate : Rat} {burst : Int} (hrate : 0 ≤ rate) (hburst : 0 ≤ burst) (now : Rat) :
    Sound (new rate burst now) :=
  ⟨hrate, Int.cast_nonneg hburst, le_refl _⟩

/-! ## Any number of calls -/

@[simp] theorem after_cons (rl : RateLimiter) (now : Rat) (times : List Rat) :
    rl.after (now :: times) = (rl.allow now).2.after times := by
  rw [after, List.foldl_cons, after]

theorem after_append (rl : RateLimiter) (times later : List Rat) :
    rl.after (times ++ later) = (rl.after times).after later := by
  simp [after, List.foldl_append]

@[simp] theorem after_rate (rl : RateLimiter) (times : List Rat) :
    (rl.after times).rate = rl.rate := by
  induction times generalizing rl with
  | nil => rfl
  | cons now times ih => rw [after_cons, ih, allow_rate]

@[simp] theorem after_burst (rl : RateLimiter) (times : List Rat) :
    (rl.after times).burst = rl.burst := by
  induction times generalizing rl with
  | nil => rfl
  | cons now times ih => rw [after_cons, ih, allow_burst]

theorem after_lastTime (rl : RateLimiter) (times : List Rat) :
    (rl.after times).lastTime = times.getLastD rl.lastTime := by
  induction times generalizing rl with
  | nil => rfl
  | cons now times ih => rw [after_cons, ih, allow_lastTime, List.getLastD_cons]

variable {times : List Rat}

theorem Sound.after (h : Sound rl) (hclock : (rl.lastTime :: times).Pairwise (· ≤ ·)) :
    Sound (rl.after times) := by
  induction times generalizing rl with
  | nil => exact h
  | cons now times ih =>
    rw [List.pairwise_cons] at hclock
    refine ih (h.allow (hclock.1 now (by simp))) ?_
    rw [allow_lastTime]
    exact hclock.2

theorem tokens_add_admitted_le (rl : RateLimiter) (times : List Rat) :
    (rl.after times).tokens + rl.admitted times ≤
      rl.tokens + ((rl.after times).lastTime - rl.lastTime) * rl.rate := by
  induction times generalizing rl with
  | nil => simp [after, admitted]
  | cons now times ih =>
    have hrest := ih (rl.allow now).2
    have htokens := allow_tokens rl now
    have hrefill := refill_le rl now
    rw [allow_lastTime, allow_rate] at hrest
    rw [after_cons, admitted, Nat.cast_add]
    linarith

def NeverFull (rl : RateLimiter) (times : List Rat) : Prop :=
  ∀ p now q, times = p ++ now :: q → ¬ (rl.after p).Full now

theorem NeverFull.tail (h : rl.NeverFull (now :: times)) : (rl.allow now).2.NeverFull times := by
  intro p now' q htimes
  exact h (now :: p) now' q (by rw [htimes]; rfl)

theorem NeverFull.tokens (h : rl.NeverFull times) :
    (rl.after times).tokens + rl.admitted times =
      rl.tokens + ((rl.after times).lastTime - rl.lastTime) * rl.rate := by
  induction times generalizing rl with
  | nil => simp [after, admitted]
  | cons now times ih =>
    have hrest := ih h.tail
    have htokens := allow_tokens rl now
    have hrefill : (rl.refill now).tokens = rl.tokens + (now - rl.lastTime) * rl.rate :=
      refill_of_not_full (h [] now times rfl)
    rw [allow_lastTime, allow_rate] at hrest
    rw [after_cons, admitted, Nat.cast_add]
    linarith

theorem neverFull_or_last (rl : RateLimiter) (times : List Rat) : rl.NeverFull times ∨
      ∃ p now q, times = p ++ now :: q ∧ (rl.after p).Full now ∧
      (rl.after (p ++ [now])).NeverFull q := by
  induction times generalizing rl with
  | nil => exact .inl fun p now q h => by simp at h
  | cons now times ih =>
    obtain hnever | ⟨p, now', q, rfl, hfull, hnever⟩ := ih (rl.allow now).2
    · by_cases hfull : rl.Full now
      · exact .inr ⟨[], now, times, rfl, hfull, hnever⟩
      · refine .inl fun p now' q h => ?_
        cases p with
        | nil =>
          obtain ⟨rfl, _⟩ := List.cons.inj h
          exact hfull
        | cons first p =>
          obtain ⟨rfl, htimes⟩ := List.cons.inj h
          exact hnever p now' q htimes
    · exact .inr ⟨now :: p, now', q, rfl, hfull, hnever⟩

theorem lastTime_le_of_clock (hclock : (rl.lastTime :: (times ++ [now])).Pairwise (· ≤ ·)) :
    (rl.after times).lastTime ≤ now := by
  rw [after_lastTime]
  rw [← List.cons_append, List.pairwise_append] at hclock
  exact hclock.2.2 _ List.getLastD_mem_cons now (by simp)

theorem Sound.admitted_le (h : Sound rl) (hnow : rl.lastTime ≤ now)
    (hclock : (now :: times).Pairwise (· ≤ ·)) :
    (rl.admitted (now :: times) : Rat) ≤ rl.burst + rl.rate * (times.getLastD now - now) := by
  have htokens := allow_tokens rl now
  have hfull := refill_le_burst rl now
  have hspent := tokens_add_admitted_le (rl.allow now).2 times
  have hafter : Sound ((rl.allow now).2.after times) :=
    (h.allow hnow).after (by rwa [allow_lastTime])
  have hleft := hafter.nonneg
  rw [after_lastTime, allow_lastTime, allow_rate] at hspent
  rw [admitted, Nat.cast_add]
  linarith

theorem tokens_of_rejected (h : ((rl.after times).allow now).1 = false) :
    (rl.after (times ++ [now])).tokens < 1 := by
  have htokens := allow_tokens (rl.after times) now
  rw [h] at htokens
  rw [after_append]
  change ((rl.after times).allow now).2.tokens < 1
  have hless := allow_eq_false_iff.mp h
  simp only [Bool.toNat_false, Nat.cast_zero, add_zero] at htokens
  rwa [htokens]

theorem admitted_of_last_full {p q : List Rat} {t : Rat} (hfull : (rl.after p).Full now)
    (hnever : (rl.after (p ++ [now])).NeverFull q) (hlast : q.getLastD now = t)
    (hempty : (rl.after (p ++ now :: q)).tokens < 1) :
    rl.burst - 1 + rl.rate * (t - now) < (rl.after p).admitted (now :: q) := by
  have htokens := allow_tokens (rl.after p) now
  have hstart : rl.after (p ++ [now]) = ((rl.after p).allow now).2 := after_append rl p [now]
  have hsince := hnever.tokens
  rw [hstart, after_lastTime, allow_lastTime, allow_rate, after_rate, hlast] at hsince
  rw [after_append, after_cons] at hempty
  rw [Full, after_burst] at hfull
  rw [admitted, Nat.cast_add]
  linarith

theorem admitted_of_never_full {t : Rat} (hfull : rl.tokens = rl.burst)
    (hnever : rl.NeverFull times) (hlast : times.getLastD rl.lastTime = t)
    (hempty : (rl.after times).tokens < 1) :
    rl.burst - 1 + rl.rate * (t - rl.lastTime) < rl.admitted times := by
  have hsince := hnever.tokens
  rw [after_lastTime, hlast] at hsince
  linarith

end RateLimiter

open RateLimiter

/-- The tokens stay in the bucket, no stretch admits more than burst and refill, and no call is
rejected early. -/
theorem bucket_bounds {rl : RateLimiter} (rate : Rat) (burst : Int) (created : Rat)
    (times : List Rat) (hnew : rl = .new rate burst created) (hrate : 0 ≤ rate) (hburst : 0 ≤ burst)
    (hclock : (created :: times).Pairwise (· ≤ ·)) :
    (∀ p q, times = p ++ q → 0 ≤ (rl.after p).tokens ∧ (rl.after p).tokens ≤ burst) ∧
    (∀ p now q r, times = p ++ now :: q ++ r →
      ((rl.after p).admitted (now :: q) : Rat) ≤ burst + rate * (q.getLastD now - now)) ∧
    ∀ p t r, times = p ++ t :: r → ((rl.after p).allow t).1 = false →
      (rl.NeverFull (p ++ [t]) ∧ burst - 1 + rate * (t - created) < rl.admitted (p ++ [t])) ∨
        ∃ p' now q, p ++ [t] = p' ++ now :: q ∧ (rl.after p').Full now ∧
        (rl.after (p' ++ [now])).NeverFull q ∧
          (q = [] → burst = 0) ∧ burst - 1 + rate * (t - now) <
            (rl.after p').admitted (now :: q) := by
  have hsound : Sound rl := hnew ▸ sound_new hrate hburst created
  have hfields : rl.rate = rate ∧ rl.burst = burst ∧ rl.lastTime = created := hnew ▸ ⟨rfl, rfl, rfl⟩
  have hstart : rl.tokens = rl.burst := hnew ▸ rfl
  clear hnew
  obtain ⟨rfl, rfl, rfl⟩ := hfields
  refine ⟨fun p q hpq => ?_, fun p now q r hpq => ?_, fun p t r hpq hrejected => ?_⟩
  · have hp : Sound (rl.after p) := hsound.after (hclock.sublist (by simp [hpq]))
    have hle := hp.le
    rw [after_burst] at hle
    exact ⟨hp.nonneg, hle⟩
  · have hp : Sound (rl.after p) := hsound.after (hclock.sublist (by simp [hpq]))
    have hnow : (rl.after p).lastTime ≤ now := lastTime_le_of_clock (hclock.sublist (by simp [hpq]))
    have hwindow : (now :: q).Pairwise (· ≤ ·) := by
      have hsub : (now :: q).Sublist times := by
        rw [hpq, List.append_assoc]
        exact (List.sublist_append_left _ r).trans (List.sublist_append_right p _)
      exact hclock.sublist (hsub.cons _)
    have hle := hp.admitted_le hnow hwindow
    rwa [after_burst, after_rate] at hle
  · have hempty := tokens_of_rejected hrejected
    obtain hnever | ⟨p', now, q, hp', hfull, hnever⟩ := neverFull_or_last rl (p ++ [t])
    · exact .inl ⟨hnever, admitted_of_never_full hstart hnever (by simp) hempty⟩
    · have hlast : q.getLastD now = t := by
        have hends := congrArg List.getLast? hp'
        simpa [List.getLast?_append, List.getLast?_cons] using hends.symm
      refine .inr ⟨p', now, q, hp', hfull, hnever, ?_, ?_⟩
      · rintro rfl
        obtain ⟨rfl, h⟩ := List.append_inj' hp' rfl
        obtain rfl : t = now := by simpa using h
        have hless := allow_eq_false_iff.mp hrejected
        rw [hfull, after_burst] at hless
        have hless : rl.burst < 1 := by exact_mod_cast hless
        omega
      · exact admitted_of_last_full hfull hnever hlast (hp' ▸ hempty)

theorem bucket_bounds_two :
    let rl := RateLimiter.new 2 1 0
    (rl.after [0]).tokens = 0 ∧ ((rl.after [0]).allow (1 / 4)).1 = false ∧
      (rl.admitted [0, 1 / 4, 1 / 2] : Rat) ≤ 1 + 2 * (1 / 2 - 0) ∧
      (rl.NeverFull ([0] ++ [1 / 4]) ∧
        (1 : Int) - 1 + 2 * (1 / 4 - 0) < (rl.admitted ([0] ++ [1 / 4]) : Rat) ∨
        ∃ p' now q, [0] ++ [1 / 4] = p' ++ now :: q ∧ (rl.after p').Full now ∧
        (rl.after (p' ++ [now])).NeverFull q ∧
          (q = [] → (1 : Int) = 0) ∧ (1 : Int) - 1 + 2 * (1 / 4 - now) <
            ((rl.after p').admitted (now :: q) : Rat)) := by
  intro rl
  obtain ⟨_, hwindow, hrejected⟩ := bucket_bounds 2 1 0 [0, 1 / 4, 1 / 2] (Eq.refl rl) (by decide)
    (by decide) (by decide +kernel)
  have hearly : ((rl.after [0]).allow (1 / 4)).1 = false := by decide +kernel
  exact ⟨by decide +kernel, hearly, hwindow [] 0 [1 / 4, 1 / 2] [] rfl,
    hrejected [0] (1 / 4) [1 / 2] rfl hearly⟩

end PgMux.RateLimiting
