import Mathlib.Algebra.Order.Field.Rat
import Mathlib.Data.List.Infix
import PgMux.Breaker

/-!
# How a breaker trips and how long it holds

Only the outcome that fills a window can trip a closed breaker. An open one turns every request away
until its time is over, whatever is recorded or asked meanwhile.
-/

namespace PgMux.Breaker

def Call.outcome : Call → Option Bool
  | .recordSuccess => some false
  | .recordFailure => some true
  | .allow | .state => none

def outcomes (es : List Event) : List Bool := es.filterMap (·.call.outcome)

@[simp] theorem outcomes_concat (es : List Event) (e : Event) :
    outcomes (es ++ [e]) = outcomes es ++ e.call.outcome.toList := by
  cases h : e.call.outcome <;> simp [outcomes, h]

/-! ## One call -/

namespace CircuitBreaker

variable {cb : CircuitBreaker} {e : Event}

def count (cb : CircuitBreaker) (failed : Bool) : CircuitBreaker :=
  { cb with
    successes := cb.successes + (!failed).toNat
    failures := cb.failures + failed.toNat
    total := cb.total + 1 }

theorem step_of_closed (h : cb.state = .closed) :
    cb.step e = match e.call.outcome with
      | none => cb
      | some failed => (cb.count failed).evaluateWindow e.now := by
  obtain ⟨call, now⟩ := e
  cases call with
  | allow => simp [step, allow, Call.outcome, h]
  | recordSuccess => simp [step, recordSuccess, Call.outcome, count, h]
  | recordFailure => simp [step, recordFailure, Call.outcome, count, h]
  | state => simp [step, getState, Call.outcome, h]

theorem step_of_opened (h : cb.state = .opened) :
    cb.step e = if e.call.outcome = none ∧ cb.cfg.openDuration ≤ e.now - cb.openedAt then
        { cb with state := .halfOpen, halfOpenOK := 0 } else cb := by
  obtain ⟨call, now⟩ := e
  cases call with
  | allow =>
    by_cases hover : cb.cfg.openDuration ≤ now - cb.openedAt
    · simp [step, allow, Call.outcome, h, hover]
    · simp [step, allow, Call.outcome, h, hover]
  | recordSuccess => simp [step, recordSuccess, Call.outcome, h]
  | recordFailure => simp [step, recordFailure, Call.outcome, h]
  | state =>
    by_cases hover : cb.cfg.openDuration ≤ now - cb.openedAt
    · simp [step, getState, Call.outcome, h, hover]
    · simp [step, getState, Call.outcome, hover]

theorem step_of_halfOpen (h : cb.state = .halfOpen) :
    cb.step e = match e.call.outcome with
      | none => cb
      | some true => { cb with state := .opened, openedAt := e.now }
      | some false =>
        if cb.cfg.halfOpenMax ≤ cb.halfOpenOK + 1 then
          { cb with halfOpenOK := cb.halfOpenOK + 1, state := .closed }.resetCounters
        else { cb with halfOpenOK := cb.halfOpenOK + 1 } := by
  obtain ⟨call, now⟩ := e
  cases call with
  | allow => simp [step, allow, Call.outcome, h]
  | recordSuccess => simp [step, recordSuccess, Call.outcome, h]
  | recordFailure => simp [step, recordFailure, Call.outcome, h]
  | state => simp [step, getState, Call.outcome, h]

theorem allow_eq_none_iff {now : Int} :
    (cb.allow now).1 = none ↔ (cb.state = .opened → cb.cfg.openDuration ≤ now - cb.openedAt) := by
  cases h : cb.state with
  | closed | halfOpen => simp [allow, h]
  | opened =>
    by_cases hover : cb.cfg.openDuration ≤ now - cb.openedAt
    · simp [allow, h, hover]
    · simp [allow, h, hover]

theorem evaluateWindow_cases (cb : CircuitBreaker) (now : Int) :
    ((cb.total : Int) < cb.cfg.windowSize ∧ cb.evaluateWindow now = cb) ∨
      (cb.cfg.windowSize ≤ cb.total ∧ cb.cfg.errorThreshold ≤ (cb.failures : Rat) / cb.total ∧
        cb.evaluateWindow now = { cb with state := .opened, openedAt := now }.resetCounters) ∨
      (cb.cfg.windowSize ≤ cb.total ∧ ¬ cb.cfg.errorThreshold ≤ (cb.failures : Rat) / cb.total ∧
        cb.evaluateWindow now = cb.resetCounters) := by
  unfold evaluateWindow
  split
  · next hfull => exact .inl ⟨hfull, rfl⟩
  · next hfull =>
    have hfull : cb.cfg.windowSize ≤ cb.total := by omega
    dsimp only
    split
    · next htrips => exact .inr (.inl ⟨hfull, htrips, rfl⟩)
    · next htrips => exact .inr (.inr ⟨hfull, htrips, rfl⟩)

/-! ## What every call keeps -/

structure Sound (cfg : BreakerConfig) (cb : CircuitBreaker) : Prop where
  cfg : cb.cfg = (new cfg).cfg
  counts : cb.successes + cb.failures = cb.total
  incomplete : (cb.total : Int) < cb.cfg.windowSize

variable {cfg : BreakerConfig}

theorem windowSize_pos (cfg : BreakerConfig) : 0 < (new cfg).cfg.windowSize := by
  simp only [new]
  split <;> omega

theorem halfOpenMax_pos (cfg : BreakerConfig) : 0 < (new cfg).cfg.halfOpenMax := by
  simp only [new]
  split <;> omega

theorem sound_new (cfg : BreakerConfig) : Sound cfg (new cfg) := ⟨rfl, rfl, windowSize_pos cfg⟩

theorem sound_resetCounters (h : cb.cfg = (new cfg).cfg) : Sound cfg cb.resetCounters := by
  refine ⟨h, rfl, ?_⟩
  change (0 : Int) < cb.cfg.windowSize
  rw [h]
  exact windowSize_pos cfg

theorem Sound.count (h : Sound cfg cb) (failed : Bool) (now : Int) :
    Sound cfg ((cb.count failed).evaluateWindow now) := by
  have hcounts := h.counts
  obtain ⟨hopen, heq⟩ | ⟨_, _, heq⟩ | ⟨_, _, heq⟩ := (cb.count failed).evaluateWindow_cases now
  · rw [heq]
    refine ⟨h.cfg, ?_, hopen⟩
    cases failed with
    | false => simp only [CircuitBreaker.count, Bool.toNat_false, Bool.not_false,
        Bool.toNat_true]; omega
    | true => simp only [CircuitBreaker.count, Bool.toNat_true, Bool.not_true,
        Bool.toNat_false]; omega
  · rw [heq]
    exact sound_resetCounters h.cfg
  · rw [heq]
    exact sound_resetCounters h.cfg

theorem Sound.step (h : Sound cfg cb) (e : Event) : Sound cfg (cb.step e) := by
  cases hstate : cb.state with
  | closed =>
    rw [step_of_closed hstate]
    cases e.call.outcome with
    | none => exact h
    | some failed => exact h.count failed e.now
  | opened =>
    rw [step_of_opened hstate]
    split
    · exact ⟨h.cfg, h.counts, h.incomplete⟩
    · exact h
  | halfOpen =>
    rw [step_of_halfOpen hstate]
    cases e.call.outcome with
    | none => exact h
    | some failed =>
      cases failed with
      | true => exact ⟨h.cfg, h.counts, h.incomplete⟩
      | false =>
        dsimp only
        split
        · exact sound_resetCounters h.cfg
        · exact ⟨h.cfg, h.counts, h.incomplete⟩

end CircuitBreaker

open CircuitBreaker

theorem after_concat (cfg : BreakerConfig) (es : List Event) (e : Event) :
    after cfg (es ++ [e]) = (after cfg es).step e := by
  simp [after]

theorem sound_after (cfg : BreakerConfig) (es : List Event) : Sound cfg (after cfg es) := by
  induction es using List.reverseRecOn with
  | nil => exact sound_new cfg
  | append_singleton es e ih =>
    rw [after_concat]
    exact ih.step e

/-! ## Windows -/

def ClosedSince (cfg : BreakerConfig) (pre mid : List Event) : Prop :=
  (pre = [] ∨ ∃ p e, pre = p ++ [e] ∧ (after cfg p).state ≠ .closed) ∧
    ∀ m ∈ mid.inits, (after cfg (pre ++ m)).state = .closed

def Trips (cfg : BreakerConfig) (outs : List Bool) : Prop :=
  let w := (new cfg).cfg.windowSize.toNat
  w ∣ outs.length ∧ (new cfg).cfg.errorThreshold ≤
    ((outs.drop (outs.length - w)).count true : Rat) / w

instance (cfg : BreakerConfig) (outs : List Bool) : Decidable (Trips cfg outs) :=
  inferInstanceAs (Decidable (_ ∧ _))

structure Counts (w : Nat) (outs : List Bool) (cb : CircuitBreaker) : Prop where
  total : cb.total = outs.length % w
  failures : cb.failures = (outs.drop (outs.length - outs.length % w)).count true

theorem count_drop_concat {outs : List Bool} {k : Nat} (hk : k ≤ outs.length) (failed : Bool) :
    ((outs ++ [failed]).drop k).count true = (outs.drop k).count true + failed.toNat := by
  rw [List.drop_append_of_le_length hk, List.count_append]
  cases failed <;> rfl

variable {cfg : BreakerConfig} {cb : CircuitBreaker} {e : Event} {w : Nat} {outs : List Bool}

theorem Counts.zero (htotal : cb.total = 0) (hfailures : cb.failures = 0) (hw : w ∣ outs.length) :
    Counts w outs cb := by
  have hmod : outs.length % w = 0 := Nat.mod_eq_zero_of_dvd hw
  constructor
  · rw [htotal, hmod]
  · rw [hfailures, hmod]
    simp

theorem Counts.evaluateWindow (hw : (w : Int) = cb.cfg.windowSize) (hs : Sound cfg cb)
    (h : Counts w outs cb) (hclosed : cb.state = .closed) (failed : Bool) (now : Int) :
    ((cb.count failed).evaluateWindow now).state = (if Trips cfg (outs ++ [failed]) then .opened
      else .closed) ∧ Counts w (outs ++ [failed]) ((cb.count failed).evaluateWindow now) := by
  have htotal := h.total
  have hincomplete := hs.incomplete
  have hsize : (new cfg).cfg.windowSize.toNat = w := by rw [← hs.cfg, ← hw]; rfl
  have hthreshold : (new cfg).cfg.errorThreshold = cb.cfg.errorThreshold := by rw [hs.cfg]
  have hlength : (outs ++ [failed]).length = outs.length + 1 := by simp
  have hdiv := Nat.div_add_mod outs.length w
  obtain ⟨hopen, heq⟩ | hfull := (cb.count failed).evaluateWindow_cases now
  · -- The window goes on: no multiple of its size is reached.
    have hless : outs.length % w + 1 < w := by
      have : ((cb.total + 1 : Nat) : Int) < cb.cfg.windowSize := hopen
      omega
    have hmod : (outs.length + 1) % w = outs.length % w + 1 := by
      rw [Nat.add_mod, Nat.mod_eq_of_lt (by omega : 1 < w), Nat.mod_eq_of_lt hless]
    have hnot : ¬ Trips cfg (outs ++ [failed]) := by
      rintro ⟨hdvd, _⟩
      rw [hsize, hlength, Nat.dvd_iff_mod_eq_zero] at hdvd
      omega
    rw [heq, if_neg hnot]
    refine ⟨hclosed, ⟨?_, ?_⟩⟩
    · rw [hlength, hmod, ← htotal]
      rfl
    · rw [hlength, hmod, Nat.add_sub_add_right, count_drop_concat (Nat.sub_le _ _), ← h.failures]
      rfl
  · have hlast : outs.length % w + 1 = w := by
      have : cb.cfg.windowSize ≤ ((cb.total + 1 : Nat) : Int) := by
        obtain ⟨hfull, _⟩ | ⟨hfull, _⟩ := hfull
        · exact hfull
        · exact hfull
      omega
    have hdvd : w ∣ (outs ++ [failed]).length := by
      refine ⟨outs.length / w + 1, ?_⟩
      rw [hlength, Nat.mul_add_one]
      omega
    have hfailures : (cb.count failed).failures =
        ((outs ++ [failed]).drop ((outs ++ [failed]).length - w)).count true := by
      have hstart : outs.length + 1 - w = outs.length - outs.length % w := by omega
      rw [hlength, hstart, count_drop_concat (Nat.sub_le _ _), ← h.failures]
      rfl
    have hcount : (cb.count failed).total = w := by rw [← hlast, ← htotal]; rfl
    have htrips : Trips cfg (outs ++ [failed]) ↔
        cb.cfg.errorThreshold ≤ ((cb.count failed).failures : Rat) / (cb.count failed).total := by
      simp only [Trips, hsize, hthreshold, hfailures, hcount, hdvd, true_and]
    obtain ⟨_, hrate, heq⟩ | ⟨_, hrate, heq⟩ := hfull
    · rw [heq, if_pos (htrips.mpr hrate)]
      exact ⟨rfl, .zero rfl rfl hdvd⟩
    · rw [heq, if_neg (mt htrips.mp hrate)]
      exact ⟨hclosed, .zero rfl rfl hdvd⟩

theorem Counts.step (hw : (w : Int) = cb.cfg.windowSize) (hs : Sound cfg cb) (h : Counts w outs cb)
    (hclosed : cb.state = .closed) (e : Event) :
    (cb.step e).state = (if e.call.outcome ≠ none ∧
        Trips cfg (outs ++ e.call.outcome.toList) then .opened else .closed) ∧
      Counts w (outs ++ e.call.outcome.toList) (cb.step e) := by
  rw [step_of_closed hclosed]
  cases e.call.outcome with
  | none => simpa [hclosed] using h
  | some failed => simpa using h.evaluateWindow hw hs hclosed failed e.now

theorem counters_of_closes (h : cb.state ≠ .closed) (hclosed : (cb.step e).state = .closed) :
    (cb.step e).total = 0 ∧ (cb.step e).failures = 0 := by
  cases hstate : cb.state with
  | closed => exact absurd hstate h
  | opened =>
    rw [step_of_opened hstate] at hclosed
    split at hclosed
    · simp at hclosed
    · exact absurd hclosed h
  | halfOpen =>
    rw [step_of_halfOpen hstate] at hclosed ⊢
    cases hout : e.call.outcome with
    | none => simp [hout, hstate] at hclosed
    | some failed =>
      cases failed with
      | true => simp [hout] at hclosed
      | false =>
        simp only [hout] at hclosed ⊢
        by_cases hmax : cb.cfg.halfOpenMax ≤ cb.halfOpenOK + 1
        · rw [if_pos hmax]
          exact ⟨rfl, rfl⟩
        · rw [if_neg hmax] at hclosed
          exact absurd hclosed h

theorem counts_of_closedSince {pre mid : List Event} (hw : (w : Int) = (new cfg).cfg.windowSize)
    (h : ClosedSince cfg pre mid) : Counts w (outcomes mid) (after cfg (pre ++ mid)) := by
  induction mid using List.reverseRecOn with
  | nil =>
    have hclosed : (after cfg (pre ++ [])).state = .closed := h.2 [] (by simp)
    rw [List.append_nil] at hclosed ⊢
    obtain rfl | ⟨p, e, rfl, hbefore⟩ := h.1
    · exact .zero rfl rfl (by simp [outcomes])
    · rw [after_concat] at hclosed ⊢
      obtain ⟨htotal, hfailures⟩ := counters_of_closes hbefore hclosed
      exact .zero htotal hfailures (by simp [outcomes])
  | append_singleton mid e ih =>
    have hmid : ClosedSince cfg pre mid := by
      refine ⟨h.1, fun m hm => h.2 m ?_⟩
      rw [List.mem_inits] at hm ⊢
      exact hm.trans (List.prefix_append mid [e])
    have hclosed : (after cfg (pre ++ mid)).state = .closed := h.2 mid (by simp [List.mem_inits])
    have hs := sound_after cfg (pre ++ mid)
    rw [← List.append_assoc, after_concat, outcomes_concat]
    exact ((ih hmid).step (by rw [hw, hs.cfg]) hs hclosed e).2

/-! ## The time of an open breaker -/

def Opens (cfg : BreakerConfig) (pre : List Event) (e : Event) : Prop :=
  (after cfg pre).state ≠ .opened ∧ (after cfg (pre ++ [e])).state = .opened

theorem openedAt_of_opens (h : cb.state ≠ .opened) (hopened : (cb.step e).state = .opened) :
    (cb.step e).openedAt = e.now := by
  cases hstate : cb.state with
  | closed =>
    rw [step_of_closed hstate] at hopened ⊢
    cases hout : e.call.outcome with
    | none => simp [hout, hstate] at hopened
    | some failed =>
      simp only [hout] at hopened ⊢
      obtain ⟨_, heq⟩ | ⟨_, _, heq⟩ | ⟨_, _, heq⟩ := (cb.count failed).evaluateWindow_cases e.now
      · rw [heq] at hopened
        exact absurd hopened h
      · rw [heq]
        rfl
      · rw [heq] at hopened
        exact absurd hopened h
  | opened => exact absurd hstate h
  | halfOpen =>
    rw [step_of_halfOpen hstate] at hopened ⊢
    cases hout : e.call.outcome with
    | none => simp [hout, hstate] at hopened
    | some failed =>
      cases failed with
      | true => rfl
      | false =>
        simp only [hout] at hopened
        split at hopened
        · simp [resetCounters] at hopened
        · exact absurd hopened h

theorem foldl_of_opened {mid : List Event} (h : cb.state = .opened)
    (hnow : ∀ e ∈ mid, e.now < cb.openedAt + cb.cfg.openDuration) : mid.foldl .step cb = cb := by
  induction mid with
  | nil => rfl
  | cons e mid ih =>
    have hearly : ¬ cb.cfg.openDuration ≤ e.now - cb.openedAt := by
      have := hnow e (by simp)
      omega
    have hstep : cb.step e = cb := by
      rw [step_of_opened h, if_neg fun hover => hearly hover.2]
    rw [List.foldl_cons, hstep]
    exact ih fun e' he' => hnow e' (by simp [he'])

theorem held_of_opens {pre mid : List Event} {now : Int} (h : Opens cfg pre e)
    (hmid : ∀ e' ∈ mid, e'.now ≤ now) (hnow : now < e.now + (new cfg).cfg.openDuration) :
    ((after cfg (pre ++ e :: mid)).allow now).1 = some "circuit breaker is open" := by
  obtain ⟨hbefore, hopened⟩ := h
  have hcfg := (sound_after cfg (pre ++ [e])).cfg
  have hat : (after cfg (pre ++ [e])).openedAt = e.now := by
    rw [after_concat] at hopened ⊢
    exact openedAt_of_opens hbefore hopened
  have hsame : after cfg (pre ++ e :: mid) = after cfg (pre ++ [e]) := by
    have hfold : after cfg (pre ++ e :: mid) =
      mid.foldl .step (after cfg (pre ++ [e])) := by simp [after]
    rw [hfold]
    refine foldl_of_opened hopened fun e' he' => ?_
    have := hmid e' he'
    rw [hat, hcfg]
    omega
  have hearly : ¬ (new cfg).cfg.openDuration ≤ now - e.now := by omega
  simp [hsame, allow, hopened, hat, hcfg, hearly]

/-- The four laws of a breaker: its window, when it trips, how long it holds, and what a failed
probe does. -/
theorem trips_and_holds (cfg : BreakerConfig) (es : List Event)
    (hclock : es.Pairwise (·.now ≤ ·.now)) :
    (∀ pre post, es = pre ++ post → (after cfg pre).state = .closed →
      (after cfg pre).successes + (after cfg pre).failures = (after cfg pre).total ∧
        ((after cfg pre).total : Int) < (new cfg).cfg.windowSize) ∧
    (∀ pre mid e post, es = pre ++ mid ++ e :: post → ClosedSince cfg pre mid →
      (after cfg (pre ++ mid ++ [e])).state =
        if e.call.outcome ≠ none ∧ Trips cfg (outcomes (mid ++ [e])) then .opened else .closed) ∧
    (∀ pre e mid a post, es = pre ++ e :: (mid ++ a :: post) → Opens cfg pre e → a.call = .allow →
      a.now < e.now + (new cfg).cfg.openDuration →
        ((after cfg (pre ++ e :: mid)).allow a.now).1 = some "circuit breaker is open") ∧
    ∀ pre e post, es = pre ++ e :: post → (after cfg pre).state = .halfOpen →
    e.call = .recordFailure → Opens cfg pre e := by
  refine ⟨fun pre post _ _ => ?_, fun pre mid e post _ h => ?_,
    fun pre e mid a post hes h _ hnow => ?_, fun pre e post _ h he => ?_⟩
  · have hs := sound_after cfg pre
    exact ⟨hs.counts, hs.cfg ▸ hs.incomplete⟩
  · have hw : ((new cfg).cfg.windowSize.toNat : Int) = (new cfg).cfg.windowSize :=
      Int.toNat_of_nonneg (windowSize_pos cfg).le
    have hs := sound_after cfg (pre ++ mid)
    have hclosed : (after cfg (pre ++ mid)).state = .closed := h.2 mid (by simp [List.mem_inits])
    rw [after_concat, outcomes_concat]
    exact ((counts_of_closedSince hw h).step (by rw [hw, hs.cfg]) hs hclosed e).1
  · subst hes
    refine held_of_opens h (fun e' he' => ?_) hnow
    simp only [List.pairwise_append, List.pairwise_cons] at hclock
    exact hclock.2.1.2.2.2 e' he' a (by simp)
  · constructor
    · simp [h]
    · rw [after_concat, step_of_halfOpen h, he]
      rfl

def sensitive : BreakerConfig := ⟨1 / 2, 5, 1, 2⟩

theorem trips_and_holds_twice :
    let es : List Event := [⟨.recordFailure, 1⟩, ⟨.recordSuccess, 2⟩, ⟨.allow, 6⟩, ⟨.state, 7⟩,
      ⟨.recordFailure, 8⟩, ⟨.allow, 12⟩]
    es.Pairwise (·.now ≤ ·.now) ∧ (after sensitive (es.take 2)).state = .opened ∧
      ((after sensitive (es.take 2)).allow 6).1 = some "circuit breaker is open" ∧
      ((after sensitive (es.take 5)).allow 12).1 = some "circuit breaker is open" := by
  intro es
  have hclock : es.Pairwise (·.now ≤ ·.now) := by decide
  obtain ⟨_, htrips, hholds, hreopens⟩ := trips_and_holds sensitive es hclock
  have hopened : (after sensitive (es.take 2)).state = .opened := by
    have hsince : ClosedSince sensitive [] (es.take 1) := ⟨.inl rfl, by decide +kernel⟩
    rw [show es.take 2 = [] ++ es.take 1 ++ [⟨.recordSuccess, 2⟩] from rfl,
      htrips [] _ _ _ rfl hsince]
    exact if_pos (by decide +kernel)
  refine ⟨hclock, hopened, ?_, ?_⟩
  · exact hholds (es.take 1) _ [] ⟨.allow, 6⟩ _ rfl ⟨by decide +kernel, hopened⟩ rfl (by decide)
  · have hopens : Opens sensitive (es.take 4) ⟨.recordFailure, 8⟩ :=
      hreopens _ _ _ rfl (by decide +kernel) rfl
    exact hholds (es.take 4) _ [] ⟨.allow, 12⟩ _ rfl hopens rfl (by decide)

end PgMux.Breaker
