import Mathlib.Data.List.Perm.Subperm
import PgMux.BreakerRuns

/-!
# Probes of a half-open breaker

A half-open breaker admits every request and counts successes without a look at the requests they
belong to. `origin` gives for a recorded outcome the call of `Allow` that admitted its request.
-/

namespace PgMux.Breaker

open CircuitBreaker

def HalfOpenDuring (cfg : BreakerConfig) (pre mid : List Event) : Prop :=
  (after cfg pre).state ≠ .halfOpen ∧ ∀ m ∈ mid.inits, m ≠ [] →
    (after cfg (pre ++ m)).state = .halfOpen

def calls (c : Call) (n : Nat) (es : List Event) : List Nat :=
  ((es.zipIdx n).filter (·.1.call = c)).map (·.2)

def grants (cfg : BreakerConfig) (pre mid : List Event) : List Nat :=
  ((mid.zipIdx pre.length).filter fun x =>
    x.1.call = .allow ∧ ((after cfg ((pre ++ mid).take x.2)).allow x.1.now).1 = none).map (·.2)

structure Probes (cfg : BreakerConfig) (origin : Nat → Nat) (es : List Event) : Prop where
  bounded : ∀ pre mid post, es = pre ++ mid ++ post → HalfOpenDuring cfg pre mid →
    ((grants cfg pre mid).length : Int) ≤ (new cfg).cfg.halfOpenMax
  closes : ∀ pre mid e post, es = pre ++ mid ++ e :: post → mid ≠ [] → HalfOpenDuring cfg pre mid →
    (after cfg (pre ++ mid ++ [e])).state = .closed →
      (new cfg).cfg.halfOpenMax ≤
        ((grants cfg pre mid).filter (· ∈
          (calls .recordSuccess pre.length (mid ++ [e])).map origin)).length

/-! ## Positions -/

theorem calls_nodup (c : Call) (n : Nat) (es : List Event) : (calls c n es).Nodup := by
  have hall : ((es.zipIdx n).map (·.2)).Nodup := by
    rw [List.zipIdx_map_snd]
    exact List.nodup_range'
  exact hall.sublist (List.filter_sublist.map _)

theorem length_calls (c : Call) (n : Nat) (es : List Event) :
    (calls c n es).length = es.countP (·.call = c) := by
  rw [calls, List.length_map, ← List.countP_eq_length_filter]
  conv_rhs => rw [← List.zipIdx_map_fst n es, List.countP_map]
  rfl

theorem length_le_filter_iff {α : Type} [DecidableEq α] {xs ys : List α} (hys : ys.Nodup) :
    xs.length ≤ (ys.filter (· ∈ xs)).length ↔ xs.Nodup ∧ ∀ x ∈ xs, x ∈ ys := by
  have hnodup : (ys.filter (· ∈ xs)).Nodup := hys.filter _
  constructor
  · intro hle
    have hsub : ys.filter (· ∈ xs) ⊆ xs := by
      intro x hx
      simpa using (List.mem_filter.mp hx).2
    have hperm := (hnodup.subperm hsub).perm_of_length_le hle
    refine ⟨hperm.nodup_iff.mp hnodup, fun x hx => ?_⟩
    exact (List.mem_filter.mp (hperm.mem_iff.mpr hx)).1
  · rintro ⟨hxs, hmem⟩
    refine (hxs.subperm fun x hx => ?_).length_le
    exact List.mem_filter.mpr ⟨hmem x hx, by simpa using hx⟩

/-! ## One period -/

variable {cfg : BreakerConfig} {cb : CircuitBreaker} {pre mid : List Event} {e : Event}

theorem granted_of_halfOpen (h : (cb.step e).state = .halfOpen) : (cb.allow e.now).1 = none := by
  rw [allow_eq_none_iff]
  intro hopened
  by_contra hearly
  rw [step_of_opened hopened, if_neg fun hover => hearly hover.2, hopened] at h
  simp at h

theorem HalfOpenDuring.init (h : HalfOpenDuring cfg pre (mid ++ [e])) :
    HalfOpenDuring cfg pre mid := by
  refine ⟨h.1, fun m hm hne => h.2 m ?_ hne⟩
  rw [List.mem_inits] at hm ⊢
  exact hm.trans (List.prefix_append mid [e])

theorem HalfOpenDuring.state (h : HalfOpenDuring cfg pre mid) (hne : mid ≠ []) :
    (after cfg (pre ++ mid)).state = .halfOpen :=
  h.2 mid (by simp [List.mem_inits]) hne

theorem grants_eq_calls (h : HalfOpenDuring cfg pre mid) :
    grants cfg pre mid = calls .allow pre.length mid := by
  unfold grants calls
  congr 1
  refine List.filter_congr fun x hx => ?_
  obtain ⟨e, p⟩ := x
  obtain ⟨hle, hp⟩ := List.mem_zipIdx_iff_le_and_getElem?_sub.mp hx
  by_cases he : e.call = .allow
  · have hlt : p - pre.length < mid.length := (List.getElem?_eq_some_iff.mp hp).1
    have htake : (pre ++ mid).take p = pre ++ mid.take (p - pre.length) := by
      rw [List.take_append, List.take_of_length_le hle]
    have hnext : mid.take (p - pre.length + 1) = mid.take (p - pre.length) ++ [e] := by
      rw [List.take_add_one, hp]
      rfl
    have hhalf : (after cfg (pre ++ mid.take (p - pre.length + 1))).state = .halfOpen := by
      refine h.2 _ ?_ (by simp [hnext])
      rw [List.mem_inits]
      exact List.take_prefix _ _
    rw [hnext, ← List.append_assoc, after_concat] at hhalf
    simp [he, htake, granted_of_halfOpen hhalf]
  · simp [he]

theorem enters_halfOpen (h : cb.state ≠ .halfOpen) (hhalf : (cb.step e).state = .halfOpen) :
    e.call.outcome = none ∧ (cb.step e).halfOpenOK = 0 := by
  cases hstate : cb.state with
  | closed =>
    rw [step_of_closed hstate] at hhalf
    cases hout : e.call.outcome with
    | none => exact absurd (by simpa [hout] using hhalf) h
    | some failed =>
      simp only [hout] at hhalf
      obtain ⟨_, heq⟩ | ⟨_, _, heq⟩ | ⟨_, _, heq⟩ := (cb.count failed).evaluateWindow_cases e.now
      · rw [heq] at hhalf
        exact absurd hhalf h
      · rw [heq] at hhalf
        exact State.noConfusion hhalf
      · rw [heq] at hhalf
        exact absurd hhalf h
  | opened =>
    rw [step_of_opened hstate] at hhalf ⊢
    by_cases hover : e.call.outcome = none ∧ cb.cfg.openDuration ≤ e.now - cb.openedAt
    · rw [if_pos hover]
      exact ⟨hover.1, rfl⟩
    · rw [if_neg hover] at hhalf
      exact absurd hhalf h
  | halfOpen => exact absurd hstate h

theorem stays_halfOpen (h : cb.state = .halfOpen) (hhalf : (cb.step e).state = .halfOpen) :
    (cb.step e).halfOpenOK = cb.halfOpenOK + (if e.call = .recordSuccess then 1 else 0) ∧
      (((cb.halfOpenOK : Int) < cb.cfg.halfOpenMax) →
        ((cb.step e).halfOpenOK : Int) < cb.cfg.halfOpenMax) := by
  rw [step_of_halfOpen h] at hhalf ⊢
  obtain ⟨call, now⟩ := e
  cases call with
  | allow | state => simp [Call.outcome]
  | recordFailure => simp [Call.outcome] at hhalf
  | recordSuccess =>
    simp only [Call.outcome] at hhalf ⊢
    by_cases hmax : cb.cfg.halfOpenMax ≤ cb.halfOpenOK + 1
    · rw [if_pos hmax] at hhalf
      exact State.noConfusion hhalf
    · rw [if_neg hmax]
      refine ⟨rfl, fun _ => ?_⟩
      change ((cb.halfOpenOK + 1 : Nat) : Int) < _
      omega

theorem closes_halfOpen (h : cb.state ≠ .closed) (hclosed : (cb.step e).state = .closed) :
    cb.state = .halfOpen ∧ e.call = .recordSuccess ∧ cb.cfg.halfOpenMax ≤ cb.halfOpenOK + 1 := by
  cases hstate : cb.state with
  | closed => exact absurd hstate h
  | opened =>
    rw [step_of_opened hstate] at hclosed
    split at hclosed
    · exact State.noConfusion hclosed
    · exact absurd hclosed h
  | halfOpen =>
    refine ⟨rfl, ?_⟩
    rw [step_of_halfOpen hstate] at hclosed
    obtain ⟨call, now⟩ := e
    cases call with
    | allow | state => exact absurd hclosed h
    | recordFailure => exact State.noConfusion hclosed
    | recordSuccess =>
      refine ⟨rfl, ?_⟩
      by_contra hmax
      simp only [Call.outcome, if_neg hmax] at hclosed
      exact h hclosed

theorem count_halfOpen (h : HalfOpenDuring cfg pre mid) (hne : mid ≠ []) :
    (after cfg (pre ++ mid)).halfOpenOK = mid.countP (·.call = .recordSuccess) ∧
      ((after cfg (pre ++ mid)).halfOpenOK : Int) < (new cfg).cfg.halfOpenMax := by
  induction mid using List.reverseRecOn with
  | nil => exact absurd rfl hne
  | append_singleton mid e ih =>
    have hhalf := h.state hne
    rw [← List.append_assoc, after_concat] at hhalf ⊢
    by_cases hmid : mid = []
    · subst hmid
      rw [List.append_nil] at hhalf ⊢
      obtain ⟨hout, hok⟩ := enters_halfOpen h.1 hhalf
      have he : e.call ≠ .recordSuccess := by
        intro he
        simp [he, Call.outcome] at hout
      rw [hok]
      exact ⟨by simp [he], halfOpenMax_pos cfg⟩
    · obtain ⟨hcount, hless⟩ := ih h.init hmid
      have hcfg := (sound_after cfg (pre ++ mid)).cfg
      obtain ⟨hok, hkeep⟩ := stays_halfOpen (h.init.state hmid) hhalf
      rw [hcfg] at hkeep
      refine ⟨?_, hkeep hless⟩
      rw [hok, hcount, List.countP_append, List.countP_singleton]
      simp

theorem count_of_closes (h : HalfOpenDuring cfg pre mid) (hne : mid ≠ [])
    (hclosed : (after cfg (pre ++ mid ++ [e])).state = .closed) (origin : Nat → Nat) :
    (((calls .recordSuccess pre.length (mid ++ [e])).map origin).length : Int) =
      (new cfg).cfg.halfOpenMax := by
  have hhalf := h.state hne
  have hcfg := (sound_after cfg (pre ++ mid)).cfg
  obtain ⟨hcount, hless⟩ := count_halfOpen h hne
  rw [after_concat] at hclosed
  obtain ⟨_, he, hmax⟩ := closes_halfOpen (by simp [hhalf]) hclosed
  rw [hcfg] at hmax
  rw [List.length_map, length_calls, List.countP_append, List.countP_singleton, ← hcount]
  simp only [he, decide_true, if_true]
  omega

theorem paid_iff (h : HalfOpenDuring cfg pre mid) (hne : mid ≠ [])
    (hclosed : (after cfg (pre ++ mid ++ [e])).state = .closed) (origin : Nat → Nat) :
    (new cfg).cfg.halfOpenMax ≤
        ((grants cfg pre mid).filter (· ∈
          (calls .recordSuccess pre.length (mid ++ [e])).map origin)).length ↔
      ((calls .recordSuccess pre.length (mid ++ [e])).map origin).Nodup ∧
        ∀ p ∈ (calls .recordSuccess pre.length (mid ++ [e])).map origin,
        p ∈ calls .allow pre.length mid := by
  rw [grants_eq_calls h, ← count_of_closes h hne hclosed origin, Int.ofNat_le]
  exact length_le_filter_iff (calls_nodup .allow pre.length mid)

theorem exists_halfOpenDuring (es : List Event) (h : (after cfg es).state = .halfOpen) :
    ∃ pre mid, es = pre ++ mid ∧ mid ≠ [] ∧ HalfOpenDuring cfg pre mid := by
  induction es using List.reverseRecOn with
  | nil => exact State.noConfusion h
  | append_singleton es e ih =>
    by_cases hbefore : (after cfg es).state = .halfOpen
    · obtain ⟨pre, mid, rfl, hne, hduring⟩ := ih hbefore
      refine ⟨pre, mid ++ [e], List.append_assoc .., by simp, hduring.1, fun m hm hne' => ?_⟩
      rw [List.mem_inits, List.prefix_concat_iff] at hm
      obtain rfl | hm := hm
      · rwa [← List.append_assoc]
      · exact hduring.2 m (by rwa [List.mem_inits]) hne'
    · refine ⟨es, [e], rfl, by simp, hbefore, fun m hm hne => ?_⟩
      have hm : m = [e] := by simpa [hne] using hm
      rwa [hm]

/-! ## All periods -/

/-- Probes are bounded and paid for just if the requests and successes of each half-open period
are. -/
theorem probes_iff (cfg : BreakerConfig) (origin : Nat → Nat) (es : List Event) :
    (∀ p e post, es = p ++ e :: post → (after cfg p).state ≠ .closed →
      (after cfg (p ++ [e])).state = .closed →
      ∃ pre mid, p = pre ++ mid ∧ mid ≠ [] ∧ HalfOpenDuring cfg pre mid) ∧
    (Probes cfg origin es ↔
      (∀ pre mid post, es = pre ++ mid ++ post → HalfOpenDuring cfg pre mid →
        (mid.countP (·.call = .allow) : Int) ≤ (new cfg).cfg.halfOpenMax) ∧
      ∀ pre mid e post, es = pre ++ mid ++ e :: post → mid ≠ [] → HalfOpenDuring cfg pre mid →
        (after cfg (pre ++ mid ++ [e])).state = .closed →
          ((calls .recordSuccess pre.length (mid ++ [e])).map origin).Nodup ∧
            ∀ p ∈ (calls .recordSuccess pre.length (mid ++ [e])).map origin,
            p ∈ calls .allow pre.length mid) := by
  refine ⟨fun p e post _ hbefore hclosed => ?_, ?_⟩
  · rw [after_concat] at hclosed
    exact exists_halfOpenDuring p (closes_halfOpen hbefore hclosed).1
  · have hbounded : ∀ pre mid, HalfOpenDuring cfg pre mid →
        (grants cfg pre mid).length = mid.countP (·.call = .allow) := by
      intro pre mid h
      rw [grants_eq_calls h, length_calls]
    constructor
    · rintro ⟨hprobes, hpaid⟩
      constructor
      · intro pre mid post hes h
        rw [← hbounded pre mid h]
        exact hprobes pre mid post hes h
      · intro pre mid e post hes hne h hclosed
        exact (paid_iff h hne hclosed origin).mp (hpaid pre mid e post hes hne h hclosed)
    · rintro ⟨hprobes, hpaid⟩
      constructor
      · intro pre mid post hes h
        rw [hbounded pre mid h]
        exact hprobes pre mid post hes h
      · intro pre mid e post hes hne h hclosed
        exact (paid_iff h hne hclosed origin).mpr (hpaid pre mid e post hes hne h hclosed)

theorem probes_unbounded :
    (let pre : List Event := [⟨.recordFailure, 1⟩, ⟨.recordSuccess, 2⟩]
      let mid : List Event := [⟨.allow, 7⟩, ⟨.allow, 7⟩]
      HalfOpenDuring sensitive pre mid ∧ grants sensitive pre mid = [2, 3] ∧
        (new sensitive).cfg.halfOpenMax = 1) ∧
    let pre : List Event := [⟨.allow, 0⟩, ⟨.allow, 0⟩, ⟨.allow, 0⟩, ⟨.recordFailure, 1⟩,
      ⟨.recordSuccess, 2⟩]
    let mid : List Event := [⟨.allow, 7⟩]
    let origin : Nat → Nat := fun q => if q = 3 then 0 else if q = 4 then 1 else 2
    HalfOpenDuring sensitive pre mid ∧
      (after sensitive (pre ++ mid ++ [⟨.recordSuccess, 8⟩])).state = .closed ∧
      grants sensitive pre mid = [5] ∧
      (calls .recordSuccess pre.length (mid ++ [⟨.recordSuccess, 8⟩])).map origin = [2] := by
  refine ⟨⟨⟨?_, ?_⟩, ?_, ?_⟩, ⟨?_, ?_⟩, ?_, ?_, ?_⟩
  all_goals decide +kernel

end PgMux.Breaker
