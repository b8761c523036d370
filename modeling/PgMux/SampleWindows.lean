import Mathlib.Data.List.Rotate
import PgMux.Bytes

/-!
# Sample windows

The statistics of a pattern keep the latest samples in a ring. Record looks a pattern up under the
read lock and admits it under the write lock, where it looks again.
-/

namespace PgMux.SampleWindows

/-! ## Rings -/

section

variable {α : Type} {m : Nat} {xs : List α} {r : List α × Nat}

/-- Appends to a ring until it is full, then writes over its oldest item. -/
def push (m : Nat) (r : List α × Nat) (x : α) : List α × Nat :=
  if r.1.length < m then (r.1 ++ [x], r.2) else (r.1.set r.2 x, (r.2 + 1) % m)

/-- The latest items are in the ring, in their order from the index on. -/
structure Keeps (m : Nat) (xs : List α) (r : List α × Nat) : Prop where
  idx : r.2 < m
  start : r.1.length < m → r.2 = 0
  latest : r.1.rotate r.2 = xs.drop (xs.length - m)

theorem rotate_set_succ {items : List α} {i : Nat} (hi : i < items.length) (x : α) :
    (items.set i x).rotate (i + 1) = (items.rotate i).tail ++ [x] := by
  obtain ⟨before, oldest, behind, rfl, rfl⟩ : ∃ before oldest behind,
      items = before ++ oldest :: behind ∧ before.length = i :=
    ⟨items.take i, items[i], items.drop (i + 1), by simp, by rw [List.length_take]; omega⟩
  have hset : (before ++ oldest :: behind).set before.length x = before ++ [x] ++ behind := by simp
  rw [hset, show before.length + 1 = (before ++ [x]).length by simp, List.rotate_append_length_eq,
    List.rotate_append_length_eq, List.cons_append, List.tail_cons, List.append_assoc]

theorem Keeps.push (h : Keeps m xs r) (x : α) : Keeps m (xs ++ [x]) (push m r x) := by
  obtain ⟨items, i⟩ := r
  obtain ⟨hi, hstart, hlatest⟩ := h
  simp only at hi hstart hlatest
  have hlength : items.length = xs.length - (xs.length - m) := by
    have := congrArg List.length hlatest
    rwa [List.length_rotate, List.length_drop] at this
  unfold SampleWindows.push
  simp only
  split_ifs with hroom
  · obtain rfl := hstart hroom
    rw [show xs.length - m = 0 by omega, List.rotate_zero, List.drop_zero] at hlatest
    subst hlatest
    refine ⟨hi, fun _ => rfl, ?_⟩
    rw [List.length_append, List.length_singleton, show items.length + 1 - m = 0 by omega]
    simp
  · have hfull : (items.set i x).length = m := by
      rw [List.length_set]
      omega
    refine ⟨Nat.mod_lt _ (by omega), fun hshort => absurd hshort hfull.not_lt, ?_⟩
    calc (items.set i x).rotate ((i + 1) % m)
      _ = (items.set i x).rotate (i + 1) := by rw [← hfull, List.rotate_mod]
      _ = (xs.drop (xs.length - m)).tail ++ [x] := by rw [rotate_set_succ (by omega), hlatest]
      _ = xs.drop (xs.length + 1 - m) ++
        [x] := by rw [List.tail_drop, show xs.length - m + 1 = xs.length + 1 - m by omega]
      _ = (xs ++ [x]).drop ((xs ++ [x]).length - m) := by
        rw [List.length_append, List.length_singleton, List.drop_append_of_le_length (by omega)]

theorem keeps_foldl (hm : 0 < m) (xs : List α) : Keeps m xs (xs.foldl (push m) ([], 0)) := by
  induction xs using List.reverseRecOn with
  | nil => exact ⟨hm, fun _ => rfl, by simp⟩
  | append_singleton xs x ih =>
    rw [List.foldl_append]
    exact ih.push x

theorem Keeps.perm (h : Keeps m xs r) : r.1.Perm (xs.drop (xs.length - m)) := by
  rw [← h.latest]
  exact (List.rotate_perm _ _).symm

end

/-! ## One pattern -/

/-- A counter that starts at zero is the number of its increments until it wraps. -/
theorem toInt_ofNat_eq_iff (n : Nat) : (Int64.ofNat n).toInt = n ↔ n < 2 ^ 63 := by
  constructor
  · intro h
    have hlt := Int64.toInt_lt (Int64.ofNat n)
    rw [h] at hlt
    exact_mod_cast hlt
  · exact Int64.toInt_ofNat_of_lt

structure PatternStats where
  count : Int64
  totalMs : Float
  minMs : Float
  maxMs : Float
  durs : List Int
  idx : Nat
  maxSamps : Nat

def newPatternStats (maxSamples : Nat) : PatternStats := ⟨0, 0, -1, 0, [], 0, maxSamples⟩

def durationMs (d : Int) : Float := Float.ofInt (d.tdiv 1000) / 1000

def PatternStats.record (ps : PatternStats) (dur : Int) : PatternStats :=
  let ms := durationMs dur
  let (durs, idx) := push ps.maxSamps (ps.durs, ps.idx) dur
  { ps with
    count := ps.count + 1
    totalMs := ps.totalMs + ms
    minMs := if ps.minMs < 0 ∨ ms < ps.minMs then ms else ps.minMs
    maxMs := if ms > ps.maxMs then ms else ps.maxMs
    durs, idx }

theorem record_foldl (m : Nat) (durs : List Int) :
    let ps := durs.foldl PatternStats.record (newPatternStats m)
    ps.count = Int64.ofNat durs.length ∧ ps.maxSamps = m ∧
      (ps.durs, ps.idx) = durs.foldl (push m) ([], 0) := by
  induction durs using List.reverseRecOn with
  | nil => exact ⟨rfl, rfl, rfl⟩
  | append_singleton durs dur ih =>
    obtain ⟨hcount, hm, hring⟩ := ih
    simp only [List.foldl_append, List.foldl_cons, List.foldl_nil, List.length_append,
      List.length_singleton, Int64.ofNat_add, ← hring]
    exact ⟨congrArg (· + 1) hcount, hm, by rw [PatternStats.record, hm]⟩

namespace Mirror

abbrev maxSamples : Nat := 1000

structure PatternStats where
  count : Int64
  primaryDurs : List Int
  mirrorDurs : List Int
  idx : Nat

def PatternStats.record (ps : PatternStats) (r : Int × Int) : PatternStats :=
  let (primaryDur, mirrorDur) := r
  if ps.primaryDurs.length < maxSamples then
    { ps with
      count := ps.count + 1
      primaryDurs := ps.primaryDurs ++ [primaryDur]
      mirrorDurs := ps.mirrorDurs ++ [mirrorDur] }
  else
    { ps with
      count := ps.count + 1
      primaryDurs := ps.primaryDurs.set ps.idx primaryDur
      mirrorDurs := ps.mirrorDurs.set ps.idx mirrorDur
      idx := (ps.idx + 1) % maxSamples }

/-- The two buffers are the two columns of one ring of records. -/
theorem record_foldl (records : List (Int × Int)) :
    records.foldl PatternStats.record ⟨0, [], [], 0⟩ =
    let (samples, idx) := records.foldl (push maxSamples) ([], 0)
    ⟨Int64.ofNat records.length, samples.map Prod.fst, samples.map Prod.snd, idx⟩ := by
  induction records using List.reverseRecOn with
  | nil => rfl
  | append_singleton records r ih =>
    simp only [List.foldl_append, List.foldl_cons, List.foldl_nil, ih, PatternStats.record, push,
      List.length_map]
    split_ifs <;> simp [List.map_set]

end Mirror

/-! ## Record calls -/

structure Config where
  maxPatterns : Int
  samplesPerPattern : Int

/-- The map as its entries; without Reset an entry stays. -/
structure Digest where
  patterns : List (Bytes × PatternStats)
  maxPatterns : Nat
  maxSamples : Nat

def Digest.new (cfg : Config) : Digest :=
  ⟨[], if cfg.maxPatterns ≤ 0 then 1000 else cfg.maxPatterns.toNat,
    if cfg.samplesPerPattern ≤ 0 then 1000 else cfg.samplesPerPattern.toNat⟩

def Digest.tracked (d : Digest) : List Bytes := d.patterns.map Prod.fst

def Digest.record (d : Digest) (pattern : Bytes) (dur : Int) : Digest :=
  { d with patterns := d.patterns.map fun (p, ps) => (p, if p = pattern then ps.record dur
    else ps) }

/-- A call before its lookup, before the write lock, and with its statistics in hand. -/
inductive Phase where
  | looks | missed | found

structure Call where
  pattern : Bytes
  dur : Int
  phase : Phase

structure Sys where
  digest : Digest
  calls : List Call
  completed : List (Bytes × Int)

inductive Step (normalize : Bytes → Option Bytes) (s : Sys) : Sys → Prop where
  | call (query : Bytes) (dur : Int) :
      Step normalize s { s with calls := ⟨(normalize query).getD query, dur, .looks⟩ :: s.calls }
  | look (pre post : List Call) {p : Bytes} {dur : Int}
      (h : s.calls = pre ++ ⟨p, dur, .looks⟩ :: post) :
      Step normalize s { s with calls := pre ++ ⟨p, dur, if p ∈ s.digest.tracked then .found
        else .missed⟩ :: post }
  | recheck (pre post : List Call) {p : Bytes} {dur : Int}
      (h : s.calls = pre ++ ⟨p, dur, .missed⟩ :: post)
      (hp : p ∈ s.digest.tracked) :
      Step normalize s { s with calls := pre ++ ⟨p, dur, .found⟩ :: post }
  | drop (pre post : List Call) {p : Bytes} {dur : Int}
      (h : s.calls = pre ++ ⟨p, dur, .missed⟩ :: post)
      (hp : p ∉ s.digest.tracked) (hfull : s.digest.maxPatterns ≤ s.digest.patterns.length) :
      Step normalize s { s with calls := pre ++ post, completed := (p, dur) :: s.completed }
  | track (pre post : List Call) {p : Bytes} {dur : Int}
      (h : s.calls = pre ++ ⟨p, dur, .missed⟩ :: post)
      (hp : p ∉ s.digest.tracked) (hroom : s.digest.patterns.length < s.digest.maxPatterns) :
      Step normalize s { s with
        calls := pre ++ ⟨p, dur, .found⟩ :: post
        digest :=
          { s.digest with patterns := (p,
          newPatternStats s.digest.maxSamples) :: s.digest.patterns } }
  | record (pre post : List Call) {p : Bytes} {dur : Int}
      (h : s.calls = pre ++ ⟨p, dur, .found⟩ :: post) :
      Step normalize s ⟨s.digest.record p dur, pre ++ post, (p, dur) :: s.completed⟩

def Sys.calledFor (s : Sys) (p : Bytes) : Nat := s.completed.countP (·.1 = p)

/-- A call is dropped only where the map is full, and then its pattern is never admitted. -/
structure Inv (s : Sys) : Prop where
  keys : s.digest.tracked.Nodup
  room : s.digest.patterns.length ≤ s.digest.maxPatterns
  found : ∀ c ∈ s.calls, c.phase = .found → c.pattern ∈ s.digest.tracked
  dropped : ∀ p, p ∉ s.digest.tracked → s.calledFor p = 0 ∨
    s.digest.maxPatterns ≤ s.digest.patterns.length
  counts : ∀ e ∈ s.digest.patterns, e.2.count = Int64.ofNat (s.calledFor e.1)

theorem tracked_record (d : Digest) (p : Bytes) (dur : Int) :
    (d.record p dur).tracked = d.tracked := by
  simp [Digest.tracked, Digest.record]

theorem forall_mem_middle {P : Call → Prop} {pre post : List Call} {c : Call} :
    (∀ d ∈ pre ++ c :: post, P d) ↔ P c ∧ ∀ d ∈ pre ++ post, P d := by
  simp only [List.forall_mem_append, List.forall_mem_cons]
  exact and_left_comm

/-- A call that goes on has its statistics in hand only where they are in the map. -/
theorem Inv.goOn {s : Sys} (h : Inv s) {pre post : List Call} {c c' : Call}
    (hcalls : s.calls = pre ++ c :: post) (hc : c'.phase = .found → c'.pattern ∈ s.digest.tracked) :
    Inv { s with calls := pre ++ c' :: post } := by
  obtain ⟨hkeys, hroom, hfound, hdropped, hcounts⟩ := h
  rw [hcalls, forall_mem_middle] at hfound
  exact ⟨hkeys, hroom, forall_mem_middle.mpr ⟨hc, hfound.2⟩, hdropped, hcounts⟩

theorem Inv.drop {s : Sys} (h : Inv s) {pre post : List Call} {c : Call}
    (hcalls : s.calls = pre ++ c :: post) (hc : c.pattern ∉ s.digest.tracked)
    (hfull : s.digest.maxPatterns ≤ s.digest.patterns.length) :
    Inv { s with calls := pre ++ post, completed := (c.pattern, c.dur) :: s.completed } := by
  obtain ⟨hkeys, hroom, hfound, hdropped, hcounts⟩ := h
  rw [hcalls, forall_mem_middle] at hfound
  refine ⟨hkeys, hroom, hfound.2, fun _ _ => .inr hfull, fun e he => ?_⟩
  have hne : c.pattern ≠ e.1 := fun heq => hc (heq ▸ List.mem_map_of_mem he)
  simpa [Sys.calledFor, hne] using hcounts e he

theorem Inv.track {s : Sys} (h : Inv s) {p : Bytes} (hp : p ∉ s.digest.tracked)
    (hspace : s.digest.patterns.length < s.digest.maxPatterns) :
    Inv { s with digest := { s.digest with patterns := (p,
      newPatternStats s.digest.maxSamples) :: s.digest.patterns } } := by
  obtain ⟨hkeys, -, hfound, hdropped, hcounts⟩ := h
  -- No call for the pattern was dropped, as there has been room all along.
  have hnew : s.calledFor p = 0 := (hdropped p hp).resolve_right (by omega)
  refine ⟨List.nodup_cons.mpr ⟨hp, hkeys⟩, hspace,
    fun c hc hphase => List.mem_cons_of_mem _ (hfound c hc hphase),
    fun q hq => ?_, List.forall_mem_cons.mpr ⟨(congrArg Int64.ofNat hnew).symm, hcounts⟩⟩
  refine (hdropped q fun hmem => hq (List.mem_cons_of_mem _ hmem)).imp_right fun hfull => ?_
  omega

theorem Inv.record {s : Sys} (h : Inv s) {pre post : List Call} {c : Call}
    (hcalls : s.calls = pre ++ c :: post) (hc : c.phase = .found) :
    Inv ⟨s.digest.record c.pattern c.dur, pre ++ post, (c.pattern, c.dur) :: s.completed⟩ := by
  obtain ⟨hkeys, hroom, hfound, hdropped, hcounts⟩ := h
  rw [hcalls, forall_mem_middle] at hfound
  have htracked := tracked_record s.digest c.pattern c.dur
  refine ⟨htracked ▸
    hkeys, by simpa [Digest.record] using hroom, htracked ▸ hfound.2, fun q hq => ?_, ?_⟩
  · rw [htracked] at hq
    have hne : c.pattern ≠ q := fun heq => hq (heq ▸ hfound.1 hc)
    simpa [Sys.calledFor, Digest.record, hne] using hdropped q hq
  · simp only [Digest.record, List.forall_mem_map]
    intro e he
    by_cases hep : e.1 = c.pattern
    · simp [Sys.calledFor, hep, PatternStats.record, hcounts e he]
    · simpa [Sys.calledFor, hep, Ne.symm hep] using hcounts e he

theorem Inv.step {normalize : Bytes → Option Bytes} {s t : Sys} (h : Inv s)
    (hstep : Step normalize s t) : Inv t := by
  cases hstep with
  | call query dur => exact ⟨h.keys, h.room, by simpa using h.found, h.dropped, h.counts⟩
  | look pre post hcalls => exact h.goOn hcalls (by split <;> simp_all)
  | recheck pre post hcalls hp => exact h.goOn hcalls fun _ => hp
  | drop pre post hcalls hp hfull => exact h.drop hcalls hp hfull
  | track pre post hcalls hp hspace => exact (h.track hp hspace).goOn hcalls fun _ =>
      List.mem_cons_self
  | record pre post hcalls => exact h.record hcalls rfl

/-- The windows of the digest and of the mirror hold the latest samples, and the patterns stay
within their limit behind any interleaving of calls; a count is right until it wraps. -/
theorem windows_hold_latest (durs : List Int) (normalize : Bytes → Option Bytes) (cfg : Config) :
    (∀ m : Nat, 0 < m →
      let ps := durs.foldl PatternStats.record (newPatternStats m)
      (ps.count.toInt = durs.length ↔ durs.length < 2 ^ 63) ∧
        ps.durs.Perm (durs.drop (durs.length - min durs.length m))) ∧
    (∀ records : List (Int × Int),
      let ps := records.foldl Mirror.PatternStats.record ⟨0, [], [], 0⟩
      (ps.count.toInt = records.length ↔ records.length < 2 ^ 63) ∧
        ∃ samples : List (Int × Int),
          samples.Perm (records.drop (records.length - min records.length 1000)) ∧
            ps.primaryDurs = samples.map Prod.fst ∧ ps.mirrorDurs = samples.map Prod.snd) ∧
    ∀ s : Sys, Relation.ReflTransGen (Step normalize) ⟨Digest.new cfg, [], []⟩ s →
      s.digest.tracked.Nodup ∧ s.digest.patterns.length ≤ s.digest.maxPatterns ∧
        ∀ e ∈ s.digest.patterns,
          (e.2.count.toInt = s.calledFor e.1 ↔ s.calledFor e.1 < 2 ^ 63) := by
  have hmin : ∀ n m : Nat, n - min n m = n - m := fun n m => by omega
  refine ⟨fun m hm => ?_, fun records => ?_, fun s hrun => ?_⟩
  · obtain ⟨hcount, -, hring⟩ := record_foldl m durs
    simp only [hcount, hmin, toInt_ofNat_eq_iff, true_and]
    rw [show PatternStats.durs _ = _ from congrArg Prod.fst hring]
    exact (keeps_foldl hm durs).perm
  · simp only [Mirror.record_foldl, hmin, toInt_ofNat_eq_iff, true_and]
    exact ⟨_, (keeps_foldl (by decide) records).perm, rfl, rfl⟩
  · have hinv : Inv s := by
      induction hrun with
      | refl =>
        exact ⟨.nil, Nat.zero_le _, by simp, by simp [Sys.calledFor], by simp [Digest.new]⟩
      | tail _ hstep ih => exact ih.step hstep
    refine ⟨hinv.keys, hinv.room, fun e he => ?_⟩
    rw [hinv.counts e he]
    exact toInt_ofNat_eq_iff _

theorem windows_hold_latest_two :
    ([1, 2, 3].foldl PatternStats.record (newPatternStats 2)).durs.Perm [2, 3] ∧
      ∃ s, s.completed = [(ascii "SELECT 1", 5)] ∧
        (∀ e ∈ s.digest.patterns,
          (e.2.count.toInt = s.calledFor e.1 ↔ s.calledFor e.1 < 2 ^ 63)) ∧
        Relation.ReflTransGen (Step some) ⟨Digest.new ⟨1, 2⟩, [], []⟩ s := by
  obtain ⟨hdurs, -, hrun⟩ := windows_hold_latest [1, 2, 3] some ⟨1, 2⟩
  have hreach : Relation.ReflTransGen (Step some) ⟨Digest.new ⟨1, 2⟩, [], []⟩ _ :=
    .head (.call (ascii "SELECT 1") 5) <| .head (.look [] [] rfl) <|
      .head (.track [] [] rfl (by decide) (by decide)) <| .single (.record [] [] rfl)
  exact ⟨(hdurs 2 (by decide)).2, _, rfl, (hrun _ hreach).2.2, hreach⟩

/-- The record behind the largest count makes it negative. -/
theorem count_wraps :
    ((List.replicate (2 ^ 63) 0).foldl PatternStats.record (newPatternStats 1)).count.toInt =
      -2 ^ 63 := by
  rw [(record_foldl 1 _).1, List.length_replicate]
  rfl

end PgMux.SampleWindows
