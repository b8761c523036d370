import Mathlib.Data.List.Basic

/-!
# Shutdown of the audit log

Log calls, the event loop, its webhook goroutines, the cleanup goroutine and one Close call, in any
interleaving. The events put on the channel are recorded in order.
-/

namespace PgMux.AuditShutdown

inductive Goroutine where
  | caller | closer | events | webhook | cleanup

inductive Close where
  | uncalled | waits | returned
  deriving DecidableEq

/-- The event loop drains behind the stop signal and may hold an event. The put and the handled
events, and those put before Close was called, are recorded. -/
structure Logger (ε : Type) where
  eventCh : List ε
  drains : Bool
  held : Option ε
  ended : Bool
  cleans : Bool
  webhooks : Nat
  wg : Nat
  close : Close
  put : List ε
  putBefore : List ε
  handled : List ε

variable {ε : Type}

def Logger.new : Logger ε := ⟨[], false, none, false, true, 0, 2, .uncalled, [], [], []⟩

def bufferSize : Nat := 1024

/-- `startsWebhook` holds of the slow events where a webhook is configured. -/
inductive Step (startsWebhook : ε → Bool) : Goroutine → Logger ε → Logger ε → Prop where
  | log (l : Logger ε) (e : ε) (h : l.eventCh.length < bufferSize) : Step startsWebhook .caller l
      { l with
        eventCh := l.eventCh ++ [e]
        put := l.put ++ [e]
        putBefore := if l.close = .uncalled then l.putBefore ++ [e] else l.putBefore }
  | drop (l : Logger ε) (e : ε) (h : bufferSize ≤ l.eventCh.length) : Step startsWebhook .caller l l
  | close (l : Logger ε) (h : l.close = .uncalled) :
      Step startsWebhook .closer l { l with close := .waits }
  | returns (l : Logger ε) (h : l.close = .waits) (hwg : l.wg = 0) :
      Step startsWebhook .closer l { l with close := .returned }
  | receive (l : Logger ε) (e : ε) (rest : List ε) (h : l.held = none) (hrun : l.ended = false)
      (hch : l.eventCh = e :: rest) :
      Step startsWebhook .events l { l with held := some e, eventCh := rest }
  | stop (l : Logger ε) (h : l.held = none) (hdrains : l.drains = false)
      (hclose : l.close ≠ .uncalled) : Step startsWebhook .events l { l with drains := true }
  | drained (l : Logger ε) (h : l.held = none) (hrun : l.ended = false) (hdrains : l.drains = true)
      (hch : l.eventCh = []) : Step startsWebhook .events l { l with ended := true, wg := l.wg - 1 }
  | handleEvent (l : Logger ε) (e : ε) (h : l.held = some e) : Step startsWebhook .events l
      { l with
        held := none
        handled := l.handled ++ [e]
        webhooks := l.webhooks + (startsWebhook e).toNat
        wg := l.wg + (startsWebhook e).toNat }
  | sendWebhook (l : Logger ε) (h : 0 < l.webhooks) :
      Step startsWebhook .webhook l { l with webhooks := l.webhooks - 1, wg := l.wg - 1 }
  | cleanup (l : Logger ε) (h : l.cleans = true) (hclose : l.close ≠ .uncalled) :
      Step startsWebhook .cleanup l { l with cleans := false, wg := l.wg - 1 }

structure Inv (l : Logger ε) : Prop where
  order : l.handled ++ (l.held.toList ++ l.eventCh) = l.put
  wg : l.wg = (!l.ended).toNat + l.cleans.toNat + l.webhooks
  before : l.putBefore <+: l.put ∧ (l.close = .uncalled → l.putBefore = l.put)
  called : l.drains = true → l.close ≠ .uncalled
  ended : l.ended = true → l.drains = true ∧ l.held = none ∧ l.putBefore <+: l.handled
  returned : l.close = .returned → l.wg = 0

variable {startsWebhook : ε → Bool} {g : Goroutine} {l l' : Logger ε}

theorem Inv.new : Inv (.new : Logger ε) := by
  constructor <;> simp [Logger.new]

theorem Inv.ended_of_returned (h : Inv l) (hreturned : l.close = .returned) :
    l.ended = true ∧ l.webhooks = 0 := by
  have hwg := h.wg
  rw [h.returned hreturned] at hwg
  cases hended : l.ended with
  | false =>
    rw [hended, Bool.not_false, Bool.toNat_true] at hwg
    omega
  | true => exact ⟨rfl, by omega⟩

theorem Inv.held_of_ended (h : Inv l) (hended : l.ended = true) : l.held = none :=
  (h.ended hended).2.1

theorem Inv.running_of_held (h : Inv l) {e : ε} (hheld : l.held = some e) : l.ended = false := by
  cases hended : l.ended with
  | false => rfl
  | true => simp [h.held_of_ended hended] at hheld

/-- The wait group counts the event loop, so Close has not returned while the loop runs. -/
theorem Inv.unreturned (h : Inv l) (hrun : l.ended = false) : l.close ≠ .returned := by
  intro hreturned
  simp [(h.ended_of_returned hreturned).1] at hrun

theorem Inv.step (h : Inv l) (hstep : Step startsWebhook g l l') : Inv l' := by
  obtain ⟨horder, hwg, hbefore, hcalled, hended, hreturned⟩ := id h
  cases hstep with
  | log _ e hlen =>
    refine ⟨by simp [← horder], hwg, ?_, hcalled, fun he => ?_, hreturned⟩
    · by_cases hclose : l.close = .uncalled
      · simp [hclose, hbefore.2 hclose]
      · simpa [hclose] using hbefore.1.trans (List.prefix_append _ _)
    · simpa [hcalled (hended he).1] using hended he
  | drop _ e hlen => exact h
  | close _ hclose =>
    exact ⟨horder, hwg, ⟨hbefore.1, by simp⟩, by simp, hended, by simp⟩
  | returns _ hclose hzero =>
    exact ⟨horder, hwg, ⟨hbefore.1, by simp⟩, by simp, hended, fun _ => hzero⟩
  | receive _ e rest hheld hrun hch =>
    exact ⟨by simpa [hheld, hch] using horder, hwg, hbefore, hcalled, by simp [hrun], hreturned⟩
  | stop _ hheld hdrains hclose =>
    exact ⟨horder, hwg, hbefore, fun _ => hclose, fun he => ⟨rfl, (hended he).2⟩, hreturned⟩
  | drained _ hheld hrun hdrains hch =>
    have hall : l.handled = l.put := by simpa [hheld, hch] using horder
    refine ⟨horder, ?_, hbefore, hcalled, fun _ => ⟨hdrains, hheld, hall ▸ hbefore.1⟩,
      fun hret => absurd hret (h.unreturned hrun)⟩
    simp [hrun] at hwg ⊢
    omega
  | handleEvent _ e hheld =>
    have hrun := h.running_of_held hheld
    exact ⟨by simpa [hheld] using horder, by dsimp only; omega, hbefore, hcalled, by simp [hrun],
      fun hret => absurd hret (h.unreturned hrun)⟩
  | sendWebhook _ hpos =>
    refine ⟨horder, by dsimp only; omega, hbefore, hcalled, hended, fun hret => ?_⟩
    rw [hreturned hret]
  | cleanup _ hcleans hclose =>
    refine ⟨horder, ?_, hbefore, hcalled, hended, fun hret => ?_⟩
    · rw [hcleans] at hwg
      simp at hwg ⊢
      omega
    · rw [hreturned hret]

structure Run (startsWebhook : ε → Bool) (run : Nat → Logger ε) : Prop where
  start : run 0 = .new
  step : ∀ n, run (n + 1) = run n ∨ ∃ g, Step startsWebhook g (run n) (run (n + 1))

/-- The event loop is not left waiting for ever where it can go on. -/
def Fair (startsWebhook : ε → Bool) (run : Nat → Logger ε) : Prop :=
  ∀ n, ∃ m, n ≤ m ∧ (Step startsWebhook .events (run m) (run (m + 1)) ∨ ∀ l,
    ¬ Step startsWebhook .events (run m) l)

section Runs
variable {run : Nat → Logger ε} (hrun : Run startsWebhook run)
include hrun

theorem Run.inv (n : Nat) : Inv (run n) := by
  induction n with
  | zero => exact hrun.start ▸ .new
  | succ n ih =>
    obtain heq | ⟨g, hstep⟩ := hrun.step n
    · exact heq ▸ ih
    · exact ih.step hstep

/-- A relation that every step keeps holds between any state and the later ones. -/
theorem Run.later {R : Logger ε → Logger ε → Prop} (hrefl : ∀ l, R l l)
    (htrans : ∀ l₁ l₂ l₃, R l₁ l₂ → R l₂ l₃ → R l₁ l₃)
    (hstep : ∀ g l l', Inv l → Step startsWebhook g l l' → R l l') {n m : Nat} (hle : n ≤ m) :
    R (run n) (run m) := by
  induction hle with
  | refl => exact hrefl _
  | @step m hle ih =>
    refine htrans _ _ _ ih ?_
    obtain heq | ⟨g, hs⟩ := hrun.step m
    · exact heq ▸ hrefl _
    · exact hstep g _ _ (hrun.inv m) hs

end Runs

/-- Turns of the event loop before `k` events are handled. -/
def todo (k : Nat) (l : Logger ε) : Nat :=
  2 * (k - l.handled.length) - l.held.toList.length + (!l.drains).toNat

theorem Step.todo_le (hstep : Step startsWebhook g l l') (k : Nat) :
    todo k l' ≤ todo k l ∧ l.putBefore.length ≤ l'.putBefore.length := by
  cases hstep <;> simp_all [todo] <;> grind

theorem Step.todo_lt (hstep : Step startsWebhook .events l l') (h : Inv l) {k : Nat}
    (hk : k ≤ l.putBefore.length) (hlt : l.handled.length < k) : todo k l' < todo k l := by
  have horder := congrArg List.length h.order
  have hbefore := h.before.1.length_le
  cases hstep <;> simp_all [todo] <;> omega

theorem Inv.enabled (h : Inv l) {k : Nat} (hk : k ≤ l.putBefore.length)
    (hlt : l.handled.length < k) : ∃ l', Step startsWebhook .events l l' := by
  have hrun : l.ended = false := by
    cases hended : l.ended with
    | false => rfl
    | true =>
      have := (h.ended hended).2.2.length_le
      omega
  cases hheld : l.held with
  | some e => exact ⟨_, .handleEvent l e hheld⟩
  | none =>
    cases hch : l.eventCh with
    | cons e rest => exact ⟨_, .receive l e rest hheld hrun hch⟩
    | nil =>
      have horder := congrArg List.length h.order
      have hbefore := h.before.1.length_le
      simp [hheld, hch] at horder
      omega

theorem Run.handles {run : Nat → Logger ε} (hrun : Run startsWebhook run)
    (hfair : Fair startsWebhook run) (k n : Nat) (hk : k ≤ (run n).putBefore.length) :
    ∃ m, n ≤ m ∧ k ≤ (run m).handled.length := by
  induction hd : todo k (run n) using Nat.strongRecOn generalizing n with
  | _ d ih =>
    obtain ⟨m, hle, hturn⟩ := hfair n
    obtain ⟨htodo, hput⟩ := hrun.later (R := fun l l' => todo k l' ≤ todo k l ∧
      l.putBefore.length ≤ l'.putBefore.length)
      (by simp) (by grind) (fun _ _ _ _ hstep => hstep.todo_le k) hle
    by_cases hdone : k ≤ (run m).handled.length
    · exact ⟨m, hle, hdone⟩
    · have hk' := Nat.le_trans hk hput
      have hlt : (run m).handled.length < k := by omega
      have henabled : ∃ l', Step startsWebhook .events (run m) l' := (hrun.inv m).enabled hk' hlt
      obtain hstep | hnone := hturn
      · have hdrop := hstep.todo_lt (hrun.inv m) hk' hlt
        obtain ⟨m', hle', hm'⟩ := ih _ (by omega) (m + 1) (Nat.le_trans hk' (hstep.todo_le k).2) rfl
        exact ⟨m', by omega, hm'⟩
      · exact absurd henabled (by simpa using hnone)

theorem Step.later_returned (hstep : Step startsWebhook g l l') (h : Inv l)
    (hreturned : l.close = .returned) : l'.close = .returned ∧ l'.handled = l.handled := by
  have hheld := h.held_of_ended (h.ended_of_returned hreturned).1
  cases hstep <;> simp_all

/-- Handled events are the put ones in their order; what was put before Close is handled in the end,
and Close returns behind it and behind every webhook, after which nothing is handled and no webhook
is started. -/
theorem close_drains {run : Nat → Logger ε} (hrun : Run startsWebhook run) (n : Nat) :
    (run n).handled <+: (run n).put ∧ (run n).putBefore <+: (run n).put ∧
      (Fair startsWebhook run → ∃ m, n ≤ m ∧ (run n).putBefore <+: (run m).handled) ∧
      ((run n).close = .returned → (run n).putBefore <+: (run n).handled ∧
        ∀ m, n ≤ m → (run m).handled = (run n).handled ∧ (run m).webhooks = 0) := by
  have hinv := hrun.inv
  have hput : ∀ m, (run m).handled <+: (run m).put :=
    fun m => (hinv m).order ▸ List.prefix_append _ _
  refine ⟨hput n, (hinv n).before.1, fun hfair => ?_, fun hreturned => ?_⟩
  · obtain ⟨m, hle, hm⟩ := hrun.handles hfair _ n (Nat.le_refl _)
    have hlater : (run n).put <+: (run m).put :=
      hrun.later (R := fun l l' => l.put <+: l'.put) (fun _ => List.prefix_rfl)
        (fun _ _ _ => .trans)
        (fun g l l' _ hs => by cases hs <;> simp) hle
    exact ⟨m, hle, List.prefix_of_prefix_length_le ((hinv n).before.1.trans hlater) (hput m) hm⟩
  · have hended := ((hinv n).ended_of_returned hreturned).1
    refine ⟨((hinv n).ended hended).2.2, fun m hle => ?_⟩
    have hlater := hrun.later (R := fun l l' => l.close = .returned → l'.close = .returned ∧
      l'.handled = l.handled)
      (by simp) (by grind) (fun _ _ _ h hs => hs.later_returned h) hle hreturned
    exact ⟨hlater.2, ((hinv m).ended_of_returned hlater.1).2⟩

/-- A slow event put before Close, handled while Close waits. -/
def slowEventRun : Nat → Logger Nat
  | 0 => .new
  | 1 => { Logger.new with eventCh := [7], put := [7], putBefore := [7] }
  | 2 => { Logger.new with eventCh := [7], put := [7], putBefore := [7], close := .waits }
  | 3 =>
    { Logger.new with
      eventCh := [7], put := [7], putBefore := [7], close := .waits, drains := true }
  | 4 => ⟨[], true, some 7, false, true, 0, 2, .waits, [7], [7], []⟩
  | 5 => ⟨[], true, none, false, true, 1, 3, .waits, [7], [7], [7]⟩
  | 6 => ⟨[], true, none, true, true, 1, 2, .waits, [7], [7], [7]⟩
  | 7 => ⟨[], true, none, true, true, 0, 1, .waits, [7], [7], [7]⟩
  | 8 => ⟨[], true, none, true, false, 0, 0, .waits, [7], [7], [7]⟩
  | _ => ⟨[], true, none, true, false, 0, 0, .returned, [7], [7], [7]⟩

theorem run_slowEventRun : Run (fun _ => true) slowEventRun where
  start := rfl
  step n := by
    rcases n with _ | _ | _ | _ | _ | _ | _ | _ | _ | n
    · exact .inr ⟨_, .log _ 7 (by decide)⟩
    · exact .inr ⟨_, .close _ rfl⟩
    · exact .inr ⟨_, .stop _ rfl rfl (by decide)⟩
    · exact .inr ⟨_, .receive _ 7 [] rfl rfl rfl⟩
    · exact .inr ⟨_, .handleEvent _ 7 rfl⟩
    · exact .inr ⟨_, .drained _ rfl rfl rfl rfl⟩
    · exact .inr ⟨_, .sendWebhook _ (by decide)⟩
    · exact .inr ⟨_, .cleanup _ rfl (by decide)⟩
    · exact .inr ⟨_, .returns _ rfl rfl⟩
    · exact .inl rfl

theorem close_drains_slowEventRun :
    (slowEventRun 9).close = .returned ∧ (slowEventRun 9).putBefore = [7] ∧
    (slowEventRun 9).putBefore <+: (slowEventRun 9).handled :=
  ⟨rfl, rfl, ((close_drains run_slowEventRun 9).2.2.2 rfl).1⟩

end PgMux.AuditShutdown
