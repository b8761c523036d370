import PgMux.Bytes
import PgMux.Runs

/-!
# One webhook call for a query and an interval

Calls and cleanup ticks hold one lock, so a run is a list of them. A call reads the clock when it
checks and again when it marks, a tick once.
-/

namespace PgMux.WebhookDedup

def truncateQuery (q : Bytes) (maxLen : Nat) : Bytes :=
  if q.length ≤ maxLen then q else q.take maxLen ++ ascii "..."

structure Logger where
  lastWebhook : Bytes → Option Int
  attempted : List (Bytes × Int)
  clock : Int

inductive Event where
  | sendWebhook (query : Bytes) (check mark : Int)
  | cleanup (now : Int)

def queryKey (query : Bytes) : Bytes := truncateQuery query 100

section

variable (interval : Int)

def suppressed (l : Logger) (query : Bytes) (check : Int) : Bool :=
  (l.lastWebhook (queryKey query)).any fun last => check - last < interval

def sendWebhook (l : Logger) (query : Bytes) (check mark : Int) : Logger :=
  if suppressed interval l query check then { l with clock := check }
  else ⟨Function.update l.lastWebhook (queryKey query) (some mark),
    l.attempted ++ [(queryKey query, mark)], mark⟩

def cleanup (l : Logger) (now : Int) : Logger :=
  ⟨fun key => (l.lastWebhook key).filter fun last => now - last < interval, l.attempted, now⟩

def next (l : Logger) : Event → Logger
  | .sendWebhook query check mark => sendWebhook interval l query check mark
  | .cleanup now => cleanup interval l now

end

def Timed (l : Logger) : Event → Prop
  | .sendWebhook _ check mark => l.clock ≤ check ∧ check ≤ mark
  | .cleanup now => l.clock ≤ now

def Logger.new (start : Int) : Logger := ⟨fun _ => none, [], start⟩

/-- A mark is a recorded call. A recorded call is in the past, and it is marked or the interval is
over. -/
structure Inv (interval : Int) (l : Logger) : Prop where
  marked : ∀ key last, l.lastWebhook key = some last → (key, last) ∈ l.attempted
  past : ∀ a ∈ l.attempted, a.2 ≤ l.clock
  covered : ∀ a ∈ l.attempted, (∃ last, l.lastWebhook a.1 = some last ∧ a.2 ≤ last) ∨
    a.2 + interval ≤ l.clock
  apart : l.attempted.Pairwise fun a b => a.1 = b.1 → a.2 + interval ≤ b.2

variable {interval : Int} {l : Logger}

theorem Inv.later (h : Inv interval l) {t : Int} (ht : l.clock ≤ t) :
    Inv interval { l with clock := t } where
  marked := h.marked
  past a ha := Int.le_trans (h.past a ha) ht
  covered a ha := (h.covered a ha).imp_right fun hover => Int.le_trans hover ht
  apart := h.apart

theorem Inv.cleanup (h : Inv interval l) {now : Int} (ht : l.clock ≤ now) :
    Inv interval (cleanup interval l now) where
  marked key last hlast := h.marked key last (Option.mem_filter_iff.mp hlast).1
  past a ha := Int.le_trans (h.past a ha) ht
  covered a ha := by
    obtain ⟨last, hlast, hle⟩ | hover := h.covered a ha
    · by_cases hnew : now - last < interval
      · exact .inl ⟨last, Option.mem_filter_iff.mpr ⟨hlast, by simpa using hnew⟩, hle⟩
      · exact .inr (show a.2 + interval ≤ now by omega)
    · exact .inr (Int.le_trans hover ht)
  apart := h.apart

theorem Inv.sendWebhook (h : Inv interval l) {query : Bytes} {check mark : Int}
    (hcheck : l.clock ≤ check) (hmark : check ≤ mark) :
    Inv interval (sendWebhook interval l query check mark) := by
  unfold WebhookDedup.sendWebhook
  split
  · exact h.later hcheck
  rename_i hnot
  -- An earlier call for the key is over: its mark did not suppress this one, or a tick removed it.
  have hover : ∀ a ∈ l.attempted, a.1 = queryKey query → a.2 + interval ≤ mark := by
    intro a ha hkey
    obtain ⟨last, hlast, hle⟩ | hover := h.covered a ha
    · have hdue : interval ≤ check - last := by simpa [suppressed, ← hkey, hlast] using hnot
      omega
    · omega
  have hpast : ∀ a ∈ l.attempted, a.2 ≤ mark := fun a ha => by
    have := h.past a ha
    omega
  refine ⟨fun key last hlast => ?_, ?_, ?_, ?_⟩
  · by_cases hkey : key = queryKey query
    · subst hkey
      obtain rfl : mark = last := by simpa using hlast
      simp
    · exact List.mem_append_left _
        (h.marked key last (by simpa [Function.update_of_ne hkey] using hlast))
  · exact List.forall_mem_append.mpr ⟨hpast, by simp⟩
  · refine List.forall_mem_append.mpr ⟨fun a ha => ?_, by simp⟩
    by_cases hkey : a.1 = queryKey query
    · exact .inr (hover a ha hkey)
    · obtain hlast | hold := h.covered a ha
      · exact .inl (by simpa [Function.update_of_ne hkey] using hlast)
      · exact .inr (show a.2 + interval ≤ mark by omega)
  · refine List.pairwise_append.mpr ⟨h.apart, List.pairwise_singleton _ _, fun a ha b hb hkey => ?_⟩
    obtain rfl := List.mem_singleton.mp hb
    exact hover a ha hkey

theorem Inv.next (e : Event) (h : Inv interval l) (he : Timed l e) :
    Inv interval (next interval l e) := by
  cases e with
  | sendWebhook query check mark => exact h.sendWebhook he.1 he.2
  | cleanup now => exact h.cleanup he

def Recent (interval tick : Int) (l : Logger) : Prop :=
  tick ≤ l.clock ∧ ∀ key last, l.lastWebhook key = some last → tick - last < interval

theorem recent_cleanup (l : Logger) (now : Int) : Recent interval now (cleanup interval l now) :=
  ⟨Int.le_refl now, fun _ _ hlast => by simpa using (Option.mem_filter_iff.mp hlast).2⟩

theorem Recent.next (hpos : 0 < interval) {tick : Int} (e : Event) (h : Recent interval tick l)
    (he : Timed l e) : Recent interval tick (next interval l e) := by
  obtain ⟨hclock, hmarks⟩ := h
  cases e with
  | sendWebhook query check mark =>
    obtain ⟨hcheck, hmark⟩ := he
    rw [WebhookDedup.next, sendWebhook]
    split
    · exact ⟨Int.le_trans hclock hcheck, hmarks⟩
    · refine ⟨Int.le_trans hclock (Int.le_trans hcheck hmark), fun key last hlast => ?_⟩
      by_cases hkey : key = queryKey query
      · subst hkey
        obtain rfl : mark = last := by simpa using hlast
        omega
      · exact hmarks key last (by simpa [Function.update_of_ne hkey] using hlast)
  | cleanup now => exact ⟨Int.le_trans hclock he,
      fun key last hlast => hmarks key last (Option.mem_filter_iff.mp hlast).1⟩

def twoCalls : List Event :=
  [.sendWebhook (ascii "q") 1 2, .sendWebhook (ascii "q") 4 4, .cleanup 5,
    .sendWebhook (ascii "q") 8 9]

instance : ∀ l e, Decidable (Timed l e)
  | _, .sendWebhook _ _ _ => inferInstanceAs (Decidable (_ ∧ _))
  | _, .cleanup _ => inferInstanceAs (Decidable (_ ≤ _))

end PgMux.WebhookDedup
