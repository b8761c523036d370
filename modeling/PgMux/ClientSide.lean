import PgMux.Conversation

/-!
# What the client keeps

The client behind a number of requests, with a COPY in the last of them at most, and the client that
sends the data of a COPY. The messages of the proxy lead from one to the other.
-/

namespace PgMux.Conversation

open Protocol
open Relay (inBatch)
open Phases (isRequest)
open Wire (isCopy msgCopyData msgCopyDone msgCopyFail msgCopyInResponse msgReadyForQuery)

/-- No wait behind a Flush, and no COPY in a batch. -/
structure Habits.Plain (h : Habits) : Prop where
  flushes : h.flushes = false
  copies : ∀ m : Message, m.type = msgExecute → h.copies m = 0

def weight (h : Habits) (m : Message) : Nat := if m.type = msgQuery then h.copies m else 0

theorem weight_of_not_request {h : Habits} {m : Message} (hm : isRequest m = false) :
    weight h m = 0 := by
  have hq : m.type ≠ msgQuery := by
    intro hq
    simp [isRequest, hq] at hm
  exact if_neg hq

theorem isRequest_of_inBatch {m : Message} (hm : inBatch m) : isRequest m = false := by
  simp only [inBatch, List.mem_cons, List.not_mem_nil, or_false] at hm
  rcases hm with hm | hm | hm | hm | hm <;> rw [isRequest, hm] <;> rfl

theorem isRequest_of_isCopy {m : Message} (hm : isCopy m.type = true) : isRequest m = false := by
  simp only [isCopy, Bool.or_eq_true, beq_iff_eq] at hm
  rcases hm with (hm | hm) | hm <;> rw [isRequest, hm] <;> rfl

def Allows : Mode → List Nat → Prop
  | .free, ws => ∀ w ∈ ws, w = 0
  | .asked extended n, ws => extended = false ∧ 0 < n ∧ ∃ before, ws = before ++ [n] ∧
      ∀ w ∈ before, w = 0
  | .sending _ _, _ => False

theorem allows_behind {n : Nat} {ws : List Nat} (h : ∀ w ∈ ws, w = 0) :
    Allows (.behind n) (ws ++ [n]) := by
  unfold Mode.behind
  split
  · next hn => exact List.forall_mem_append.mpr ⟨h, List.forall_mem_singleton.mpr hn⟩
  · next hn => exact ⟨rfl, Nat.pos_of_ne_zero hn, ws, rfl, h⟩

theorem Allows.tail {mode : Mode} {w : Nat} {ws : List Nat} (h : Allows mode (w :: ws))
    (hw : w = 0 ∨ ws ≠ []) : Allows mode ws := by
  cases mode with
  | free => exact fun v hv => h v (List.mem_cons_of_mem w hv)
  | sending => exact h
  | asked extended n =>
    obtain ⟨hext, hn, before, hws, hzero⟩ := h
    cases before with
    | nil =>
      obtain ⟨rfl, rfl⟩ : w = n ∧ ws = [] := by simpa using hws
      exact absurd hw (by simpa using Nat.ne_of_gt hn)
    | cons v before =>
      obtain ⟨rfl, rfl⟩ : w = v ∧ ws = before ++ [n] := by simpa using hws
      exact ⟨hext, hn, before, rfl, fun u hu => hzero u (List.mem_cons_of_mem w hu)⟩

structure Tidy (h : Habits) (cur : List Nat) (f : Client) (unread : List Message) : Prop where
  flushed : f.flushed = false
  due : f.due = cur.length + unread.countP isRequest
  mode : Allows f.mode (cur ++ unread.map (weight h))

section

variable {h : Habits} {cur : List Nat} {f f' : Client} {unread ms : List Message} {m : Message}
  {n w : Nat}

theorem Tidy.snoc (ht : Tidy h cur f unread) (hfree : f.mode = .free)
    (hflushed : f'.flushed = false) (hdue : f'.due = f.due + if isRequest m then 1 else 0)
    (hmode : f'.mode = .behind (weight h m)) : Tidy h cur f' (unread ++ [m]) := by
  refine ⟨hflushed, ?_, ?_⟩
  · rw [hdue, ht.due, List.countP_append, List.countP_singleton]
    omega
  · have hzero := ht.mode
    rw [hfree] at hzero
    rw [hmode, List.map_append, ← List.append_assoc]
    exact allows_behind hzero

theorem Tidy.not_sending (ht : Tidy h cur f unread) {extended : Bool}
    (hmode : f.mode = .sending extended n) : False := by
  have hno := ht.mode
  rwa [hmode] at hno

theorem Tidy.free_of_batches (ht : Tidy h cur f unread) (hf : f.Batches) : f.mode = .free := by
  rcases hf.2 with hfree | ⟨-, n, hmode⟩
  · exact hfree
  · have hno := ht.mode
    rw [hmode] at hno
    exact nomatch hno.1

theorem Tidy.sends (hp : h.Plain) (ht : Tidy h cur f unread) (hs : Client.Sends h f ms f') :
    Tidy h cur f' (unread ++ ms) := by
  cases hs with
  | query hfree hflushed hm =>
    exact ht.snoc hfree hflushed (by simp [isRequest, hm]) (by simp [weight, hm])
  | message hfree hflushed hm =>
    have hno := isRequest_of_inBatch hm
    exact ht.snoc hfree hflushed (by simp [hno])
      (by simp [weight_of_not_request hno, Mode.behind, hfree])
  | copy _ _ hm hcopies => simp [hp.copies _ hm] at hcopies
  | @sync m hf hm =>
    have hfree := ht.free_of_batches hf
    have hweight : weight h m = 0 := if_neg (by rw [hm]; decide)
    exact ht.snoc hfree ht.flushed (by simp [isRequest, hm]) (by simp [hweight, Mode.behind, hfree])
  | @flush m waits hf hm hwaits =>
    have hfree := ht.free_of_batches hf
    have hno : isRequest m = false := by rw [isRequest, hm]; rfl
    have hflushed : waits = false := by
      cases waits with
      | false => rfl
      | true => simp [hp.flushes] at hwaits
    exact ht.snoc hfree hflushed (by simp [hno])
      (by simp [weight_of_not_request hno, Mode.behind, hfree])
  | data hmode | done hmode | fail hmode | finish hmode => exact (ht.not_sending hmode).elim

theorem Tidy.receive (ht : Tidy h cur f unread) (hz : m.type ≠ msgReadyForQuery)
    (hg : m.type ≠ msgCopyInResponse) : Tidy h cur (f.receive m) unread := by
  unfold Client.receive
  rw [if_neg hz, if_neg hg]
  split
  · exact ht
  · exact ⟨rfl, ht.due, ht.mode⟩

theorem Tidy.ready (ht : Tidy h [w] f unread) (hz : m.type = msgReadyForQuery) :
    Tidy h [] (f.receive m) unread := by
  have hdue : f.due = 1 + unread.countP isRequest := ht.due
  unfold Client.receive
  rw [if_pos hz]
  refine ⟨rfl, ?_, ?_⟩
  · change f.due - 1 = 0 + _
    omega
  · change Allows (if f.due ≤ 1 then .free else f.mode) (unread.map (weight h))
    have hmode := ht.mode
    split
    · next hlast =>
      -- No request is left, so none with a COPY either.
      have hnone : unread.countP isRequest = 0 := by omega
      intro v hv
      obtain ⟨m, hm, rfl⟩ := List.mem_map.mp hv
      have hno := List.countP_eq_zero.mp hnone m hm
      exact weight_of_not_request (by simpa using hno)
    · next hmore =>
      refine Allows.tail hmode (.inr fun hnil => hmore ?_)
      obtain rfl : unread = [] := List.map_eq_nil_iff.mp hnil
      exact Nat.le_of_eq hdue

theorem Tidy.read (ht : Tidy h [] f (m :: unread)) :
    Tidy h (if isRequest m then [weight h m] else []) f unread := by
  refine ⟨ht.flushed, ?_, ?_⟩
  · rw [ht.due, List.countP_cons]
    split
    · simp [Nat.add_comm]
    · simp
  · split
    · exact ht.mode
    · next hno =>
      exact Allows.tail ht.mode (.inl (weight_of_not_request (by simpa using hno)))

theorem Tidy.unread_ne (ht : Tidy h [] f unread) (hw : f.Waits) : unread ≠ [] := by
  rintro rfl
  have hdue : f.due = 0 := ht.due
  have hflushed := ht.flushed
  unfold Client.Waits at hw
  split at hw
  · exact hw
  · rcases hw with hw | hw
    · exact nomatch hflushed.symm.trans hw
    · omega

def Supplies (h : Habits) (n : Nat) (f : Client) (unread : List Message) : Prop :=
  (f.mode = .sending false n ∧ f.flushed = false ∧ f.due = 1 ∧ ∀ m ∈ unread, m.type = msgCopyData) ∨
    ∃ data last rest, unread = data ++ last :: rest ∧ (∀ m ∈ data, m.type = msgCopyData) ∧
      (last.type = msgCopyDone ∧ Tidy h [n] f rest ∨ last.type = msgCopyFail ∧ Tidy h [0] f rest)

theorem Tidy.supplies (ht : Tidy h [n + 1] f unread) (hg : m.type = msgCopyInResponse) :
    Supplies h n (f.receive m) unread := by
  have hz : m.type ≠ msgReadyForQuery := by rw [hg]; decide
  have hmode := ht.mode
  cases hf : f.mode with
  | free =>
    rw [hf] at hmode
    exact nomatch hmode (n + 1) (by simp)
  | sending extended k => exact (ht.not_sending hf).elim
  | asked extended k =>
    rw [hf] at hmode
    obtain ⟨rfl, hk, before, hws, hzero⟩ := hmode
    cases before with
    | cons v before =>
      have hv : n + 1 = v := by simpa using congrArg List.head? hws
      exact nomatch hv.trans (hzero v (by simp))
    | nil =>
      obtain ⟨rfl, rfl⟩ : n + 1 = k ∧ unread = [] := by simpa using hws
      rw [Client.receive, if_neg hz, if_pos hg, hf]
      exact .inl ⟨rfl, rfl, ht.due, nofun⟩

theorem Supplies.sends (hp : h.Plain) (hf : Supplies h n f unread) (hs : Client.Sends h f ms f') :
    Supplies h n f' (unread ++ ms) := by
  rcases hf with ⟨hmode, hflushed, hdue, hdata⟩ | ⟨data, last, rest, rfl, hdata, hlast⟩
  · have hfree : f.mode ≠ .free := by rw [hmode]; nofun
    have hno : ¬ f.Batches := by simp [Client.Batches, hmode]
    cases hs with
    | query hno | message hno | copy hno => exact absurd hno hfree
    | sync hf | flush hf => exact absurd hf hno
    | data _ hm =>
      exact .inl ⟨hmode, hflushed, hdue,
        List.forall_mem_append.mpr ⟨hdata, List.forall_mem_singleton.mpr hm⟩⟩
    | @done m k hmode' hm =>
      obtain rfl : n = k := by simpa using hmode.symm.trans hmode'
      have hmode : Allows (.behind n) ([] ++ [n]) := allows_behind nofun
      exact .inr ⟨unread, m, [], rfl, hdata, .inl ⟨hm, hflushed, hdue, hmode⟩⟩
    | @fail m _ _ hm =>
      have hmode : Allows .free [0] := List.forall_mem_singleton.mpr rfl
      exact .inr ⟨unread, m, [], rfl, hdata, .inr ⟨hm, hflushed, hdue, hmode⟩⟩
    | finish hmode' => exact nomatch hmode.symm.trans hmode'
  · refine .inr ⟨data, last, rest ++ ms, by simp, hdata, ?_⟩
    exact hlast.imp (fun hdone => ⟨hdone.1, hdone.2.sends hp hs⟩) fun hfail =>
    ⟨hfail.1, hfail.2.sends hp hs⟩

theorem Supplies.read (hf : Supplies h n f (m :: unread)) :
    (m.type = msgCopyData ∧ Supplies h n f unread) ∨ (m.type = msgCopyDone ∧ Tidy h [n] f unread) ∨
      m.type = msgCopyFail ∧ Tidy h [0] f unread := by
  rcases hf with ⟨hmode, hflushed, hdue, hdata⟩ | ⟨data, last, rest, hunread, hdata, hlast⟩
  · exact .inl ⟨hdata m (by simp), .inl ⟨hmode, hflushed, hdue, fun x hx => hdata x (by simp [hx])⟩⟩
  · cases data with
    | nil =>
      obtain ⟨rfl, rfl⟩ : m = last ∧ unread = rest := by simpa using hunread
      exact .inr hlast
    | cons d data =>
      obtain ⟨rfl, rfl⟩ : m = d ∧ unread = data ++ last :: rest := by simpa using hunread
      exact .inl ⟨hdata m (by simp),
        .inr ⟨data, last, rest, rfl, fun x hx => hdata x (by simp [hx]), hlast⟩⟩

theorem Supplies.unread_ne (hf : Supplies h n f unread) (hw : f.Waits) : unread ≠ [] := by
  rcases hf with ⟨hmode, -⟩ | ⟨data, last, rest, rfl, -⟩
  · simp [Client.Waits, hmode] at hw
  · simp

end

end PgMux.Conversation
