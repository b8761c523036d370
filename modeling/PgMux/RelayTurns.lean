import PgMux.BackendSide

/-!
# Relays between client and backend

As long as the client waits behind no Flush and starts no COPY in a batch, a relay is never stuck,
and it brings the reply to its end.
-/

namespace PgMux.Conversation

open Effects Protocol
open Pools (Conn)
open Wire (Leaves WireOp msgCopyBothResponse msgCopyData msgCopyDone msgCopyFail msgCopyInResponse
  msgCopyOutResponse msgReadyForQuery)

def ClientKeeps (h : Habits) (P : Client → List Message → Prop) : Prop :=
  ∀ f unread ms f', P f unread → Client.Sends h f ms f' → P f' (unread ++ ms)

def BackendKeeps (h : Habits) (B : Backend → Prop) : Prop :=
  ∀ b b', B b → b.Moves h.copies b' → B b'

structure Along (c : Conn) (P : Client → List Message → Prop) (B : Backend → Prop) (s : Sys) :
    Prop where
  client : P s.client s.unread
  line : B (s.lines c)
  others : ∀ d, d ≠ c → Calm (s.lines d)

section

variable {h : Habits} {c : Conn} {P P' : Client → List Message → Prop} {B B' : Backend → Prop}
  {s t : Sys}

theorem Along.moves (hs : Along c P B s) (hP : ClientKeeps h P) (hB : BackendKeeps h B)
    (hm : Moves h s t) : Along c P B t := by
  induction hm with
  | refl => exact hs
  | @tail u v _ hstep ih =>
    cases hstep with
    | client hf => exact ⟨hP _ _ _ _ ih.client hf, ih.line, ih.others⟩
    | @backend d b hb =>
      refine ⟨ih.client, ?_, fun e he => ?_⟩
      · by_cases hcd : c = d
        · subst hcd
          rw [Sys.lines_setLine_self]
          exact hB _ _ ih.line hb
        · rw [Sys.lines_setLine_of_ne u b hcd]
          exact ih.line
      · by_cases hed : e = d
        · subst hed
          rw [Sys.lines_setLine_self]
          exact (ih.others e he).moves hb
        · rw [Sys.lines_setLine_of_ne u b hed]
          exact ih.others e he

theorem Along.set (hs : Along c P B s) {b : Backend} (hb : B' b) :
    Along c P B' (s.setLine c b) where
  client := hs.client
  line := by rwa [Sys.lines_setLine_self]
  others d hd := by
    rw [Sys.lines_setLine_of_ne s b hd]
    exact hs.others d hd

theorem Along.calm {P : Client → List Message → Prop} (hs : Along c P Calm s) (d : Conn) :
    Along d P Calm s := by
  have hall : ∀ e, Calm (s.lines e) := by
    intro e
    by_cases he : e = c
    · exact he ▸ hs.line
    · exact hs.others e he
  exact ⟨hs.client, hall d, fun e _ => hall e⟩

theorem keeps_tidy (hp : h.Plain) (cur : List Nat) : ClientKeeps h (Tidy h cur) :=
  fun _ _ _ _ ht hs => ht.sends hp hs

theorem keeps_supplies (hp : h.Plain) (n : Nat) : ClientKeeps h (Supplies h n) :=
  fun _ _ _ _ hf hs => hf.sends hp hs

theorem keeps_busy (hp : h.Plain) (left : Nat) (inside : Bool) :
    BackendKeeps h (Busy h left inside) :=
  fun _ _ hb hm => hb.moves hp hm

theorem keeps_calm : BackendKeeps h Calm := fun _ _ hb hm => hb.moves hm

theorem keeps_fed (n : Nat) : BackendKeeps h (Fed n) := fun _ _ hb hm => hb.moves hm

theorem ClientKeeps.hand (hP : ClientKeeps h P) (m : Message) :
    ClientKeeps h fun f unread => P f (m :: unread) :=
  fun f unread ms f' hf hs => hP f (m :: unread) ms f' hf hs

theorem BackendKeeps.hand (hB : BackendKeeps h B) (m : Message) :
    BackendKeeps h fun b => B { b with outbox := m :: b.outbox } := by
  rintro b b' hb ⟨reply, hw, hout⟩
  refine hB _ _ hb ⟨reply, hw, ?_⟩
  rw [hout, List.cons_append]

end

/-! ## Relays -/

def Free (c : Conn) (o : WireOp) (s : Sys) : Prop := ¬ Stuck c o s

section

variable {h : Habits} {c : Conn} {left : Nat} {inside : Bool} {s : Sys}

abbrev Talking (h : Habits) (c : Conn) (left : Nat) (inside : Bool) : Sys → Prop :=
  Along c (Tidy h [left]) (Busy h left inside)

abbrev Copying (h : Habits) (c : Conn) (n : Nat) : Sys → Prop := Along c (Supplies h n) (Fed n)

theorem safe_pass {α : Type} {failure : α} {go : Message → Wire.Talk α} {Q : α → Sys → Prop}
    (hp : h.Plain) (hs : Talking h c left inside s)
    (hready : ∀ (msg : Message) (t : Sys), msg.type = msgReadyForQuery → inside = false →
      Along c (Tidy h []) Calm t → Safe (talk h c) (Free c) (go msg) Q t)
    (hcopy : ∀ (msg : Message) (n : Nat) (t : Sys), msg.type = msgCopyInResponse → inside = false →
      Copying h c n t → Safe (talk h c) (Free c) (go msg) Q t)
    (hmore : ∀ (msg : Message) (t : Sys), msg.type ≠ msgReadyForQuery ∧
      msg.type ≠ msgCopyInResponse ∧ msg.type ≠ msgCopyBothResponse →
      (msg.type = msgCopyOutResponse → inside = false) →
      Talking h c left (within inside msg.type) t → Safe (talk h c) (Free c) (go msg) Q t) :
    Safe (talk h c) (Free c) (Wire.pass failure go) Q s := by
  refine ⟨fun hstuck => hs.line.ne hstuck.2, fun msg t ht => ?_⟩
  obtain ⟨u, htalk, hm⟩ := ht
  cases msg with
  | none => exact htalk.elim
  | some msg =>
    obtain ⟨rest, hout, rfl⟩ := htalk
    have hhand : Along c (Tidy h [left])
        (fun b => Busy h left inside { b with outbox := msg :: b.outbox }) t := by
      refine (hs.set ?_).moves (keeps_tidy hp _) ((keeps_busy hp left inside).hand msg) hm
      exact hout ▸ hs.line
    refine ⟨id, fun ok v hv => ?_⟩
    obtain ⟨w, ⟨rfl, rfl⟩, hm'⟩ := hv
    change Safe _ _ (go msg) _ _
    rcases hhand.line.read with ⟨hz, hin, hcalm⟩ | ⟨hg, hin, n, rfl, hfed⟩ | ⟨hno, hin, hbusy⟩
    · have hrest : Along c (Tidy h []) Calm { t with client := t.client.receive msg } :=
        ⟨hhand.client.ready hz, hcalm, hhand.others⟩
      exact hready msg v hz hin (hrest.moves (keeps_tidy hp _) keeps_calm hm')
    · have hfeed : Copying h c n { t with client := t.client.receive msg } :=
        ⟨hhand.client.supplies hg, hfed, hhand.others⟩
      exact hcopy msg n v hg hin (hfeed.moves (keeps_supplies hp n) (keeps_fed n) hm')
    · have htalk : Talking h c left (within inside msg.type)
          { t with client := t.client.receive msg } :=
        ⟨hhand.client.receive hno.1 hno.2.1, hbusy, hhand.others⟩
      exact hmore msg v hno hin (htalk.moves (keeps_tidy hp _) (keeps_busy hp _ _) hm')

theorem safe_relayCopyOut (hp : h.Plain) (n : Nat) (hs : Talking h c left true s) :
    Safe (talk h c) (Free c) (Wire.relayCopyOut n)
      (Leaves (Talking h c left false) fun _ => False) s := by
  induction n generalizing s with
  | zero => trivial
  | succ n ih =>
    refine safe_pass hp hs (fun _ _ _ hin => nomatch hin)
      (fun _ _ _ _ hin => nomatch hin) fun msg t hno hout ht => ?_
    have hne : msg.type ≠ msgCopyOutResponse := fun h => nomatch hout h
    split
    · next hdata => exact ih (by simpa [within, hdata] using ht)
    · next hdata =>
      have hwithin : within true msg.type = false := by simp [within, hne, hdata]
      exact hwithin ▸ ht

theorem safe_relayCopyIn (hp : h.Plain) (n k : Nat) (hs : Copying h c k s) :
    Safe (talk h c) (Free c) (Wire.relayCopyIn n)
      (Leaves (fun t => ∃ left, Talking h c left false t) fun _ => False) s := by
  induction n generalizing s with
  | zero => trivial
  | succ n ih =>
    refine ⟨fun hstuck => hs.client.unread_ne hstuck.1 hstuck.2, fun msg t ht => ?_⟩
    obtain ⟨u, htalk, hm⟩ := ht
    cases msg with
    | none => exact htalk.elim
    | some msg =>
      obtain ⟨rest, hunread, rfl⟩ := htalk
      have hhand : Along c (fun f unread => Supplies h k f (msg :: unread)) (Fed k) t := by
        have hstart : Along c (fun f unread => Supplies h k f (msg :: unread)) (Fed k)
            { s with unread := rest } :=
          ⟨by simpa only [hunread] using hs.client, hs.line, hs.others⟩
        exact hstart.moves ((keeps_supplies hp k).hand msg) (keeps_fed k) hm
      refine ⟨id, fun ok v hv => ?_⟩
      obtain ⟨w, ⟨rfl, rfl⟩, hm'⟩ := hv
      change Safe _ _ (if _ then _ else _) _ _
      rcases hhand.client.read with ⟨hdata, hsupplies⟩ | hlast
      · rw [if_pos hdata]
        have hfeed : Copying h c k (t.setLine c ((t.lines c).push [msg])) :=
          Along.set (B := Fed k) ⟨hsupplies, hhand.line, hhand.others⟩ (hhand.line.data hdata)
        exact ih (hfeed.moves (keeps_supplies hp k) (keeps_fed k) hm')
      · obtain ⟨left, hend, htidy⟩ :
            ∃ left, (msg.type = msgCopyDone ∧ k = left ∨ msg.type = msgCopyFail) ∧
            Tidy h [left] t.client t.unread := by
          rcases hlast with ⟨hdone, htidy⟩ | ⟨hfail, htidy⟩
          · exact ⟨k, .inl ⟨hdone, rfl⟩, htidy⟩
          · exact ⟨0, .inr hfail, htidy⟩
        have hne : msg.type ≠ msgCopyData := by
          rcases hend with ⟨hend, -⟩ | hend <;> rw [hend] <;> decide
        rw [if_neg hne]
        have htalk : Talking h c left false (t.setLine c ((t.lines c).push [msg])) :=
          Along.set (B := Fed k) ⟨htidy, hhand.line, hhand.others⟩ (hhand.line.last hend)
        exact ⟨left, htalk.moves (keeps_tidy hp _) (keeps_busy hp left false) hm'⟩

theorem safe_relayCopy (hp : h.Plain) {type : Byte} (n : Nat)
    (hno : type ≠ msgReadyForQuery ∧ type ≠ msgCopyInResponse ∧ type ≠ msgCopyBothResponse)
    (hs : Talking h c left (within false type) s) :
    Safe (talk h c) (Free c) (Wire.relayCopy type n)
      (Leaves (fun t => ∃ left, Talking h c left false t) fun _ => False) s := by
  unfold Wire.relayCopy
  rw [if_neg hno.2.1]
  split
  · next hout =>
    have hwithin : within false type = true := by simp [within, hout]
    refine (safe_relayCopyOut hp n (hwithin ▸ hs)).mono fun r t ht => ?_
    rcases r with _ | _ | _
    · trivial
    · exact ht
    · exact ⟨left, ht⟩
  · next hout =>
    have hwithin : within false type = false := by simp [within, hout]
    rw [if_neg hno.2.2]
    exact ⟨left, hwithin ▸ hs⟩

theorem safe_nextMessage {α : Type} {failure : α} {done : Message → α}
    {k : Message → Option Bool → Wire.Talk α} {Q : α → Sys → Prop} (hp : h.Plain) (n : Nat)
    (hs : Talking h c left false s) (hdone : ∀ msg t, Along c (Tidy h []) Calm t → Q (done msg) t)
    (hk : ∀ msg r t, Leaves (fun t => ∃ left, Talking h c left false t) (fun _ => False) r t →
      Safe (talk h c) (Free c) (k msg r) Q t) :
    Safe (talk h c) (Free c) (Wire.pass failure fun msg =>
      if msg.type = msgReadyForQuery then return done msg else Wire.relayCopy msg.type n >>=
        k msg) Q s := by
  refine safe_pass hp hs (fun msg t hz _ ht => ?_) (fun msg m t hg _ ht => ?_) fun msg t hno _ ht =>
    ?_
  · rw [if_pos hz]
    exact hdone msg t ht
  · have hcopy : Wire.relayCopy msg.type n = Wire.relayCopyIn n := if_pos hg
    rw [if_neg (by rw [hg]; decide), hcopy]
    exact (safe_relayCopyIn hp n m ht).bind fun r u hu => hk msg r u hu
  · rw [if_neg hno.1]
    exact (safe_relayCopy hp n hno ht).bind fun r u hu => hk msg r u hu

theorem safe_relayUntilReady (hp : h.Plain) (n : Nat) (hs : Talking h c left false s) :
    Safe (talk h c) (Free c) (Wire.relayUntilReady n)
      (Leaves (Along c (Tidy h []) Calm) fun _ => False) s := by
  induction n generalizing s left with
  | zero => trivial
  | succ n ih =>
    refine safe_nextMessage hp n hs (fun _ _ ht => ht) fun msg r t ht => ?_
    match r with
    | none => trivial
    | some true => exact ih ht.choose_spec
    | some false => exact ht

theorem safe_relayAndCollect (hp : h.Plain) (maxSize n : Nat) (size : Option Nat)
    (hs : Talking h c left false s) :
    Safe (talk h c) (Free c) (Wire.relayAndCollect maxSize n size)
      (fun r => Leaves (Along c (Tidy h []) Calm) (fun _ => False) (r.map Option.isSome)) s := by
  induction n generalizing s left size with
  | zero => trivial
  | succ n ih =>
    refine safe_nextMessage hp n hs (fun _ _ ht => ht) fun msg r t ht => ?_
    match r with
    | none => trivial
    | some true => exact ih _ ht.choose_spec
    | some false => exact ht

end

end PgMux.Conversation
