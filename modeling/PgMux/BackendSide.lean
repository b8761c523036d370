import PgMux.ClientSide

/-!
# What a backend keeps

A backend between two replies, one that works on a request, and one that reads the data of a COPY.
While a reply is relayed, the backend has something to say or to do.
-/

namespace PgMux.Conversation

open Protocol
open Relay (inBatch)
open Phases (isRequest)
open Wire (isCopy msgCopyBothResponse msgCopyData msgCopyDone msgCopyFail msgCopyInResponse
  msgCopyOutResponse msgErrorResponse msgReadyForQuery)

def within (inside : Bool) (type : Byte) : Bool :=
  type == msgCopyOutResponse || inside && type == msgCopyData

section

variable {inside : Bool} {ms ms' : List Message} {m : Message}

theorem closes_cons (hc : closes inside (m :: ms) = true) :
    (m.type ≠ msgReadyForQuery ∧ m.type ≠ msgCopyInResponse ∧ m.type ≠ msgCopyBothResponse) ∧
      (m.type = msgCopyOutResponse → inside = false) ∧ closes (within inside m.type) ms = true := by
  rw [closes] at hc
  split at hc
  · exact nomatch hc
  next hno =>
  obtain ⟨hz, hg, hw⟩ : m.type ≠ msgReadyForQuery ∧ m.type ≠ msgCopyInResponse ∧
      m.type ≠ msgCopyBothResponse := by
    simpa using hno
  refine ⟨⟨hz, hg, hw⟩, ?_⟩
  split at hc
  · next hout =>
    obtain ⟨hin, hrest⟩ : inside = false ∧ closes true ms = true := by simpa using hc
    exact ⟨fun _ => hin, by simpa [within, hout] using hrest⟩
  · next hout =>
    refine ⟨fun h => absurd h hout, ?_⟩
    rw [within, beq_false_of_ne hout, Bool.false_or]
    exact hc

theorem closes_append (ha : closes inside ms = true) (hb : closes false ms' = true) :
    closes inside (ms ++ ms') = true := by
  induction ms generalizing inside with
  | nil =>
    obtain rfl : inside = false := by simpa [closes] using ha
    exact hb
  | cons m ms ih =>
    rw [closes] at ha
    rw [List.cons_append, closes]
    split
    · next h => rw [if_pos h] at ha; exact ha
    next h =>
    rw [if_neg h] at ha
    split
    · next hout =>
      rw [if_pos hout] at ha
      obtain ⟨hin, hrest⟩ : inside = false ∧ closes true ms = true := by simpa using ha
      simpa [hin] using ih hrest
    · next hout =>
      rw [if_neg hout] at ha
      exact ih ha

theorem closes_notices (h : ∀ m ∈ ms, isNotice m.type = true) : closes false ms = true := by
  induction ms with
  | nil => rfl
  | cons m ms ih =>
    have hm : (m.type = 78 ∨ m.type = 83) ∨ m.type = 65 := by simpa [isNotice] using h m (by simp)
    have hrest := ih fun x hx => h x (by simp [hx])
    rcases hm with (hm | hm) | hm <;> rw [closes, hm] <;> exact hrest

theorem closes_error {e : Message} (he : e.type = msgErrorResponse) : closes false [e] = true := by
  rw [closes, he]; rfl

end

def Led (P Q : Message → Prop) (inbox : List Message) : Prop :=
  ∃ before last, inbox = before ++ [last] ∧ (∀ m ∈ before, P m) ∧ Q last

theorem Led.cons {P Q : Message → Prop} {m : Message} {rest : List Message}
    (h : Led P Q (m :: rest)) : (rest = [] ∧ Q m) ∨ P m ∧ Led P Q rest := by
  obtain ⟨before, last, hinbox, hP, hQ⟩ := h
  cases before with
  | nil =>
    obtain ⟨rfl, rfl⟩ : m = last ∧ rest = [] := by simpa using hinbox
    exact .inl ⟨rfl, hQ⟩
  | cons x before =>
    obtain ⟨rfl, rfl⟩ : m = x ∧ rest = before ++ [last] := by simpa using hinbox
    exact .inr ⟨hP m (by simp), before, last, rfl, fun y hy => hP y (by simp [hy]), hQ⟩

def Faces (h : Habits) (left : Nat) : Stage → List Message → Prop
  | .idle, inbox =>
    Led (fun m => isCopy m.type = true) (fun m => m.type = msgQuery ∧ h.copies m = left) inbox ∨
      Led (fun m => isRequest m = false) (fun m => m.type = msgSync) inbox
  | .skipping, inbox => Led (fun m => isRequest m = false) (fun m => m.type = msgSync) inbox
  | .copyIn extended n, inbox => extended = false ∧
    Led (fun m => m.type = msgCopyData) (fun m => m.type = msgCopyDone ∧ n = left ∨
      m.type = msgCopyFail) inbox

structure Calm (b : Backend) : Prop where
  stage : b.stage = .idle
  inbox : ∀ m ∈ b.inbox, isCopy m.type = true
  outbox : ∀ m ∈ b.outbox, isNotice m.type = true

structure Ended (inside : Bool) (b : Backend) : Prop where
  stage : b.stage = .idle
  inbox : ∀ m ∈ b.inbox, isCopy m.type = true
  outbox : ∃ body z notices, b.outbox = body ++ z :: notices ∧ closes inside body = true ∧
    z.type = msgReadyForQuery ∧ ∀ m ∈ notices, isNotice m.type = true

structure Reading (n : Nat) (b : Backend) : Prop where
  stage : b.stage = .copyIn false n
  inbox : ∀ m ∈ b.inbox, m.type = msgCopyData
  outbox : ∀ m ∈ b.outbox, isNotice m.type = true

def Fed (n : Nat) (b : Backend) : Prop := Reading n b ∨ Ended false b

structure Working (h : Habits) (left : Nat) (inside : Bool) (b : Backend) : Prop where
  faces : Faces h left b.stage b.inbox
  outbox : closes inside b.outbox = true

def Offers (left : Nat) (inside : Bool) (b : Backend) : Prop :=
  ∃ body g rest n, left = n + 1 ∧ b.outbox = body ++ g :: rest ∧ closes inside body = true ∧
    g.type = msgCopyInResponse ∧ Fed n { b with outbox := rest }

def Busy (h : Habits) (left : Nat) (inside : Bool) (b : Backend) : Prop :=
  Working h left inside b ∨ Ended inside b ∨ Offers left inside b

section

variable {h : Habits} {copies : Message → Nat} {left n : Nat} {inside : Bool} {b b' : Backend}
  {stage stage' : Stage} {inbox inbox' reply : List Message} {m : Message}

theorem not_inBatch_of_isCopy (hm : isCopy m.type = true) : ¬ inBatch m := by
  simp only [isCopy, Bool.or_eq_true, beq_iff_eq] at hm
  rcases hm with (hm | hm) | hm <;> rw [inBatch, hm] <;> decide

theorem takes_copy (hm : isCopy m.type = true) (ht : Takes copies .idle m reply stage) :
    reply = [] ∧ stage = .idle := by
  have hno := isRequest_of_isCopy hm
  have hbatch := not_inBatch_of_isCopy hm
  cases ht with
  | query hq => simp [isRequest, hq] at hno
  | copy hq =>
    rcases hq with hq | hq
    · simp [isRequest, hq] at hno
    · exact absurd (by simp [inBatch, hq]) hbatch
  | sync hs => simp [isRequest, hs] at hno
  | message hin => exact absurd hin hbatch
  | drop => exact ⟨rfl, rfl⟩

theorem works_idle (hinbox : ∀ m ∈ inbox, isCopy m.type = true)
    (hw : Works copies .idle inbox reply stage' inbox') :
    stage' = .idle ∧ (∀ m ∈ inbox', isCopy m.type = true) ∧ ∀ m ∈ reply,
    isNotice m.type = true := by
  cases hw with
  | take ht =>
    obtain ⟨rfl, rfl⟩ := takes_copy (hinbox _ (by simp)) ht
    exact ⟨rfl, fun x hx => hinbox x (by simp [hx]), nofun⟩
  | notice hm => exact ⟨rfl, hinbox, List.forall_mem_singleton.mpr hm⟩

theorem Calm.moves (hb : Calm b) (hm : b.Moves copies b') : Calm b' := by
  obtain ⟨reply, hw, hout⟩ := hm
  rw [hb.stage] at hw
  obtain ⟨hstage, hinbox, hreply⟩ := works_idle hb.inbox hw
  exact ⟨hstage, hinbox, hout ▸ List.forall_mem_append.mpr ⟨hb.outbox, hreply⟩⟩

theorem Ended.moves (hb : Ended inside b) (hm : b.Moves copies b') : Ended inside b' := by
  obtain ⟨reply, hw, hout⟩ := hm
  rw [hb.stage] at hw
  obtain ⟨hstage, hinbox, hreply⟩ := works_idle hb.inbox hw
  obtain ⟨body, z, notices, hbox, hbody, hz, hnotices⟩ := hb.outbox
  refine ⟨hstage, hinbox, body, z, notices ++ reply, ?_, hbody, hz,
    List.forall_mem_append.mpr ⟨hnotices, hreply⟩⟩
  rw [hout, hbox, List.append_assoc, List.cons_append]

theorem isCopy_of_data (hm : m.type = msgCopyData) : isCopy m.type = true := by rw [hm]; rfl

theorem isCopy_of_end (hm : m.type = msgCopyDone ∨ m.type = msgCopyFail) :
    isCopy m.type = true := by
  rcases hm with hm | hm <;> rw [hm] <;> rfl

theorem ended_of_fails (hf : Fails false reply stage) (hinbox : ∀ m ∈ inbox, isCopy m.type = true)
    {out : List Message} (hout : closes inside out = true) :
    Ended inside ⟨stage, inbox, out ++ reply⟩ := by
  cases hf with
  | @simple e z he hz =>
    refine ⟨rfl, hinbox, out ++ [e], z, [], ?_, closes_append hout (closes_error he), hz, nofun⟩
    simp

theorem Fed.moves (hb : Fed n b) (hm : b.Moves copies b') : Fed n b' := by
  rcases hb with hb | hb
  · obtain ⟨stage, inbox, outbox⟩ := b
    obtain ⟨stage', inbox', outbox'⟩ := b'
    obtain ⟨reply, hw, hsent⟩ := hm
    obtain ⟨rfl, hinbox, hout⟩ := hb
    dsimp only at hw hsent hinbox hout
    subst hsent
    cases hw with
    | take ht =>
      have hdata := hinbox _ (List.mem_cons_self ..)
      cases ht with
      | data => exact .inl ⟨rfl, fun x hx => hinbox x (by simp [hx]), by simpa using hout⟩
      | done hdone | again hdone => exact absurd (hdata.symm.trans hdone) (by decide)
      | fail hno => exact absurd (by simp [hdata]) hno
    | fail hf => exact .inr (ended_of_fails hf (fun x hx => isCopy_of_data (hinbox x hx))
        (closes_notices hout))
    | notice hm =>
      exact .inl ⟨rfl, hinbox, List.forall_mem_append.mpr ⟨hout, List.forall_mem_singleton.mpr hm⟩⟩
  · exact .inr (hb.moves hm)

def Goes (h : Habits) (left : Nat) (reply : List Message) (stage : Stage) (inbox : List Message) :
    Prop :=
  (closes false reply = true ∧ Faces h left stage inbox) ∨
    (∃ body z, reply = body ++ [z] ∧ closes false body = true ∧ z.type = msgReadyForQuery ∧
      stage = .idle ∧ ∀ m ∈ inbox, isCopy m.type = true) ∨
    ∃ body g n, reply = body ++ [g] ∧ closes false body = true ∧ g.type = msgCopyInResponse ∧
    left = n + 1 ∧ stage = .copyIn false n ∧ inbox = []

theorem takes_query (hm : m.type = msgQuery) (hleft : h.copies m = left)
    (ht : Takes h.copies .idle m reply stage) : Goes h left reply stage [] := by
  have hreq : isRequest m = true := by simp [isRequest, hm]
  cases ht with
  | query _ hbody hz => exact .inr (.inl ⟨_, _, rfl, hbody, hz, rfl, List.forall_mem_nil _⟩)
  | copy _ hcopies hbody hg =>
    refine .inr (.inr ⟨_, _, _, rfl, hbody, hg, hleft.symm.trans hcopies, ?_, rfl⟩)
    rw [hm]; rfl
  | sync hs => exact absurd (hm.symm.trans hs) (by decide)
  | message hin => simp [isRequest_of_inBatch hin] at hreq
  | drop hno => simp [hno.1] at hreq

theorem takes_sync (hm : m.type = msgSync) (hstage : stage = .idle ∨ stage = .skipping)
    (ht : Takes h.copies stage m reply stage') : Goes h left reply stage' [] := by
  have hreq : isRequest m = true := by simp [isRequest, hm]
  cases ht with
  | query hq => exact absurd (hm.symm.trans hq) (by decide)
  | copy hq =>
    rcases hq with hq | hq
    · exact absurd (hm.symm.trans hq) (by decide)
    · exact absurd (hm.symm.trans hq) (by decide)
  | sync _ hz | ready _ hz => exact .inr (.inl ⟨[], _, rfl, rfl, hz, rfl, List.forall_mem_nil _⟩)
  | message hin => simp [isRequest_of_inBatch hin] at hreq
  | drop hno => simp [hno.1] at hreq
  | skip hno => exact absurd hm hno
  | data | done | again | finish | fail => simp at hstage

theorem takes_message (hp : h.Plain) (hm : isRequest m = false)
    (hled : Led (fun m => isRequest m = false) (fun m => m.type = msgSync) inbox)
    (hstage : stage = .idle ∨ stage = .skipping) (ht : Takes h.copies stage m reply stage') :
    Goes h left reply stage' inbox := by
  cases ht with
  | query hq => simp [isRequest, hq] at hm
  | copy hq hcopies =>
    rcases hq with hq | hq
    · simp [isRequest, hq] at hm
    · simp [hp.copies _ hq] at hcopies
  | sync hs | ready hs => simp [isRequest, hs] at hm
  | message _ hbody hnext =>
    refine .inl ⟨hbody, ?_⟩
    rcases hnext with rfl | rfl
    · exact .inr hled
    · exact hled
  | drop => exact .inl ⟨rfl, .inr hled⟩
  | skip => exact .inl ⟨rfl, hled⟩
  | data | done | again | finish | fail => simp at hstage

theorem takes_data (hm : m.type = msgCopyData)
    (hled : Led (fun m => m.type = msgCopyData) (fun m => m.type = msgCopyDone ∧ n = left ∨
      m.type = msgCopyFail) inbox)
    (ht : Takes h.copies (.copyIn false n) m reply stage) : Goes h left reply stage inbox := by
  cases ht with
  | data => exact .inl ⟨rfl, rfl, hled⟩
  | done hdone | again hdone => exact absurd (hm.symm.trans hdone) (by decide)
  | fail hno => exact absurd (by simp [hm]) hno

theorem goes_of_fails (hf : Fails false reply stage) (hinbox : ∀ m ∈ inbox, isCopy m.type = true) :
    Goes h left reply stage inbox := by
  cases hf with
  | simple he hz => exact .inr (.inl ⟨[_], _, rfl, closes_error he, hz, rfl, hinbox⟩)

theorem takes_end (hm : m.type = msgCopyDone ∧ n = left ∨ m.type = msgCopyFail)
    (ht : Takes h.copies (.copyIn false n) m reply stage) : Goes h left reply stage [] := by
  cases ht with
  | data hdata =>
    rcases hm with ⟨hm, -⟩ | hm <;> rcases hdata with hdata | hdata | hdata <;>
      exact absurd (hm.symm.trans hdata) (by decide)
  | done _ hbody hz => exact .inr (.inl ⟨_, _, rfl, hbody, hz, rfl, List.forall_mem_nil _⟩)
  | again hdone hbody hg =>
    rcases hm with ⟨-, rfl⟩ | hm
    · exact .inr (.inr ⟨_, _, _, rfl, hbody, hg, rfl, rfl, rfl⟩)
    · exact absurd (hm.symm.trans hdone) (by decide)
  | fail _ hf => exact goes_of_fails hf nofun

theorem Faces.works (hp : h.Plain) (hf : Faces h left stage inbox)
    (hw : Works h.copies stage inbox reply stage' inbox') : Goes h left reply stage' inbox' := by
  cases hw with
  | @take m rest _ _ _ ht =>
    cases stage with
    | idle =>
      rcases hf with hf | hf
      · rcases hf.cons with ⟨rfl, hm, hleft⟩ | ⟨hm, hrest⟩
        · exact takes_query hm hleft ht
        · obtain ⟨rfl, rfl⟩ := takes_copy hm ht
          exact .inl ⟨rfl, .inl hrest⟩
      · rcases hf.cons with ⟨rfl, hm⟩ | ⟨hm, hrest⟩
        · exact takes_sync hm (.inl rfl) ht
        · exact takes_message hp hm hrest (.inl rfl) ht
    | skipping =>
      rcases Led.cons hf with ⟨rfl, hm⟩ | ⟨hm, hrest⟩
      · exact takes_sync hm (.inr rfl) ht
      · exact takes_message hp hm hrest (.inr rfl) ht
    | copyIn extended n =>
      obtain ⟨rfl, hled⟩ := hf
      rcases hled.cons with ⟨rfl, hm⟩ | ⟨hm, hrest⟩
      · exact takes_end hm ht
      · exact takes_data hm hrest ht
  | fail hfail =>
    obtain ⟨rfl, data, last, rfl, hdata, hlast⟩ := hf
    have hcopy : isCopy last.type = true := isCopy_of_end (hlast.imp_left And.left)
    refine goes_of_fails hfail (List.forall_mem_append.mpr ⟨fun x hx => isCopy_of_data (hdata x hx),
      ?_⟩)
    exact List.forall_mem_singleton.mpr hcopy
  | notice hm => exact .inl ⟨closes_notices (List.forall_mem_singleton.mpr hm), hf⟩

theorem Busy.moves (hp : h.Plain) (hb : Busy h left inside b) (hm : b.Moves h.copies b') :
    Busy h left inside b' := by
  rcases hb with hb | hb | ⟨body, g, rest, n, hleft, hbox, hbody, hg, hfed⟩
  · obtain ⟨reply, hw, hout⟩ := hm
    obtain ⟨stage', inbox', outbox'⟩ := b'
    subst hout
    rcases hb.faces.works hp hw with
      ⟨hreply, hfaces⟩ | ⟨body, z, rfl, hbody, hz, rfl, hinbox⟩ | ⟨body, g, n, rfl, hbody, hg,
        hleft, rfl, rfl⟩
    · exact .inl ⟨hfaces, closes_append hb.outbox hreply⟩
    · exact .inr (.inl ⟨rfl, hinbox, b.outbox ++ body, z,
        [], by simp, closes_append hb.outbox hbody, hz, nofun⟩)
    · refine .inr (.inr ⟨b.outbox ++ body, g, [], n,
        hleft, by simp, closes_append hb.outbox hbody, hg, ?_⟩)
      exact .inl ⟨rfl, nofun, nofun⟩
  · exact .inr (.inl (hb.moves hm))
  · obtain ⟨reply, hw, hout⟩ := hm
    refine .inr (.inr ⟨body, g, rest ++ reply, n, hleft, ?_, hbody, hg,
      hfed.moves ⟨reply, hw, rfl⟩⟩)
    rw [hout, hbox, List.append_assoc, List.cons_append]

theorem Busy.ne (hb : Busy h left inside b) : ¬ (b.inbox = [] ∧ b.outbox = []) := by
  rintro ⟨hin, hout⟩
  rcases hb with hb | hb | ⟨body, g, rest, n, -, hbox, -⟩
  · have hled : ∀ {P Q : Message → Prop}, ¬ Led P Q b.inbox := by
      rintro P Q ⟨before, last, hbox, -⟩
      simp [hin] at hbox
    have hfaces := hb.faces
    cases hstage : b.stage <;> rw [hstage] at hfaces
    · exact hfaces.elim hled hled
    · exact hled hfaces
    · exact hled hfaces.2
  · obtain ⟨body, z, notices, hbox, -⟩ := hb.outbox
    simp [hout] at hbox
  · simp [hout] at hbox

theorem Busy.read {rest : List Message} (hb : Busy h left inside ⟨stage, inbox, m :: rest⟩) :
    (m.type = msgReadyForQuery ∧ inside = false ∧ Calm ⟨stage, inbox, rest⟩) ∨
      (m.type = msgCopyInResponse ∧ inside = false ∧ ∃ n, left = n + 1 ∧
        Fed n ⟨stage, inbox, rest⟩) ∨
      ((m.type ≠ msgReadyForQuery ∧ m.type ≠ msgCopyInResponse ∧ m.type ≠ msgCopyBothResponse) ∧
        (m.type = msgCopyOutResponse → inside = false) ∧ Busy h left (within inside m.type)
          ⟨stage, inbox, rest⟩) := by
  rcases hb with hb | hb | ⟨body, g, rest', n, hleft, hbox, hbody, hg, hfed⟩
  · obtain ⟨hm, hout, hclosed⟩ := closes_cons hb.outbox
    exact .inr (.inr ⟨hm, hout, .inl ⟨hb.faces, hclosed⟩⟩)
  · obtain ⟨body, z, notices, hbox, hbody, hz, hnotices⟩ := hb.outbox
    cases body with
    | nil =>
      obtain ⟨rfl, rfl⟩ : m = z ∧ rest = notices := by simpa using hbox
      exact .inl ⟨hz, by simpa [closes] using hbody, hb.stage, hb.inbox, hnotices⟩
    | cons x body =>
      obtain ⟨rfl, rfl⟩ : m = x ∧ rest = body ++ z :: notices := by simpa using hbox
      obtain ⟨hm, hout, hclosed⟩ := closes_cons hbody
      exact .inr (.inr ⟨hm, hout, .inr (.inl ⟨hb.stage, hb.inbox, body, z, notices, rfl, hclosed,
        hz, hnotices⟩)⟩)
  · cases body with
    | nil =>
      obtain ⟨rfl, rfl⟩ : m = g ∧ rest = rest' := by simpa using hbox
      exact .inr (.inl ⟨hg, by simpa [closes] using hbody, n, hleft, hfed⟩)
    | cons x body =>
      obtain ⟨rfl, rfl⟩ : m = x ∧ rest = body ++ g :: rest' := by simpa using hbox
      obtain ⟨hm, hout, hclosed⟩ := closes_cons hbody
      exact .inr (.inr ⟨hm, hout, .inr (.inr ⟨body, g, rest', n, hleft, rfl, hclosed, hg, hfed⟩)⟩)

theorem Fed.data (hb : Fed n b) (hm : m.type = msgCopyData) : Fed n (b.push [m]) := by
  rcases hb with hb | hb
  · exact .inl ⟨hb.stage, List.forall_mem_append.mpr ⟨hb.inbox, List.forall_mem_singleton.mpr hm⟩,
      hb.outbox⟩
  · have hcopy : ∀ x ∈ [m], isCopy x.type = true :=
      List.forall_mem_singleton.mpr (isCopy_of_data hm)
    exact .inr ⟨hb.stage, List.forall_mem_append.mpr ⟨hb.inbox, hcopy⟩, hb.outbox⟩

theorem Fed.last (hb : Fed n b) (hm : m.type = msgCopyDone ∧ n = left ∨ m.type = msgCopyFail) :
    Busy h left false (b.push [m]) := by
  rcases hb with hb | hb
  · refine .inl ⟨?_, closes_notices hb.outbox⟩
    change Faces h left b.stage (b.inbox ++ [m])
    rw [hb.stage]
    exact ⟨rfl, b.inbox, m, rfl, hb.inbox, hm⟩
  · have hcopy : ∀ x ∈ [m], isCopy x.type = true :=
      List.forall_mem_singleton.mpr (isCopy_of_end (hm.imp_left And.left))
    exact .inr (.inl ⟨hb.stage, List.forall_mem_append.mpr ⟨hb.inbox, hcopy⟩, hb.outbox⟩)

end

end PgMux.Conversation
