import PgMux.Relays

/-!
# Readers of the two connections of a copy in both directions

Only one of the two results of `relayCopyBoth` is awaited, so a goroutine can be left behind that
reads a connection the caller reads again.
-/

namespace PgMux.CopyBoth

open Protocol Relays
open Wire (msgReadyForQuery msgCopyInResponse msgCopyOutResponse msgCopyBothResponse msgCopyData
  msgCopyDone msgCopyFail)

def other : Side → Side
  | .client => .backend
  | .backend => .client

/-- Where a goroutine is: the caller in its session, in one of the relays or at the result channel,
or a goroutine of relayCopyBoth. -/
inductive Loop where
  | session | relay | copyIn | copyOut | waits | down | up
  | over (ok : Bool)
  deriving DecidableEq

def Loop.reads : Loop → Option Side
  | .session | .copyIn | .up => some .client
  | .relay | .copyOut | .down => some .backend
  | .waits | .over _ => none

/-- The loop behind a forwarded message. -/
def Loop.after (l : Loop) (type : Byte) : Loop :=
  match l with
  | .session => .relay
  | .relay =>
    if type = msgReadyForQuery then .session
    else if type = msgCopyInResponse then .copyIn
    else if type = msgCopyOutResponse then .copyOut
    else if type = msgCopyBothResponse then .waits
    else .relay
  | .copyIn => if type = msgCopyData then .copyIn else .relay
  | .copyOut => if type = msgCopyData then .copyOut else .relay
  | .down => if type = msgCopyDone then .over true else .down
  | .up => if type = msgCopyDone ∨ type = msgCopyFail then .over true else .up
  | l => l

/-- The result of a stale goroutine goes to a channel nobody reads. -/
structure Task where
  loop : Loop
  held : Option Message
  stale : Bool

def Task.starts (t : Task) : List Task :=
  if t.loop = .waits then [⟨.down, none, false⟩, ⟨.up, none, false⟩] else []

def Task.left (t : Task) : List Task :=
  match t.loop with
  | .over _ => []
  | _ => [t]

def Task.result (t : Task) : List Bool :=
  match t.loop with
  | .over ok => if t.stale then [] else [ok]
  | _ => []

structure Sys where
  pending : Side → List Message
  sent : Side → List Message
  caller : Task
  workers : List Task
  errCh : List Bool

def Sys.start (messages : Side → List Message) : Sys :=
  ⟨messages, fun _ => [], ⟨.session, none, false⟩, [], []⟩

inductive TaskStep (s : Sys) (t : Task) : Task → Sys → Prop where
  | read {side : Side} {m : Message} {rest : List Message} (hreads : t.loop.reads = some side)
      (h : t.held = none)
      (hm : s.pending side = m :: rest) :
      TaskStep s t { t with held := some m }
        { s with pending := Function.update s.pending side rest }
  | forward {side : Side} {m : Message} (hreads : t.loop.reads = some side) (h : t.held = some m) :
      TaskStep s t { t with loop := t.loop.after m.type, held := none }
        { s with sent := Function.update s.sent (other side) (s.sent (other side) ++ [m]) }
  | fail (hreads : t.loop.reads ≠ none) :
      TaskStep s t { t with loop := .over false, held := none } s

inductive Step (s : Sys) : Sys → Prop where
  | caller {t : Task} {s' : Sys} (h : TaskStep s s.caller t s') :
      Step s { s' with caller := t, workers := s.workers ++ t.starts }
  | worker (pre post : List Task) {w t : Task} {s' : Sys} (hw : s.workers = pre ++ w :: post)
      (h : TaskStep s w t s') :
      Step s { s' with workers := pre ++ t.left ++ post, errCh := s.errCh ++ t.result }
  | receive {ok : Bool} {rest : List Bool} (h : s.caller.loop = .waits)
      (hch : s.errCh = ok :: rest) : Step s
      { s with
        caller := ⟨if ok then .relay else .over false, none, false⟩
        workers := s.workers.map fun w => { w with stale := true }
        errCh := [] }

def Sys.readers (s : Sys) (side : Side) : Nat :=
  (s.caller :: s.workers).countP fun t => t.loop.reads = some side

/-- The caller goes on behind relayCopyBoth. -/
abbrev Resumes (s s' : Sys) : Prop := s.caller.loop = .waits ∧ s'.caller.loop = .relay

/-- A step where relayCopyBoth returns nil only behind both directions. -/
def Awaits (s s' : Sys) : Prop := Step s s' ∧ (Resumes s s' → s.errCh = [true, true])

/-- What a reader of the side has in hand. -/
def Task.hand (side : Side) (t : Task) : List Message :=
  if t.loop.reads = some side then t.held.toList else []

def Sys.flow (s : Sys) (side : Side) : List Message :=
  s.sent (other side) ++ (s.caller :: s.workers).flatMap (·.hand side) ++ s.pending side

def Sys.Broken (s : Sys) : Prop :=
  s.caller.loop = .over false ∨ s.caller.loop = .waits ∧ false ∈ s.errCh

structure Inv (messages : Side → List Message) (s : Sys) : Prop where
  loops : (s.workers.map Task.loop).Sublist [.down, .up]
  alone : s.caller.loop.reads ≠ none → s.workers = [] ∧ s.errCh = []
  kind : s.caller.loop ∈ [.session, .relay, .copyIn, .copyOut, .waits, .over false]
  results : s.caller.loop = .waits → s.errCh.length + s.workers.length = 2 ∧ ∀ w ∈ s.workers,
    w.stale = false
  flow : ∀ side, s.flow side = messages side ∨
    s.sent (other side) <+: messages side ∧ s.Broken ∧ ∀ w ∈ s.workers, w.loop.reads ≠ some side

variable {messages : Side → List Message} {s s' : Sys} {t t' : Task} {side : Side} {l : Loop}
  {b : Byte}

theorem other_ne {a : Side} (h : a ≠ side) : other a ≠ other side := by
  cases a <;> cases side <;> simp_all [other]

theorem Loop.after_caller (h : l ∈ [.session, .relay, .copyIn, .copyOut, .waits, .over false]) :
    l.after b ∈ [.session, .relay, .copyIn, .copyOut, .waits, .over false] := by
  simp only [List.mem_cons, List.not_mem_nil, or_false] at h
  rcases h with rfl | rfl | rfl | rfl | rfl | rfl <;> simp only [Loop.after] <;>
    (repeat' split) <;> simp

theorem Loop.after_worker (h : l ∈ [.down, .up]) (b : Byte) :
    l.after b = l ∨ l.after b = .over true := by
  simp only [List.mem_cons, List.not_mem_nil, or_false] at h
  rcases h with rfl | rfl <;> simp only [Loop.after] <;> split <;> simp

theorem Loop.after_ne (h : l.reads ≠ none) : l.after b ≠ .over false := by
  cases l <;> simp_all only [Loop.after, Loop.reads, ne_eq,
    not_true_eq_false] <;> (repeat' split) <;> simp

theorem hand_of_not_reads (h : t.loop.reads ≠ some side) : t.hand side = [] :=
  by simp [Task.hand, h]

theorem hand_of_held (h : t.held = none) : t.hand side = [] := by simp [Task.hand, h]

theorem hands_eq_nil {ts : List Task} (h : ∀ t ∈ ts, t.loop.reads ≠ some side) :
    ts.flatMap (·.hand side) = [] := by
  simpa using fun t ht => hand_of_not_reads (h t ht)

@[simp] theorem hands_left : t.left.flatMap (·.hand side) = t.hand side := by
  unfold Task.left
  split <;> simp_all [Task.hand, Loop.reads]

@[simp] theorem hands_starts : t.starts.flatMap (·.hand side) = [] := by
  unfold Task.starts
  split <;> simp [Task.hand]

theorem TaskStep.frame (h : TaskStep s t t' s') (hreads : t.loop.reads ≠ some side) :
    s'.sent (other side) = s.sent (other side) ∧ s'.pending side = s.pending side ∧
    t'.hand side = [] := by
  cases h with
  | @read a m rest ha hheld hm =>
    have hne : side ≠ a := by rintro rfl; exact hreads ha
    exact ⟨rfl, by simp [hne], hand_of_not_reads hreads⟩
  | @forward a m ha hheld =>
    have hne : side ≠ a := by rintro rfl; exact hreads ha
    exact ⟨by simp [other_ne hne], rfl, hand_of_held rfl⟩
  | fail ha => exact ⟨rfl, rfl, hand_of_held rfl⟩

theorem TaskStep.flow (h : TaskStep s t t' s') (hreads : t.loop.reads = some side)
    (hok : t'.loop ≠ .over false) :
    s'.sent (other side) ++ t'.hand side ++ s'.pending side =
      s.sent (other side) ++ t.hand side ++ s.pending side := by
  cases h with
  | @read a m rest ha hheld hm =>
    obtain rfl : a = side := by simpa [ha] using hreads
    simp [Task.hand, hheld, hm, ha]
  | @forward a m ha hheld =>
    obtain rfl : a = side := by simpa [ha] using hreads
    simp [Task.hand, hheld, ha]
  | fail ha => exact absurd rfl hok

/-- A failed goroutine leaves the connections as they are. -/
theorem TaskStep.failed (h : TaskStep s t t' s') (hfailed : t'.loop = .over false) : s' = s := by
  cases h with
  | read ha hheld hm =>
    rw [show t.loop = .over false from hfailed] at ha
    simp [Loop.reads] at ha
  | forward ha hheld => exact absurd hfailed (Loop.after_ne (by simp [ha]))
  | fail ha => rfl

theorem readers_le {ws : List Task} (h : (ws.map Task.loop).Sublist [.down, .up]) :
    ws.countP (fun t => t.loop.reads = some side) ≤ 1 := by
  have hle := h.countP_le (p := fun l => l.reads = some side)
  rw [List.countP_map] at hle
  refine Nat.le_trans hle ?_
  cases side <;> decide

theorem others_not_read {pre post : List Task}
    (h : ((pre ++ t :: post).map Task.loop).Sublist [.down, .up])
    (hreads : t.loop.reads = some side) : ∀ w ∈ pre ++ post, w.loop.reads ≠ some side := by
  have hle : (pre ++ t :: post).countP (fun t => t.loop.reads = some side) ≤ 1 := readers_le h
  simp only [List.countP_append, List.countP_cons, hreads, decide_true, if_true] at hle
  have hnone : (pre ++ post).countP (fun t => t.loop.reads = some side) = 0 := by
    rw [List.countP_append]
    omega
  simpa only [List.countP_eq_zero, decide_eq_true_eq] using hnone

theorem TaskStep.reads (h : TaskStep s t t' s') : t.loop.reads ≠ none := by
  cases h with
  | read ha | forward ha => simp [ha]
  | fail ha => exact ha

theorem TaskStep.rest (h : TaskStep s t t' s') :
    s'.caller = s.caller ∧ s'.workers = s.workers ∧ s'.errCh = s.errCh ∧ t'.stale = t.stale := by
  cases h <;> exact ⟨rfl, rfl, rfl, rfl⟩

theorem Inv.prefix_of (h : Inv messages s) : s.sent (other side) <+: messages side := by
  obtain hflow | ⟨hsent, -⟩ := h.flow side
  · rw [← hflow, Sys.flow, List.append_assoc]
    exact List.prefix_append _ _
  · exact hsent

theorem Inv.unbroken (h : Inv messages s) (hbroken : ¬ s.Broken) : s.flow side = messages side := by
  obtain hflow | ⟨-, hb, -⟩ := h.flow side
  · exact hflow
  · exact absurd hb hbroken

theorem Inv.step_caller (h : Inv messages s) (hstep : TaskStep s s.caller t s') :
    Inv messages { s' with caller := t, workers := s.workers ++ t.starts } := by
  obtain ⟨hworkers, herrCh⟩ := h.alone hstep.reads
  have hrest := hstep.rest
  have hunbroken : ¬ s.Broken := by
    rintro (hb | ⟨hb, -⟩) <;> exact hstep.reads (by rw [hb]; rfl)
  refine ⟨?_, fun hreads => ?_, ?_, fun hwaits => ?_, fun side => ?_⟩
  · rw [hworkers]
    unfold Task.starts
    split <;> simp
  · have : t.starts = [] := by
      unfold Task.starts
      split
      · simp_all [Loop.reads]
      · rfl
    simp [hworkers, this, hrest, herrCh]
  · cases hstep with
    | read ha hheld hm => exact h.kind
    | forward ha hheld => exact Loop.after_caller h.kind
    | fail ha => simp
  · simp [hworkers, hrest, herrCh, Task.starts, show t.loop = .waits from hwaits]
  · by_cases hfailed : t.loop = .over false
    · refine .inr ⟨?_, .inl hfailed, ?_⟩
      · rw [hstep.failed hfailed]
        exact h.prefix_of
      · simp [hworkers, Task.starts, hfailed]
    · left
      rw [← h.unbroken hunbroken]
      by_cases hreads : s.caller.loop.reads = some side
      · simpa [Sys.flow, hworkers] using hstep.flow hreads hfailed
      · obtain ⟨hsent, hpending, hhand⟩ := hstep.frame hreads
        simp [Sys.flow, hworkers, hsent, hpending, hhand, hand_of_not_reads hreads]

theorem TaskStep.left_sublist (h : TaskStep s t t' s') (hworker : t.loop ∈ [.down, .up]) :
    (t'.left.map Task.loop).Sublist [t.loop] := by
  unfold Task.left
  split
  · exact List.nil_sublist _
  · cases h with
    | read ha hheld hm => exact List.Sublist.refl _
    | @forward _ m ha hheld =>
      obtain hsame | hover := Loop.after_worker hworker m.type
      · simp [hsame]
      · simp_all
    | fail ha => simp_all

theorem left_length (h : t.stale = false) : t.result.length + t.left.length = 1 := by
  unfold Task.left Task.result
  split <;> simp [h]

theorem mem_left {w : Task} (h : w ∈ t.left) : w = t := by
  unfold Task.left at h
  split at h <;> simp_all

theorem Inv.step_worker {pre post : List Task} {w : Task} (h : Inv messages s)
    (hw : s.workers = pre ++ w :: post) (hstep : TaskStep s w t s') :
    Inv messages { s' with workers := pre ++ t.left ++ post, errCh := s.errCh ++ t.result } := by
  obtain ⟨hcaller, -, herrCh, hstale⟩ := hstep.rest
  have hloops := h.loops
  rw [hw] at hloops
  have hworker : w.loop ∈ [.down, .up] := hloops.subset (by simp)
  have hleft := hstep.left_sublist hworker
  have hnone : s.caller.loop.reads = none := by
    by_contra hreads
    have := (h.alone hreads).1
    simp [hw] at this
  refine ⟨?_, fun hreads => ?_, ?_, fun hwaits => ?_, fun side => ?_⟩
  · refine List.Sublist.trans ?_ hloops
    simpa using (List.Sublist.refl (pre.map Task.loop)).append
      (hleft.append (List.Sublist.refl (post.map Task.loop)))
  · exact absurd (hcaller ▸ hnone) hreads
  · exact hcaller ▸ h.kind
  · obtain ⟨hlength, hfresh⟩ := h.results (hcaller ▸ hwaits)
    simp only [hw, List.forall_mem_append, List.forall_mem_cons, List.length_append,
      List.length_cons] at hlength hfresh
    have hone := left_length (hstale.trans hfresh.2.1)
    refine ⟨by simp; omega, ?_⟩
    simp only [List.forall_mem_append]
    exact ⟨⟨hfresh.1, fun x hx => mem_left hx ▸ hstale.trans hfresh.2.1⟩, hfresh.2.2⟩
  · by_cases hreads : w.loop.reads = some side
    · have hothers := others_not_read hloops hreads
      simp only [List.forall_mem_append] at hothers
      by_cases hfailed : t.loop = .over false
      · refine .inr ⟨?_, ?_, ?_⟩
        · rw [hstep.failed hfailed]
          exact h.prefix_of
        · have hcases := h.kind
          simp only [List.mem_cons, List.not_mem_nil, or_false] at hcases
          rcases hcases with hc | hc | hc | hc | hc | hc
          any_goals simp [hc, Loop.reads] at hnone
          · have hfresh := (h.results hc).2 w (by simp [hw])
            exact .inr ⟨hcaller ▸ hc, by simp [Task.result, hfailed, hstale, hfresh]⟩
          · exact .inl (hcaller ▸ hc)
        · simpa only [Task.left, hfailed, List.append_nil, List.forall_mem_append] using hothers
      · left
        have hflow : s.flow side = messages side := by
          obtain hflow | ⟨-, -, hnot⟩ := h.flow side
          · exact hflow
          · exact absurd hreads (hnot w (by simp [hw]))
        have hhand := hand_of_not_reads (t := s.caller) (show _ ≠ some side by simp [hnone])
        rw [← hflow]
        simpa [Sys.flow, hw, hcaller, hhand, hands_eq_nil hothers.1,
          hands_eq_nil hothers.2] using hstep.flow hreads hfailed
    · obtain ⟨hsent, hpending, hhand⟩ := hstep.frame hreads
      obtain hflow | ⟨hpart, hbroken, hnot⟩ := h.flow side
      · left
        rw [← hflow]
        simp [Sys.flow, hw, hcaller, hsent, hpending, hhand, hand_of_not_reads hreads]
      · refine .inr ⟨?_, ?_, ?_⟩
        · simpa [hsent] using hpart
        · exact hbroken.imp (hcaller ▸ ·) fun hb => ⟨hcaller ▸ hb.1, List.mem_append_left _ hb.2⟩
        · simp only [hw, List.forall_mem_append, List.forall_mem_cons] at hnot ⊢
          refine ⟨⟨hnot.1, fun x hx => ?_⟩, hnot.2.2⟩
          have hloop : x.loop ∈ [w.loop] := hleft.subset (List.mem_map_of_mem hx)
          rw [List.mem_singleton.mp hloop]
          exact hreads

theorem Inv.step_receive {ok : Bool} {rest : List Bool} (h : Inv messages s)
    (hwaits : s.caller.loop = .waits) (hch : s.errCh = ok :: rest)
    (hboth : ok = true → s.errCh = [true, true]) : Inv messages { s with
      caller := ⟨if ok then .relay else .over false, none, false⟩
      workers := s.workers.map fun w => { w with stale := true }
      errCh := [] } := by
  have hhands : ∀ side, (s.workers.map fun w => { w with stale := true }).flatMap (·.hand side) =
      s.workers.flatMap (·.hand side) := fun side => by simp [List.flatMap_map, Task.hand]
  have hhand : ∀ side, s.caller.hand side = [] := fun side =>
    hand_of_not_reads (by simp [hwaits, Loop.reads])
  cases ok with
  | false =>
    refine ⟨by simpa [Function.comp_def] using h.loops, by simp [Loop.reads], by simp, by simp,
      fun side => ?_⟩
    obtain hflow | ⟨hpart, -, hnot⟩ := h.flow side
    · left
      rw [← hflow]
      simp [Sys.flow, hhands, hhand, hand_of_held]
    · exact .inr ⟨hpart, .inl rfl, by simpa using hnot⟩
  | true =>
    have hlength := (h.results hwaits).1
    have hworkers : s.workers = [] := by simpa [hboth rfl] using hlength
    have hunbroken : ¬ s.Broken := by simp [Sys.Broken, hwaits, hboth rfl]
    refine ⟨by simp [hworkers], by simp [hworkers], by simp, by simp, fun side => .inl ?_⟩
    rw [← h.unbroken hunbroken]
    simp [Sys.flow, hhand, hand_of_held, hworkers]

/-- Each connection has one reader, and each side gets the other's messages in their order. -/
theorem one_reader_per_connection (hrun : Relation.ReflTransGen Awaits (.start messages) s) :
    (s.caller.loop.reads ≠ none → s.workers = []) ∧
      ∀ side, s.readers side ≤ 1 ∧ s.sent (other side) <+: messages side := by
  have hinv : Inv messages s := by
    induction hrun with
    | refl =>
        exact ⟨by simp [Sys.start], by simp [Sys.start], by simp [Sys.start], by simp [Sys.start],
        fun side => .inl (by simp [Sys.flow, Sys.start, Task.hand])⟩
    | tail _ hstep ih =>
      obtain ⟨hstep, hboth⟩ := hstep
      cases hstep with
      | caller h => exact ih.step_caller h
      | worker _ _ hw h => exact ih.step_worker hw h
      | receive h hch =>
        refine ih.step_receive h hch fun hok => hboth ⟨h, ?_⟩
        simp [hok]
  refine ⟨fun hreads => (hinv.alone hreads).1, fun side => ⟨?_, hinv.prefix_of⟩⟩
  rw [Sys.readers, List.countP_cons]
  by_cases hreads : s.caller.loop.reads = some side
  · simp [(hinv.alone (by simp [hreads])).1, hreads]
  · simpa [hreads] using readers_le hinv.loops

def query : Message := ⟨81, []⟩

def copyBothResponse : Message := ⟨msgCopyBothResponse, []⟩

def copyDone : Message := ⟨msgCopyDone, []⟩

def copyData (b : Byte) : Message := ⟨msgCopyData, [b]⟩

/-- The client ends its copy at once. -/
def replication (fromBackend : List Message) : Side → List Message
  | .client => [query, copyDone]
  | .backend => copyBothResponse :: fromBackend

theorem one_reader_behind_copyDone :
    ∃ s, Relation.ReflTransGen Awaits (.start (replication [copyDone])) s ∧
    s.caller.loop = .relay ∧ s.sent .client = [copyBothResponse, copyDone] ∧
    s.readers .backend ≤ 1 := by
  obtain ⟨s, hrun, hloop, hsent⟩ : ∃ s,
      Relation.ReflTransGen Awaits (.start (replication [copyDone])) s ∧
      s.caller.loop = .relay ∧ s.sent .client = [copyBothResponse, copyDone] := by
    refine ⟨_, .head ⟨.caller (.read rfl rfl rfl), by decide⟩ <|
      .head ⟨.caller (.forward rfl rfl), by decide⟩ <|
      .head ⟨.caller (.read rfl rfl rfl), by decide⟩ <|
        .head ⟨.caller (.forward rfl rfl), by decide⟩ <|
      .head ⟨.worker [] _ rfl (.read rfl rfl rfl), by decide⟩ <|
      .head ⟨.worker [] _ rfl (.forward rfl rfl), by decide⟩ <|
      .head ⟨.worker [] [] rfl (.read rfl rfl rfl), by decide⟩ <|
      .head ⟨.worker [] [] rfl (.forward rfl rfl), by decide⟩ <|
        .single ⟨.receive rfl rfl, by decide⟩, rfl, rfl⟩
  exact ⟨s, hrun, hloop, hsent, ((one_reader_per_connection hrun).2 .backend).1⟩

/-- The client's CopyDone resumes the caller; the goroutine left behind overtakes it. -/
theorem two_readers_of_backend : ∃ s,
    Relation.ReflTransGen Step (.start (replication [copyData 1, copyData 2])) s ∧
    s.readers .backend = 2 ∧ s.sent .client = [copyBothResponse, copyData 2, copyData 1] := by
  refine ⟨_, .head (.caller (.read rfl rfl rfl)) <| .head (.caller (.forward rfl rfl)) <|
    .head (.caller (.read rfl rfl rfl)) <| .head (.caller (.forward rfl rfl)) <|
    .head (.worker [_] [] rfl (.read rfl rfl rfl)) <|
      .head (.worker [_] [] rfl (.forward rfl rfl)) <|
    .head (.receive rfl rfl) <| .head (.caller (.read rfl rfl rfl)) <|
      .head (.worker [] [] rfl (.read rfl rfl rfl)) <|
    .head (.worker [] [] rfl (.forward rfl rfl)) <| .single (.caller (.forward rfl rfl)), rfl, rfl⟩

end PgMux.CopyBoth
