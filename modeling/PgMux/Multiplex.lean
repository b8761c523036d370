import PgMux.Requests

/-!
# Batches of the multiplex mode

In the multiplex mode the session keeps one Bind, ignores Execute and synthesizes a query when the
Sync comes. `asked` is what the client asks for by a batch: one query for each Execute, the
statement of the portal as it was at its Bind. `Plain` is the condition on the messages under which
the Sync runs what was asked for.
-/

namespace PgMux.Multiplex

open Effects Protocol Relay Synthesizer
open Pools (Conn)

def bound (synth : Registry) (detail : BindMessageDetail) : Option Bytes :=
  (synth.synthesize detail.statementName detail.parameters detail.formatCodes).toOption

def registered (synth : Registry) (msg : Message) : Registry :=
  if msg.type = msgParse then
    let stmt := parsedStatement msg.payload
    synth.registerStatement stmt.1 stmt.2.1 stmt.2.2
  else if msg.type = msgClose ∧ (parseCloseMessage msg.payload).1 = kindStatement then
    synth.closeStatement (parseCloseMessage msg.payload).2
  else synth

/-! ## What the client asks for -/

structure Asking where
  synth : Registry
  portals : Bytes → Option Bytes
  asked : List (Option Bytes)

def portalName (payload : Bytes) : Bytes := ((cstring payload).map Prod.fst).getD []

def rebound (a : Asking) (msg : Message) : Bytes → Option Bytes :=
  if msg.type = msgBind then
    match parseBindMessageFull msg.payload with
    | .error _ => a.portals
    | .ok detail => Function.update a.portals detail.portal (bound a.synth detail)
  else if msg.type = msgClose ∧ (parseCloseMessage msg.payload).1 = kindPortal then
    Function.update a.portals (parseCloseMessage msg.payload).2 none
  else a.portals

def Asking.next (a : Asking) (msg : Message) : Asking where
  synth := registered a.synth msg
  portals := rebound a msg
  asked := if msg.type = msgExecute then a.asked ++ [a.portals (portalName msg.payload)]
    else a.asked

def asked (synth : Registry) (portals : Bytes → Option Bytes) (batch : List Message) :
    List (Option Bytes) :=
  (batch.foldl Asking.next ⟨synth, portals, []⟩).asked

/-! ## What the session keeps -/

def lastBind (detail : Option BindMessageDetail) (msg : Message) : Option BindMessageDetail :=
  if msg.type = msgBind then
    match parseBindMessageFull msg.payload with
    | .error _ => detail
    | .ok detail => some detail
  else detail

def lastQuery (synth : Registry) (batch : List Message) : Option Bytes :=
  (batch.foldl lastBind none).bind (bound (batch.foldl registered synth))

def Touches (name : Bytes) (msg : Message) : Prop :=
  msg.type = msgParse ∧ (parsedStatement msg.payload).1 = name ∨
    msg.type = msgClose ∧ parseCloseMessage msg.payload = (kindStatement, name)

/-- The batch has neither a Bind nor an Execute; or it has one Execute, of the portal of the last
Bind, which stands before it and can be synthesized, and neither the portal nor the statement it
names is replaced or closed later. -/
def Plain (synth : Registry) (batch : List Message) : Prop :=
  (∀ m ∈ batch, m.type ≠ msgBind ∧ m.type ≠ msgExecute) ∨
    ∃ before bind between execute behind detail,
    batch = before ++ bind :: (between ++ execute :: behind) ∧
      bind.type = msgBind ∧ parseBindMessageFull bind.payload = .ok detail ∧
      execute.type = msgExecute ∧ portalName execute.payload = detail.portal ∧
      (∀ m ∈ before ++ between ++ behind, m.type ≠ msgExecute) ∧
      (∀ m ∈ between ++ behind, m.type ≠ msgBind ∧ ¬ Touches detail.statementName m) ∧
      (∀ m ∈ between, ¬ (m.type = msgClose ∧
        parseCloseMessage m.payload = (kindPortal, detail.portal))) ∧
      (bound (before.foldl registered synth) detail).isSome

/-! ## Runs -/

structure Desk where
  inbox : List Input
  ran : List Bytes

def run : Request → List Bytes
  | .synthesized query => [query]
  | _ => []

/-- The client's messages, which the limiter admits, and what has been run. -/
def next : (o : Op) → Desk → Ans o → List Desk
  | .recv _, s, i => if i = s.inbox.head? then [{ s with inbox := s.inbox.tail }] else []
  | .allow, s, admitted => if admitted then [s] else []
  | .send _ r, s, true => [{ s with ran := s.ran ++ run r }]
  | _, s, _ => [s]

abbrev step : Machine Ans Desk := .ofList next

/-! ## What was asked for -/

section

variable {name : Bytes} {synth : Registry} {msg : Message} {batch : List Message}

theorem statements_registered (h : ¬ Touches name msg) :
    (registered synth msg).statements name = synth.statements name := by
  unfold registered
  split
  · rename_i hparse
    exact Function.update_of_ne (fun heq => h (.inl ⟨hparse, heq.symm⟩)) _ _
  split
  · rename_i hclose
    refine Function.update_of_ne (fun heq => h (.inr ⟨hclose.1, ?_⟩)) _ _
    rw [heq, ← hclose.2]
  · rfl

theorem statements_foldl (h : ∀ m ∈ batch, ¬ Touches name m) :
    (batch.foldl registered synth).statements name = synth.statements name := by
  induction batch generalizing synth with
  | nil => rfl
  | cons m batch ih =>
    rw [List.foldl_cons, ih fun x hx => h x (List.mem_cons_of_mem m hx),
      statements_registered (h m List.mem_cons_self)]

theorem bound_congr {synth' : Registry} {detail : BindMessageDetail}
    (h : synth'.statements detail.statementName = synth.statements detail.statementName) :
    bound synth' detail = bound synth detail := by
  unfold bound Registry.synthesize
  rw [h]

theorem foldl_lastBind {detail : Option BindMessageDetail} (h : ∀ m ∈ batch, m.type ≠ msgBind) :
    batch.foldl lastBind detail = detail := by
  induction batch with
  | nil => rfl
  | cons m batch ih =>
    rw [List.foldl_cons, lastBind, if_neg (h m List.mem_cons_self)]
    exact ih fun x hx => h x (List.mem_cons_of_mem m hx)

theorem synth_foldl_next (a : Asking) :
    (batch.foldl Asking.next a).synth = batch.foldl registered a.synth := by
  induction batch generalizing a with
  | nil => rfl
  | cons m batch ih => exact ih _

theorem asked_foldl_next {a : Asking} (h : ∀ m ∈ batch, m.type ≠ msgExecute) :
    (batch.foldl Asking.next a).asked = a.asked := by
  induction batch generalizing a with
  | nil => rfl
  | cons m batch ih =>
    rw [List.foldl_cons, ih fun x hx => h x (List.mem_cons_of_mem m hx), Asking.next,
      if_neg (h m List.mem_cons_self)]

theorem portals_foldl_next {a : Asking} {portal : Bytes} (hbind : ∀ m ∈ batch, m.type ≠ msgBind)
    (hclose : ∀ m ∈ batch, ¬ (m.type = msgClose ∧
      parseCloseMessage m.payload = (kindPortal, portal))) :
    (batch.foldl Asking.next a).portals portal = a.portals portal := by
  induction batch generalizing a with
  | nil => rfl
  | cons m batch ih =>
    rw [List.foldl_cons, ih (fun x hx => hbind x (List.mem_cons_of_mem m hx))
      fun x hx => hclose x (List.mem_cons_of_mem m hx)]
    simp only [Asking.next, rebound, if_neg (hbind m List.mem_cons_self)]
    split
    · rename_i hportal
      refine Function.update_of_ne (fun heq => hclose m List.mem_cons_self ⟨hportal.1, ?_⟩) _ _
      rw [heq, ← hportal.2]
    · rfl

theorem lastQuery_eq_asked (h : Plain synth batch) (portals : Bytes → Option Bytes) :
    (lastQuery synth batch).toList.map some = asked synth portals batch := by
  obtain h | ⟨before, bind, between, execute, behind, detail, rfl, hbind, hdetail, hexec, hportal,
    hexecs, hlater, hopen, hsome⟩ := h
  · rw [lastQuery, foldl_lastBind fun m hm => (h m hm).1, asked,
      asked_foldl_next fun m hm => (h m hm).2]
    rfl
  have hbetween : ∀ m ∈ between, m ∈ between ++ behind := fun m hm => List.mem_append_left _ hm
  have hbehind : ∀ m ∈ behind, m ∈ between ++ behind := fun m hm => List.mem_append_right _ hm
  have hexecBind : execute.type ≠ msgBind := by rw [hexec]; decide
  have hexecTouch : ¬ Touches detail.statementName execute := by
    rintro (⟨h, _⟩ | ⟨h, _⟩) <;> rw [hexec] at h <;> exact absurd h (by decide)
  have hbindTouch : ¬ Touches detail.statementName bind := by
    rintro (⟨h, _⟩ | ⟨h, _⟩) <;> rw [hbind] at h <;> exact absurd h (by decide)
  have hbindExec : bind.type ≠ msgExecute := by rw [hbind]; decide
  obtain ⟨query, hquery⟩ := Option.isSome_iff_exists.mp hsome
  have hlast : lastQuery synth (before ++ bind :: (between ++ execute :: behind)) = some query := by
    rw [lastQuery, List.foldl_append, List.foldl_cons,
      @foldl_lastBind (between ++ execute :: behind), lastBind,
      if_pos hbind, hdetail, Option.bind_some, @bound_congr (before.foldl registered synth), hquery]
    · rw [List.foldl_append, List.foldl_cons, statements_foldl, statements_registered hbindTouch]
      simp only [List.mem_append, List.mem_cons]
      rintro m (hm | rfl | hm)
      · exact (hlater m (hbetween m hm)).2
      · exact hexecTouch
      · exact (hlater m (hbehind m hm)).2
    · simp only [List.mem_append, List.mem_cons]
      rintro m (hm | rfl | hm)
      · exact (hlater m (hbetween m hm)).1
      · exact hexecBind
      · exact (hlater m (hbehind m hm)).1
  have hasked : asked synth portals (before ++ bind :: (between ++ execute :: behind)) =
      [some query] := by
    rw [asked, List.foldl_append, List.foldl_cons, List.foldl_append, List.foldl_cons,
      asked_foldl_next fun m hm => hexecs m (List.mem_append_right _ hm), Asking.next,
      if_pos hexec, hportal,
      asked_foldl_next fun m hm => hexecs m (List.mem_append_left _ (List.mem_append_right _ hm)),
      Asking.next,
      if_neg hbindExec, asked_foldl_next fun m hm =>
      hexecs m (List.mem_append_left _ (List.mem_append_left _ hm)),
      portals_foldl_next (fun m hm => (hlater m (hbetween m hm)).1) hopen]
    simp [rebound, hbind, hdetail, synth_foldl_next, hquery]
  rw [hlast, hasked]
  rfl

end

section

variable {env : Env}

def anyOp (_ : Op) (_ : Desk) : Prop := True

theorem stable_of_run {rs : List Request} (hrs : ∀ r ∈ rs, run r = []) (s : Desk) :
    Stable step anyOp (Sends rs []) (· = s) := by
  intro o u ho hu
  subst hu
  refine ⟨trivial, fun ans t ht => ?_⟩
  cases o with
  | recv v => exact ho.elim
  | allow => exact (mem_guard.mp ht).2
  | send c r =>
    cases ans with
    | false => exact List.mem_singleton.mp ht
    | true => simpa [hrs r ho] using List.mem_singleton.mp ht
  | _ => exact List.mem_singleton.mp ht

theorem safe_of_all {α : Type} {p : Run α} {rs : List Request} (hp : p.All (Sends rs []))
    (hrs : ∀ r ∈ rs, run r = []) (s : Desk) : Safe step anyOp p (fun _ t => t = s) s :=
  hp.safe (stable_of_run hrs s) rfl

theorem safe_quiet {α : Type} {p : Run α} (hp : p.All (Sends [] [])) (s : Desk) :
    Safe step anyOp p (fun _ t => t = s) s :=
  safe_of_all hp (fun _ hr => absurd hr List.not_mem_nil) s

def Desk.sent (s : Desk) (query : Bytes) : Desk := { s with ran := s.ran ++ [query] }

def Sent (s : Desk) (query : Bytes) (ok : Bool) (t : Desk) : Prop := ok = true → t = s.sent query

theorem safe_exchange (c : Conn) (query : Bytes) (s : Desk) :
    Safe step anyOp (exchange c (.synthesized query)) (Sent s query) s := by
  refine safe_bind.mpr ⟨trivial, fun ok t ht => ?_⟩
  cases ok with
  | false => exact fun h => nomatch h
  | true =>
      exact ⟨trivial, fun _ u hu _ => (List.mem_singleton.mp hu).trans (List.mem_singleton.mp ht)⟩

variable {s t : Desk} {sync : Input} {synth : Registry}

theorem safe_after {p : Run Bool} (hp : p.All (Sends [] [])) {query : Bytes}
    (ht : t = s.sent query) : Safe step anyOp p (Sent s query) t :=
  (safe_quiet hp t).mono fun _ _ hu _ => hu.trans ht

theorem safe_fallbackToWriter (query : Bytes) (s : Desk) :
    Safe step anyOp (fallbackToWriter (.synthesized query) true) (Sent s query) s := by
  refine safe_bind.mpr ⟨trivial, fun p t ht => safe_bind.mpr ⟨trivial, fun c u hu => ?_⟩⟩
  obtain rfl : u = s := (List.mem_singleton.mp hu).trans (List.mem_singleton.mp ht)
  cases c with
  | none =>
    refine (safe_quiet (all_sendError _) u).bind fun _ _ _ => ?_
    exact fun h => nomatch h
  | some c =>
    refine (safe_exchange c query u).bind fun ok w hw => ?_
    cases ok with
    | true => exact safe_after (all_giveBack true c (some p)) (hw rfl)
    | false =>
      refine (safe_quiet (all_discard c p) w).bind fun _ _ _ => ?_
      exact fun h => nomatch h

theorem safe_handleSynthesizedRead (query : Bytes) (s : Desk) :
    Safe step anyOp (handleSynthesizedRead query) (Sent s query) s := by
  refine safe_bind.mpr ⟨trivial, fun reader t ht => ?_⟩
  obtain rfl : t = s := List.mem_singleton.mp ht
  cases reader with
  | none => exact safe_fallbackToWriter query t
  | some reader =>
    refine safe_bind.mpr ⟨trivial, fun ok u hu => ?_⟩
    cases ok with
    | false =>
      obtain rfl : u = t := List.mem_singleton.mp hu
      refine (safe_quiet (all_discard _ _) u).bind fun _ w hw => ?_
      exact hw ▸ safe_fallbackToWriter query w
    | true =>
      refine safe_after ?_ (List.mem_singleton.mp hu)
      refine .bind (.bind (.perform trivial) fun ok => ?_) fun reply => ?_
      · cases ok <;> exact .pure _
      · cases reply with
        | none => exact (all_discard _ _).bind fun _ => .pure _
        | some collected =>
          exact .bind (.perform trivial) fun _ => (all_onlyIf _ (.pure _)).bind fun _ => .pure _

def IfNext (Q : Vars → Desk → Prop) (r : Flow Vars) (t : Desk) : Prop :=
  match r with
  | .next v => Q v t
  | .stop _ => True

theorem safe_dropWriter (acquired : Bool) (c : Conn) (p : Pools.Pool) (v : Vars)
    (Q : Vars → Desk → Prop) (s : Desk) :
    Safe step anyOp (dropWriter acquired c p v) (IfNext Q) s := by
  unfold dropWriter
  split
  · exact (safe_quiet (all_discardToPool _ _) s).bind fun _ _ _ => trivial
  · cases v.boundWriter with
    | none => trivial
    | some b =>
      refine (safe_quiet (all_discardToPool _ _) s).bind fun ok _ _ => ?_
      cases ok <;> trivial

theorem safe_writeExtended (query : Bytes) (v : Vars) (s : Desk) :
    Safe step anyOp (writeExtended true (.synthesized query) v)
      (IfNext fun _ t => t = s.sent query) s := by
  refine safe_withWriter (stable_of_run (fun _ hr => absurd hr List.not_mem_nil) s)
    (fun _ _ => trivial)
    (fun p c acquired s' hs' => ?_) rfl
  subst hs'
  refine (safe_exchange c query s').bind fun ok t ht => ?_
  cases ok with
  | false => exact safe_dropWriter acquired c p v _ t
  | true =>
    refine (safe_quiet (all_settle _ _ _ _ _ _ _ _) t).mono fun r u hu => ?_
    cases r with
    | next v' => exact hu.trans (ht rfl)
    | stop v' => trivial

theorem safe_executeSynthesizedQuery (query : Bytes) (v : Vars) (s : Desk) :
    Safe step anyOp (executeSynthesizedQuery query v) (IfNext fun _ t => t = s.sent query) s := by
  unfold executeSynthesizedQuery
  split
  · refine (safe_handleSynthesizedRead query s).bind fun ok t ht => ?_
    cases ok with
    | true => exact ht rfl
    | false => trivial
  · exact safe_writeExtended query v s

theorem safe_handleSync (hmux : env.multiplexMode = true) (i : Input) (v : Vars) (s : Desk) :
    Safe step anyOp (handleSync env i v)
      (IfNext fun _ t => t = { s with ran := s.ran ++ (v.muxBindDetail.bind (bound v.synth)).toList
        }) s := by
  unfold handleSync bound
  rw [if_pos hmux]
  cases v.muxBindDetail with
  | none =>
    refine (safe_quiet (all_sendReadyForQuery _ trivial) s).bind fun _ t ht => ?_
    subst ht
    simp [IfNext]
  | some detail =>
    simp only [Option.bind_some]
    cases v.synth.synthesize detail.statementName detail.parameters detail.formatCodes with
    | error err =>
      refine (safe_quiet (all_sendError _) s).bind fun _ t ht => ?_
      subst ht
      refine (safe_quiet (all_sendReadyForQuery _ trivial) t).bind fun _ u hu => ?_
      subst hu
      simp [IfNext, Except.toOption]
    | ok query =>
      refine (safe_executeSynthesizedQuery query v s).bind fun r t ht => ?_
      cases r with
      | next v' => exact ht
      | stop v' => trivial

def Noted (v : Vars) (msg : Message) (s : Desk) (v' : Vars) (t : Desk) : Prop :=
  v'.synth = registered v.synth msg ∧ v'.muxBindDetail = lastBind v.muxBindDetail msg ∧ t = s

variable {v : Vars} {i : Input} {batch : List Input}

theorem safe_report (m : ClientMsg) {v' : Vars} {msg : Message}
    (hsynth : v'.synth = registered v.synth msg)
    (hbind : v'.muxBindDetail = lastBind v.muxBindDetail msg) :
    Safe step anyOp (report m v') (IfNext (Noted v msg s)) s := by
  have hclient : (toClient m).All (Sends [] []) := .perform trivial
  refine (safe_quiet hclient s).bind fun ok t ht => ?_
  cases ok with
  | true => exact ⟨hsynth, hbind, ht⟩
  | false => trivial

theorem safe_handleParse (hmux : env.multiplexMode = true) (htype : i.msg.type = msgParse)
    (v : Vars) (s : Desk) : Safe step anyOp (handleParse env i v) (IfNext (Noted v i.msg s)) s := by
  unfold handleParse
  rw [if_pos hmux]
  refine safe_report _ ?_ ?_
  · simp only [registered, if_pos htype]
    rfl
  · have hbind : i.msg.type ≠ msgBind := by rw [htype]; decide
    simp only [lastBind, if_neg hbind]
    rfl

theorem safe_handleBind (hmux : env.multiplexMode = true) (htype : i.msg.type = msgBind) (v : Vars)
    (s : Desk) : Safe step anyOp (handleBind env i v) (IfNext (Noted v i.msg s)) s := by
  unfold handleBind
  rw [if_pos hmux]
  have hparse : i.msg.type ≠ msgParse := by rw [htype]; decide
  have hclose : i.msg.type ≠ msgClose := by rw [htype]; decide
  cases hdetail : parseBindMessageFull i.msg.payload with
  | error err => exact (safe_quiet (all_sendError _) s).bind fun _ _ _ => trivial
  | ok detail =>
    refine safe_report _ ?_ ?_
    · simp only [registered, if_neg hparse, hclose, false_and, if_false]
      unfold raiseRoute
      split
      · rfl
      · rfl
    · simp only [lastBind, if_pos htype, hdetail]

theorem safe_handleClose (hmux : env.multiplexMode = true) (htype : i.msg.type = msgClose)
    (v : Vars) (s : Desk) : Safe step anyOp (handleClose env i v) (IfNext (Noted v i.msg s)) s := by
  unfold handleClose
  rw [if_pos hmux]
  have hparse : msgClose ≠ msgParse := by decide
  have hbind : i.msg.type ≠ msgBind := by rw [htype]; decide
  refine safe_report _ ?_ ?_
  · simp only [registered, htype, if_neg hparse, true_and, noteClose, hmux, if_true]
    split
    · rfl
    · rfl
  · simp only [lastBind, if_neg hbind, noteClose]
    split
    · rfl
    · rfl

theorem safe_handleDescribe (hmux : env.multiplexMode = true) (htype : i.msg.type = msgDescribe)
    (v : Vars) (s : Desk) :
    Safe step anyOp (handleDescribe env i v) (IfNext (Noted v i.msg s)) s := by
  unfold handleDescribe
  rw [if_pos hmux]
  have hquiet : Safe step anyOp (handleMultiplexDescribe i.msg.payload v.synth)
      (fun _ t => t = s) s := by
    have hall : (handleMultiplexDescribe i.msg.payload v.synth).All
        (Sends ((describedStatement i.msg.payload v.synth).toList.map fun stmt =>
          .describe stmt.query) []) :=
      all_handleMultiplexDescribe _ _ fun _ _ hstmt =>
        List.mem_map_of_mem (Option.mem_toList.mpr hstmt)
    refine safe_of_all hall (fun r hr => ?_) s
    obtain ⟨stmt, _, rfl⟩ := List.mem_map.mp hr
    rfl
  refine hquiet.bind fun ok t ht => ?_
  have hparse : i.msg.type ≠ msgParse := by rw [htype]; decide
  have hclose : i.msg.type ≠ msgClose := by rw [htype]; decide
  have hbind : i.msg.type ≠ msgBind := by rw [htype]; decide
  cases ok with
  | true => exact ⟨by simp [registered, hparse, hclose], by simp [lastBind, hbind], ht⟩
  | false => trivial

theorem safe_batchMessage (hmux : env.multiplexMode = true) (hi : inBatch i.msg) (v : Vars)
    (s : Desk) : Safe step anyOp (handleMessage env i v) (IfNext (Noted v i.msg s)) s := by
  have hterm := not_terminate_of_inBatch hi
  unfold handleMessage
  rw [if_neg hterm]
  refine safe_bind.mpr ⟨trivial, fun admitted t ht => ?_⟩
  obtain ⟨rfl, rfl⟩ := mem_guard.mp ht
  simp only [inBatch, List.mem_cons, List.not_mem_nil, or_false] at hi
  obtain htype | htype | htype | htype | htype := hi
  · exact dispatch_parse htype ▸ safe_handleParse hmux htype v t
  · exact dispatch_bind htype ▸ safe_handleBind hmux htype v t
  · have hdispatch : dispatch env i v = pure (.next v) := by
      rw [dispatch_other, if_pos hmux] <;> rw [htype] <;> decide
    rw [hdispatch]
    refine ⟨?_, ?_, rfl⟩
    · simp only [registered, htype]
      rfl
    · simp only [lastBind, htype]
      rfl
  · exact dispatch_describe htype ▸ safe_handleDescribe hmux htype v t
  · exact dispatch_close htype ▸ safe_handleClose hmux htype v t

theorem safe_sync (hmux : env.multiplexMode = true) (hi : i.msg.type = msgSync) (v : Vars)
    (s : Desk) :
    Safe step anyOp (handleMessage env i v)
      (IfNext fun _ t => t = { s with ran := s.ran ++ (v.muxBindDetail.bind (bound v.synth)).toList
        }) s := by
  unfold handleMessage
  have hterm : i.msg.type ≠ msgTerminate := by rw [hi]; decide
  rw [if_neg hterm]
  refine safe_bind.mpr ⟨trivial, fun admitted t ht => ?_⟩
  obtain ⟨rfl, rfl⟩ := mem_guard.mp ht
  exact dispatch_sync hi ▸ safe_handleSync hmux i v t

inductive Progress (synth : Registry) (batch : List Input) (sync : Input) (v : Vars) (t : Desk) :
    Prop where
  | within (done todo : List Input) (hbatch : batch = done ++ todo)
      (hinbox : t.inbox = todo ++ [sync])
      (hran : t.ran = []) (hsynth : v.synth = (done.map (·.msg)).foldl registered synth)
      (hbind : v.muxBindDetail = (done.map (·.msg)).foldl lastBind none)
  | behind (hinbox : t.inbox = []) (hran : t.ran = (lastQuery synth (batch.map (·.msg))).toList)

theorem Progress.ran (h : Progress synth batch sync v t) (hinbox : t.inbox = []) :
    t.ran = (lastQuery synth (batch.map (·.msg))).toList := by
  cases h with
  | within done todo hbatch hin hran hsynth hbind =>
    rw [hinbox] at hin
    simp at hin
  | behind hin hran => exact hran

def Ran (synth : Registry) (batch : List Input) : Op → Desk → Prop
  | .recv _, t => t.inbox = [] → t.ran = (lastQuery synth (batch.map (·.msg))).toList
  | _, _ => True

theorem safe_inside {Q : Flow Vars → Desk → Prop}
    (h : Safe step anyOp (handleMessage env i v) Q s) :
    Safe step (Ran synth batch) (handleMessage env i v) Q s := by
  refine h.weaken ((all_handleMessage i v).mono fun o ho => ?_)
  cases o with
  | recv v => exact ho.elim
  | _ => exact fun _ _ => trivial

theorem safe_round (hmux : env.multiplexMode = true) (hbatch : ∀ i ∈ batch, inBatch i.msg)
    (hsync : sync.msg.type = msgSync) (v : Vars) (s : Desk) (h : Progress synth batch sync v s) :
    Safe step (Ran synth batch) (round env v) (IfNext (Progress synth batch sync)) s := by
  refine safe_bind.mpr ⟨h.ran, fun i t ht => ?_⟩
  obtain ⟨rfl, rfl⟩ := mem_guard.mp ht
  cases h with
  | behind hinbox hran =>
    rw [hinbox]
    trivial
  | within done todo hsplit hinbox hran hsynth hbind =>
    cases todo with
    | nil =>
      rw [hinbox]
      refine (safe_inside (safe_sync hmux hsync v _)).mono fun r t ht => ?_
      cases r with
      | stop v' => trivial
      | next v' =>
        refine .behind (by rw [ht]; rfl) ?_
        rw [ht, hsplit, List.append_nil, hran, hsynth, hbind]
        rfl
    | cons i todo =>
      rw [hinbox]
      have hi : inBatch i.msg := hbatch i (by rw [hsplit]; simp)
      refine (safe_inside (safe_batchMessage hmux hi v _)).mono fun r t ht => ?_
      cases r with
      | stop v' => trivial
      | next v' =>
        obtain ⟨hsynth', hbind', rfl⟩ := ht
        refine .within (done ++ [i]) todo (by rw [hsplit]; simp) rfl hran ?_ ?_
        · rw [hsynth', hsynth, List.map_append, List.foldl_append]
          rfl
        · rw [hbind', hbind, List.map_append, List.foldl_append]
          rfl

theorem ran_eq_lastQuery {n : Nat} {v' : Vars} {p : Run Vars} (hmux : env.multiplexMode = true)
    (hbatch : ∀ i ∈ batch, inBatch i.msg) (hsync : sync.msg.type = msgSync)
    (hv : v.muxBindDetail = none) (hr : Reach step (relayLoop env n v) ⟨batch ++ [sync], []⟩ p t)
    (hp : p.head = some (.recv v')) (ht : t.inbox = []) :
    t.ran = (lastQuery v.synth (batch.map (·.msg))).toList := by
  have hstart : Progress v.synth batch sync v ⟨batch ++ [sync], []⟩ :=
    .within [] batch rfl rfl rfl rfl hv
  have hsafe : Safe step (Ran v.synth batch) (relayLoop env n v) (fun _ _ => True)
      ⟨batch ++ [sync], []⟩ := by
    refine Safe.rounds n (fun v s h => (safe_round hmux hbatch hsync v s h).mono fun r t ht => ?_)
      (fun _ _ _ => trivial) hstart
    cases r with
    | next v' => exact ht
    | stop v' => trivial
  exact hsafe.guarded hr hp ht

/-- What a plain batch runs is what the client asked for. -/
theorem ran_eq_asked {n : Nat} {v v' : Vars} {batch : List Input} {sync : Input} {t : Desk}
    {p : Run Vars} (hmux : env.multiplexMode = true) (hbatch : ∀ i ∈ batch, inBatch i.msg)
    (hsync : sync.msg.type = msgSync) (hv : v.muxBindDetail = none)
    (hr : Reach step (relayLoop env n v) ⟨batch ++ [sync], []⟩ p t) (hp : p.head = some (.recv v'))
    (ht : t.inbox = []) (hplain : Plain v.synth (batch.map (·.msg)))
    (portals : Bytes → Option Bytes) :
    t.ran.map some = asked v.synth portals (batch.map (·.msg)) := by
  rw [ran_eq_lastQuery hmux hbatch hsync hv hr hp ht]
  exact lastQuery_eq_asked hplain portals

end

def insertParse : Input :=
  plainInput msgParse ([0] ++ ascii "INSERT INTO t VALUES ($1)" ++ [0, 0, 1, 0, 0, 0, 23])

def bindDigit (digit : Byte) : Input :=
  plainInput msgBind [0, 0, 0, 0, 0, 1, 0, 0, 0, 1, digit, 0, 0]

def executeAll : Input := plainInput msgExecute [0, 0, 0, 0, 0]

def syncInput : Input := plainInput msgSync []

theorem pipelined_insert_lost :
    ∃ v p t, Reach step (relayLoop (plainEnv true) 7 (Vars.init (Router.Session.new 0 false false)))
        ⟨[insertParse, bindDigit 49, executeAll, bindDigit 50, executeAll] ++ [syncInput], []⟩ p t ∧
      p.head = some (.recv v) ∧ t.inbox = [] ∧ t.ran = [ascii "INSERT INTO t VALUES (2)"] ∧
      asked Registry.new (fun _ => none)
          ([insertParse, bindDigit 49, executeAll, bindDigit 50, executeAll].map (·.msg)) =
        [some (ascii "INSERT INTO t VALUES (1)"), some (ascii "INSERT INTO t VALUES (2)")] := by
  have hreach := drive_reach Script.reply (ofList_of_first next) 21
    (relayLoop (plainEnv true) 7 (Vars.init (Router.Session.new 0 false false)))
    ⟨[insertParse, bindDigit 49, executeAll, bindDigit 50, executeAll] ++ [syncInput], [0], [0]⟩
    ⟨[insertParse, bindDigit 49, executeAll, bindDigit 50, executeAll] ++ [syncInput], []⟩
  exact ⟨_, _, _, hreach, rfl, by decide +kernel, by decide +kernel, by decide +kernel⟩

theorem plain_insert :
    Plain Registry.new ([insertParse, bindDigit 49, executeAll].map (·.msg)) := by
  refine .inr ⟨[insertParse.msg], (bindDigit 49).msg, [], executeAll.msg, [],
    ⟨[], [], [], [some [49]], []⟩, rfl, rfl,
    by decide +kernel,
    rfl, by decide +kernel, by decide +kernel, by simp, by simp, by decide +kernel⟩

theorem ran_eq_asked_insert :
    ∃ v p t, Reach step (relayLoop (plainEnv true) 5 (Vars.init (Router.Session.new 0 false false)))
        ⟨[insertParse, bindDigit 49, executeAll] ++ [syncInput], []⟩ p t ∧
      p.head = some (.recv v) ∧ t.inbox = [] ∧
      t.ran.map some = asked Registry.new (fun _ => none)
        ([insertParse, bindDigit 49, executeAll].map (·.msg)) := by
  have hreach := drive_reach Script.reply (ofList_of_first next) 16
    (relayLoop (plainEnv true) 5 (Vars.init (Router.Session.new 0 false false)))
    ⟨[insertParse, bindDigit 49, executeAll] ++ [syncInput], [0], [0]⟩
    ⟨[insertParse, bindDigit 49, executeAll] ++ [syncInput], []⟩
  exact ⟨_, _, _, hreach, rfl, by decide +kernel,
    ran_eq_asked rfl (by decide +kernel) rfl rfl hreach rfl (by decide +kernel) plain_insert
      (fun _ => none)⟩

end PgMux.Multiplex
