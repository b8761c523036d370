import PgMux.Arrays
import PgMux.Framing
import PgMux.Relay

/-!
# Batches on the heap

`relayQueries` in the proxy mode with the bytes of its messages on the heap. Every client message is
read into one buffer; the messages of a batch are copied out of it, their Sync is not.
-/

namespace PgMux.BatchBytes

open Arrays Effects Framing Protocol Relay Streams
open Pools (Conn)
open Router hiding Env

structure MessageRef where
  type : Byte
  payload : View
  raw : Option View

def MessageRef.value (m : MessageRef) (h : Heap Byte) : Message := ⟨m.type, h.read m.payload⟩

section

variable {m : Type → Type} [Monad m] {ε : Type}

def readMessageReuse (source : Source m Byte ε) (h : Heap Byte) (buf : View) :
    m (Except (ReadError ε) MessageRef × View × Heap Byte) := do
  match ← readHeader source with
  | .error err => return (.error err, buf, h)
  | .ok hdr =>
    let wireLen := 5 + hdr.payloadLen
    let (buf, h) := h.grow buf wireLen
    let h := h.copy (buf.upTo 5) hdr.data
    let payload ← readPayload source hdr.payloadLen
    let h := h.copy (buf.drop 5) payload.data
    match payload.err with
    | some err => return (.error (.payload err), buf, h)
    | none => return (.ok ⟨(h.read buf).headD 0, (buf.upTo wireLen).drop 5,
        some (buf.upTo wireLen)⟩, buf, h)

end

def copyMessage (h : Heap Byte) (msg : MessageRef) : MessageRef × Heap Byte :=
  match msg.raw with
  | some raw =>
    let (raw, h) := h.clone raw
    (⟨(h.read raw).headD 0, raw.drop 5, some raw⟩, h)
  | none =>
    let (payload, h) := h.clone msg.payload
    (⟨msg.type, payload, none⟩, h)

/-! ## Forwarding -/

structure Sent (n : Nat) where
  count : Nat
  ok : Bool
  count_le : count ≤ n
  full : ok = true → count = n

inductive WriteOp where
  | write (data : Bytes)

abbrev WriteAns : WriteOp → Type
  | .write data => Sent data.length

abbrev Writing := Prog WriteAns

def received : (o : WriteOp) → WriteAns o → Bytes
  | .write data, sent => data.take sent.count

def writeMessage (h : Heap Byte) (msg : MessageRef) : Writing Bool := do
  let sent ← perform (WriteOp.write (Framing.writeMessage msg.type (h.read msg.payload)))
  return sent.ok

inductive ForwardErr where
  | message | sync
  deriving DecidableEq, Repr

def forwardMessages (h : Heap Byte) : List MessageRef → Writing Bool
  | [] => return true
  | msg :: buf => do if ← writeMessage h msg then forwardMessages h buf else return false

structure Batch where
  heap : Heap Byte
  buf : List MessageRef
  sync : MessageRef

def forwardExtBatch (x : Batch) : Writing (Except ForwardErr Unit) := do
  if ← forwardMessages x.heap x.buf then
    if ← writeMessage x.heap x.sync then return .ok () else return .error .sync
  else return .error .message

/-! ## The loop -/

structure Held where
  heap : Heap Byte
  readBuf : View
  extBuf : List MessageRef
  vars : Vars

def Held.start (cap : Nat) (session : Session) : Held :=
  let (buf, h) := Heap.make [] cap
  ⟨h, buf.upTo 0, [], Vars.init session⟩

def Held.values (x : Held) : Vars := { x.vars with extBuf := x.extBuf.map (·.value x.heap) }

inductive Op where
  | recv (h : Heap Byte) (buf : View)
  | settings
  | forward (c : Conn) (x : Batch)
  | other (o : Relay.Op)

abbrev Ans (ε : Type) : Op → Type
  | .recv _ _ => Except (ReadError ε) MessageRef × View × Heap Byte
  | .settings => Config × Int
  | .forward _ _ => Bool
  | .other o => Relay.Ans o

def carryOut {ε : Type} : (o : Relay.Op) → Option Batch → Prog (Ans ε) (Relay.Ans o × Option Batch)
  | .send c (.batch _ _), some x => do return (← perform (Op.forward c x), some x)
  | o, x => do return (← perform (Op.other o), x)

def note (env : Env) (i : Input) (v : Vars) : Vars :=
  if i.msg.type = msgParse then
    let (stmtName, query) := parseParseMessage i.msg.payload
    let (route, session) := registerStatement env.toEnv v.session i.now stmtName query
    noteStatement env query route { v with session := session }
  else if i.msg.type = msgBind then raiseRoute (parseBindMessage i.msg.payload).2 v
  else if i.msg.type = msgClose then noteClose env i.msg.payload v
  else v

def Held.buffer (env : Env) (i : Input) (msg : MessageRef) (x : Held) : Held :=
  let (copied, h) := copyMessage x.heap msg
  ⟨h, x.readBuf, x.extBuf ++ [copied], note env i x.vars⟩

section

variable {ε : Type}

def handleSync (env : Env) (msg : MessageRef) (x : Held) : Prog (Ans ε) (Flow Held) := do
  let (r, _) ← (executeBatch env (msg.value x.heap) x.values).elaborate carryOut (some ⟨x.heap,
    x.extBuf, msg⟩)
  match r with
  | .next v => return .next { x with extBuf := [], vars := endBatch v }
  | .stop v => return .stop { x with vars := v }

def handleQuery (env : Env) (i : Input) (x : Held) : Prog (Ans ε) (Flow Held) := do
  let (r, _) ← (Relay.handleQuery env i x.vars).elaborate carryOut none
  match r with
  | .next v => return .next { x with vars := v }
  | .stop v => return .stop { x with vars := v }

def dispatch (env : Env) (msg : MessageRef) (x : Held) : Prog (Ans ε) (Flow Held) := do
  let (cfg, now) ← perform Op.settings
  let i : Input := ⟨cfg, now, msg.value x.heap⟩
  if msg.type = msgQuery then handleQuery env i x
  else if msg.type = msgSync then handleSync env msg x
  else return .next (x.buffer env i msg)

def round (env : Env) (x : Held) : Prog (Ans ε) (Flow Held) := do
  let (msg, readBuf, h) ← perform (Op.recv x.heap x.readBuf)
  let x := { x with heap := h, readBuf := readBuf }
  match msg with
  | .error _ => return .stop x
  | .ok msg => if msg.type = msgTerminate then return .stop x else dispatch env msg x

def relayLoop (env : Env) (n : Nat) (x : Held) : Prog (Ans ε) Held := rounds (round env) n x

end

/-! ## Messages on the heap -/

def sends (msg : Message) : Bytes := Framing.writeMessage msg.type msg.payload

def MessageRef.wire (h : Heap Byte) (msg : MessageRef) : Bytes := sends (msg.value h)

structure Lies (h : Heap Byte) (raw : View) (msg : MessageRef) : Prop where
  whole : msg.raw = some raw
  holds : h.Holds raw
  type : msg.type = (h.read raw).headD 0
  payload : msg.payload = raw.drop 5

variable {h : Heap Byte} {msg : MessageRef} {raw : View} {i : Input} {x : Held}

theorem Lies.value (hlies : Lies h raw msg) :
    msg.value h = ⟨(h.read raw).headD 0, (h.read raw).drop 5⟩ := by
  rw [MessageRef.value, hlies.type, hlies.payload, Heap.read_drop]

theorem value_copyMessage (hlies : Lies h raw msg) :
    (copyMessage h msg).1.value (copyMessage h msg).2 = msg.value h := by
  rw [hlies.value, copyMessage, hlies.whole]
  simp only [MessageRef.value, Heap.read_drop, Heap.read_clone hlies.holds]

theorem array_copyMessage (msg : MessageRef) : (copyMessage h msg).1.payload.array = h.length := by
  unfold copyMessage
  split
  · rfl
  · rfl

theorem keeps_copyMessage (h : Heap Byte) (msg : MessageRef) :
    h.Keeps h.length (copyMessage h msg).2 ∧ h.length < (copyMessage h msg).2.length := by
  unfold copyMessage
  split
  · exact ⟨h.keeps_clone _, (h.holds_clone _).made⟩
  · exact ⟨h.keeps_clone _, (h.holds_clone _).made⟩

theorem map_value {h' : Heap Byte} {a : Nat} (hk : h.Keeps a h') {buf : List MessageRef}
    (hbuf : ∀ m ∈ buf, m.payload.array < h.length ∧ m.payload.array ≠ a) :
    buf.map (·.value h') = buf.map (·.value h) := by
  refine List.map_congr_left fun m hm => ?_
  rw [MessageRef.value, hk.read (hbuf m hm).1 (hbuf m hm).2]
  rfl

theorem flatMap_wire (h : Heap Byte) (buf : List MessageRef) :
    buf.flatMap (MessageRef.wire h) = (buf.map (·.value h)).flatMap sends := by
  rw [List.flatMap_map]
  rfl

theorem map_value_copyMessage (hlies : Lies h raw msg) {buf : List MessageRef}
    (hbuf : ∀ m ∈ buf, m.payload.array < h.length) :
    (buf ++ [(copyMessage h msg).1]).map (·.value (copyMessage h msg).2) =
      (buf ++ [msg]).map (·.value h) := by
  have hold := map_value (keeps_copyMessage h msg).1 fun m hm =>
    ⟨hbuf m hm, Nat.ne_of_lt (hbuf m hm)⟩
  rw [List.map_append, List.map_append, hold, List.map_singleton, List.map_singleton,
    value_copyMessage hlies]

/-! ## The loop without a heap -/

section

variable {env : Env}

end

/-! ## Reading -/

section

variable {ε : Type}

theorem data_readPayload (n : Nat) (r : Stream ε) :
    ((readPayload readFull n : StateM (Stream ε) _) r).1.data ++
      ((readPayload readFull n : StateM (Stream ε) _) r).2.data = r.data := by
  cases n with
  | zero => rfl
  | succ n => exact data_readFull (n + 1) r

structure Received (h : Heap Byte) (buf : View) (client : Stream ε) (msg : MessageRef) (buf' : View)
    (h' : Heap Byte) (client' : Stream ε) : Prop where
  data : client.data = msg.wire h' ++ client'.data
  lies : ∃ raw, Lies h' raw msg
  holds : h'.Holds buf'
  keeps : h.Keeps buf.array h'
  array : buf'.array = buf.array ∨ buf'.array = h.length

theorem received_of_copies {grown : Heap Byte} {buf buf' : View} {client client' : Stream ε}
    {hdr payload : Bytes} (hgrown : grown.Holds buf') (hbuf : buf'.len = 5 + payload.length)
    (hkeeps : ∀ a, h.Keeps a grown) (harray : buf'.array = buf.array ∨ buf'.array = h.length)
    (hfive : hdr.length = 5) (hlen : messageLength hdr = 4 + payload.length)
    (hdata : client.data = hdr ++ payload ++ client'.data) {h' : Heap Byte}
    (hcopies : h' = (grown.copy (buf'.upTo 5) hdr).copy (buf'.drop 5) payload) :
    Received h buf client ⟨(h'.read buf').headD 0, buf'.drop 5, some buf'⟩ buf' h' client' := by
  have hcap : 5 ≤ buf'.cap := by
    have hle := buf'.len_le
    omega
  have hread : h'.read buf' = hdr ++ payload := by
    have hboth := Heap.read_copy_copy hgrown (hbuf.trans (congrArg (· + payload.length) hfive.symm))
    rwa [hfive, ← hcopies] at hboth
  have hfirst : (grown.copy (buf'.upTo 5) hdr).Holds buf' := hgrown.copy (hgrown.upTo 5) hdr
  have hholds : h'.Holds buf' := hcopies ▸ hfirst.copy (hfirst.drop hcap) payload
  have hlies : Lies h' buf' ⟨(h'.read buf').headD 0, buf'.drop 5, some buf'⟩ :=
    ⟨rfl, hholds, rfl, rfl⟩
  have hrest : h.Keeps buf'.array h' := by
    rw [hcopies]
    exact ((hkeeps _).trans (grown.keeps_copy (buf'.upTo 5) hdr)).trans
      (Heap.keeps_copy _ (buf'.drop 5) payload)
  refine ⟨?_, ⟨buf', hlies⟩, hholds, ?_, harray⟩
  · rw [MessageRef.wire, hlies.value, hread, sends, writeMessage_of_header hfive hlen, hdata]
  · obtain hsame | hnew := harray
    · exact hsame ▸ hrest
    · exact hrest.of_later (Nat.le_of_eq hnew.symm) _

theorem received_readMessageReuse {buf : View} (hbuf : h.Holds buf) {client client' : Stream ε}
    {buf' : View} {h' : Heap Byte}
    (hrun : (readMessageReuse readFull h buf : StateM (Stream ε) _) client = ((.ok msg, buf', h'),
      client')) : Received h buf client msg buf' h' client' := by
  have hheader : (readHeader readFull : StateM (Stream ε) _) client =
      (checkHeader ((readFull 5 : StateM (Stream ε) _) client).1,
        ((readFull 5 : StateM (Stream ε) _) client).2) := rfl
  have hfront := data_readFull 5 client
  generalize (readFull 5 : StateM (Stream ε) _) client = front at hheader hfront
  cases hcheck : checkHeader front.1 with
  | error err =>
    simp only [readMessageReuse, bind, StateT.bind, hheader, hcheck] at hrun
    cases hrun
  | ok hdr =>
    obtain ⟨hdr_eq, hlen⟩ := of_checkHeader hcheck
    have hback := data_readPayload hdr.payloadLen front.2
    simp only [readMessageReuse, bind, StateT.bind, hheader, hcheck] at hrun
    generalize (readPayload readFull hdr.payloadLen : StateM (Stream ε) _) front.2 =
      back at hrun hback
    obtain ⟨payload, left⟩ := back
    simp only at hrun hback
    cases herr : payload.err with
    | some err =>
      rw [herr] at hrun
      cases hrun
    | none =>
      have hgrow : (h.grow buf (5 + hdr.payloadLen)).1.len = 5 + payload.data.length := by
        rw [Heap.len_grow, payload.full herr]
      have hdata : client.data = hdr.data ++ payload.data ++ left.data := by
        rw [← hfront, ← hback, hdr_eq, List.append_assoc]
      rw [herr, Heap.upTo_grow] at hrun
      cases hrun
      rw [← payload.full herr] at hlen
      exact received_of_copies (Heap.holds_grow hbuf _) hgrow (fun _ => Heap.keeps_grow _ _ _ _)
        (Heap.array_grow _ _ _)
        hdr.length_eq hlen hdata rfl

/-! ## What a connection gets -/

def succeeds : (o : WriteOp) → WriteAns o → Bool
  | .write _, sent => sent.ok

def Delivers {α : Type} (ok : α → Prop) (data : Bytes) (p : Writing α) : Prop :=
  ∀ (σ : Type) (w : World WriteAns σ) (s : σ),
    (exec w received p s).2.1 <+: data ∧
    (ok (exec w received p s).1 → (exec w received p s).2.1 = data) ∧
      ((∀ o s, succeeds o (w o s).1 = true) → ok (exec w received p s).1)

theorem delivers_return {α : Type} {ok : α → Prop} {a : α} (h : ok a) :
    Delivers ok [] (return a : Writing α) :=
  fun _ _ _ => ⟨List.prefix_refl [], fun _ => rfl, fun _ => h⟩

theorem delivers_writeMessage (h : Heap Byte) (msg : MessageRef) :
    Delivers (· = true) (msg.wire h) (writeMessage h msg) := by
  intro σ w s
  have hexec : exec w received (writeMessage h msg) s =
      ((w (.write (msg.wire h)) s).1.ok, (msg.wire h).take (w (.write (msg.wire h)) s).1.count,
        (w (.write (msg.wire h)) s).2) := by
    simp only [writeMessage, exec_bind, exec_perform, exec_pure, List.append_nil]
    rfl
  rw [hexec]
  refine ⟨List.take_prefix .., fun hok => ?_, fun hall => hall _ _⟩
  exact List.take_of_length_le (Nat.le_of_eq ((w (.write (msg.wire h)) s).1.full hok).symm)

theorem Delivers.then {α : Type} {ok : α → Prop} {data data' : Bytes} {p : Writing Bool}
    {q : Writing α} {failed : α} (hp : Delivers (· = true) data p) (hq : Delivers ok data' q)
    (hfailed : ¬ ok failed) :
    Delivers ok (data ++ data') (do if ← p then q else return failed) := by
  intro σ w s
  obtain ⟨hfront, hall, hok⟩ := hp σ w s
  rw [exec_bind]
  generalize exec w received p s = r at hfront hall hok
  obtain ⟨done, got, s'⟩ := r
  cases done with
  | false =>
    refine ⟨?_, fun h => absurd h hfailed, fun h => absurd (hok h) Bool.false_ne_true⟩
    change got ++ [] <+: data ++ data'
    rw [List.append_nil]
    exact hfront.trans (List.prefix_append ..)
  | true =>
    obtain ⟨hfront', hall', hok'⟩ := hq σ w s'
    obtain rfl : got = data := hall rfl
    refine ⟨(List.prefix_append_right_inj got).mpr hfront', fun h => ?_, hok'⟩
    exact congrArg (got ++ ·) (hall' h)

theorem delivers_forwardMessages (h : Heap Byte) (buf : List MessageRef) :
    Delivers (· = true) (buf.flatMap (MessageRef.wire h)) (forwardMessages h buf) := by
  induction buf with
  | nil => exact delivers_return rfl
  | cons msg buf ih =>
    exact (delivers_writeMessage h msg).then ih Bool.false_ne_true

theorem delivers_forwardExtBatch (x : Batch) :
    Delivers (· = .ok ()) ((x.buf ++ [x.sync]).flatMap (MessageRef.wire x.heap))
      (forwardExtBatch x) := by
  rw [List.flatMap_append, List.flatMap_singleton, ← List.append_nil (x.sync.wire x.heap)]
  refine (delivers_forwardMessages x.heap x.buf).then ?_ (by simp)
  exact (delivers_writeMessage x.heap x.sync).then (delivers_return rfl) (by simp)

/-! ## Runs -/

structure Front (ε : Type) where
  client : Stream ε
  since : Bytes
  ended : Bool

def Front.hear (s : Front ε) (data : Bytes) (client : Stream ε) : Front ε where
  client := client
  since := (if s.ended then [] else s.since) ++ if data.head? = some msgQuery then [] else data
  ended := data.head? = some msgSync

def front : Machine (Ans ε) (Front ε) := fun o s ans t =>
  match o, ans with
  | .recv h buf, ans => ∃ data client, s.client.data = data ++ client.data ∧
      t = s.hear data client ∧
      (readMessageReuse readFull h buf : StateM (Stream ε) _) s.client = (ans, client)
  | .settings, _ | .forward _ _, _ => t = s
  | .other _, _ => t.since = s.since ∧ t.ended = s.ended

def Whole : Op → Front ε → Prop
  | .forward _ x, s => (x.buf ++ [x.sync]).flatMap (MessageRef.wire x.heap) = s.since
  | _, _ => True

structure Ready (x : Held) (s : Front ε) : Prop where
  buffer : x.heap.Holds x.readBuf
  apart : ∀ m ∈ x.extBuf, m.payload.array < x.heap.length ∧ m.payload.array ≠ x.readBuf.array
  since : x.extBuf.flatMap (MessageRef.wire x.heap) = if s.ended then [] else s.since

theorem ready_start (cap : Nat) (session : Session) (client : Stream ε) :
    Ready (.start cap session) ⟨client, [], false⟩ :=
  ⟨(Heap.holds_make [] cap).upTo 0, fun _ hm => absurd hm List.not_mem_nil, rfl⟩

variable {s : Front ε}

theorem safe_carryOut {α : Type} (p : Run α) (x : Option Batch)
    (hx : ∀ y ∈ x, (y.buf ++ [y.sync]).flatMap (MessageRef.wire y.heap) = s.since) :
    Safe front Whole (p.elaborate carryOut x) (fun _ t => t.since = s.since ∧
      t.ended = s.ended) s := by
  have hp : Safe Machine.free (fun _ _ => True) p (fun _ _ => True) () :=
    Prog.returns_iff_safe.mp p.returns_trivial
  have hact : ∀ o (u₀ : Unit) y (u : Front ε), True → y = x ∧ u.since = s.since ∧
      u.ended = s.ended →
      Safe front Whole (carryOut o y) (fun r u' => ∃ t, Machine.free o u₀ r.1 t ∧
        r.2 = x ∧ u'.since = s.since ∧ u'.ended = s.ended) u := by
    rintro o u₀ y u - ⟨rfl, hsince, hended⟩
    unfold carryOut
    split
    · rename_i c buf sync z
      refine ⟨(hx z rfl).trans hsince.symm, fun ok t ht => ?_⟩
      obtain rfl : t = u := ht
      exact ⟨(), trivial, rfl, hsince, hended⟩
    · refine ⟨trivial, fun ans t ht => ?_⟩
      exact ⟨(), trivial, rfl, ht.1.trans hsince, ht.2.trans hended⟩
  refine (Safe.elaborate (R := fun _ y u => y = x ∧ u.since = s.since ∧
    u.ended = s.ended) hact hp ⟨rfl, rfl, rfl⟩).mono ?_
  rintro r t ⟨_, _, _, hkept⟩
  exact hkept

section

variable {env : Env}

theorem safe_handleSync (hbuffer : x.heap.Holds x.readBuf) (hended : s.ended = true)
    (hsince : (x.extBuf ++ [msg]).flatMap (MessageRef.wire x.heap) = s.since) :
    Safe front Whole (handleSync env msg x) (Flow.Post Ready fun _ _ => True) s := by
  refine (safe_carryOut _ (some ⟨x.heap, x.extBuf, msg⟩) ?_).bind fun r t ht => ?_
  · rintro y hy
    obtain rfl := Option.some.inj hy
    exact hsince
  · obtain ⟨r, left⟩ := r
    cases r with
    | stop v => trivial
    | next v =>
      refine ⟨hbuffer, fun _ hm => absurd hm List.not_mem_nil, ?_⟩
      rw [ht.2, hended]
      rfl

theorem safe_handleQuery (h : Ready x s) :
    Safe front Whole (handleQuery env i x) (Flow.Post Ready fun _ _ => True) s := by
  refine (safe_carryOut _ none ?_).bind fun r t ht => ?_
  · exact fun y hy => absurd hy (Option.not_mem_none y)
  · obtain ⟨r, left⟩ := r
    cases r with
    | stop v => trivial
    | next v => exact ⟨h.buffer, h.apart, by rw [ht.1, ht.2]; exact h.since⟩

theorem ready_buffer (hlies : Lies x.heap raw msg) (hbuffer : x.heap.Holds x.readBuf)
    (hapart : ∀ m ∈ x.extBuf, m.payload.array < x.heap.length ∧ m.payload.array ≠ x.readBuf.array)
    (hsince : (x.extBuf ++ [msg]).flatMap (MessageRef.wire x.heap) = if s.ended then []
      else s.since) : Ready (x.buffer env i msg) s := by
  obtain ⟨hkeeps, hmore⟩ := keeps_copyMessage x.heap msg
  have hcopied : (copyMessage x.heap msg).1.payload.array = x.heap.length := array_copyMessage msg
  refine ⟨hkeeps.holds hbuffer (Nat.ne_of_lt hbuffer.made), ?_, ?_⟩
  · intro m hm
    obtain hm | hm := List.mem_append.mp hm
    · exact ⟨Nat.lt_trans (hapart m hm).1 hmore, (hapart m hm).2⟩
    · rw [List.mem_singleton.mp hm]
      change (copyMessage x.heap msg).1.payload.array < _ ∧
      (copyMessage x.heap msg).1.payload.array ≠ _
      rw [hcopied]
      exact ⟨hmore, Nat.ne_of_gt hbuffer.made⟩
  · change (x.extBuf ++ [(copyMessage x.heap msg).1]).flatMap
      (MessageRef.wire (copyMessage x.heap msg).2) = _
    rw [← hsince, flatMap_wire, flatMap_wire,
      map_value_copyMessage hlies fun m hm => (hapart m hm).1]

theorem safe_round (x : Held) (s : Front ε) (h : Ready x s) :
    Safe front Whole (round env x) (Flow.Post Ready fun _ _ => True) s := by
  refine safe_bind.mpr ⟨trivial, fun ans t ht => ?_⟩
  obtain ⟨data, client, hdata, rfl, hrun⟩ := ht
  obtain ⟨msg, readBuf, heap⟩ := ans
  cases msg with
  | error err => trivial
  | ok msg =>
    obtain ⟨hwire, ⟨raw, hlies⟩, hholds, hkeeps, harray⟩ := received_readMessageReuse h.buffer hrun
    obtain rfl : data = msg.wire heap := List.append_cancel_right (hdata.symm.trans hwire)
    have hapart : ∀ m ∈ x.extBuf, m.payload.array < heap.length ∧
        m.payload.array ≠ readBuf.array := by
      intro m hm
      obtain ⟨hmade, hne⟩ := h.apart m hm
      refine ⟨Nat.lt_of_lt_of_le hmade hkeeps.made, ?_⟩
      obtain hsame | hnew := harray
      · rwa [hsame]
      · rw [hnew]
        exact Nat.ne_of_lt hmade
    have hbatch : x.extBuf.flatMap (MessageRef.wire heap) = if s.ended then [] else s.since := by
      rw [← h.since, flatMap_wire, flatMap_wire, map_value hkeeps h.apart]
    change Safe front Whole (if msg.type = msgTerminate then _
      else dispatch env msg ⟨heap, readBuf, x.extBuf, x.vars⟩) _ _
    split
    · trivial
    refine safe_bind.mpr ⟨trivial, fun ans t ht => ?_⟩
    obtain rfl : t = s.hear (msg.wire heap) client := ht
    have hhead : (msg.wire heap).head? = some msg.type := rfl
    split
    · rename_i hquery
      refine safe_handleQuery ⟨hholds, hapart, ?_⟩
      simp [Front.hear, hhead, hquery, hbatch, msgQuery, msgSync]
    rename_i hquery
    split
    · rename_i hsync
      refine safe_handleSync hholds ?_ ?_
      · simp [Front.hear, hhead, hsync]
      · simp [Front.hear, hhead, hquery, hbatch]
    · rename_i hsync
      refine ready_buffer hlies hholds hapart ?_
      simp [Front.hear, hhead, hquery, hsync, hbatch]

/-- A forwarded batch delivers the bytes of the messages that were read since the previous Sync. -/
theorem batch_forwarded (cap n : Nat) (session : Session) (client : Stream ε)
    {p : Prog (Ans ε) Held} {t : Front ε} {c : Conn} {x : Batch}
    (h : Reach front (relayLoop env n (.start cap session)) ⟨client, [], false⟩ p t)
    (hp : p.head = some (.forward c x)) : Delivers (· = .ok ()) t.since (forwardExtBatch x) := by
  have hsafe : Safe front Whole (relayLoop env n (.start cap session)) (fun _ _ => True)
      ⟨client, [], false⟩ :=
    Safe.rounds n safe_round (fun _ _ _ => trivial) (ready_start cap session client)
  have hwhole : (x.buf ++ [x.sync]).flatMap (MessageRef.wire x.heap) = t.since := hsafe.guarded h hp
  exact hwhole ▸ delivers_forwardExtBatch x

end

end

def reading : Env :=
  { plainEnv false with classify := fun _ => .read, classifyAST := fun _ => .read }

def parse : Bytes := Framing.writeMessage msgParse [0, 115, 0, 0, 0]

def sync : Bytes := Framing.writeMessage msgSync []

theorem batch_forwarded_retry : ∃ p t x,
    Reach front (relayLoop reading 2 (.start 4 (.new 0 false false)))
      ⟨(⟨parse ++ sync, .eof⟩ : Stream Empty), [], false⟩ p t ∧
      p.head = some (.forward 1 x) ∧ Delivers (· = .ok ()) (parse ++ sync) (forwardExtBatch x) := by
  have hrun : ∃ p t x,
    Reach front (relayLoop reading 2 (.start 4 (.new 0 false false)))
      ⟨(⟨parse ++ sync, .eof⟩ : Stream Empty), [], false⟩ p t ∧
      p.head = some (.forward 1 x) ∧ t.since = parse ++ sync := by
    refine ⟨?p, ⟨⟨[], .eof⟩, parse ++ sync, true⟩, ?x, ?reach, ?head, rfl⟩
    case reach =>
      refine .ask _ _ ⟨parse, ⟨sync, .eof⟩, rfl, rfl, rfl⟩ ?_
      refine .ask ((plainInput 0 []).cfg, 0) _ rfl ?_
      refine .ask _ _ ⟨sync, ⟨[], .eof⟩, rfl, rfl, rfl⟩ ?_
      refine .ask ((plainInput 0 []).cfg, 0) _ rfl ?_
      refine .ask (some (0, 0)) ⟨⟨[], .eof⟩, parse ++ sync, true⟩ ⟨rfl, rfl⟩ ?_
      refine .ask false _ rfl ?_
      refine .ask () ⟨⟨[], .eof⟩, parse ++ sync, true⟩ ⟨rfl, rfl⟩ ?_
      refine .ask (0 : Pools.Pool) ⟨⟨[], .eof⟩, parse ++ sync, true⟩ ⟨rfl, rfl⟩ ?_
      refine .ask (some 1) ⟨⟨[], .eof⟩, parse ++ sync, true⟩ ⟨rfl, rfl⟩ ?_
      exact .refl
    case head => rfl
  obtain ⟨p, t, x, hreach, hp, hsince⟩ := hrun
  exact ⟨p, t, x, hreach, hp, hsince ▸ batch_forwarded 4 2 _ _ hreach hp⟩

end PgMux.BatchBytes
