import PgMux.Relays

/-!
# What the relay of a reply passes on

On a reply that is a sequence of messages the relay writes the bytes of the backend up to the end of
the reply, whatever its wire buffer held before, and leaves the rest of both streams alone.
-/

namespace PgMux.Transparency

open Effects Framing Relays Streams
open Wire (msgReadyForQuery msgCopyInResponse msgCopyOutResponse msgCopyBothResponse msgCopyData)

/-! ## The pooled buffer -/

section

variable {ε : Type}

def readInto (wire : Slice Byte) : Io ε (Option Byte × Slice Byte) := do
  let hdr ← source .backend 5
  match hdr.err with
  | some _ => return (none, wire)
  | none =>
    let length := messageLength hdr.data
    if length < 4 then return (none, wire)
    else
      let wire := (wire.grow (5 + (length - 4))).copyAt 0 hdr.data
      let payload ← readPayload (source .backend) (length - 4)
      let wire := wire.copyAt 5 payload.data
      match payload.err with
      | some _ => return (none, wire)
      | none => return (some (hdr.data.headD 0), wire)

def relayWith : Nat → Slice Byte → Io ε (Outcome Unit × Slice Byte)
  | 0, wire => return (.running, wire)
  | n + 1, wire => do
    match ← readInto wire with
    | (none, wire) => return (.failed, wire)
    | (some msgType, wire) =>
      if ← write .client wire.toList then
        if msgType = msgReadyForQuery then return (.done (), wire)
        else
          match ← relayCopy msgType n with
          | .done () => relayWith n wire
          | r => return (r, wire)
      else return (.failed, wire)

def relayPooled (n : Nat) (bp : Slice Byte) : Io ε (Outcome Unit × Slice Byte) :=
  relayWith n (bp.reslice 0 (Nat.zero_le _))

variable {σ : Type} {w : World (IoAns ε) σ}

theorem readInto_cases (wire : Slice Byte) (s : σ) :
    (∃ buf t, exec w written readWire s = (none, [], t) ∧
      exec w written (readInto wire) s = ((none, buf), [], t)) ∨
      ∃ buf t, exec w written readWire s = (some buf.toList, [], t) ∧
        exec w written (readInto wire) s = ((some (buf.toList.headD 0), buf), [], t) := by
  obtain ⟨⟨hdr, s₁⟩, hr⟩ : ∃ r, w (.read .backend 5) s = r := ⟨_, rfl⟩
  have hsource : exec w written (source .backend 5) s = (hdr, [], s₁) := by rw [exec_source, hr]
  rw [readWire, readInto, exec_bind, exec_bind, hsource]
  dsimp only
  cases herr : hdr.err with
  | some err => exact .inl ⟨wire, s₁, rfl, rfl⟩
  | none =>
    by_cases hshort : messageLength hdr.data < 4
    · rw [if_pos hshort, if_pos hshort]
      exact .inl ⟨wire, s₁, rfl, rfl⟩
    · rw [if_neg hshort, if_neg hshort, exec_bind, exec_bind, exec_readPayload]
      obtain ⟨⟨payload, s₂⟩, hp⟩ : ∃ r, payloadAt w (messageLength hdr.data - 4) s₁ = r := ⟨_, rfl⟩
      rw [hp]
      dsimp only
      cases hperr : payload.err with
      | some err => exact .inl ⟨_, s₂, rfl, rfl⟩
      | none =>
        right
        have hfive := hdr.full herr
        have hlen : (wire.grow (5 + (messageLength hdr.data - 4))).len =
            hdr.data.length + payload.data.length := by
          rw [Slice.len_grow, hfive, payload.full hperr]
        have hbytes := Slice.toList_copyAt_copyAt _ hdr.data payload.data hlen
        rw [hfive] at hbytes
        refine ⟨_, s₂, by rw [hbytes]; rfl, ?_⟩
        have hhead (p : Bytes) : (hdr.data ++ p).headD 0 = hdr.data.headD 0 := by
          cases hdata : hdr.data with
          | nil => simp [hdata] at hfive
          | cons c data => rfl
        rw [hbytes, hhead]
        rfl

theorem exec_relayWith (n : Nat) (wire : Slice Byte) (s : σ) :
    ((exec w written (relayWith n wire) s).1.1, (exec w written (relayWith n wire) s).2) =
      exec w written (relayUntilReady n) s := by
  induction n generalizing wire s with
  | zero => rfl
  | succ n ih =>
    rw [relayWith, relayUntilReady, exec_bind, exec_bind]
    rcases readInto_cases (w := w) wire s with ⟨buf, t, hwire, hinto⟩ | ⟨buf, t, hwire, hinto⟩
    · rw [hwire, hinto]
      rfl
    · rw [hwire, hinto]
      dsimp only
      generalize buf.toList = m
      obtain ⟨⟨ok, u⟩, hw⟩ : ∃ r, w (.write .client m) t = r := ⟨_, rfl⟩
      cases ok with
      | false =>
        rw [exec_write_false hw, exec_write_false hw]
        rfl
      | true =>
        rw [exec_write_true hw, exec_write_true hw]
        split_ifs with hready
        · rfl
        · rw [exec_bind, exec_bind]
          obtain ⟨⟨r, ws, v⟩, hcopy⟩ : ∃ x, exec w written (relayCopy (m.headD 0) n) u = x :=
          ⟨_, rfl⟩
          rw [hcopy]
          cases r with
          | running | failed => rfl
          | done a =>
            dsimp only
            rw [← ih buf v]

end

/-! ## Replies -/

structure Frame extends Protocol.Message where
  fits : 4 + payload.length < 2 ^ 32

def Frame.wire (m : Frame) : Bytes := writeMessage m.type m.payload

def Frame.small (m : Frame) : Prop := m.payload.length ≤ maxMessageSize

def upToReady : Bool → List Frame → Option (List Frame × List Frame)
  | _, [] => none
  | false, m :: ms =>
    if m.type = msgReadyForQuery then some ([m], ms)
    else (upToReady (m.type = msgCopyOutResponse) ms).map fun r => (m :: r.1, r.2)
  | true, m :: ms => (upToReady (m.type = msgCopyData) ms).map fun r => (m :: r.1, r.2)

def copiesFit : Bool → List Frame → Prop
  | _, [] => True
  | false, m :: ms => copiesFit (m.type = msgCopyOutResponse) ms
  | true, m :: ms => m.small ∧ copiesFit (m.type = msgCopyData) ms

def copyIns : Bool → List Frame → Nat
  | _, [] => 0
  | false, m :: ms => (if m.type = msgCopyInResponse then 1
      else 0) + copyIns (m.type = msgCopyOutResponse) ms
  | true, m :: ms => copyIns (m.type = msgCopyData) ms

def upToCopies : Nat → List Framed → Option (List Framed × List Framed)
  | 0, ms => some ([], ms)
  | _ + 1, [] => none
  | k + 1, m :: ms => (upToCopies (if m.type = msgCopyData then k + 1 else k) ms).map fun r =>
      (m :: r.1, r.2)

section

variable {ε : Type}

def both (client backend : Stream ε) : Side → Stream ε
  | .client => client
  | .backend => backend

theorem update_client (client backend c : Stream ε) :
    Function.update (both client backend) .client c = both c backend := by
  funext side
  cases side <;> rfl

theorem update_backend (client backend b : Stream ε) :
    Function.update (both client backend) .backend b = both client b := by
  funext side
  cases side <;> rfl

variable {s : Side → Stream ε} {rest a b : Bytes} {stop : ReadErr ε} {n k : Nat}
  {t : Side → Stream ε}

theorem exec_readFull (side : Side) {f : Filled Byte ε n} {r : Stream ε}
    (h : (readFull n : StateM (Stream ε) _) (s side) = (f, r)) :
    exec inMemory written (source side n) s = (f, [], Function.update s side r) := by
  change ((readFull n (s side)).1, [], Function.update s side (readFull n (s side)).2) = _
  rw [h]

theorem exec_readPayloadOf (side : Side) {payload : Bytes} (h : s side = ⟨payload ++ rest, stop⟩) :
    exec inMemory written (readPayload (source side) payload.length) s =
      (⟨payload, none, Nat.le_refl _, fun _ => rfl⟩, [], Function.update s side ⟨rest, stop⟩) := by
  cases payload with
  | nil =>
    have hsame : Function.update s side ⟨rest, stop⟩ = s := by
      rw [List.nil_append] at h
      rw [← h, Function.update_eq_self]
    rw [hsame]
    rfl
  | cons c payload =>
    have hread := readFull_append (c :: payload) rest stop
    rw [← h] at hread
    exact exec_readFull side hread

theorem exec_readMessage {side : Side} {msg : Framed} (h : s side = ⟨msg.wire ++ rest, stop⟩) :
    exec inMemory written (readMessage (source side)) s =
      (.ok ⟨msg.toMessage, some msg.wire⟩, [], Function.update s side ⟨rest, stop⟩) := by
  have hheader : exec inMemory written (readHeader (source side)) s =
      (.ok msg.header, [], Function.update s side ⟨msg.payload ++ rest, stop⟩) := by
    have hwire := readHeader_wire msg rest stop
    rw [← h] at hwire
    have hcheck : checkHeader (readFull 5 (s side)).1 = .ok msg.header := congrArg Prod.fst hwire
    have hnext : (readFull 5 (s side)).2 = ⟨msg.payload ++ rest, stop⟩ := congrArg Prod.snd hwire
    obtain ⟨⟨f, r⟩, hf⟩ : ∃ x, (readFull 5 : StateM (Stream ε) _) (s side) = x := ⟨_, rfl⟩
    rw [hf] at hcheck hnext
    rw [readHeader, exec_bind, exec_readFull side hf, ← hnext, ← hcheck]
    rfl
  have hpayload := exec_readPayloadOf (s := Function.update s side ⟨msg.payload ++ rest,
    stop⟩) side (Function.update_self ..)
  rw [Function.update_idem] at hpayload
  rw [readMessage, exec_bind, hheader]
  dsimp only
  rw [exec_bind, show msg.header.payloadLen = msg.payload.length from rfl, hpayload]
  rfl

theorem exec_readWire (client : Stream ε) (m : Frame) (rest : Bytes) (stop : ReadErr ε) :
    exec inMemory written readWire (both client ⟨m.wire ++ rest, stop⟩) = (some m.wire, [],
      both client ⟨rest, stop⟩) := by
  have hread := readFull_wire m.type m.payload rest stop
  have hlen : messageLength (m.type :: putUint32 (4 + m.payload.length)) = 4 + m.payload.length :=
    bigEndian_putUint32 m.fits
  have hpayload := exec_readPayloadOf (s := both client ⟨m.payload ++ rest, stop⟩) .backend rfl
  have hheader : exec inMemory written (source .backend 5) (both client ⟨m.wire ++ rest, stop⟩) =
      (⟨m.type :: putUint32 (4 + m.payload.length), none, Nat.le_refl 5, fun _ => rfl⟩, [],
        both client ⟨m.payload ++ rest, stop⟩) := by
    have hsource := exec_readFull (s := both client ⟨m.wire ++ rest, stop⟩) .backend hread
    rwa [update_backend] at hsource
  rw [readWire, exec_bind, hheader]
  dsimp only
  rw [hlen, if_neg (by omega), Nat.add_sub_cancel_left, exec_bind, hpayload, update_backend]
  rfl

structure Ends (r : Outcome Unit × List (Side × Bytes) × (Side → Stream ε))
    (toClient toBackend : Bytes) (left : Side → Stream ε) : Prop where
  done : r.1 = .done ()
  client : bytesTo .client r.2.1 = toClient
  backend : bytesTo .backend r.2.1 = toBackend
  left : r.2.2 = left

def resume (n : Nat) (r : Outcome Unit) : Io ε (Outcome Unit) :=
  match r with
  | .done () => relayUntilReady n
  | r => return r

theorem exec_resume {p : Io ε (Outcome Unit)} {left : Side → Stream ε} {a' b' : Bytes}
    (hp : Ends (exec inMemory written p s) a b t)
    (hn : Ends (exec inMemory written (relayUntilReady n) t) a' b' left) :
    Ends (exec inMemory written (p >>= resume n) s) (a ++ a') (b ++ b') left := by
  obtain ⟨⟨r, ws, t'⟩, hr⟩ : ∃ x, exec inMemory written p s = x := ⟨_, rfl⟩
  rw [hr] at hp
  obtain ⟨rfl, rfl, rfl, rfl⟩ := hp
  rw [exec_bind, hr]
  exact ⟨hn.done, (bytesTo_append ..).trans (congrArg _ hn.client),
    (bytesTo_append ..).trans (congrArg _ hn.backend), hn.left⟩

theorem exec_passOn (src dst : Side) {m : Framed} (h : s src = ⟨m.wire ++ rest, stop⟩)
    (go : RawMessage → Io ε (Outcome Unit)) :
    exec inMemory written (passOn src dst go) s =
      let r := exec inMemory written (go ⟨m.toMessage, some m.wire⟩)
        (Function.update s src ⟨rest, stop⟩)
      (r.1, (dst, m.wire) :: r.2.1, r.2.2) := by
  rw [passOn, exec_bind, exec_readMessage h]
  dsimp only
  rfl

theorem relayUntilReady_succ (n : Nat) : (relayUntilReady (n + 1) : Io ε _) = do
    match ← readWire with
    | none => return .failed
    | some wire =>
      if ← write .client wire then
        if wire.headD 0 = msgReadyForQuery then return .done ()
        else relayCopy (wire.headD 0) n >>= resume n
      else return .failed := by
  rfl

theorem ends_relayCopyIn {client sent kept : List Framed}
    (h : upToCopies (k + 1) client = some (sent, kept)) (hn : client.length ≤ n) (rest : Bytes)
    (stop : ReadErr ε) (backend : Stream ε) :
    ∃ phase mid sent', client = phase ++ mid ∧ sent = phase ++ sent' ∧
    upToCopies k mid = some (sent', kept) ∧
      Ends (exec inMemory written (relayCopyIn n)
        (both ⟨client.flatMap Framed.wire ++ rest, stop⟩ backend)) []
        (phase.flatMap Framed.wire) (both ⟨mid.flatMap Framed.wire ++ rest, stop⟩ backend) := by
  induction client generalizing n sent with
  | nil => cases h
  | cons m ms ih =>
    cases n with
    | zero => simp at hn
    | succ n =>
      rw [upToCopies, Option.map_eq_some_iff] at h
      obtain ⟨⟨sent₁, kept₁⟩, h, hpair⟩ := h
      obtain ⟨rfl, rfl⟩ := Prod.mk.inj hpair
      rw [List.flatMap_cons, List.append_assoc]
      have hpass :=
        exec_passOn .client .backend (s := both ⟨m.wire ++ (ms.flatMap Framed.wire ++ rest),
        stop⟩ backend) rfl
        fun msg => if msg.type = msgCopyData then relayCopyIn n else return .done ()
      rw [update_client] at hpass
      rw [relayCopyIn, hpass]
      split_ifs at h ⊢ with hdata
      · obtain ⟨phase, mid, sent', rfl, rfl, hk, hends⟩ := ih h (by simpa using hn)
        exact ⟨m :: phase, mid, sent', rfl, rfl, hk,
          hends.done, by simpa using hends.client, by simpa using hends.backend, hends.left⟩
      · exact ⟨[m], ms, sent₁, rfl, rfl, h, rfl, rfl, by simp, rfl⟩

def turn (copying : Bool) (n m : Nat) : Io ε (Outcome Unit) :=
  if copying then relayCopyOut n >>= resume m else relayUntilReady m

theorem Ends.cons {r : Outcome Unit × List (Side × Bytes) × (Side → Stream ε)}
    {left : Side → Stream ε} (h : Ends r a b left) (wire : Bytes) :
    Ends (r.1, (.client, wire) :: r.2.1, r.2.2) (wire ++ a) b left :=
  ⟨h.done, by simp [h.client], by simp [h.backend], h.left⟩

section

variable (restC restB : Bytes) (stopC stopB : ReadErr ε) {client sent kept : List Framed}
  {ms relayed left : List Frame}
  {n : Nat}

variable {c : Stream ε} {m : Frame}

theorem ends_round (hready : m.type ≠ msgReadyForQuery)
    (h : Ends (exec inMemory written (relayCopy m.type n >>= resume n)
      (both c ⟨rest, stop⟩)) a b t) :
    Ends (exec inMemory written (relayUntilReady (n + 1)) (both c ⟨m.wire ++ rest, stop⟩))
      (m.wire ++ a) b t := by
  have htype : m.wire.headD 0 = m.type := rfl
  rw [relayUntilReady_succ, exec_bind, exec_readWire]
  dsimp only
  rw [exec_write_true rfl, htype, if_neg hready]
  exact h.cons m.wire

theorem ends_ready (hready : m.type = msgReadyForQuery) :
    Ends (exec inMemory written (relayUntilReady (n + 1)) (both c ⟨m.wire ++ rest, stop⟩))
      ([m].flatMap Frame.wire) []
      (both c ⟨rest, stop⟩) := by
  have htype : m.wire.headD 0 = m.type := rfl
  rw [relayUntilReady_succ, exec_bind, exec_readWire]
  dsimp only
  rw [exec_write_true rfl, htype, if_pos hready]
  exact ⟨rfl, by simp, by simp, rfl⟩

theorem ends_copyOut (hsmall : m.small)
    (h : Ends (exec inMemory written (turn (m.type = msgCopyData) n k)
      (both c ⟨rest, stop⟩)) a b t) :
    Ends (exec inMemory written (turn true (n + 1) k) (both c ⟨m.wire ++ rest, stop⟩))
      (m.wire ++ a) b t := by
  have hpass := exec_passOn .backend .client (m := ⟨m.toMessage, hsmall⟩)
    (s := both c ⟨m.wire ++ rest, stop⟩) rfl
    fun msg => if msg.type = msgCopyData then relayCopyOut n else return .done ()
  rw [update_backend] at hpass
  rw [turn, if_pos rfl, relayCopyOut, exec_bind, hpass]
  by_cases hdata : m.type = msgCopyData
  · rw [decide_eq_true hdata, turn, if_pos rfl, exec_bind] at h
    rw [if_pos hdata]
    exact h.cons m.wire
  · rw [decide_eq_false hdata, turn, if_neg Bool.false_ne_true] at h
    rw [if_neg hdata]
    exact h.cons m.wire

theorem ends_turn {copying : Bool} {msgs : List Frame}
    (h : upToReady copying msgs = some (relayed, left))
    (hboth : ∀ m ∈ relayed, m.type ≠ msgCopyBothResponse) (hfit : copiesFit copying relayed)
    (hc : upToCopies (copyIns copying relayed) client = some (sent, kept))
    (hn : msgs.length + client.length ≤ n) (hk : msgs.length + client.length ≤ k) :
    Ends (exec inMemory written (turn copying n k)
        (both ⟨client.flatMap Framed.wire ++ restC, stopC⟩
          ⟨msgs.flatMap Frame.wire ++ restB, stopB⟩))
      (relayed.flatMap Frame.wire) (sent.flatMap Framed.wire)
      (both ⟨kept.flatMap Framed.wire ++ restC, stopC⟩ ⟨left.flatMap Frame.wire ++ restB,
          stopB⟩) := by
  induction msgs generalizing copying relayed client sent n k with
  | nil => cases h
  | cons m ms ih =>
    rw [List.length_cons] at hn hk
    rw [List.flatMap_cons, List.append_assoc]
    -- the fuel that is left is enough for the messages that are left
    obtain ⟨k, rfl⟩ : ∃ k', k = k' + 1 := ⟨k - 1, by omega⟩
    obtain ⟨n, rfl⟩ : ∃ n', n = n' + 1 := ⟨n - 1, by omega⟩
    cases copying with
    | true =>
      rw [upToReady, Option.map_eq_some_iff] at h
      obtain ⟨⟨relayed, left⟩, h, hpair⟩ := h
      obtain ⟨rfl, rfl⟩ := Prod.mk.inj hpair
      exact ends_copyOut hfit.1 (ih h (fun m hm => hboth m (List.mem_cons_of_mem _ hm)) hfit.2 hc
        (by omega) (by omega))
    | false =>
      rw [upToReady] at h
      by_cases hready : m.type = msgReadyForQuery
      · rw [if_pos hready] at h
        obtain ⟨rfl, rfl⟩ := Prod.mk.inj (Option.some.inj h)
        have hnone : m.type ≠ msgCopyInResponse := by rw [hready]; decide
        rw [copyIns, if_neg hnone, copyIns, Nat.add_zero, upToCopies] at hc
        obtain ⟨rfl, rfl⟩ := Prod.mk.inj (Option.some.inj hc)
        exact ends_ready hready
      rw [if_neg hready, Option.map_eq_some_iff] at h
      obtain ⟨⟨relayed, left⟩, h, hpair⟩ := h
      obtain ⟨rfl, rfl⟩ := Prod.mk.inj hpair
      apply ends_round hready
      have hrest := fun m hm => hboth m (List.mem_cons_of_mem _ hm)
      rw [copyIns] at hc
      by_cases hin : m.type = msgCopyInResponse
      · have hout : m.type ≠ msgCopyOutResponse := by rw [hin]; decide
        rw [copiesFit, decide_eq_false hout] at hfit
        rw [if_pos hin, decide_eq_false hout, Nat.add_comm] at hc
        rw [decide_eq_false hout] at h
        obtain ⟨phase, mid, sent, rfl, rfl, hc, hends⟩ :=
          ends_relayCopyIn hc (n := k)
            (by omega) restC stopC ⟨ms.flatMap Frame.wire ++ restB, stopB⟩
        rw [List.length_append] at hn hk
        have hbytes : (phase ++ sent).flatMap Framed.wire =
            phase.flatMap Framed.wire ++ sent.flatMap Framed.wire :=
          List.flatMap_append
        rw [relayCopy, if_pos hin, hbytes]
        exact exec_resume hends (ih h hrest hfit hc (n := k) (k := k) (by omega) (by omega))
      · rw [if_neg hin, Nat.zero_add] at hc
        have hnext := ih h hrest hfit hc (n := k) (k := k) (by omega) (by omega)
        by_cases hout : m.type = msgCopyOutResponse
        · rw [decide_eq_true hout, turn, if_pos rfl] at hnext
          rw [relayCopy, if_neg hin, if_pos hout]
          exact hnext
        · have hcopy : isCopyResponse m.type = false := by
            simp [isCopyResponse, hin, hout, hboth m List.mem_cons_self]
          rw [decide_eq_false hout, turn, if_neg Bool.false_ne_true] at hnext
          rw [relayCopy_of_not_isCopyResponse hcopy]
          exact hnext

end

/-- Both sides get each other's bytes up to the end of the reply, and nothing else is read. -/
theorem relay_transparent (bp : Slice Byte) {msgs relayed left : List Frame}
    (hreply : upToReady false msgs = some (relayed, left))
    (hboth : ∀ m ∈ relayed, m.type ≠ msgCopyBothResponse) (hfit : copiesFit false relayed)
    {client sent kept : List Framed}
    (hcopies : upToCopies (copyIns false relayed) client = some (sent, kept)) (restC restB : Bytes)
    (stopC stopB : ReadErr ε) {n : Nat} (hn : msgs.length + client.length ≤ n) :
    ∃ wire ws, exec inMemory written (relayPooled n bp)
        (both ⟨client.flatMap Framed.wire ++ restC, stopC⟩ ⟨msgs.flatMap Frame.wire ++ restB,
          stopB⟩) = ((.done (), wire), ws,
          both ⟨kept.flatMap Framed.wire ++ restC, stopC⟩ ⟨left.flatMap Frame.wire ++ restB,
            stopB⟩) ∧
      bytesTo .client ws = relayed.flatMap Frame.wire ∧
      bytesTo .backend ws = sent.flatMap Framed.wire := by
  have hends := ends_turn restC restB stopC stopB hreply hboth hfit hcopies hn hn
  rw [turn, if_neg Bool.false_ne_true, ← exec_relayWith n (bp.reslice 0 (Nat.zero_le _))] at hends
  obtain ⟨⟨⟨r, wire⟩, ws, t⟩, hr⟩ : ∃ x,
    exec inMemory written (relayWith n (bp.reslice 0 (Nat.zero_le _)))
    (both ⟨client.flatMap Framed.wire ++ restC, stopC⟩ ⟨msgs.flatMap Frame.wire ++ restB, stopB⟩) =
      x := ⟨_, rfl⟩
  rw [hr] at hends
  obtain ⟨rfl, hclient, hbackend, rfl⟩ := hends
  exact ⟨wire, ws, hr, hclient, hbackend⟩

end

def frames (types : List Byte) : List Frame := types.map fun type => ⟨⟨type, [73]⟩, by simp⟩

def framed (types : List Byte) : List Framed :=
  types.map fun type => ⟨⟨type, [73]⟩, by simp [maxMessageSize]⟩

theorem relay_transparent_copies :
    ∃ wire ws, exec inMemory written (relayPooled 20 ⟨[1], 1, Nat.le_refl 1⟩)
        (both ⟨(framed [msgCopyData, msgCopyData, Wire.msgCopyDone, 81]).flatMap Framed.wire ++
          [81], .eof⟩
          ⟨(frames [msgCopyInResponse, msgCopyOutResponse, msgCopyData, Wire.msgCopyDone, 67,
            msgReadyForQuery, 83]).flatMap Frame.wire ++ [83], .eof⟩) =
        ((.done (), wire), ws,
          both (⟨(framed [81]).flatMap Framed.wire ++ [81], .eof⟩ : Stream Empty)
          ⟨(frames [83]).flatMap Frame.wire ++ [83], .eof⟩) ∧
      bytesTo .client ws =
        (frames [msgCopyInResponse, msgCopyOutResponse, msgCopyData, Wire.msgCopyDone, 67,
          msgReadyForQuery]).flatMap Frame.wire ∧
      bytesTo .backend ws = (framed [msgCopyData, msgCopyData, Wire.msgCopyDone]).flatMap
        Framed.wire := by
  apply relay_transparent _ rfl _ _ rfl
  · decide
  · decide
  · refine ⟨?_, ?_, trivial⟩ <;> simp [Frame.small, maxMessageSize]

end PgMux.Transparency
