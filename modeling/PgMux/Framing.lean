import PgMux.Protocol
import PgMux.Streams

/-!
# Framing

A message starts with its type and the length of what follows the type. What was written comes back
as it was, and a reused buffer shows nothing of what it held before.
-/

namespace PgMux.Framing

open Literal Protocol Streams

def maxMessageSize : Nat := 16 * 1024 * 1024

structure RawMessage extends Message where
  raw : Option Bytes
  deriving DecidableEq, Repr

def RawMessage.ofRaw (raw : Bytes) : RawMessage := ⟨⟨raw.headD 0, raw.drop 5⟩, some raw⟩

inductive ReadError (ε : Type) where
  | header (err : ReadErr ε)
  | invalidLength (length : Nat)
  | tooLarge (payloadLen : Nat)
  | payload (err : ReadErr ε)
  deriving DecidableEq, Repr

structure Header where
  data : Bytes
  length_eq : data.length = 5
  payloadLen : Nat

def messageLength (hdr : Bytes) : Nat := bigEndian (hdr.drop 1)

def checkHeader {ε : Type} (hdr : Filled Byte ε 5) : Except (ReadError ε) Header :=
  match h : hdr.err with
  | some err => .error (.header err)
  | none =>
    let length := messageLength hdr.data
    if length < 4 then .error (.invalidLength length)
    else if maxMessageSize < length - 4 then .error (.tooLarge (length - 4))
    else .ok ⟨hdr.data, hdr.full h, length - 4⟩

section

variable {ε : Type} {hdr : Filled Byte ε 5}

theorem checkHeader_of_err {err : ReadErr ε} (h : hdr.err = some err) :
    checkHeader hdr = .error (.header err) := by
  unfold checkHeader
  split
  · simp_all
  · simp_all

theorem checkHeader_of_err_none (h : hdr.err = none) :
    checkHeader hdr = if messageLength hdr.data < 4 then
    .error (.invalidLength (messageLength hdr.data))
      else if maxMessageSize < messageLength hdr.data - 4 then
      .error (.tooLarge (messageLength hdr.data - 4))
      else .ok ⟨hdr.data, hdr.full h, messageLength hdr.data - 4⟩ := by
  unfold checkHeader
  split
  · simp_all
  · rfl

theorem of_checkHeader {header : Header} (h : checkHeader hdr = .ok header) :
    header.data = hdr.data ∧ messageLength header.data = 4 + header.payloadLen := by
  cases herr : hdr.err with
  | some err =>
    rw [checkHeader_of_err herr] at h
    simp at h
  | none =>
    rw [checkHeader_of_err_none herr] at h
    split at h
    · simp at h
    split at h
    · simp at h
    · obtain rfl := Except.ok.inj h
      refine ⟨rfl, ?_⟩
      dsimp only
      omega

end

section

variable {m : Type → Type} [Monad m] {ε : Type}

def readHeader (source : Source m Byte ε) : m (Except (ReadError ε) Header) := do
  return checkHeader (← source 5)

def readPayload (source : Source m Byte ε) : (payloadLen : Nat) → m (Filled Byte ε payloadLen)
  | 0 => return .empty Byte ε
  | n + 1 => source (n + 1)

def readMessage (source : Source m Byte ε) : m (Except (ReadError ε) RawMessage) := do
  match ← readHeader source with
  | .error err => return .error err
  | .ok hdr =>
    let payload ← readPayload source hdr.payloadLen
    match payload.err with
    | some err => return .error (.payload err)
    | none => return .ok (.ofRaw (hdr.data ++ payload.data))

def readMessageReuse (source : Source m Byte ε) (buf : Slice Byte) :
    m (Except (ReadError ε) RawMessage × Slice Byte) := do
  match ← readHeader source with
  | .error err => return (.error err, buf)
  | .ok hdr =>
    let buf := (buf.grow (5 + hdr.payloadLen)).copyAt 0 hdr.data
    let payload ← readPayload source hdr.payloadLen
    let buf := buf.copyAt 5 payload.data
    match payload.err with
    | some err => return (.error (.payload err), buf)
    | none => return (.ok (.ofRaw buf.toList), buf)

def readMessages (source : Source m Byte ε) : Nat → m (List (Except (ReadError ε) RawMessage))
  | 0 => return []
  | n + 1 => do
    let msg ← readMessage source
    let msgs ← readMessages source n
    return msg :: msgs

def readMessagesReuse (source : Source m Byte ε) :
    Nat → Slice Byte → m (List (Except (ReadError ε) RawMessage))
  | 0, _ => return []
  | n + 1, buf => do
    let (msg, buf) ← readMessageReuse source buf
    let msgs ← readMessagesReuse source n buf
    return msg :: msgs

end

def putUint32 (n : Nat) : Bytes :=
  [UInt8.ofNat (n / 2 ^ 24), UInt8.ofNat (n / 2 ^ 16), UInt8.ofNat (n / 2 ^ 8), UInt8.ofNat n]

def writeMessage (type : Byte) (payload : Bytes) : Bytes :=
  type :: putUint32 (4 + payload.length) ++ payload

def forwardRaw (msg : RawMessage) : Bytes :=
  match msg.raw with
  | some raw => raw
  | none => writeMessage msg.type msg.payload

/-! ## What was written is read back -/

structure Framed extends Message where
  fits : payload.length ≤ maxMessageSize

def Framed.wire (msg : Framed) : Bytes := writeMessage msg.type msg.payload

theorem bigEndian_putUint32 {n : Nat} (h : n < 2 ^ 32) : bigEndian (putUint32 n) = n := by
  simp only [bigEndian, putUint32, List.foldl_cons, List.foldl_nil, UInt8.toNat_ofNat']
  omega

theorem putUint32_bigEndian (a b c d : Byte) :
    putUint32 (bigEndian [a, b, c, d]) = [a, b, c, d] := by
  have ha := a.toNat_lt
  have hb := b.toNat_lt
  have hc := c.toNat_lt
  have hd := d.toNat_lt
  simp only [putUint32, bigEndian, List.foldl_cons, List.foldl_nil, List.cons.injEq, and_true,
    ← UInt8.toNat_inj, UInt8.toNat_ofNat']
  omega

theorem writeMessage_of_header {hdr payload : Bytes} (hfive : hdr.length = 5)
    (hlen : messageLength hdr = 4 + payload.length) :
    writeMessage ((hdr ++ payload).headD 0) ((hdr ++ payload).drop 5) = hdr ++ payload := by
  rw [List.drop_left' hfive, writeMessage, ← hlen]
  obtain ⟨type, rest, rfl⟩ := List.exists_cons_of_length_eq_add_one hfive
  obtain ⟨a, b, c, d, rfl⟩ := List.length_eq_four.mp (Nat.succ.inj hfive)
  exact congrArg (fun w => type :: w ++ payload) (putUint32_bigEndian a b c d)

section

variable {ε : Type}

abbrev Stream (ε : Type) := Reader Byte ε

def Framed.header (msg : Framed) : Header :=
  ⟨msg.type :: putUint32 (4 + msg.payload.length), rfl, msg.payload.length⟩

theorem readFull_wire (type : Byte) (payload rest : Bytes) (stop : ReadErr ε) :
    (readFull 5 : StateM (Stream ε) _) ⟨writeMessage type payload ++ rest, stop⟩ =
      (⟨type :: putUint32 (4 + payload.length), none, Nat.le_refl 5, fun _ => rfl⟩,
        ⟨payload ++ rest, stop⟩) := by
  have happend := readFull_append (type :: putUint32 (4 + payload.length)) (payload ++ rest) stop
  rwa [← List.append_assoc] at happend

theorem readHeader_wire (msg : Framed) (rest : Bytes) (stop : ReadErr ε) :
    (readHeader readFull : StateM (Stream ε) _) ⟨msg.wire ++ rest, stop⟩ = (.ok msg.header,
      ⟨msg.payload ++ rest, stop⟩) := by
  have hfits : msg.payload.length ≤ 16 * 1024 * 1024 := msg.fits
  have hlen : messageLength msg.header.data = 4 + msg.payload.length :=
    bigEndian_putUint32 (by omega)
  have hfull : (readFull 5 : StateM (Stream ε) _) ⟨msg.wire ++ rest, stop⟩ =
      (⟨msg.header.data, none, Nat.le_refl 5, fun _ => rfl⟩, ⟨msg.payload ++ rest, stop⟩) :=
    readFull_wire msg.type msg.payload rest stop
  have hcheck : checkHeader (⟨msg.header.data, none, Nat.le_refl 5,
      fun _ => rfl⟩ : Filled Byte ε 5) = .ok msg.header := by
    have hshort : ¬ 4 + msg.payload.length < 4 := by omega
    have hlong : ¬ maxMessageSize < msg.payload.length := by simpa using msg.fits
    rw [checkHeader_of_err_none rfl]
    simp [hlen, hshort, hlong]
    rfl
  simp only [readHeader, bind, StateT.bind, hfull, hcheck]
  rfl

theorem readPayload_append (payload rest : Bytes) (stop : ReadErr ε) :
    (readPayload readFull payload.length : StateM (Stream ε) _) ⟨payload ++ rest, stop⟩ =
      (⟨payload, none, Nat.le_refl _, fun _ => rfl⟩, ⟨rest, stop⟩) := by
  cases payload with
  | nil => rfl
  | cons c payload => exact readFull_append (c :: payload) rest stop

theorem readMessage_wire (msg : Framed) (rest : Bytes) (stop : ReadErr ε) :
    (readMessage readFull : StateM (Stream ε) _) ⟨msg.wire ++ rest, stop⟩ =
      (.ok ⟨msg.toMessage, some msg.wire⟩, ⟨rest, stop⟩) := by
  have hpayload : (readPayload readFull msg.header.payloadLen : StateM (Stream ε) _)
      ⟨msg.payload ++ rest, stop⟩ =
      (⟨msg.payload, none, Nat.le_refl _, fun _ => rfl⟩, ⟨rest, stop⟩) :=
      readPayload_append msg.payload rest stop
  simp only [readMessage, bind, StateT.bind, readHeader_wire, hpayload]
  rfl

theorem readMessages_wire (msgs : List Framed) (rest : Bytes) (stop : ReadErr ε) :
    (readMessages readFull msgs.length : StateM (Stream ε) _)
      ⟨msgs.flatMap Framed.wire ++ rest, stop⟩ =
      (msgs.map fun msg => .ok ⟨msg.toMessage, some msg.wire⟩, ⟨rest, stop⟩) := by
  induction msgs with
  | nil => rfl
  | cons msg msgs ih =>
    rw [List.flatMap_cons, List.append_assoc]
    simp only [List.length_cons, readMessages, bind, StateT.bind, readMessage_wire, ih]
    rfl

end

/-! ## A reused buffer -/

section

variable {m : Type → Type} [Monad m] [LawfulMonad m] {ε : Type}

theorem fst_readMessageReuse (source : Source m Byte ε) (buf : Slice Byte) :
    Prod.fst <$> readMessageReuse source buf = readMessage source := by
  simp only [readMessageReuse, readMessage, map_bind]
  refine bind_congr fun hdr => ?_
  cases hdr with
  | error err => simp
  | ok hdr =>
    simp only [map_bind]
    refine bind_congr fun payload => ?_
    cases herr : payload.err with
    | some err => simp
    | none =>
      have hlen : (buf.grow (5 + hdr.payloadLen)).len = hdr.data.length + payload.data.length := by
        rw [Slice.len_grow, hdr.length_eq, payload.full herr]
      have hbytes := Slice.toList_copyAt_copyAt _ hdr.data payload.data hlen
      rw [hdr.length_eq] at hbytes
      simp [hbytes]

theorem readMessagesReuse_eq (source : Source m Byte ε) (n : Nat) (buf : Slice Byte) :
    readMessagesReuse source n buf = readMessages source n := by
  induction n generalizing buf with
  | zero => rfl
  | succ n ih =>
    simp only [readMessagesReuse, readMessages, ih, ← fst_readMessageReuse source buf,
      bind_map_left]

end

/-- What was written is read back and forwards to its bytes, and the two ways to read agree. -/
theorem framing_round_trip {ε : Type} :
    (∀ (msgs : List Framed) (rest : Bytes) (stop : ReadErr ε),
      (readMessages readFull msgs.length).run ⟨msgs.flatMap Framed.wire ++ rest, stop⟩ =
          (msgs.map fun msg => .ok ⟨msg.toMessage, some msg.wire⟩, ⟨rest, stop⟩) ∧
        (((readMessages readFull msgs.length).run ⟨msgs.flatMap Framed.wire ++ rest,
          stop⟩).1.flatMap fun result =>
          result.toOption.elim [] forwardRaw) = msgs.flatMap Framed.wire) ∧
    ∀ (n : Nat) (buf : Slice Byte) (r : Stream ε),
      (readMessagesReuse readFull n buf).run r = (readMessages readFull n).run r := by
  refine ⟨fun msgs rest stop => ?_, fun n buf r => ?_⟩
  · have hread : (readMessages readFull msgs.length).run ⟨msgs.flatMap Framed.wire ++ rest, stop⟩ =
        (msgs.map fun msg => .ok ⟨msg.toMessage, some msg.wire⟩, ⟨rest, stop⟩) :=
        readMessages_wire msgs rest stop
    refine ⟨hread, ?_⟩
    rw [hread, List.flatMap_map]
    rfl
  · rw [readMessagesReuse_eq]

end PgMux.Framing
