import PgMux.Framing
import PgMux.Wire

/-!
# The two relay loops

`relayUntilReady` frames messages itself and takes them of any size; `relayAndCollect` reads them
with `ReadMessage`, which refuses large ones. The world gives the bytes of both streams and may
refuse a write at any time.
-/

namespace PgMux.Relays

open Effects Framing Streams
open Wire (msgReadyForQuery msgCopyInResponse msgCopyOutResponse msgCopyBothResponse msgCopyData
  msgCopyDone msgCopyFail)

inductive Side where
  | client
  | backend
  deriving DecidableEq, Repr

inductive IoOp where
  | read (side : Side) (n : Nat)
  | write (side : Side) (data : Bytes)
  | schedule

section

variable {ε : Type}

abbrev IoAns (ε : Type) : IoOp → Type
  | .read _ n => Filled Byte ε n
  | .write _ _ => Bool
  | .schedule => Bool

abbrev Io (ε : Type) := Prog (IoAns ε)

def source (side : Side) : Source (Io ε) Byte ε := fun n => perform (IoOp.read side n)

abbrev write (side : Side) (data : Bytes) : Io ε Bool := perform (IoOp.write side data)

inductive Outcome (α : Type) where
  | running
  | failed
  | done (a : α)
  deriving DecidableEq, Repr

def passOn {α : Type} (src dst : Side) (go : RawMessage → Io ε (Outcome α)) : Io ε (Outcome α) := do
  match ← readMessage (source src) with
  | .error _ => return .failed
  | .ok msg => if ← write dst (forwardRaw msg) then go msg else return .failed

def relayCopyIn : Nat → Io ε (Outcome Unit)
  | 0 => return .running
  | n + 1 => passOn .client .backend fun msg =>
    if msg.type = msgCopyData then relayCopyIn n else return .done ()

def relayCopyOut : Nat → Io ε (Outcome Unit)
  | 0 => return .running
  | n + 1 => passOn .backend .client fun msg =>
    if msg.type = msgCopyData then relayCopyOut n else return .done ()

def relayCopyBoth : Nat → Io ε (Outcome Unit)
  | 0 => return .running
  | n + 1 => do
    if ← perform IoOp.schedule then
      passOn .backend .client fun msg => if msg.type = msgCopyDone then return .done ()
      else relayCopyBoth n
    else
      passOn .client .backend fun msg =>
        if msg.type = msgCopyDone ∨ msg.type = msgCopyFail then return .done () else relayCopyBoth n

def isCopyResponse (type : Byte) : Bool :=
  type == msgCopyInResponse || type == msgCopyOutResponse || type == msgCopyBothResponse

def relayCopy (type : Byte) (n : Nat) : Io ε (Outcome Unit) :=
  if type = msgCopyInResponse then relayCopyIn n
  else if type = msgCopyOutResponse then relayCopyOut n
  else if type = msgCopyBothResponse then relayCopyBoth n
  else return .done ()

def readWire : Io ε (Option Bytes) := do
  let hdr ← source .backend 5
  match hdr.err with
  | some _ => return none
  | none =>
    let length := messageLength hdr.data
    if length < 4 then return none
    else
      let payload ← readPayload (source .backend) (length - 4)
      match payload.err with
      | some _ => return none
      | none => return some (hdr.data ++ payload.data)

def relayUntilReady : Nat → Io ε (Outcome Unit)
  | 0 => return .running
  | n + 1 => do
    match ← readWire with
    | none => return .failed
    | some wire =>
      if ← write .client wire then
        if wire.headD 0 = msgReadyForQuery then return .done ()
        else
          match ← relayCopy (wire.headD 0) n with
          | .done () => relayUntilReady n
          | r => return r
      else return .failed

def collect (maxSize : Int) (buf : Option Bytes) (wireBytes : Bytes) : Option Bytes :=
  (buf.map (· ++ wireBytes)).filter fun b => !(0 < maxSize && maxSize < b.length)

def relayAndCollect (maxSize : Int) : Nat → Option Bytes → Io ε (Outcome (Option Bytes))
  | 0, _ => return .running
  | n + 1, buf => passOn .backend .client fun msg => do
    let buf := collect maxSize buf (forwardRaw msg)
    if msg.type = msgReadyForQuery then return .done buf
    else
      match ← relayCopy msg.type n with
      | .done () => relayAndCollect maxSize n (if isCopyResponse msg.type then none else buf)
      | .running => return .running
      | .failed => return .failed

/-! ## What the relays write -/

def written : (o : IoOp) → IoAns ε o → List (Side × Bytes)
  | .write side data, true => [(side, data)]
  | _, _ => []

def bytesTo (side : Side) (writes : List (Side × Bytes)) : Bytes :=
  (writes.filter (·.1 = side)).flatMap Prod.snd

def Outcome.void {α : Type} : Outcome α → Outcome Unit
  | .running => .running
  | .failed => .failed
  | .done _ => .done ()

def Agree {α β σ : Type} (x : Outcome α × List (Side × Bytes) × σ)
    (y : Outcome β × List (Side × Bytes) × σ) : Prop :=
  x.1.void = y.1.void ∧ bytesTo .client x.2.1 = bytesTo .client y.2.1 ∧
    bytesTo .backend x.2.1 = bytesTo .backend y.2.1

end

variable {n : Nat}

section

variable {ε σ : Type} (w : World (IoAns ε) σ)

def payloadAt : (n : Nat) → σ → Filled Byte ε n × σ
  | 0, s => (.empty Byte ε, s)
  | n + 1, s => w (.read .backend (n + 1)) s

def nextMessage (s : σ) : Option (Bytes × σ) :=
  match w (.read .backend 5) s with
  | (hdr, s₁) =>
    let length := messageLength hdr.data
    let (payload, s₂) := payloadAt w (length - 4) s₁
    if hdr.err.isNone ∧ 4 ≤ length ∧ payload.err.isNone then some (hdr.data ++ payload.data, s₂)
      else none

/-- No message over the limit gets through to the client, COPY data apart. -/
def Fits : Nat → σ → Prop
  | 0, _ => True
  | n + 1, s =>
    match nextMessage w s with
    | none => True
    | some (wire, s₁) =>
      match w (.write .client wire) s₁ with
      | (false, _) => True
      | (true, s₂) =>
        wire.length ≤ 5 + maxMessageSize ∧ (wire.headD 0 ≠ msgReadyForQuery →
          match exec w written (relayCopy (wire.headD 0) n) s₂ with
          | (.done (), _, s₃) => Fits n s₃
          | _ => True)

variable {w}

theorem exec_source (side : Side) (n : Nat) (s : σ) :
    exec w written (source side n) s = ((w (.read side n) s).1, [], (w (.read side n) s).2) := by
  simp [source, written]

theorem exec_readPayload (n : Nat) (s : σ) :
    exec w written (readPayload (source .backend) n) s = ((payloadAt w n s).1, [],
      (payloadAt w n s).2) := by
  cases n with
  | zero => rfl
  | succ n => exact exec_source .backend (n + 1) s

inductive Framings (w : World (IoAns ε) σ) (s : σ) : Prop where
  | fail (s₁ s₂ : σ) (err : ReadError ε) (hnext : nextMessage w s = none)
      (hwire : exec w written readWire s = (none, [], s₁))
      (hmsg : exec w written (readMessage (source .backend)) s = (.error err, [], s₂))
  | small (wire : Bytes) (s₁ : σ) (hnext : nextMessage w s = some (wire, s₁))
      (hsize : wire.length ≤ 5 + maxMessageSize)
      (hwire : exec w written readWire s = (some wire, [], s₁))
      (hmsg : exec w written (readMessage (source .backend)) s = (.ok (.ofRaw wire), [], s₁))
  | large (wire : Bytes) (s₁ s₂ : σ) (err : ReadError ε) (hnext : nextMessage w s = some (wire, s₁))
      (hsize : 5 + maxMessageSize < wire.length)
        (hwire : exec w written readWire s = (some wire, [], s₁))
      (hmsg : exec w written (readMessage (source .backend)) s = (.error err, [], s₂))

theorem framings (w : World (IoAns ε) σ) (s : σ) : Framings w s := by
  obtain ⟨⟨hdr, s₁⟩, hr⟩ : ∃ r, w (.read .backend 5) s = r := ⟨_, rfl⟩
  have hnext : nextMessage w s = let r := payloadAt w (messageLength hdr.data - 4) s₁
      if hdr.err.isNone ∧ 4 ≤ messageLength hdr.data ∧
      r.1.err.isNone then some (hdr.data ++ r.1.data, r.2)
      else none := by
    rw [nextMessage, hr]
  have hsource : exec w written (source .backend 5) s = (hdr, [], s₁) := by rw [exec_source, hr]
  have hheader : exec w written (readHeader (source .backend)) s = (checkHeader hdr, [], s₁) := by
    simp [readHeader, exec_bind, hsource]
  cases herr : hdr.err with
  | some err =>
    refine .fail s₁ s₁ (.header err) (by simp [hnext, herr]) ?_ ?_
    · simp [readWire, exec_bind, hsource, herr]
    · simp [readMessage, exec_bind, hheader, checkHeader_of_err herr]
  | none =>
    rw [checkHeader_of_err_none herr] at hheader
    have hwire : exec w written readWire s = if messageLength hdr.data < 4 then (none, [], s₁) else
        let r := payloadAt w (messageLength hdr.data - 4) s₁
        (if r.1.err.isNone then some (hdr.data ++ r.1.data) else none, [], r.2) := by
      rw [readWire, exec_bind, hsource]
      simp only [herr, List.nil_append]
      split
      · rfl
      · simp only [exec_bind, exec_readPayload]
        cases (payloadAt w (messageLength hdr.data - 4) s₁).1.err <;> rfl
    have hfive := hdr.full herr
    by_cases hshort : messageLength hdr.data < 4
    · refine .fail s₁ s₁ (.invalidLength (messageLength hdr.data)) (by simp [hnext, hshort])
        (by simp [hwire, hshort]) ?_
      simp [readMessage, exec_bind, hheader, hshort]
    have hpayload := exec_readPayload (w := w) (messageLength hdr.data - 4) s₁
    obtain ⟨⟨payload, s₂⟩, hp⟩ : ∃ r, payloadAt w (messageLength hdr.data - 4) s₁ = r := ⟨_, rfl⟩
    rw [hp] at hpayload
    simp only [hp, herr, hshort, Option.isNone_none, Nat.le_of_not_lt hshort, true_and,
      ↓reduceIte] at hnext hwire hheader
    by_cases hlarge : maxMessageSize < messageLength hdr.data - 4
    · have hmsg : exec w written (readMessage (source .backend)) s =
          (.error (.tooLarge (messageLength hdr.data - 4)), [], s₁) := by
        simp [readMessage, exec_bind, hheader, hlarge]
      cases hperr : payload.err with
      | some err => exact .fail s₂ s₁ _ (by simp [hnext, hperr]) (by simp [hwire, hperr]) hmsg
      | none =>
        refine .large (hdr.data ++ payload.data) s₂ s₁ _ (by simp [hnext, hperr]) ?_
          (by simp [hwire, hperr]) hmsg
        rw [List.length_append, hfive, payload.full hperr]
        omega
    · cases hperr : payload.err with
      | some err =>
        refine .fail s₂ s₂ (.payload err) (by simp [hnext, hperr]) (by simp [hwire, hperr]) ?_
        simp [readMessage, exec_bind, hheader, hlarge, hpayload, hperr]
      | none =>
        refine .small (hdr.data ++ payload.data) s₂ (by simp [hnext, hperr]) ?_
          (by simp [hwire, hperr]) ?_
        · rw [List.length_append, hfive, payload.full hperr]
          omega
        · simp [readMessage, exec_bind, hheader, hlarge, hpayload, hperr]

variable {s : σ} {b : Bytes} {buf : Option Bytes} {maxSize : Int}

theorem exec_write_true {α : Type} {side : Side} {data : Bytes} {p q : Io ε α} {t : σ}
    (h : w (.write side data) s = (true, t)) :
    exec w written (do if ← write side data then p else q) s =
      ((exec w written p t).1, (side, data) :: (exec w written p t).2.1,
        (exec w written p t).2.2) := by
  simp [exec_bind, h, written]

theorem exec_write_false {α : Type} {side : Side} {data : Bytes} {p q : Io ε α} {t : σ}
    (h : w (.write side data) s = (false, t)) :
    exec w written (do if ← write side data then p else q) s = exec w written q t := by
  simp [exec_bind, h, written]

@[simp] theorem bytesTo_nil (side : Side) : bytesTo side [] = [] := rfl

@[simp] theorem bytesTo_append (side : Side) (xs ys : List (Side × Bytes)) :
    bytesTo side (xs ++ ys) = bytesTo side xs ++ bytesTo side ys := by
  simp [bytesTo]

@[simp] theorem bytesTo_cons (side : Side) (x : Side × Bytes) (xs : List (Side × Bytes)) :
    bytesTo side (x :: xs) = (if x.1 = side then x.2 else []) ++ bytesTo side xs := by
  by_cases h : x.1 = side
  · simp [bytesTo, h]
  · simp [bytesTo, h]

theorem agree_iff (maxSize : Int) (n : Nat) (buf : Option Bytes) (s : σ) :
    Agree (exec w written (relayUntilReady n) s)
      (exec w written (relayAndCollect maxSize n buf) s) ↔ Fits w n s := by
  induction n generalizing buf s with
  | zero => simp [relayUntilReady, relayAndCollect, Agree, Fits, Outcome.void]
  | succ n ih =>
    rw [relayUntilReady, relayAndCollect, passOn, exec_bind, exec_bind, Fits]
    cases framings w s with
    | fail s₁ s₂ err hnext hwire hmsg =>
      rw [hwire, hmsg, hnext]
      simp [Agree, Outcome.void]
    | large wire s₁ s₂ err hnext hsize hwire hmsg =>
      rw [hwire, hmsg, hnext]
      obtain ⟨⟨ok, s₃⟩, hw⟩ : ∃ r, w (.write .client wire) s₁ = r := ⟨_, rfl⟩
      cases ok with
      | false =>
        dsimp only
        rw [exec_write_false hw, hw]
        simp [Agree, Outcome.void]
      | true =>
        dsimp only
        rw [exec_write_true hw, hw]
        have hne : wire ≠ [] := by
          rintro rfl
          simp at hsize
        simp [Agree, hne, hsize]
    | small wire s₁ hnext hsize hwire hmsg =>
      rw [hwire, hmsg, hnext]
      have hforward : forwardRaw (.ofRaw wire) = wire := rfl
      have htype : (RawMessage.ofRaw wire).type = wire.headD 0 := rfl
      obtain ⟨⟨ok, s₂⟩, hw⟩ : ∃ r, w (.write .client wire) s₁ = r := ⟨_, rfl⟩
      dsimp only
      rw [hforward, htype]
      generalize wire.headD 0 = type
      cases ok with
      | false =>
        rw [exec_write_false hw, exec_write_false hw, hw]
        simp [Agree, Outcome.void]
      | true =>
        rw [exec_write_true hw, exec_write_true hw, hw]
        by_cases hready : type = msgReadyForQuery
        · simp [hready, Agree, Outcome.void, hsize]
        · simp only [hready, ↓reduceIte, exec_bind]
          obtain ⟨⟨r, ws, s₃⟩, hcopy⟩ : ∃ x, exec w written (relayCopy type n) s₂ = x := ⟨_, rfl⟩
          rw [hcopy]
          cases r with
          | running | failed => simp [Agree, Outcome.void, hsize]
          | done u =>
            have hrest := ih (if isCopyResponse type then none else collect maxSize buf wire) s₃
            simpa [Agree, hsize, hready] using hrest

theorem collect_eq_some {wire : Bytes} (h : collect maxSize buf wire = some b) :
    ∃ b₀, buf = some b₀ ∧ b = b₀ ++ wire ∧ (0 < maxSize → b.length ≤ maxSize) := by
  obtain ⟨hmap, hsize⟩ := Option.filter_eq_some_iff.mp h
  obtain ⟨b₀, hbuf, rfl⟩ := Option.map_eq_some_iff.mp hmap
  refine ⟨b₀, hbuf, rfl, fun hpos => ?_⟩
  simpa [hpos] using hsize

theorem relayCopy_of_not_isCopyResponse {type : Byte} (h : isCopyResponse type = false) (n : Nat) :
    (relayCopy type n : Io ε _) = return .done () := by
  simp only [isCopyResponse, Bool.or_eq_false_iff, beq_eq_false_iff_ne] at h
  rw [relayCopy, if_neg h.1.1, if_neg h.1.2, if_neg h.2]

theorem collect_cases {r : Option Bytes}
    (h : (exec w written (relayAndCollect maxSize n buf) s).1 = .done r) :
    ∃ k wire s₁ s₂, n = k + 1 ∧ nextMessage w s = some (wire, s₁) ∧
    wire.length ≤ 5 + maxMessageSize ∧ w (.write .client wire) s₁ = (true, s₂) ∧
      ((wire.headD 0 = msgReadyForQuery ∧ r = collect maxSize buf wire ∧
          (exec w written (relayAndCollect maxSize n buf) s).2.1 = [(.client, wire)]) ∨
        (wire.headD 0 ≠ msgReadyForQuery ∧ ∃ ws s₃,
          exec w written (relayCopy (wire.headD 0) k) s₂ = (.done (), ws, s₃) ∧
          ∃ next, next = (if isCopyResponse (wire.headD 0) then none
            else collect maxSize buf wire) ∧
            (exec w written (relayAndCollect maxSize k next) s₃).1 = .done r ∧
            (exec w written (relayAndCollect maxSize n buf) s).2.1 =
              (.client,
                wire) :: ws ++ (exec w written (relayAndCollect maxSize k next) s₃).2.1)) := by
  cases n with
  | zero => simp [relayAndCollect] at h
  | succ n =>
    rw [relayAndCollect, passOn, exec_bind] at h ⊢
    cases framings w s with
    | fail s₁ s₂ err hnext hwire hmsg
    | large wire s₁ s₂ err hnext hsize hwire hmsg => simp [hmsg] at h
    | small wire s₁ hnext hsize hwire hmsg =>
      have hforward : forwardRaw (.ofRaw wire) = wire := rfl
      have htype : (RawMessage.ofRaw wire).type = wire.headD 0 := rfl
      obtain ⟨⟨ok, s₂⟩, hw⟩ : ∃ x, w (.write .client wire) s₁ = x := ⟨_, rfl⟩
      rw [hmsg] at h ⊢
      dsimp only at h ⊢
      rw [hforward, htype] at h ⊢
      cases ok with
      | false => simp [exec_write_false hw] at h
      | true =>
        refine ⟨n, wire, s₁, s₂, rfl, hnext, hsize, hw, ?_⟩
        rw [exec_write_true hw] at h ⊢
        by_cases hready : wire.headD 0 = msgReadyForQuery
        · rw [if_pos hready] at h ⊢
          exact .inl ⟨hready, (Outcome.done.inj h).symm, by simp⟩
        · rw [if_neg hready] at h ⊢
          obtain ⟨⟨c, ws, s₃⟩, hc⟩ : ∃ x, exec w written (relayCopy (wire.headD 0) n) s₂ = x :=
          ⟨_, rfl⟩
          rw [exec_bind, hc] at h
          cases c with
          | running | failed => simp at h
          | done u => exact .inr ⟨hready, ws, s₃, hc, _, rfl, h, by rw [exec_bind, hc]; simp⟩

theorem not_collected : (exec w written (relayAndCollect maxSize n none) s).1 ≠ .done (some b) := by
  induction n generalizing s with
  | zero => simp [relayAndCollect]
  | succ n ih =>
    intro h
    obtain ⟨k, wire, s₁, s₂, hk, -, -, -, ⟨-, hb, -⟩ | ⟨-, ws, s₃, -, next, hnext, hrest, -⟩⟩ :=
      collect_cases h
    · exact nomatch hb
    · obtain rfl := Nat.succ.inj hk
      rw [show next = none by rw [hnext]; exact ite_self _] at hrest
      exact ih hrest

theorem collected_cases
    (h : (exec w written (relayAndCollect maxSize n buf) s).1 = .done (some b)) :
    ∃ k wire s₁ s₂ b₀, n = k + 1 ∧ nextMessage w s = some (wire, s₁) ∧
    wire.length ≤ 5 + maxMessageSize ∧
      w (.write .client wire) s₁ = (true, s₂) ∧ buf = some b₀ ∧
      isCopyResponse (wire.headD 0) = false ∧
      ((wire.headD 0 = msgReadyForQuery ∧ b = b₀ ++ wire ∧ (0 < maxSize → b.length ≤ maxSize) ∧
          (exec w written (relayAndCollect maxSize n buf) s).2.1 = [(.client, wire)]) ∨
            (wire.headD 0 ≠ msgReadyForQuery ∧
          (exec w written (relayAndCollect maxSize k (some (b₀ ++ wire))) s₂).1 = .done (some b) ∧
          (exec w written (relayAndCollect maxSize n buf) s).2.1 =
            (.client, wire) :: (exec w written (relayAndCollect maxSize k (some (b₀ ++ wire)))
              s₂).2.1)) := by
  obtain ⟨k, wire, s₁, s₂, hk, hnext, hsize, hw,
      ⟨hready, hb, hws⟩ | ⟨hready, ws, s₃, hc, next, hbuf, hrest, hws⟩⟩ :=
    collect_cases h
  · obtain ⟨b₀, rfl, rfl, hlen⟩ := collect_eq_some hb.symm
    exact ⟨k, wire, s₁, s₂, b₀, hk, hnext, hsize, hw,
      rfl, by rw [hready]; rfl, .inl ⟨hready, rfl, hlen, hws⟩⟩
  · cases hcopy : isCopyResponse (wire.headD 0) with
    | true =>
      rw [hcopy, if_pos rfl] at hbuf
      exact absurd (hbuf ▸ hrest) not_collected
    | false =>
      rw [hcopy, if_neg (by decide)] at hbuf
      cases hnext' : next with
      | none => exact absurd (hnext' ▸ hrest) not_collected
      | some b₁ =>
        obtain ⟨b₀, rfl, rfl, -⟩ := collect_eq_some (hbuf.symm.trans hnext')
        rw [relayCopy_of_not_isCopyResponse hcopy] at hc
        obtain ⟨rfl, rfl⟩ : ws = [] ∧ s₂ = s₃ := by simpa [eq_comm] using hc
        rw [hnext'] at hrest hws
        exact ⟨k, wire, s₁, s₂, b₀, hk, hnext, hsize, hw, rfl, hcopy, .inr ⟨hready, hrest, hws⟩⟩

theorem collected (h : (exec w written (relayAndCollect maxSize n buf) s).1 = .done (some b)) :
    ∃ b₀, buf = some b₀ ∧
    b = b₀ ++ bytesTo .client (exec w written (relayAndCollect maxSize n buf) s).2.1 ∧
      (0 < maxSize → b.length ≤ maxSize) ∧
      ∀ m ∈ (exec w written (relayAndCollect maxSize n buf) s).2.1,
      isCopyResponse (m.2.headD 0) = false := by
  induction n generalizing buf s with
  | zero => simp [relayAndCollect] at h
  | succ n ih =>
    obtain ⟨k, wire, s₁, s₂, b₀, hk, -, -, -, rfl, hcopy, ⟨-, rfl, hlen, hws⟩ | ⟨-, hrest, hws⟩⟩ :=
      collected_cases h
    · refine ⟨b₀, rfl, ?_, hlen, ?_⟩
      · simp [hws]
      · rw [hws]
        simpa using hcopy
    · obtain rfl := Nat.succ.inj hk
      obtain ⟨b₁, hb₁, hb, hlen, hall⟩ := ih hrest
      obtain rfl := Option.some.inj hb₁
      refine ⟨b₀, rfl, ?_, hlen, ?_⟩
      · rw [hws]
        simpa using hb
      · rw [hws]
        exact List.forall_mem_cons.mpr ⟨hcopy, hall⟩

def Kept (maxSize : Int) (x : Outcome (Option Bytes) × List (Side × Bytes) × σ) : Prop :=
  ∀ b, x.1 = .done (some b) →
    b = bytesTo .client x.2.1 ∧ (0 < maxSize → b.length ≤ maxSize) ∧ ∀ m ∈ x.2.1,
    isCopyResponse (m.2.headD 0) = false

/-- Collecting a reply makes no difference to the two sides just when no message over the limit gets
through. -/
theorem collecting_unseen_iff (w : World (IoAns ε) σ) (maxSize : Int) (n : Nat) (s : σ) :
    (Agree (exec w written (relayUntilReady n) s)
      (exec w written (relayAndCollect maxSize n (some [])) s) ∧
      Kept maxSize (exec w written (relayAndCollect maxSize n (some [])) s)) ↔ Fits w n s := by
  have hkept : Kept maxSize (exec w written (relayAndCollect maxSize n (some [])) s) := by
    intro b hb
    obtain ⟨b₀, hbuf, hbytes, hlen, hcopy⟩ := collected hb
    obtain rfl := Option.some.inj hbuf
    exact ⟨hbytes, hlen, hcopy⟩
  rw [agree_iff]
  exact and_iff_left hkept

end

/-! ## A message over the limit -/

structure Serves {ε σ : Type} (w : World (IoAns ε) σ) (backend : σ → Stream ε) : Prop where
  read : ∀ n s, ∃ t, w (.read .backend n) s = ((readFull n (backend s)).1, t) ∧
    backend t = (readFull n (backend s)).2
  keeps : ∀ o s, (∀ n, o ≠ .read .backend n) → backend (w o s).2 = backend s

section

variable {ε σ : Type} {w : World (IoAns ε) σ} {backend : σ → Stream ε} {s : σ}
  {payload rest : Bytes} {stop : ReadErr ε}

theorem Serves.read_eq {f : Filled Byte ε n} {r : Stream ε} (hw : Serves w backend)
    (h : (readFull n : StateM (Stream ε) _) (backend s) = (f, r)) :
    ∃ t, w (.read .backend n) s = (f, t) ∧ backend t = r := by
  obtain ⟨t, ht, hbackend⟩ := hw.read n s
  rw [h] at ht hbackend
  exact ⟨t, ht, hbackend⟩

theorem Serves.payloadAt (hw : Serves w backend) (h : backend s = ⟨payload ++ rest, stop⟩)
    (hn : n = payload.length) :
    ∃ f t, payloadAt w n s = (f, t) ∧ f.data = payload ∧ f.err = none ∧
    backend t = ⟨rest, stop⟩ := by
  subst hn
  cases payload with
  | nil => exact ⟨.empty Byte ε, s, rfl, rfl, rfl, h⟩
  | cons c payload =>
    have hread := readFull_append (c :: payload) rest stop
    rw [← h] at hread
    obtain ⟨t, ht, hbackend⟩ := hw.read_eq hread
    exact ⟨_, t, ht, rfl, rfl, hbackend⟩

theorem Serves.nextMessage {type : Byte} (hw : Serves w backend)
    (h : backend s = ⟨writeMessage type payload ++ rest, stop⟩)
    (hlen : 4 + payload.length < 2 ^ 32) :
    ∃ t, nextMessage w s = some (writeMessage type payload, t) ∧ backend t = ⟨rest, stop⟩ := by
  have hread := readFull_wire type payload rest stop
  rw [← h] at hread
  obtain ⟨s₁, hs₁, hbackend⟩ := hw.read_eq hread
  have hlength : messageLength (type :: putUint32 (4 + payload.length)) = 4 + payload.length :=
    bigEndian_putUint32 hlen
  obtain ⟨f, t, hpayload, hdata, herr, ht⟩ :=
    hw.payloadAt (n := messageLength (type :: putUint32 (4 + payload.length)) - 4) hbackend
      (by omega)
  refine ⟨t, ?_, ht⟩
  rw [Relays.nextMessage, hs₁]
  simp only [hpayload, hdata, herr]
  simp [hlength, writeMessage]

end

def inMemory {ε : Type} : World (IoAns ε) (Side → Stream ε)
  | .read side n, s => ((readFull n (s side)).1, Function.update s side (readFull n (s side)).2)
  | .write _ _, s => (true, s)
  | .schedule, s => (true, s)

theorem serves_inMemory {ε : Type} : Serves (inMemory : World (IoAns ε) _) (· .backend) where
  read n s := ⟨_, rfl, Function.update_self ..⟩
  keeps o s ho := by
    cases o with
    | read side n =>
      cases side with
      | backend => exact absurd rfl (ho n)
      | client => simp [inMemory]
    | write | schedule => rfl

section

variable {ε : Type} {s : Side → Stream ε} {payload rest : Bytes} {stop : ReadErr ε}

theorem relay_large {type : Byte} (h : s .backend = ⟨writeMessage type payload ++ rest, stop⟩)
    (hlen : 4 + payload.length < 2 ^ 32) (hlarge : maxMessageSize < payload.length)
    (hready : type ≠ msgReadyForQuery) (hcopy : isCopyResponse type = false) (maxSize : Int)
    (n : Nat) (buf : Option Bytes) :
    (∃ t : Side → Stream ε, t .backend = ⟨rest, stop⟩ ∧
      (exec inMemory written (relayUntilReady (n + 1)) s).1 =
        (exec inMemory written (relayUntilReady n) t).1) ∧
      (exec inMemory written (relayAndCollect maxSize (n + 1) buf) s).1 = .failed := by
  obtain ⟨t, hnext, ht⟩ := serves_inMemory.nextMessage h hlen
  have hwirelen : (writeMessage type payload).length = 5 + payload.length := by
    rw [writeMessage, List.length_append]
    rfl
  cases framings inMemory s with
  | fail s₁ s₂ err hnone hwire hmsg => simp [hnone] at hnext
  | small wire s₁ hsome hsize hwire hmsg =>
    obtain ⟨rfl, rfl⟩ := Prod.mk.inj (Option.some.inj (hsome.symm.trans hnext))
    omega
  | large wire s₁ s₂ err hsome hsize hwire hmsg =>
    obtain ⟨rfl, rfl⟩ := Prod.mk.inj (Option.some.inj (hsome.symm.trans hnext))
    have htype : (writeMessage type payload).headD 0 = type := rfl
    refine ⟨⟨s₁, ht, ?_⟩, ?_⟩
    · rw [relayUntilReady, exec_bind, hwire]
      dsimp only
      rw [exec_write_true rfl, htype, if_neg hready, relayCopy_of_not_isCopyResponse hcopy]
      rfl
    · rw [relayAndCollect, passOn, exec_bind, hmsg]
      rfl

theorem relay_ready (h : s .backend = ⟨writeMessage msgReadyForQuery payload ++ rest, stop⟩)
    (hlen : 4 + payload.length < 2 ^ 32) (n : Nat) :
    (exec inMemory written (relayUntilReady (n + 1)) s).1 = .done () := by
  obtain ⟨t, hnext, _⟩ := serves_inMemory.nextMessage h hlen
  have hready : (writeMessage msgReadyForQuery payload).headD 0 = msgReadyForQuery := rfl
  rw [relayUntilReady, exec_bind]
  cases framings inMemory s with
  | fail s₁ s₂ err hnone hwire hmsg => exact nomatch hnone.symm.trans hnext
  | small wire s₁ hsome hsize hwire hmsg | large wire s₁ s₂ err hsome hsize hwire hmsg =>
    obtain ⟨rfl, rfl⟩ := Prod.mk.inj (Option.some.inj (hsome.symm.trans hnext))
    rw [hwire]
    dsimp only
    rfl

end

def largeReply : Side → Stream Empty
  | .client => ⟨[], .eof⟩
  | .backend =>
      ⟨writeMessage 68 (List.replicate (maxMessageSize + 1) 0) ++ writeMessage msgReadyForQuery
      [73], .eof⟩

theorem large_reply_lost :
    (exec inMemory written (relayUntilReady 2) largeReply).1 = .done () ∧
      (exec inMemory written (relayAndCollect 0 2 (some [])) largeReply).1 = .failed ∧
      ¬ Agree (exec inMemory written (relayUntilReady 2) largeReply)
          (exec inMemory written (relayAndCollect 0 2 (some [])) largeReply) := by
  have hlarge := relay_large (s := largeReply) rfl (by rw [List.length_replicate]; decide)
    (by rw [List.length_replicate]; exact Nat.lt_succ_self _) (by decide) (by decide) 0 1 (some [])
  obtain ⟨t, ht, hrest⟩ := hlarge.1
  have hready : t .backend = ⟨writeMessage msgReadyForQuery [73] ++ [], .eof⟩ := ht
  have hdone : (exec inMemory written (relayUntilReady 2) largeReply).1 = .done () :=
    hrest.trans (relay_ready hready (by decide) 0)
  refine ⟨hdone, hlarge.2, fun hagree => ?_⟩
  have hvoid := hagree.1
  rw [hdone, hlarge.2] at hvoid
  exact nomatch hvoid

end PgMux.Relays
