import PgMux.Effects
import PgMux.Pools
import PgMux.Protocol

/-!
# Replies on a connection

The functions that send a request and read its reply, message by message. A connection holds the
messages of the replies that are still to be read. Loops run for at most `n` messages and have no
result if that is not enough.
-/

namespace PgMux.Wire

open Effects Protocol Literal

abbrev msgReadyForQuery : Byte := 90
abbrev msgErrorResponse : Byte := 69
abbrev msgDataRow : Byte := 68
abbrev msgCopyInResponse : Byte := 71
abbrev msgCopyOutResponse : Byte := 72
abbrev msgCopyBothResponse : Byte := 87
abbrev msgCopyData : Byte := 100
abbrev msgCopyDone : Byte := 99
abbrev msgCopyFail : Byte := 102

inductive WireOp where
  | request (m : Message)
  | forward (m : Message)
  | read
  | toClient (m : Message)
  | fromClient
  | copyBoth

abbrev WireAns : WireOp → Type
  | .request _ | .forward _ | .toClient _ | .copyBoth => Bool
  | .read | .fromClient => Option Message

abbrev Talk := Prog WireAns

abbrev request (m : Message) : Talk Bool := perform (WireOp.request m)
abbrev forward (m : Message) : Talk Bool := perform (WireOp.forward m)
abbrev read : Talk (Option Message) := perform WireOp.read
abbrev toClient (m : Message) : Talk Bool := perform (WireOp.toClient m)
abbrev fromClient : Talk (Option Message) := perform WireOp.fromClient
abbrev copyBoth : Talk Bool := perform WireOp.copyBoth

/-! ## Relays -/

def relayCopyIn : Nat → Talk (Option Bool)
  | 0 => return none
  | n + 1 => do
    match ← fromClient with
    | none => return some false
    | some msg =>
      if ← forward msg then
        if msg.type = msgCopyData then relayCopyIn n else return some true
      else return some false

def pass {α : Type} (failure : α) (go : Message → Talk α) : Talk α := do
  match ← read with
  | none => return failure
  | some msg => if ← toClient msg then go msg else return failure

def relayCopyOut : Nat → Talk (Option Bool)
  | 0 => return none
  | n + 1 => pass (some false) fun msg =>
    if msg.type = msgCopyData then relayCopyOut n else return some true

def relayCopy (type : Byte) (n : Nat) : Talk (Option Bool) :=
  if type = msgCopyInResponse then relayCopyIn n
  else if type = msgCopyOutResponse then relayCopyOut n
  else if type = msgCopyBothResponse then do return some (← copyBoth)
  else return some true

def relayUntilReady : Nat → Talk (Option Bool)
  | 0 => return none
  | n + 1 => pass (some false) fun msg => do
    if msg.type = msgReadyForQuery then return some true
    else
      match ← relayCopy msg.type n with
      | some true => relayUntilReady n
      | r => return r

def collected (maxSize : Nat) (size : Option Nat) (msg : Message) : Option Nat :=
  (size.map (· + (5 + msg.payload.length))).filter fun k => maxSize = 0 ∨ k ≤ maxSize

def behindCopy (type : Byte) (size : Option Nat) : Option Nat :=
  if type = msgCopyInResponse ∨ type = msgCopyOutResponse ∨ type = msgCopyBothResponse then none
    else size

def relayAndCollect (maxSize : Nat) : Nat → Option Nat → Talk (Option (Option Bool))
  | 0, _ => return none
  | n + 1, size => pass (some none) fun msg => do
    let size := collected maxSize size msg
    if msg.type = msgReadyForQuery then return some (some size.isSome)
    else
      match ← relayCopy msg.type n with
      | none => return none
      | some false => return some none
      | some true => relayAndCollect maxSize n (behindCopy msg.type size)

/-! ## Requests of the proxy -/

def hexDigit (c : Byte) : Option Nat :=
  if isDigit c then some (c.toNat - 48)
  else if 97 ≤ c && c ≤ 102 then some (c.toNat - 87)
  else if 65 ≤ c && c ≤ 70 then some (c.toNat - 55)
  else none

def parseHex (s : Bytes) : Option Nat := do
  let digits ← s.mapM hexDigit
  let value := digits.foldl (fun k d => 16 * k + d) 0
  if s = [] ∨ 2 ^ 32 ≤ value then none else some value

def parseLSN (s : Bytes) : Option Nat := do
  let k ← indexByte slash s
  let hi ← parseHex (s.take k)
  let lo ← parseHex (s.drop (k + 1))
  return hi * 2 ^ 32 + lo

def firstColumn (msg : Message) : Option Bytes :=
  if msg.type = msgDataRow ∧ 6 ≤ msg.payload.length then
    let colLen := bigEndian ((msg.payload.drop 2).take 4)
    if 0 < colLen ∧ 6 + colLen ≤ msg.payload.length then some ((msg.payload.drop 6).take colLen)
      else none
  else none

def readLSN : Nat → Bytes → Talk (Option (Option Nat))
  | 0, _ => return none
  | n + 1, lsnStr => do
    match ← read with
    | none => return some none
    | some msg =>
      let lsnStr := (firstColumn msg).getD lsnStr
      if msg.type = msgErrorResponse then return some none
      else if msg.type = msgReadyForQuery then return some (parseLSN lsnStr)
      else readLSN n lsnStr

def queryCurrentLSN (n : Nat) : Talk (Option (Option Nat)) := do
  if ← request ⟨msgQuery, ascii "SELECT pg_current_wal_lsn()" ++ [0]⟩ then readLSN n []
    else return some none

def readReset : Nat → Talk (Option Bool)
  | 0 => return none
  | n + 1 => do
    match ← read with
    | none => return some false
    | some msg =>
      if msg.type = msgErrorResponse then return some false
      else if msg.type = msgReadyForQuery then return some true
      else readReset n

def resetConn (resetQuery : Bytes) (n : Nat) : Talk (Option Bool) := do
  if resetQuery = [] then return some true
  else if ← request ⟨msgQuery, resetQuery ++ [0]⟩ then readReset n
  else return some false

/-! ## Connections -/

/-- What the backend has sent and the proxy has not read. -/
structure Line where
  pending : List Message
  failed : Bool
  deriving DecidableEq, Repr

def Line.new : Line := ⟨[], false⟩

def Line.InStep (l : Line) : Prop := l.pending = [] ∧ l.failed = false

def IsReply : List Message → Prop
  | [] => False
  | m :: rest => if m.type = msgReadyForQuery then rest = [] else IsReply rest

def isCopy (type : Byte) : Bool := type == msgCopyData || type == msgCopyDone || type == msgCopyFail

def wire : Machine WireAns Line := fun o l ans l' =>
  match o, ans with
  | .request _, true => ∃ reply, IsReply reply ∧ l' = { l with pending := l.pending ++ reply }
  | .forward m, true =>
    l' = l ∨ isCopy m.type = false ∧ ∃ reply, IsReply reply ∧
      l' = { l with pending := l.pending ++ reply }
  | .read, some m => l.pending = m :: l'.pending ∧ l'.failed = l.failed
  | .request _, false | .forward _, false | .read, none => l' = { l with failed := true }
  | .toClient _, _ | .fromClient, _ => l' = l
  | .copyBoth, _ => True

def Orderly (strict : Bool) : (o : WireOp) → Line → WireAns o → Line → Prop
  | .request _, _, ok, _ => strict = true → ok = true
  | .forward _, _, ok, _ => strict = true → ok = true
  | .read, _, m, _ => strict = true → m.isSome = true
  | .toClient _, l, ok, _ => strict = true → ok = true ∨ l.pending = []
  | .fromClient, _, m, _ => (∀ msg ∈ m, isCopy msg.type = true) ∧ (strict = true → m.isSome = true)
  | .copyBoth, _, _, _ => False

def Quiet : (o : WireOp) → Line → WireAns o → Line → Prop
  | .read, _, m, _ => m.any (·.type ≠ msgErrorResponse) = true
  | .request _, _, ok, _ => ok = true
  | _, _, _, _ => True

def Ends (M : Machine WireAns Line) {α : Type} (p : Talk (Option α)) (l : Line) (a : α)
    (l' : Line) : Prop :=
  Reach M p l (.ret (some a)) l'

/-! ## What the relays leave -/

def Line.Open (l : Line) : Prop := (l.pending = [] ∨ IsReply l.pending) ∧ l.failed = false

theorem open_of_read {l l' : Line} {m : Message} (h : l.Open)
    (hr : l.pending = m :: l'.pending ∧ l'.failed = l.failed) :
    l'.Open ∧ (m.type = msgReadyForQuery → l'.InStep) := by
  obtain ⟨hpending, hfailed⟩ := h
  rw [hr.1] at hpending
  have hreply : IsReply (m :: l'.pending) := hpending.resolve_left (List.cons_ne_nil _ _)
  have hfine : l'.failed = false := hr.2.trans hfailed
  unfold IsReply at hreply
  split at hreply
  · exact ⟨⟨.inl hreply, hfine⟩, fun _ => ⟨hreply, hfine⟩⟩
  · next hne => exact ⟨⟨.inr hreply, hfine⟩, fun heq => absurd heq hne⟩

theorem open_of_request {l l' : Line} (h : l.InStep)
    (hr : ∃ reply, IsReply reply ∧ l' = { l with pending := l.pending ++ reply }) : l'.Open := by
  obtain ⟨reply, hreply, rfl⟩ := hr
  exact ⟨.inr (by simpa [h.1] using hreply), h.2⟩

structure Relaying {σ : Type} (M : Machine WireAns σ) (I F Z : σ → Prop) : Prop where
  unread : ∀ s t, I s → M .read s none t → F t
  passed : ∀ s msg t ok u, I s → M .read s (some msg) t → M (.toClient msg) t ok u →
    if ok then I u ∧ (msg.type = msgReadyForQuery → Z u) else F u
  gone : ∀ s t, I s → M .fromClient s none t → F t
  copied : ∀ s msg t ok u, I s → M .fromClient s (some msg) t → M (.forward msg) t ok u →
    if ok then I u else F u
  copiedBoth : ∀ s ok t, I s → M .copyBoth s ok t → if ok then I t else F t

def Leaves {σ : Type} (D F : σ → Prop) : Option Bool → σ → Prop
  | some ok, s => if ok then D s else F s
  | none, _ => True

namespace Relaying

variable {σ : Type} {M : Machine WireAns σ} {I F Z : σ → Prop} {s : σ}

theorem safe_relayCopyIn (h : Relaying M I F Z) (n : Nat) (hs : I s) :
    Safe M (fun _ _ => True) (relayCopyIn n) (Leaves I F) s := by
  induction n generalizing s with
  | zero => trivial
  | succ n ih =>
    refine ⟨trivial, fun msg t ht => ?_⟩
    cases msg with
    | none => exact h.gone s t hs ht
    | some msg =>
      refine ⟨trivial, fun ok u hu => ?_⟩
      have hcopied := h.copied s msg t ok u hs ht hu
      cases ok with
      | false => exact hcopied
      | true =>
        split
        · exact ih hcopied
        · exact hcopied

theorem safe_pass {α : Type} {failure : α} {go : Message → Talk α} {Q : α → σ → Prop}
    (h : Relaying M I F Z) (hs : I s) (hfail : ∀ t, F t → Q failure t)
    (hgo : ∀ (msg : Message) (t : σ), I t → (msg.type = msgReadyForQuery → Z t) →
      Safe M (fun _ _ => True) (go msg) Q t) : Safe M (fun _ _ => True) (pass failure go) Q s := by
  refine ⟨trivial, fun msg t ht => ?_⟩
  cases msg with
  | none => exact hfail t (h.unread s t hs ht)
  | some msg =>
    refine ⟨trivial, fun ok u hu => ?_⟩
    have hpassed := h.passed s msg t ok u hs ht hu
    cases ok with
    | false => exact hfail u hpassed
    | true => exact hgo msg u hpassed.1 hpassed.2

theorem safe_relayCopyOut (h : Relaying M I F Z) (n : Nat) (hs : I s) :
    Safe M (fun _ _ => True) (relayCopyOut n) (Leaves I F) s := by
  induction n generalizing s with
  | zero => trivial
  | succ n ih =>
    refine h.safe_pass hs (fun _ ht => ht) fun msg t ht _ => ?_
    split
    · exact ih ht
    · exact ht

theorem safe_relayCopy (h : Relaying M I F Z) (type : Byte) (n : Nat) (hs : I s) :
    Safe M (fun _ _ => True) (relayCopy type n) (Leaves I F) s := by
  unfold relayCopy
  split
  · exact h.safe_relayCopyIn n hs
  split
  · exact h.safe_relayCopyOut n hs
  split
  · exact ⟨trivial, fun ok t ht => h.copiedBoth s ok t hs ht⟩
  · exact hs

theorem safe_relayUntilReady (h : Relaying M I F Z) (n : Nat) (hs : I s) :
    Safe M (fun _ _ => True) (relayUntilReady n) (Leaves Z F) s := by
  induction n generalizing s with
  | zero => trivial
  | succ n ih =>
    refine h.safe_pass hs (fun _ ht => ht) fun msg t ht hready => ?_
    split
    · next hz => exact hready hz
    · refine (h.safe_relayCopy msg.type n ht).bind fun r u hu => ?_
      cases r with
      | none => trivial
      | some ok =>
        cases ok with
        | true => exact ih hu
        | false => exact hu

theorem safe_relayAndCollect (h : Relaying M I F Z) (maxSize n : Nat) (size : Option Nat)
    (hs : I s) :
    Safe M (fun _ _ => True) (relayAndCollect maxSize n size)
      (fun r => Leaves Z F (r.map Option.isSome)) s := by
  induction n generalizing s size with
  | zero => trivial
  | succ n ih =>
    refine h.safe_pass hs (fun _ ht => ht) fun msg t ht hready => ?_
    split
    · next hz => exact hready hz
    · refine (h.safe_relayCopy msg.type n ht).bind fun r u hu => ?_
      cases r with
      | none => trivial
      | some ok =>
        cases ok with
        | true => exact ih _ hu
        | false => exact hu

end Relaying

section

variable {strict : Bool}

abbrev orderly (strict : Bool) : Machine WireAns Line := wire.restrict (Orderly strict)

theorem relaying_orderly :
    Relaying (orderly strict) Line.Open (fun l => strict = true → l.InStep) Line.InStep where
  unread l l' _ hs hstrict := nomatch hs.2 hstrict
  passed l msg l₁ ok l₂ h hs hs' := by
    obtain ⟨hopen, hready⟩ := open_of_read h hs.1
    obtain ⟨hl : l₂ = l₁, hclient⟩ := hs'
    subst hl
    cases ok with
    | false => exact fun hstrict => ⟨(hclient hstrict).resolve_left nofun, hopen.2⟩
    | true => exact ⟨hopen, hready⟩
  gone l l' _ hs hstrict := nomatch hs.2.2 hstrict
  copied l msg l₁ ok l₂ h hs hs' := by
    obtain ⟨hl : l₁ = l, hcopy, _⟩ := hs
    subst hl
    cases ok with
    | false => exact fun hstrict => nomatch hs'.2 hstrict
    | true =>
      obtain ⟨hl | ⟨hno, _⟩, _⟩ := hs'
      · exact hl ▸ h
      · exact absurd (hcopy msg rfl) (by simp [hno])
  copiedBoth l ok l' _ hs := hs.2.elim

def Finishes (strict : Bool) : Option Bool → Line → Prop
  | some ok, l => ok = true ∨ strict = true → l.InStep
  | none, _ => True

theorem finishes_of_leaves {r : Option Bool} {l : Line}
    (h : Leaves Line.InStep (fun l => strict = true → l.InStep) r l) : Finishes strict r l := by
  match r with
  | none => trivial
  | some true => exact fun _ => h
  | some false => exact fun hno => h (hno.resolve_left nofun)

theorem safe_relayUntilReady (n : Nat) {l : Line} (h : l.Open) :
    Safe (orderly strict) (fun _ _ => True) (relayUntilReady n) (Finishes strict) l :=
  (relaying_orderly.safe_relayUntilReady n h).mono fun _ _ hl => finishes_of_leaves hl

theorem safe_relayAndCollect (maxSize n : Nat) (size : Option Nat) {l : Line} (h : l.Open) :
    Safe (orderly strict) (fun _ _ => True) (relayAndCollect maxSize n size)
      (fun r => Finishes strict (r.map Option.isSome)) l :=
  (relaying_orderly.safe_relayAndCollect maxSize n size h).mono fun _ _ hl => finishes_of_leaves hl

end

/-! ## What the requests of the proxy leave -/

theorem safe_queryCurrentLSN (n : Nat) {l : Line} (h : l.InStep) :
    Safe (wire.restrict Quiet) (fun _ _ => True) (queryCurrentLSN n) (fun r l' => r.isSome = true →
      l'.InStep) l := by
  have hread : ∀ (n : Nat) (lsnStr : Bytes) (l : Line), l.Open → Safe (wire.restrict Quiet)
      (fun _ _ => True)
      (readLSN n lsnStr) (fun r l' => r.isSome = true → l'.InStep) l := by
    intro n
    induction n with
    | zero => exact fun _ _ _ hno => nomatch hno
    | succ n ih =>
      intro lsnStr l h
      refine ⟨trivial, fun msg l₁ hs => ?_⟩
      cases msg with
      | none => exact nomatch hs.2
      | some msg =>
        obtain ⟨hopen, hready⟩ := open_of_read h hs.1
        have hany : (some msg).any (·.type ≠ msgErrorResponse) = true := hs.2
        have hquiet : msg.type ≠ msgErrorResponse := by simpa using hany
        change Safe _ _ (if _ then _ else if _ then _ else _) _ _
        rw [if_neg hquiet]
        split
        · next hz => exact fun _ => hready hz
        · exact ih _ l₁ hopen
  refine ⟨trivial, fun ok l₁ hs => ?_⟩
  cases ok with
  | false => exact nomatch hs.2
  | true => exact hread n [] l₁ (open_of_request h hs.1)

theorem safe_resetConn (resetQuery : Bytes) (n : Nat) {l : Line} (h : l.InStep) :
    Safe wire (fun _ _ => True) (resetConn resetQuery n) (Finishes false) l := by
  have hread : ∀ (n : Nat) (l : Line), l.Open → Safe wire (fun _ _ => True) (readReset n)
      (Finishes false) l := by
    intro n
    induction n with
    | zero => exact fun _ _ => trivial
    | succ n ih =>
      intro l h
      refine ⟨trivial, fun msg l₁ hs => ?_⟩
      cases msg with
      | none => exact fun hno => nomatch hno
      | some msg =>
        obtain ⟨hopen, hready⟩ := open_of_read h hs
        change Safe _ _ (if _ then _ else if _ then _ else _) _ _
        split
        · exact fun hno => nomatch hno
        split
        · next hz => exact fun _ => hready hz
        · exact ih l₁ hopen
  unfold resetConn
  split
  · exact fun _ => h
  · refine ⟨trivial, fun ok l₁ hs => ?_⟩
    cases ok with
    | false => exact fun hno => nomatch hno
    | true => exact hread n l₁ (open_of_request h hs)

end PgMux.Wire
