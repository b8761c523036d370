import PgMux.InStep

/-!
# Connections of the read paths

Whatever fails on the way, each connection of a read goes back once to the pool that lent it, and it
is released only behind the end of its reply.
-/

namespace PgMux.ReadPaths

open Effects Protocol Relay
open Router (Session)
open Synthesizer (Registry)
open Pools (Conn Pool)
open Wire (Line Talk WireAns WireOp forward read request toClient)

/-! ## Exchanges -/

def sendAll : List Message → Message → Talk Bool
  | [], last => request last
  | m :: ms, last => do
    if ← forward m then sendAll ms last else return false

def tmpName : Bytes := ascii "__pgmux_desc_tmp__"

def before : Request → List Message
  | .forward _ | .synthesized _ => []
  | .batch buf _ => buf
  | .describe query =>
    [⟨msgParse, tmpName ++ [0] ++ query ++ [0] ++ [0, 0]⟩,
      ⟨msgDescribe, kindStatement :: tmpName ++ [0]⟩, ⟨msgClose, kindStatement :: tmpName ++ [0]⟩]

abbrev msgParseComplete : Byte := 49
abbrev msgCloseComplete : Byte := 51

def relayDescribe : Nat → Talk (Option Bool)
  | 0 => return none
  | n + 1 => do
    match ← read with
    | none => return some false
    | some resp =>
      if resp.type = msgParseComplete ∨ resp.type = msgCloseComplete then relayDescribe n
      else if resp.type = Wire.msgReadyForQuery then return some true
      else if ← toClient resp then relayDescribe n
      else return some false

def Conforms : (o : WireOp) → Line → WireAns o → Line → Prop
  | .forward _, l, ok, l' => ok = true → l' = l
  | .copyBoth, _, _, _ => False
  | _, _, _, _ => True

abbrev conforming : Machine WireAns Line := Wire.wire.restrict Conforms

theorem relaying_conforming : Wire.Relaying conforming Line.Open (fun _ => True) Line.InStep where
  unread _ _ _ _ := trivial
  passed l msg l₁ ok l₂ h hs hs' := by
    obtain ⟨hopen, hready⟩ := Wire.open_of_read h hs.1
    obtain rfl : l₂ = l₁ := hs'.1
    cases ok with
    | false => trivial
    | true => exact ⟨hopen, hready⟩
  gone _ _ _ _ := trivial
  copied l msg l₁ ok l₂ h hs hs' := by
    obtain rfl : l₁ = l := hs.1
    cases ok with
    | false => trivial
    | true =>
      obtain rfl : l₂ = l₁ := hs'.2 rfl
      exact h
  copiedBoth _ _ _ _ hs := hs.2.elim

theorem safe_sendAll (ms : List Message) (last : Message) {l : Line} (h : l.InStep) :
    Safe conforming (fun _ _ => True) (sendAll ms last) (fun ok l' => ok = true → l'.Open) l := by
  induction ms with
  | nil =>
    refine ⟨trivial, fun ok l' hl hok => ?_⟩
    subst hok
    exact Wire.open_of_request h hl.1
  | cons m ms ih =>
    refine ⟨trivial, fun ok l' hl => ?_⟩
    cases ok with
    | false => exact fun hno => absurd hno Bool.false_ne_true
    | true =>
      obtain rfl : l' = l := hl.2 rfl
      exact ih

theorem safe_relayDescribe (n : Nat) {l : Line} (h : l.Open) :
    Safe conforming (fun _ _ => True) (relayDescribe n)
      (fun r l' => r = some true → l'.InStep) l := by
  induction n generalizing l with
  | zero => exact fun hno => absurd hno (by decide)
  | succ n ih =>
    refine ⟨trivial, fun resp l₁ hs => ?_⟩
    cases resp with
    | none => exact fun hno => absurd hno (by decide)
    | some resp =>
      obtain ⟨hopen, hready⟩ := Wire.open_of_read h hs.1
      change Safe _ _ (if _ then _ else _) _ _
      split
      · exact ih hopen
      split
      · next hz => exact fun _ => hready hz
      · refine ⟨trivial, fun ok l₂ hs' => ?_⟩
        obtain rfl : l₂ = l₁ := hs'.1
        cases ok with
        | true => exact ih hopen
        | false => exact fun hno => absurd hno (by decide)

theorem safe_relay (n : Nat) {l : Line} (h : l.Open) :
    Safe conforming (fun _ _ => True) (Wire.relayUntilReady n)
      (fun r l' => r = some true → l'.InStep) l := by
  refine (relaying_conforming.safe_relayUntilReady n h).mono fun r l' hl hr => ?_
  subst hr
  exact hl

theorem safe_collect (maxSize n : Nat) (size : Option Nat) {l : Line} (h : l.Open) :
    Safe conforming (fun _ _ => True) (Wire.relayAndCollect maxSize n size)
      (fun r l' => ∀ collected, r = some (some collected) → l'.InStep) l := by
  refine (relaying_conforming.safe_relayAndCollect maxSize n size h).mono
    fun r l' hl collected hr => ?_
  subst hr
  exact hl

/-! ## Connections on loan -/

structure Desk where
  line : Conn → Line
  asked : Conn → Bool
  held : List (Conn × Pool)

def Desk.set (s : Desk) (c : Conn) (l : Line) : Desk :=
  { s with line := Function.update s.line c l }

def Desk.lend (s : Desk) (c : Conn) (p : Pool) : Desk where
  line := Function.update s.line c Line.new
  asked := Function.update s.asked c false
  held := (c, p) :: s.held

def Desk.ask (s : Desk) (c : Conn) : Desk := { s with asked := Function.update s.asked c true }

def Desk.takeBack (s : Desk) (c : Conn) (p : Pool) : Desk := { s with held := s.held.erase (c, p) }

def Desk.Free (s : Desk) (c : Conn) : Prop := ∀ e ∈ s.held, e.1 ≠ c

def step : Machine Ans Desk := fun o s ans t =>
  match o, ans with
  | .acquire p, some c => s.Free c ∧ t = s.lend c p
  | .acquireWriter, some c => s.Free c ∧ ∃ p, t = s.lend c p
  | .acquireReader _, some (c, p) => s.Free c ∧ t = s.lend c p
  | .send c r, ok =>
    ∃ l, Reach conforming (sendAll (before r) (InStep.asks r)) (s.line c) (.ret ok) l ∧
      t = (s.set c l).ask c
  | .relay c, ok => ∃ n l, Wire.Ends conforming (Wire.relayUntilReady n) (s.line c) ok l ∧
      t = s.set c l
  | .collect c, r =>
    ∃ maxSize n l, Wire.Ends conforming (Wire.relayAndCollect maxSize n (some 0)) (s.line c) r l ∧
      t = s.set c l
  | .relayDescribe c, ok => ∃ n l, Wire.Ends conforming (relayDescribe n) (s.line c) ok l ∧
      t = s.set c l
  | .queryLSN c, r => ∃ n l, Wire.Ends Wire.wire (Wire.queryCurrentLSN n) (s.line c) r l ∧
      t = s.set c l
  | .reset c, ok =>
    ∃ resetQuery n l, Wire.Ends Wire.wire (Wire.resetConn resetQuery n) (s.line c) ok l ∧
      t = s.set c l
  | .release c p, _ | .discard c p, _ => t = s.takeBack c p
  | _, _ => t = s

def Proper : Op → Desk → Prop
  | .release c p, s => (c, p) ∈ s.held ∧ s.asked c = true ∧ (s.line c).InStep
  | .discard c p, s => (c, p) ∈ s.held
  | .nilPool _, _ => False
  | _, _ => True

def Line.At : LoanPhase → Bool → Line → Prop
  | .fresh, _, l => l.InStep
  | .asked, asked, l => asked = true ∧ l.Open
  | .answered, asked, l => asked = true ∧ l.InStep
  | .spent, _, _ => True

structure Loan (held : List (Conn × Pool)) (phase : LoanPhase) (c : Conn) (p : Pool) (s : Desk) :
    Prop where
  top : s.held = (c, p) :: held
  line : Line.At phase (s.asked c) (s.line c)

section

variable {env : Env} {c : Conn} {p : Pool} {held : List (Conn × Pool)} {phase : LoanPhase}
  {s : Desk}

theorem loan_lend (c : Conn) (p : Pool) (s : Desk) : Loan s.held .fresh c p (s.lend c p) := by
  refine ⟨rfl, ?_⟩
  simp [Desk.lend, Line.At, Line.InStep, Line.new]

theorem Loan.set (h : Loan held phase c p s) {phase' : LoanPhase} {l : Line}
    (hl : Line.At phase' (s.asked c) l) :
    Loan held phase' c p (s.set c l) := ⟨h.top, by simpa [Desk.set] using hl⟩

theorem Loan.relayed (h : Loan held .asked c p s) {ok : Bool} {l : Line}
    (hl : ok = true → l.InStep) : Loan held (LoanPhase.after .answered ok) c p (s.set c l) := by
  cases ok with
  | true => exact h.set ⟨h.line.1, hl rfl⟩
  | false => exact h.set trivial

theorem Loan.takeBack (h : Loan held phase c p s) : (s.takeBack c p).held = held := by
  simp [Desk.takeBack, h.top]

theorem Loan.mem (h : Loan held phase c p s) : (c, p) ∈ s.held := by
  rw [h.top]
  exact List.mem_cons_self

theorem stable_aside (P : Desk → Prop) : Stable step Proper Aside P := by
  intro o s ho hs
  cases o with
  | client | writerPool | lookup | store =>
    exact ⟨trivial, fun ans t ht => by obtain rfl : t = s := ht; exact hs⟩
  | _ => exact ho.elim

theorem loans (held : List (Conn × Pool)) :
    Loans step Proper (fun s => s.held = held) (Loan held) where
  aside := stable_aside _
  acquire p s hs := by
    refine ⟨trivial, fun c t ht => ?_⟩
    subst hs
    cases c with
    | none =>
      obtain rfl : t = s := ht
      rfl
    | some c =>
      obtain rfl : t = s.lend c p := ht.2
      exact loan_lend c p s
  acquireReader minLSN s hs := by
    refine ⟨trivial, fun reader t ht => ?_⟩
    subst hs
    cases reader with
    | none =>
      obtain rfl : t = s := ht
      rfl
    | some reader =>
      obtain rfl : t = s.lend reader.1 reader.2 := ht.2
      exact loan_lend reader.1 reader.2 s
  send c p r s hs := by
    refine ⟨trivial, fun ok t ht => ?_⟩
    obtain ⟨l, hends, rfl⟩ := ht
    have hopen : ok = true → l.Open := (safe_sendAll _ _ hs.line).reach hends
    refine ⟨hs.top, ?_⟩
    cases ok with
    | true => exact ⟨by simp [Desk.ask], by simpa [Desk.ask, Desk.set] using hopen rfl⟩
    | false => trivial
  relay c p s hs := by
    refine ⟨trivial, fun ok t ht => ?_⟩
    obtain ⟨n, l, hends, rfl⟩ := ht
    exact hs.relayed fun hok => (safe_relay n hs.line.2).reach hends (by rw [hok])
  collect c p s hs := by
    refine ⟨trivial, fun r t ht => ?_⟩
    obtain ⟨maxSize, n, l, hends, rfl⟩ := ht
    refine hs.relayed fun hr => ?_
    obtain ⟨collected, rfl⟩ := Option.isSome_iff_exists.mp hr
    exact (safe_collect maxSize n (some 0) hs.line.2).reach hends collected rfl
  reset c p s hs := by
    refine ⟨trivial, fun ok t ht => ?_⟩
    obtain ⟨resetQuery, n, l, hends, rfl⟩ := ht
    have hl : Wire.Finishes false (some ok) l :=
      (Wire.safe_resetConn resetQuery n hs.line.2).reach hends
    cases ok with
    | true => exact hs.set ⟨hs.line.1, hl (.inl rfl)⟩
    | false => exact hs.set trivial
  release c p s hs := by
    refine ⟨⟨hs.mem, hs.line⟩, fun _ t ht => ?_⟩
    obtain rfl : t = s.takeBack c p := ht
    exact hs.takeBack
  discard c p s hs := by
    refine ⟨hs.mem, fun _ t ht => ?_⟩
    obtain rfl : t = s.takeBack c p := ht
    exact hs.takeBack

inductive ReadPath (env : Env) : Run Bool → Prop where
  | readQuery (cfg : Config) (msg : Message) (query : Bytes) (session : Session) :
      ReadPath env (handleReadQuery env cfg msg query session)
  | fallback (msg : Message) : ReadPath env (fallbackToWriter (.forward msg) false)
  | extendedRead (buf : List Message) (sync : Message) :
      ReadPath env (handleExtendedRead env buf sync)
  | synthesizedRead (query : Bytes) : ReadPath env (handleSynthesizedRead query)
  | describe (payload : Bytes) (synth : Registry) :
      ReadPath env (handleMultiplexDescribe payload synth)

theorem safe_readPath {path : Run Bool} (hpath : ReadPath env path) (h : s.held = held) :
    Safe step Proper path (fun _ t => t.held = held) s := by
  cases hpath with
  | readQuery cfg msg query session => exact (loans held).handleReadQuery cfg msg query session h
  | fallback msg => exact (loans held).fallbackToWriter _ _ h
  | extendedRead buf sync => exact (loans held).handleExtendedRead buf sync h
  | synthesizedRead query => exact (loans held).handleSynthesizedRead query h
  | describe payload synth =>
    refine (loans held).handleMultiplexDescribe payload synth (fun c p t ht => ⟨trivial,
      fun ok u hu => ?_⟩) h
    obtain ⟨n, l, hends, rfl⟩ := hu
    exact ht.relayed fun hok => (safe_relayDescribe n ht.line.2).reach hends (by rw [hok])

/-- Wherever a read path gets, what it gives back is on loan from that pool; at the end nothing
is. -/
theorem given_back_once {path q : Run Bool} {s₀ : Desk} (hpath : ReadPath env path)
    (h₀ : s₀.held = []) (hr : Reach step path s₀ q s) :
    (∀ o, q.head = some o → Proper o s) ∧ ∀ ok, q = .ret ok → s.held = [] := by
  have hsafe := safe_readPath hpath h₀
  refine ⟨fun o ho => hsafe.guarded hr ho, fun ok hq => ?_⟩
  subst hq
  exact hsafe.reach hr

end

def Desk.new : Desk := ⟨fun _ => Line.new, fun _ => false, []⟩

theorem given_back_once_fallback :
    ∃ s, Reach step (handleSynthesizedRead (ascii "SELECT 1")) Desk.new (.ret true) s ∧
    s.held = [] := by
  have hfail : Reach conforming (sendAll [] (InStep.asks (.synthesized (ascii "SELECT 1"))))
      Line.new (.ret false)
      ⟨[], true⟩ := .ask false ⟨[], true⟩ ⟨rfl, trivial⟩ .refl
  have hsend : Reach conforming (sendAll [] (InStep.asks (.synthesized (ascii "SELECT 1"))))
      Line.new (.ret true)
      ⟨[InStep.ready], false⟩ := .ask true ⟨[InStep.ready], false⟩
        ⟨⟨[InStep.ready], rfl, rfl⟩, trivial⟩ .refl
  have hrelay : Wire.Ends conforming (Wire.relayUntilReady 1) ⟨[InStep.ready], false⟩ true ⟨[],
      false⟩ :=
    .ask (some InStep.ready) ⟨[], false⟩ ⟨⟨rfl, rfl⟩, trivial⟩
      (.ask true ⟨[], false⟩ ⟨rfl, trivial⟩ .refl)
  have hreach : Reach step (handleSynthesizedRead (ascii "SELECT 1")) Desk.new (.ret true) _ :=
    .ask (some ((3 : Conn), (1 : Pool))) _ ⟨List.forall_mem_nil _, rfl⟩
    (.ask false _ ⟨_, hfail, rfl⟩ (.ask () _ rfl
    (.ask (0 : Pool) _ rfl (.ask (some (7 : Conn)) _ ⟨List.forall_mem_nil _, rfl⟩
    (.ask true _ ⟨_, hsend, rfl⟩ (.ask true _ ⟨1, _, hrelay, rfl⟩
    (.ask true _ ⟨[], 0, _, .refl, rfl⟩ (.ask () _ rfl .refl))))))))
  have hpath : ReadPath (plainEnv true) (handleSynthesizedRead (ascii "SELECT 1")) :=
    .synthesizedRead _
  exact ⟨_, hreach, (given_back_once hpath rfl hreach).2 true rfl⟩

end PgMux.ReadPaths
