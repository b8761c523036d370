import PgMux.Loans

/-!
# What a session owes the pools

The ledger of a session lists the connections it has borrowed, each with the pool that lent it.
Between two operations a reload may replace the writer pool; along steady steps every connection
goes back to its own pool.
-/

namespace PgMux.Borrowing

open Effects Protocol Relay
open Router hiding Env
open Pools (Conn Pool)

def endsUnbound (env : Env) (v : Vars) (i : Input) : Bool :=
  i.msg.type == msgSync && v.extTxEnd && v.boundWriter.isNone && !readsOnly v &&
    (!env.multiplexMode || v.muxBindDetail.any fun d =>
      (v.synth.synthesize d.statementName d.parameters d.formatCodes).toOption.isSome)

def rebinds (v : Vars) (i : Input) : Option Pool :=
  if i.msg.type = msgSync && v.extTxStart && !v.extTxEnd then v.boundWriterPool else none

structure Ledger where
  borrowed : List (Conn × Pool)
  writerPool : Pool
  acquiredPool : Option Pool
  rebinds : Option Pool
  endsUnbound : Bool
  reloaded : Bool

def Drift (l l' : Ledger) : Prop := l' = l ∨ ∃ p, l' = { l with writerPool := p, reloaded := true }

def Ledger.lend (l : Ledger) (lent : List (Conn × Pool)) : Ledger :=
  { l with borrowed := lent ++ l.borrowed }

def Ledger.takeBack (l : Ledger) (e : Conn × Pool) : Ledger :=
  { l with borrowed := l.borrowed.erase e }

def step (env : Env) : Machine Ans Ledger := fun o l ans l' =>
  match o, ans with
  | .recv v, i =>
    l' = { l with rebinds := i.bind (rebinds v), endsUnbound := i.any (endsUnbound env v) }
  | .writerPool, p =>
    p = l.writerPool ∧ (l.reloaded → ∀ q ∈ l.rebinds, p = q) ∧
      l' = { l with acquiredPool := some p }
  | .acquireWriter, c =>
    (l.reloaded → l.acquiredPool = some l.writerPool) ∧ l' = l.lend (c.toList.map (·, l.writerPool))
  | .acquire p, c => l' = l.lend (c.toList.map (·, p))
  | .acquireReader _, r => l' = l.lend r.toList
  | .release c p, _ => l' = l.takeBack (c, p)
  | .discard c p, _ => l' = l.takeBack (c, p)
  | _, _ => l' = l

def machine (env : Env) : Machine Ans Ledger :=
  fun o l ans l' => ∃ l₁, Drift l l₁ ∧ step env o l₁ ans l'

def Sound : Op → Ledger → Prop
  | .recv v, _ => v.boundWriter.isSome = v.boundWriterPool.isSome
  | .leave v, _ => v.boundWriter.isSome = v.boundWriterPool.isSome
  | .release c p, l => (c, p) ∈ l.borrowed
  | .discard c p, l => (c, p) ∈ l.borrowed
  | .nilPool _, l => l.endsUnbound
  | _, _ => True

structure Kept (l l' : Ledger) : Prop where
  rebinds : l'.rebinds = l.rebinds
  endsUnbound : l'.endsUnbound = l.endsUnbound
  current : l'.reloaded = false → l.reloaded = false ∧ l'.writerPool = l.writerPool

theorem Kept.refl (l : Ledger) : Kept l l := ⟨rfl, rfl, fun h => ⟨h, rfl⟩⟩

variable {l l' : Ledger}

theorem Kept.trans {l'' : Ledger} (h : Kept l l') (h' : Kept l' l'') : Kept l l'' where
  rebinds := h'.rebinds.trans h.rebinds
  endsUnbound := h'.endsUnbound.trans h.endsUnbound
  current hr := by
    obtain ⟨hr', hw⟩ := h'.current hr
    exact ⟨(h.current hr').1, hw.trans (h.current hr').2⟩

structure Same (l l' : Ledger) : Prop extends Kept l l' where
  borrowed : l'.borrowed = l.borrowed

instance : IsPreorder Ledger Same where
  refl l := ⟨.refl l, rfl⟩
  trans _ _ _ h h' := ⟨h.toKept.trans h'.toKept, h'.borrowed.trans h.borrowed⟩

theorem Drift.same (h : Drift l l') : Same l l' := by
  obtain rfl | ⟨p, rfl⟩ := h
  · exact refl_of Same l'
  · exact ⟨⟨rfl, rfl, fun hr => absurd hr (by simp)⟩, rfl⟩

theorem Drift.acquiredPool (h : Drift l l') : l'.acquiredPool = l.acquiredPool := by
  obtain rfl | ⟨p, rfl⟩ := h
  · rfl
  · rfl

theorem Drift.replace (h : Drift l l') (p : Pool) :
    Drift l { l' with writerPool := p, reloaded := true } := by
  obtain rfl | ⟨q, rfl⟩ := h
  · exact .inr ⟨p, rfl⟩
  · exact .inr ⟨p, rfl⟩

section

variable {env : Env} {l : Ledger}

theorem keeps_perform {o : Op} (hpre : ∀ l, Sound o l)
    (hstep : ∀ l ans l', step env o l ans l' → l' = l) :
    Keeps (machine env) Sound Same (perform o) := by
  intro l
  refine ⟨hpre l, fun ans l' hs => ?_⟩
  obtain ⟨l₁, hd, hs⟩ := hs
  rw [hstep l₁ ans l' hs]
  exact hd.same

theorem keeps_toClient (m : ClientMsg) : Keeps (machine env) Sound Same (toClient m) :=
  keeps_perform (fun _ => trivial) fun _ _ _ h => h

theorem keeps_send (c : Conn) (r : Request) : Keeps (machine env) Sound Same (send c r) :=
  keeps_perform (fun _ => trivial) fun _ _ _ h => h

theorem keeps_relay (c : Conn) : Keeps (machine env) Sound Same (relayUntilReady c) :=
  keeps_perform (fun _ => trivial) fun _ _ _ h => h

theorem keeps_sendError (text : ErrorText) : Keeps (machine env) Sound Same (sendError text) :=
  (keeps_toClient _).bind fun _ => .pure _

theorem keeps_exchange (c : Conn) (r : Request) :
    Keeps (machine env) Sound Same (exchange c r) := by
  refine (keeps_send c r).bind fun ok => ?_
  cases ok with
  | true => exact keeps_relay c
  | false => exact .pure _

theorem keeps_onlyIf (b : Bool) {p : Run Unit} (hp : Keeps (machine env) Sound Same p) :
    Keeps (machine env) Sound Same (onlyIf b p) := by
  cases b with
  | true => exact hp
  | false => exact .pure _

theorem keeps_lsnAfter (asks : Bool) (c : Conn) :
    Keeps (machine env) Sound Same (lsnAfter asks c) := by
  cases asks with
  | true => exact keeps_perform (fun _ => trivial) fun _ _ _ h => h
  | false => exact .pure _

theorem safe_handleWriteQuery (cfg : Config) (c : Conn) (msg : Message) (query : Bytes)
    (qtype : QueryType) (session : Session) :
    Safe (machine env) Sound (handleWriteQuery env cfg c msg query qtype session)
      (fun session' l' => Same l l' ∧ session'.inTransaction = session.inTransaction) l := by
  refine (keeps_exchange c _).then fun ok l₁ h₁ => ?_
  cases ok with
  | false => exact ⟨h₁, rfl⟩
  | true =>
    have hinv : Keeps (machine env) Sound Same (invalidate query) :=
      keeps_perform (fun _ => trivial) fun _ _ _ h => h
    refine (keeps_lsnAfter _ c).then fun lsn l₂ h₂ => (keeps_onlyIf _ hinv).then fun _ l₃ h₃ => ?_
    refine ⟨trans_of Same h₁ (trans_of Same h₂ h₃), ?_⟩
    cases lsn <;> rfl

/-! ## Giving back -/

variable {c : Conn} {p : Pool} {e : Conn × Pool}

/-- Released or discarded, a connection is out of the ledger. -/
theorem safe_return {o : Op} (ho : o = .release c p ∨ o = .discard c p)
    (h : (c, p) ∈ l.borrowed) : Safe (machine env) Sound (perform o)
      (fun _ l' => Kept l l' ∧ l'.borrowed = l.borrowed.erase (c, p)) l := by
  obtain ⟨hsound, hstep⟩ : Sound o l ∧
      ∀ ans l₁ l', step env o l₁ ans l' → l' = l₁.takeBack (c, p) := by
    rcases ho with rfl | rfl
    · exact ⟨h, fun _ _ _ ht => ht⟩
    · exact ⟨h, fun _ _ _ ht => ht⟩
  refine ⟨hsound, ?_⟩
  rintro ans l' ⟨l₁, hd, hl⟩
  rw [hstep ans l₁ l' hl]
  exact ⟨⟨hd.same.rebinds, hd.same.endsUnbound, hd.same.current⟩, by rw [← hd.same.borrowed]; rfl⟩

theorem keeps_reset (c : Conn) : Keeps (machine env) Sound Same (resetConn c) :=
  keeps_perform (fun _ => trivial) fun _ _ _ h => h

theorem safe_giveBack (dirty : Bool) (h : (c, p) ∈ l.borrowed) :
    Safe (machine env) Sound (giveBack dirty c (some p))
      (fun ok l' => ok = true ∧ Kept l l' ∧ l'.borrowed = l.borrowed.erase (c, p)) l := by
  cases dirty with
  | false => exact (safe_return (.inl rfl) h).bind fun _ l' h' => ⟨rfl, h'⟩
  | true =>
    refine (keeps_reset c).then fun ok l₁ h₁ => ?_
    have h' : (c, p) ∈ l₁.borrowed := h₁.borrowed ▸ h
    have hback : ∀ l', Kept l₁ l' ∧ l'.borrowed = l₁.borrowed.erase (c, p) →
        Kept l l' ∧ l'.borrowed = l.borrowed.erase (c, p) := by
      rintro l' ⟨hk, hb⟩
      exact ⟨h₁.toKept.trans hk, h₁.borrowed ▸ hb⟩
    cases ok with
    | true => exact (safe_return (.inl rfl) h').bind fun _ l' hl => ⟨rfl, hback l' hl⟩
    | false => exact (safe_return (.inr rfl) h').bind fun _ l' hl => ⟨rfl, hback l' hl⟩

theorem safe_nilPool (c : Conn) (h : l.endsUnbound = true) :
    Safe (machine env) Sound (nilPool c) (fun _ l' => Same l l') l := by
  refine ⟨h, ?_⟩
  rintro ans l' ⟨l₁, hd, rfl⟩
  exact hd.same

theorem safe_giveBack_none (dirty : Bool) (c : Conn) (h : l.endsUnbound = true) :
    Safe (machine env) Sound (giveBack dirty c none) (fun ok l' => ok = false ∧ Same l l') l := by
  cases dirty with
  | false => exact (safe_nilPool c h).bind fun _ l' h' => ⟨rfl, h'⟩
  | true =>
    refine (keeps_reset c).then fun ok l₁ h₁ => ?_
    have h' : l₁.endsUnbound = true := h₁.endsUnbound.trans h
    cases ok <;> exact (safe_nilPool c h').bind fun _ l' hl => ⟨rfl, trans_of Same h₁ hl⟩

/-! ## Borrowing for one request -/

theorem keeps_writerPool : Keeps (machine env) Sound Same writerPool := by
  refine fun l => ⟨trivial, ?_⟩
  rintro p l' ⟨l₁, hd, -, -, rfl⟩
  exact ⟨⟨hd.same.rebinds, hd.same.endsUnbound, hd.same.current⟩, hd.same.borrowed⟩

theorem safe_acquire (p : Pool) : Safe (machine env) Sound (acquire p)
      (fun c l' => Kept l l' ∧ l'.borrowed = c.toList.map (·, p) ++ l.borrowed) l := by
  refine ⟨trivial, ?_⟩
  rintro c l' ⟨l₁, hd, rfl⟩
  exact ⟨⟨hd.same.rebinds, hd.same.endsUnbound, hd.same.current⟩, by rw [← hd.same.borrowed]; rfl⟩

theorem safe_acquireReader (minLSN : Option Nat) : Safe (machine env) Sound (acquireReader minLSN)
      (fun r l' => Kept l l' ∧ l'.borrowed = r.toList ++ l.borrowed) l := by
  refine ⟨trivial, ?_⟩
  rintro r l' ⟨l₁, hd, rfl⟩
  exact ⟨⟨hd.same.rebinds, hd.same.endsUnbound, hd.same.current⟩, by rw [← hd.same.borrowed]; rfl⟩

structure Lent (l : Ledger) (e : Conn × Pool) (l' : Ledger) : Prop extends Kept l l' where
  borrowed : l'.borrowed = e :: l.borrowed

theorem Lent.mem (h : Lent l e l') : e ∈ l'.borrowed := by simp [h.borrowed]

theorem Lent.same {l₁ l₂ : Ledger} (h : Lent l e l₁) (h' : Same l₁ l₂) : Lent l e l₂ :=
  ⟨h.toKept.trans h'.toKept, h'.borrowed.trans h.borrowed⟩

theorem Lent.takeBack {l₁ l₂ : Ledger} (h : Lent l e l₁) (hk : Kept l₁ l₂)
    (hb : l₂.borrowed = l₁.borrowed.erase e) : Same l l₂ :=
  ⟨h.toKept.trans hk, by rw [hb, h.borrowed, List.erase_cons_head]⟩

theorem keeps_aside {o : Op} (ho : Aside o) : Keeps (machine env) Sound Same (perform o) := by
  cases o with
  | client | lookup | store => exact keeps_perform (fun _ => trivial) fun _ _ _ h => h
  | writerPool => exact keeps_writerPool
  | _ => exact ho.elim

theorem keeps_collect (c : Conn) : Keeps (machine env) Sound Same (relayAndCollect c) :=
  keeps_perform (fun _ => trivial) fun _ _ _ h => h

theorem keeps_relayDescribe (c : Conn) : Keeps (machine env) Sound Same (relayDescribe c) :=
  keeps_perform (fun _ => trivial) fun _ _ _ h => h

theorem loans (l : Ledger) : Loans (machine env) Sound (Same l) fun _ c p => Lent l (c, p) where
  aside o s ho hs := by
    have hkeep : Keeps (machine env) Sound Same (perform o) := keeps_aside ho
    exact ⟨(hkeep s).1, fun ans t ht => trans_of Same hs ((hkeep s).2 ans t ht)⟩
  acquire p s hs := by
    refine (safe_acquire p).mono fun c t ht => ?_
    cases c with
    | none => exact ⟨hs.toKept.trans ht.1, ht.2.trans hs.borrowed⟩
    | some c => exact ⟨hs.toKept.trans ht.1, ht.2.trans (congrArg ((c, p) :: ·) hs.borrowed)⟩
  acquireReader minLSN s hs := by
    refine (safe_acquireReader minLSN).mono fun r t ht => ?_
    cases r with
    | none => exact ⟨hs.toKept.trans ht.1, ht.2.trans hs.borrowed⟩
    | some e => exact ⟨hs.toKept.trans ht.1, ht.2.trans (congrArg (e :: ·) hs.borrowed)⟩
  send c _ r s hs := (keeps_send c r s).mono fun _ _ ht => hs.same ht
  relay c _ s hs := (keeps_relay c s).mono fun _ _ ht => hs.same ht
  collect c _ s hs := (keeps_collect c s).mono fun _ _ ht => hs.same ht
  reset c _ s hs := (keeps_reset c s).mono fun _ _ ht => hs.same ht
  release c p s hs := (safe_return (.inl rfl) hs.mem).mono fun _ _ ht => hs.takeBack ht.1 ht.2
  discard c p s hs := (safe_return (.inr rfl) hs.mem).mono fun _ _ ht => hs.takeBack ht.1 ht.2

theorem keeps_handleReadQuery (cfg : Config) (msg : Message) (query : Bytes) (session : Session) :
    Keeps (machine env) Sound Same (handleReadQuery env cfg msg query session) :=
  fun l => (loans l).handleReadQuery cfg msg query session (refl_of Same l)

theorem keeps_handleExtendedRead (buf : List Message) (sync : Message) :
    Keeps (machine env) Sound Same (handleExtendedRead env buf sync) :=
  fun l => (loans l).handleExtendedRead buf sync (refl_of Same l)

theorem keeps_handleSynthesizedRead (query : Bytes) :
    Keeps (machine env) Sound Same (handleSynthesizedRead query) :=
  fun l => (loans l).handleSynthesizedRead query (refl_of Same l)

theorem keeps_handleMultiplexDescribe (payload : Bytes) (synth : Synthesizer.Registry) :
    Keeps (machine env) Sound Same (handleMultiplexDescribe payload synth) := by
  refine fun l => (loans l).handleMultiplexDescribe payload synth (fun c p s hs => ?_)
    (refl_of Same l)
  exact (keeps_relayDescribe c s).mono fun _ _ ht => hs.same ht

end

end PgMux.Borrowing
