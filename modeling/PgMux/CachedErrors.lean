import PgMux.Relays
import PgMux.Requests

/-!
# Errors in the cache

Both read paths store what `relayAndCollect` gives them, and that loop looks at the types of the
messages only for the end of the reply and for COPY. An entry is free of errors just when the reply
was.
-/

namespace PgMux.CachedErrors

open Effects Framing Protocol Relay
open Relays (IoAns Outcome Serves Side collected_cases inMemory serves_inMemory written)
open Streams (ReadErr readFull)
open Wire (msgErrorResponse msgReadyForQuery)

/-! ## Replies and the messages in stored bytes -/

def wire (m : Message) : Bytes := writeMessage m.type m.payload

def ready (status : Bytes) : Message := ⟨msgReadyForQuery, status⟩

structure Reply where
  body : List Message
  status : Bytes
  noReady : ∀ m ∈ body, m.type ≠ msgReadyForQuery
  bounded : ∀ m ∈ body ++ [ready status], 4 + m.payload.length < 2 ^ 32

def Reply.bytes (r : Reply) : Bytes := (r.body ++ [ready r.status]).flatMap wire

def decode : Nat → Framing.Stream Empty → List Message
  | 0, _ => []
  | n + 1, r =>
    match (readMessage readFull : StateM (Framing.Stream Empty) _) r with
    | (.ok msg, r') => msg.toMessage :: decode n r'
    | (.error _, _) => []

def messagesIn (b : Bytes) : List Message := decode b.length ⟨b, .eof⟩

def NoErrors (ms : List Message) : Prop := ∀ m ∈ ms, m.type ≠ msgErrorResponse

instance (ms : List Message) : Decidable (NoErrors ms) := inferInstanceAs (Decidable (∀ m ∈ ms, _))

variable {n : Nat}

theorem decode_wires {ms : List Message} (h : ∀ m ∈ ms, m.payload.length ≤ maxMessageSize)
    (hn : ms.length ≤ n) : decode n ⟨ms.flatMap wire, .eof⟩ = ms := by
  induction ms generalizing n with
  | nil =>
    cases n <;> rfl
  | cons m ms ih =>
    obtain ⟨hm, hms⟩ := List.forall_mem_cons.mp h
    cases n with
    | zero => simp at hn
    | succ n =>
      have hread : (readMessage readFull : StateM (Framing.Stream Empty) _)
          ⟨wire m ++ ms.flatMap wire, .eof⟩ = _ :=
        readMessage_wire ⟨m, hm⟩ (ms.flatMap wire) .eof
      rw [List.flatMap_cons, decode, hread]
      simp only [ih hms (Nat.le_of_succ_le_succ hn)]

theorem length_le_wires (ms : List Message) : ms.length ≤ (ms.flatMap wire).length := by
  induction ms with
  | nil => exact Nat.le_refl 0
  | cons m ms ih =>
    rw [List.flatMap_cons, List.length_append, List.length_cons]
    have hwire : 0 < (wire m).length := Nat.succ_pos _
    omega

theorem messagesIn_wires {ms : List Message} (h : ∀ m ∈ ms, m.payload.length ≤ maxMessageSize) :
    messagesIn (ms.flatMap wire) = ms :=
  decode_wires h (length_le_wires ms)

/-! ## What the loop collects -/

section

variable {ε τ : Type} {w : World (IoAns ε) τ} {backend : τ → Framing.Stream ε} {rest : Bytes}
  {stop : ReadErr ε}
  {b : Bytes} {maxSize : Int} {s : τ}

theorem collected_wire (hw : Serves w backend) {m : Message}
    (hbounded : 4 + m.payload.length < 2 ^ 32) {buf : Option Bytes}
    (hs : backend s = ⟨wire m ++ rest, stop⟩)
    (h : (exec w written (Relays.relayAndCollect maxSize n buf) s).1 = .done (some b)) :
    ∃ b₀, buf = some b₀ ∧ m.payload.length ≤ maxMessageSize ∧
      ((m.type = msgReadyForQuery ∧ b = b₀ ++ wire m) ∨
        (m.type ≠ msgReadyForQuery ∧ ∃ k t, backend t = ⟨rest, stop⟩ ∧
          (exec w written (Relays.relayAndCollect maxSize k (some (b₀ ++ wire m))) t).1 =
            .done (some b))) := by
  obtain ⟨k, bytes, s₁, s₂, b₀, -, hnext, hsize, hwrite, rfl, -, hcases⟩ := collected_cases h
  obtain ⟨t, hserved, ht⟩ := hw.nextMessage hs hbounded
  obtain ⟨rfl, rfl⟩ := Prod.mk.inj (Option.some.inj (hnext.symm.trans hserved))
  have hlength : (writeMessage m.type m.payload).length = 5 + m.payload.length := by
    rw [writeMessage, List.length_append]
    rfl
  have hkeeps := hw.keeps (.write .client (writeMessage m.type m.payload)) s₁ (fun n => by simp)
  rw [hwrite] at hkeeps
  refine ⟨b₀, rfl, by omega, ?_⟩
  obtain ⟨hready, rfl, -, -⟩ | ⟨hready, hrest, -⟩ := hcases
  · exact .inl ⟨hready, rfl⟩
  · exact .inr ⟨hready, k, s₂, hkeeps.trans ht, hrest⟩

theorem collected_wires (hw : Serves w backend) {status : Bytes} {body : List Message}
    (hbody : ∀ m ∈ body, m.type ≠ msgReadyForQuery)
    (hbounded : ∀ m ∈ body ++ [ready status], 4 + m.payload.length < 2 ^ 32) {buf : Option Bytes}
    (hs : backend s = ⟨(body ++ [ready status]).flatMap wire ++ rest, stop⟩)
    (h : (exec w written (Relays.relayAndCollect maxSize n buf) s).1 = .done (some b)) :
    ∃ b₀, buf = some b₀ ∧ b = b₀ ++ (body ++ [ready status]).flatMap wire ∧
      ∀ m ∈ body ++ [ready status], m.payload.length ≤ maxMessageSize := by
  induction body generalizing n buf s with
  | nil =>
    rw [List.nil_append, List.flatMap_singleton] at hs
    obtain ⟨b₀, hbuf, hfits, ⟨-, hb⟩ | ⟨hready, -⟩⟩ :=
      collected_wire hw (hbounded _ (List.mem_singleton_self _)) hs h
    · exact ⟨b₀, hbuf, by simpa using hb, by simpa using hfits⟩
    · exact absurd rfl hready
  | cons m body ih =>
    obtain ⟨hm, hbody⟩ := List.forall_mem_cons.mp hbody
    rw [List.cons_append, List.forall_mem_cons] at hbounded
    rw [List.cons_append, List.flatMap_cons, List.append_assoc] at hs
    obtain ⟨b₀, hbuf, hfits, ⟨hready, -⟩ | ⟨-, k, t, ht, hrest⟩⟩ :=
      collected_wire hw hbounded.1 hs h
    · exact absurd hready hm
    · obtain ⟨b₁, hb₁, rfl, hall⟩ := ih hbody hbounded.2 ht hrest
      obtain rfl := Option.some.inj hb₁
      refine ⟨b₀, hbuf, by simp [List.append_assoc], ?_⟩
      exact List.forall_mem_cons.mpr ⟨hfits, hall⟩

theorem collected_reply (hw : Serves w backend) (reply : Reply)
    (hs : backend s = ⟨reply.bytes ++ rest, stop⟩)
    (h : (exec w written (Relays.relayAndCollect maxSize n (some [])) s).1 = .done (some b)) :
    b = reply.bytes ∧ messagesIn b = reply.body ++ [ready reply.status] := by
  obtain ⟨b₀, hb₀, rfl, hfits⟩ := collected_wires hw reply.noReady reply.bounded hs h
  obtain rfl := Option.some.inj hb₀
  exact ⟨rfl, messagesIn_wires hfits⟩

end

/-! ## The two read paths -/

structure Entry where
  extended : Bool
  query : Bytes
  value : Option Bytes
  deriving DecidableEq, Repr

structure Held where
  collected : Option Bytes
  stored : List Entry
  deriving DecidableEq, Repr

def collectAnswer : Outcome (Option Bytes) → Option Bool
  | .done buf => some buf.isSome
  | _ => none

def collectedOf : Outcome (Option Bytes) → Option Bytes
  | .done buf => buf
  | _ => none

def reads {ε τ : Type} (w : World (IoAns ε) τ) (maxSize : Int) (io : τ) : Machine Ans Held
  | .collect _, s, ans, t => ∃ n r,
      (exec w written (Relays.relayAndCollect maxSize n (some [])) io).1 = r ∧
      r ≠ .running ∧ ans = collectAnswer r ∧ t = { s with collected := collectedOf r }
  | .store extended query, s, _, t =>
      t = { s with stored := s.stored ++ [⟨extended, query, s.collected⟩] }
  | _, s, _, t => t = s

inductive ReadPath where
  | simple (cfg : Config) (msg : Message) (query : Bytes) (session : Router.Session)
  | extended (buf : List Message) (sync : Message)

def ReadPath.handle (env : Env) : ReadPath → Run Bool
  | .simple cfg msg query session => handleReadQuery env cfg msg query session
  | .extended buf sync => handleExtendedRead env buf sync

def Whole (reply : Reply) (value : Option Bytes) : Prop :=
  value = some reply.bytes ∧ messagesIn reply.bytes = reply.body ++ [ready reply.status]

def AllWhole (reply : Reply) (s : Held) : Prop := ∀ entry ∈ s.stored, Whole reply entry.value

def NoStore : Op → Prop
  | .store _ _ => False
  | _ => True

instance : LetsRelay NoStore where
  basic o ho := by
    cases o with
    | store => exact ho.elim
    | _ => trivial
  relay _ := trivial
  collect _ := trivial

section

variable {ε τ : Type} {w : World (IoAns ε) τ} {maxSize : Int} {io : τ} {reply : Reply}

theorem stable_noStore :
    Stable (reads w maxSize io) (fun _ => AllWhole reply) NoStore (AllWhole reply) := by
  refine fun o s ho hs => ⟨hs, fun ans t hstep => ?_⟩
  cases o with
  | store => exact ho.elim
  | collect c =>
    obtain ⟨n, r, -, -, -, rfl⟩ := hstep
    exact hs
  | _ =>
    obtain rfl := hstep
    exact hs

variable {s : Held}

theorem safe_noStore {α : Type} {p : Run α} (hp : p.All NoStore) (hs : AllWhole reply s) :
    Safe (reads w maxSize io) (fun _ => AllWhole reply) p (fun _ t => AllWhole reply t) s :=
  hp.safe stable_noStore hs

theorem safe_ask {α : Type} {o : Op} {f : Ans o → Run α} {Q : α → Held → Prop} (ho : NoStore o)
    (hs : AllWhole reply s)
    (hf : ∀ ans t, AllWhole reply t → Safe (reads w maxSize io) (fun _ => AllWhole reply)
      (f ans) Q t) : Safe (reads w maxSize io) (fun _ => AllWhole reply) (perform o >>= f) Q s :=
  (Prog.All.perform ho).then stable_noStore hs hf

theorem safe_store (hs : AllWhole reply s) (hcollected : Whole reply s.collected) (extended : Bool)
    (query : Bytes) :
    Safe (reads w maxSize io) (fun _ => AllWhole reply) (store extended query)
      (fun _ t => AllWhole reply t) s := by
  refine ⟨hs, fun _ t hstep => ?_⟩
  obtain rfl := hstep
  intro entry hentry
  obtain hentry | hentry := List.mem_append.mp hentry
  · exact hs entry hentry
  · obtain rfl := List.mem_singleton.mp hentry
    exact hcollected

variable {backend : τ → Framing.Stream ε} {rest : Bytes} {stop : ReadErr ε}

theorem safe_relayReply (hw : Serves w backend) (hio : backend io = ⟨reply.bytes ++ rest, stop⟩)
    (collects : Bool) (c : Pools.Conn) (hs : AllWhole reply s) :
    Safe (reads w maxSize io) (fun _ => AllWhole reply) (relayReply collects c)
      (fun ans t => AllWhole reply t ∧ (ans = some true → Whole reply t.collected)) s := by
  cases collects with
  | false =>
    refine safe_ask (by trivial) hs fun ok t ht => ?_
    cases ok <;> exact ⟨ht, by simp⟩
  | true =>
    refine ⟨hs, fun ans t hstep => ?_⟩
    obtain ⟨n, r, hr, -, rfl, rfl⟩ := hstep
    refine ⟨hs, fun hans => ?_⟩
    cases r with
    | running | failed => exact nomatch hans
    | done buf =>
      cases buf with
      | none => exact nomatch hans
      | some b =>
        obtain ⟨rfl, hmessages⟩ := collected_reply hw reply hio hr
        exact ⟨rfl, hmessages⟩

theorem safe_readFrom (hw : Serves w backend) (hio : backend io = ⟨reply.bytes ++ rest, stop⟩)
    (minLSN : Option Nat) (r : Request) (collects : Bool) {keep : Run Unit} (resets : Bool)
    (hkeep : ∀ t, AllWhole reply t → Whole reply t.collected → Safe (reads w maxSize io)
      (fun _ => AllWhole reply) keep (fun _ u => AllWhole reply u) t)
    (hs : AllWhole reply s) :
    Safe (reads w maxSize io) (fun _ => AllWhole reply)
      (readFrom minLSN r collects keep (fallbackToWriter r resets))
        (fun _ t => AllWhole reply t) s := by
  have hfall : (fallbackToWriter r resets).All NoStore :=
    all_fallbackToWriter resets fun _ => trivial
  refine safe_ask (by trivial) hs fun reader s hs => ?_
  cases reader with
  | none => exact safe_noStore hfall hs
  | some reader =>
    refine safe_ask (by trivial) hs fun ok s hs => ?_
    cases ok with
    | false => exact safe_noStore ((all_discard _ _).bind fun _ => hfall) hs
    | true =>
      refine (safe_relayReply hw hio collects reader.1 hs).bind fun ans s hs => ?_
      cases ans with
      | none => exact safe_noStore ((all_discard _ _).bind fun _ => .pure _) hs.1
      | some collected =>
        -- the release between the relay and the call of Set leaves the buffer alone
        refine ⟨hs.1, fun _ t ht => ?_⟩
        obtain rfl := ht
        cases collected with
        | false => exact hs.1
        | true =>
          change Safe _ _ (keep >>= fun _ => pure true) _ t
          exact safe_bind.mpr (hkeep t hs.1 (hs.2 rfl))

theorem safe_cachedOr (key : Option (Bool × Bytes)) {p : Run Bool}
    (hp : ∀ s, AllWhole reply s → Safe (reads w maxSize io)
      (fun _ => AllWhole reply) p (fun _ t => AllWhole reply t) s)
    (hs : AllWhole reply s) :
    Safe (reads w maxSize io) (fun _ => AllWhole reply) (cachedOr key p)
      (fun _ t => AllWhole reply t) s := by
  refine Relay.safe_cachedOr (fun _ _ => by trivial) stable_noStore (fun extended query t ht =>
    ?_) hp hs
  exact safe_noStore (.perform (by trivial)) ht

theorem safe_handle (hw : Serves w backend) (hio : backend io = ⟨reply.bytes ++ rest, stop⟩)
    (env : Env) (path : ReadPath) (hs : AllWhole reply s) :
    Safe (reads w maxSize io) (fun _ => AllWhole reply) (path.handle env)
      (fun _ t => AllWhole reply t) s := by
  cases path with
  | simple cfg msg query session =>
    refine safe_cachedOr _ (fun s hs => safe_readFrom hw hio _ _ _ false (fun t ht hcollected =>
      ?_) hs) hs
    exact safe_store ht hcollected false query
  | extended buf sync =>
    refine safe_cachedOr _ (fun s hs => safe_readFrom hw hio _ _ _ true (fun t ht hcollected =>
      ?_) hs) hs
    cases (if env.queryCache = true then batchKey buf else none) with
    | none => exact ht
    | some query => exact safe_store ht hcollected true query

end

/-- There is no error in the entry just if there was none in the reply. -/
theorem stored_clean_iff {ε τ : Type} {w : World (IoAns ε) τ} {backend : τ → Framing.Stream ε}
    (hw : Serves w backend) (maxSize : Int) (reply : Reply) {rest : Bytes} {stop : ReadErr ε}
    {io : τ} (hio : backend io = ⟨reply.bytes ++ rest, stop⟩) (env : Env) (path : ReadPath)
    {p : Run Bool} {t : Held} (hr : Reach (reads w maxSize io) (path.handle env) ⟨none, []⟩ p t) :
    ∀ entry ∈ t.stored, ∃ value, entry.value = some value ∧
    (NoErrors (messagesIn value) ↔ NoErrors reply.body) := by
  have hstart : AllWhole reply ⟨none, []⟩ := by simp [AllWhole]
  have hwhole : AllWhole reply t :=
    (safe_handle hw hio env path hstart).holds hr (fun _ _ h => h) fun _ _ h => h
  intro entry hentry
  obtain ⟨hvalue, hmessages⟩ := hwhole entry hentry
  refine ⟨reply.bytes, hvalue, ?_⟩
  rw [hmessages, NoErrors, List.forall_mem_append]
  exact and_iff_left (List.forall_mem_singleton.mpr (show msgReadyForQuery ≠
    msgErrorResponse by decide))

def replying (reply : Reply) : Side → Framing.Stream Empty
  | .client => ⟨[], .eof⟩
  | .backend => ⟨reply.bytes, .eof⟩

def cachingEnv : Env := { plainEnv false with queryCache := true }

def simpleRead : ReadPath :=
  .simple (plainQuery "SELECT 1").cfg (plainQuery "SELECT 1").msg (ascii "SELECT 1")
    (.new 0 false false)

def extendedRead : ReadPath :=
  .extended [⟨msgParse, 0 :: ascii "SELECT 1" ++ [0, 0, 0]⟩] ⟨msgSync, []⟩

theorem reach_stored (reply : Reply) (n : Nat)
    (h : (exec inMemory written (Relays.relayAndCollect 0 n (some [])) (replying reply)).1 =
      .done (some reply.bytes)) : ∀ path ∈ [(simpleRead, false), (extendedRead, true)], ∃ p t,
      Reach (reads inMemory 0 (replying reply)) (path.1.handle cachingEnv) ⟨none, []⟩ p t ∧
        t.stored = [⟨path.2, ascii "SELECT 1", some reply.bytes⟩] := by
  have hcollect : reads inMemory 0 (replying reply) (.collect 0) ⟨none, []⟩ (some true)
      ⟨some reply.bytes, []⟩ :=
    ⟨n, _, h, by simp, rfl, rfl⟩
  intro path hpath
  simp only [List.mem_cons, List.not_mem_nil, or_false] at hpath
  obtain rfl | rfl := hpath
  all_goals
    refine ⟨.ret true, ⟨some reply.bytes, [⟨_, _, some reply.bytes⟩]⟩, ?_, rfl⟩
    refine .ask false _ rfl (.ask (some (0,
      0)) _ rfl (.ask true _ rfl (.ask (some true) _ hcollect ?_)))
    exact .ask () _ rfl (.ask () _ rfl .refl)

def cleanReply : Reply := ⟨[⟨67, ascii "SELECT 1" ++ [0]⟩], [73], by decide, by decide⟩

theorem stored_clean_select :
    ∃ p t, Reach (reads inMemory 0 (replying cleanReply)) (simpleRead.handle cachingEnv)
    ⟨none, []⟩ p t ∧ t.stored ≠ [] ∧
      ∀ entry ∈ t.stored, ∃ value, entry.value = some value ∧
      (NoErrors (messagesIn value) ↔ NoErrors cleanReply.body) := by
  obtain ⟨p, t, hr, ht⟩ := reach_stored cleanReply 2 (by decide) _ (List.mem_cons_self ..)
  have hio : replying cleanReply .backend = ⟨cleanReply.bytes ++ [], .eof⟩ := by
    rfl
  exact ⟨p, t,
    hr, by simp [ht], stored_clean_iff serves_inMemory 0 cleanReply hio cachingEnv simpleRead hr⟩

def errorReply : Reply :=
  ⟨[⟨msgErrorResponse, ascii "C57014" ++ [0, 0]⟩], [73], by decide, by decide⟩

theorem error_stored : ¬ NoErrors (messagesIn errorReply.bytes) ∧
    ∀ path ∈ [(simpleRead, false), (extendedRead, true)], ∃ p t,
      Reach (reads inMemory 0 (replying errorReply)) (path.1.handle cachingEnv) ⟨none, []⟩ p t ∧
        t.stored = [⟨path.2, ascii "SELECT 1", some errorReply.bytes⟩] :=
  ⟨by decide, reach_stored errorReply 2 (by decide)⟩

end PgMux.CachedErrors
