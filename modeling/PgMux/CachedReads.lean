import PgMux.Balancer
import PgMux.Invalidation

/-!
# Cached results and the session's writes

Sessions with causal consistency share a cache. A session reads from readers that have replayed its
own writes, but a hit is served without a look at the position.
-/

namespace PgMux.CachedReads

open Balancer Effects Protocol QueryCache Relay
open Invalidation (Extractor)
open Pools (Conn Pool)
open Router (Session)

structure Setting where
  env : Env
  cfg : Relay.Config
  extractor : Extractor
  answer : Bytes → List Bytes → Bytes
  inUse : Bytes → Prop
  queryCache : env.queryCache = true
  causalConsistency : cfg.causalConsistency = true
  answer_append : ∀ query log write,
    (∀ t ∈ extractor.writeTables cfg write, t ∉ extractor.readTables cfg query) →
      answer query (log ++ [write]) = answer query log
  key_inj : ∀ q q', inUse q → inUse q' → extractor.key cfg false q = extractor.key cfg false q' →
    q = q'

structure Sys (ι : Type) where
  log : List Bytes
  replayed : Pool → Nat
  balancer : RoundRobin Pool
  cache : Cache
  sessions : ι → Session

structure Result where
  bytes : Bytes
  hit : Bool

structure Turn (ι : Type) extends Sys ι where
  via : Option Pool
  reply : Option Result
  answered : Option Result

section

variable {ι : Type}

def Turn.start (s : Sys ι) : Turn ι := ⟨s, none, none, none⟩

def Turn.position (s : Turn ι) : Nat := s.via.elim s.log.length s.replayed

def writing (x : Setting) (query : Bytes) : Machine Ans (Sys ι)
  | .send _ _, s, ok, t => ok = true ∧ t = { s with log := s.log ++ [query] }
  | .relay _, s, ok, t => ok = true ∧ t = s
  | .queryLSN _, s, lsn, t => lsn = some s.log.length ∧ t = s
  | .invalidate query, s, _, t =>
    t = { s with
      cache := (x.extractor.writeTables x.cfg query).foldl Cache.invalidateTable s.cache }
  | _, s, _, t => t = s

def reading (x : Setting) (query : Bytes) : Machine Ans (Turn ι)
  | .lookup extended query, s, hit, t =>
      ∃ now r, r = s.cache.get (x.extractor.key x.cfg extended query) now ∧
      hit = r.1.isSome ∧ t = { s with cache := r.2, reply := r.1.map (⟨·, true⟩) }
  | .client (.cached _ _), s, ok, t => t = { s with answered := if ok then s.reply else none }
  | .acquireReader minLSN, s, reader, t => ∃ r, r = s.balancer.choose (minLSN.getD 0) ∧
      match reader with
      | none => t = { s with balancer := r.2, via := none }
      | some (_, p) => ∃ b, r.1 = .found b ∧ b.addr = p ∧
          t = { s with balancer := r.2, via := some p }
  | .acquire _, s, _, t => t = { s with via := none }
  | .send _ _, s, ok, t => t = { s with
      reply := if ok then some ⟨x.answer query (s.log.take s.position), false⟩ else s.reply }
  | .collect _, s, ok, t => t = { s with answered := if ok.isSome then s.reply else none }
  | .relay _, s, ok, t => t = { s with answered := if ok then s.reply else none }
  | .store extended query, s, _, t => ∃ now, t = { s with
      cache := s.cache.set (x.extractor.key x.cfg extended query) (s.reply.elim [] Result.bytes)
        (x.extractor.readTables x.cfg query) now }
  | _, s, _, t => t = s

def CaughtUp (x : Setting) (query : Bytes) (log : List Bytes) (position : Nat) : Prop :=
  ∀ write ∈ log.drop position, ∀ t ∈ x.extractor.writeTables x.cfg write,
    t ∉ x.extractor.readTables x.cfg query

def Fills (x : Setting) (strict : Bool) (query : Bytes) : (o : Op) → Turn ι → Ans o → Turn ι → Prop
  | .store _ _, s, _, _ => strict = true → CaughtUp x query s.log s.position
  | _, _, _, _ => True

structure Answered (ι : Type) where
  session : ι
  query : Bytes
  result : Result

inductive Step [DecidableEq ι] (x : Setting) (strict : Bool) (s : Sys ι) :
    Option (Answered ι) → Sys ι → Prop where
  | write (i : ι) (c : Conn) (msg : Message) (query : Bytes) {session : Session} {t : Sys ι}
      (h : Reach (writing x query)
        (handleWriteQuery x.env x.cfg c msg query .write (s.sessions i)) s (.ret session) t) :
      Step x strict s none { t with sessions := Function.update t.sessions i session }
  | read (i : ι) (msg : Message) (query : Bytes) (huse : x.inUse query) {ok : Bool} {t : Turn ι}
      (h : Reach ((reading x query).restrict (Fills x strict query))
        (handleReadQuery x.env x.cfg msg query (s.sessions i)) (.start s) (.ret ok) t) :
      Step x strict s (t.answered.map (⟨i, query, ·⟩)) t.toSys
  | replay (p : Pool) (n : Nat) : Step x strict s none
      { s with replayed := Function.update s.replayed p (min (s.replayed p + n) s.log.length) }
  | poll (p : Pool) (lsn : Nat) (h : lsn ≤ s.replayed p) : Step x strict s none
      { s with balancer := s.balancer.setReplayLSN p lsn }
  | markUnhealthy (p : Pool) :
      Step x strict s none { s with balancer := s.balancer.markUnhealthy p }
  | checkBackends (dials : Backend Pool → Bool) : Step x strict s none
      { s with balancer := s.balancer.checkBackends dials }

def Sys.start (ι : Type) (readers : List Pool) (cfg : QueryCache.Config) (delay : Int)
    (astParser : Bool) : Sys ι where
  log := []
  replayed := fun _ => 0
  balancer := .new readers
  cache := .new cfg
  sessions := fun _ => .new delay true astParser

/-- What the databases answer at a position of the log no earlier than the session's last write. -/
def Reflects (x : Setting) (s : Sys ι) (a : Answered ι) : Prop :=
  ∃ position, (s.sessions a.session).lastWriteLSN ≤ position ∧ position ≤ s.log.length ∧
    a.result.bytes = x.answer a.query (s.log.take position)

end

/-! ## Answers -/

section

variable {x : Setting} {query : Bytes}

theorem answer_append_of_disjoint {log : List Bytes} (writes : List Bytes)
    (h : ∀ write ∈ writes, ∀ t ∈ x.extractor.writeTables x.cfg write,
      t ∉ x.extractor.readTables x.cfg query) :
    x.answer query (log ++ writes) = x.answer query log := by
  induction writes generalizing log with
  | nil => rw [List.append_nil]
  | cons write writes ih =>
    obtain ⟨hwrite, hrest⟩ := List.forall_mem_cons.mp h
    rw [List.append_cons, ih hrest, x.answer_append query log write hwrite]

theorem CaughtUp.answer_eq {log : List Bytes} {position : Nat} (h : CaughtUp x query log position) :
    x.answer query (log.take position) = x.answer query log := by
  have hall : x.answer query (log.take position ++ log.drop position) =
      x.answer query (log.take position) :=
    answer_append_of_disjoint _ h
  rwa [List.take_append_drop, eq_comm] at hall

def Current (x : Setting) (log : List Bytes) (e : Entry) : Prop :=
  ∃ query, x.inUse query ∧ e.key = x.extractor.key x.cfg false query ∧
    e.tables = x.extractor.readTables x.cfg query ∧ e.result = x.answer query log

theorem Current.write {log : List Bytes} {e : Entry} (h : Current x log e) {write : Bytes}
    (htables : ∀ t ∈ x.extractor.writeTables x.cfg write, t ∉ e.tables) :
    Current x (log ++ [write]) e := by
  obtain ⟨query, huse, hkey, hread, hresult⟩ := h
  refine ⟨query, huse, hkey, hread, ?_⟩
  rw [hresult, x.answer_append query log write (by rwa [← hread])]

end

/-! ## Steps -/

structure Sound {ι : Type} (x : Setting) (strict : Bool) (s : Sys ι) : Prop where
  replayed_le : ∀ p, s.replayed p ≤ s.log.length
  lsn_le : ∀ i, (s.sessions i).lastWriteLSN ≤ s.log.length
  recorded : Recorded s.replayed s.balancer
  current : strict = true → ∀ e ∈ s.cache.entries, Current x s.log e

variable {query : Bytes}

section

variable {ι : Type} {x : Setting} {strict : Bool}

theorem safe_handleWriteQuery (c : Conn) (msg : Message) (query : Bytes) (session : Session)
    (s : Sys ι) :
    Safe (writing x query) (fun _ _ => True)
      (handleWriteQuery x.env x.cfg c msg query .write session)
      (fun session' t => session' = session.setLastWriteLSN (s.log.length + 1) ∧ t = { s with
        log := s.log ++ [query]
        cache := (x.extractor.writeTables x.cfg query).foldl Cache.invalidateTable s.cache })
            s := by
  refine safe_bind.mpr (safe_bind.mpr ⟨trivial, fun ok t ht => ?_⟩)
  obtain ⟨rfl, rfl⟩ := ht
  refine ⟨trivial, fun ok t ht => ?_⟩
  obtain ⟨rfl, rfl⟩ := ht
  rw [x.causalConsistency, x.queryCache]
  refine ⟨trivial, fun lsn t ht => ?_⟩
  obtain ⟨rfl, rfl⟩ := ht
  refine ⟨trivial, fun _ t ht => ?_⟩
  obtain rfl := ht
  exact ⟨by simp, rfl⟩

variable {s : Sys ι} {t : Turn ι}

theorem Sound.write [DecidableEq ι] (h : Sound x strict s) (query : Bytes) (i : ι) :
    Sound x strict { s with
      log := s.log ++ [query]
      cache := (x.extractor.writeTables x.cfg query).foldl Cache.invalidateTable s.cache
      sessions :=
        Function.update s.sessions i ((s.sessions i).setLastWriteLSN (s.log.length + 1)) } where
  replayed_le p := by
    have hle := h.replayed_le p
    simp only [List.length_append, List.length_singleton]
    omega
  lsn_le j := by
    simp only [List.length_append, List.length_singleton]
    by_cases hj : j = i
    · subst hj
      rw [Function.update_self]
      exact Nat.le_refl _
    · rw [Function.update_of_ne hj]
      exact Nat.le_succ_of_le (h.lsn_le j)
  recorded := h.recorded
  current hstrict e he := by
    obtain ⟨he, htables⟩ := Cache.mem_foldl_invalidateTable he
    exact (h.current hstrict e he).write htables

def Good (x : Setting) (strict : Bool) (s : Sys ι) (i : ι) (query : Bytes) (r : Option Result) :
    Prop :=
  ∀ result ∈ r, (result.hit = true → strict = true) → Reflects x s ⟨i, query, result⟩

structure Serving (x : Setting) (strict : Bool) (s : Sys ι) (i : ι) (query : Bytes) (t : Turn ι) :
    Prop where
  log : t.log = s.log
  replayed : t.replayed = s.replayed
  sessions : t.sessions = s.sessions
  recorded : Recorded s.replayed t.balancer
  current : strict = true → ∀ e ∈ t.cache.entries, Current x s.log e
  position : (s.sessions i).lastWriteLSN ≤ t.position ∧ t.position ≤ s.log.length
  reply : Good x strict s i query t.reply
  answered : Good x strict s i query t.answered

def Plain (query : Bytes) (lsn : Nat) : Op → Prop
  | .lookup extended query' => extended = false ∧ query' = query
  | .acquireReader minLSN => minLSN = some lsn
  | .store _ _ => False
  | _ => True

section

variable {s : Sys ι} {i : ι} {query : Bytes}

theorem Good.ite {r : Option Result} (h : Good x strict s i query r) (ok : Bool) :
    Good x strict s i query (if ok then r else none) := by
  cases ok with
  | true => exact h
  | false => exact fun _ hr => nomatch hr

theorem position_none (h : t.via = none) : t.position = t.log.length :=
  by rw [Turn.position, h]; rfl

theorem position_some {p : Pool} (h : t.via = some p) : t.position = t.replayed p := by
  rw [Turn.position, h]; rfl

theorem good_get (hs : Sound x strict s) (huse : x.inUse query) {cache : Cache}
    (hcurrent : strict = true → ∀ e ∈ cache.entries, Current x s.log e) (now : Int) :
    Good x strict s i query ((cache.get (x.extractor.key x.cfg false query) now).1.map (⟨·,
      true⟩)) := by
  intro result hresult hstrict
  obtain ⟨bytes, hget, rfl⟩ := Option.map_eq_some_iff.mp hresult
  obtain ⟨e, he, hkey, rfl⟩ := Cache.get_eq_some hget
  obtain ⟨query', huse', hkey', -, hbytes⟩ := hcurrent (hstrict rfl) e he
  obtain rfl : query' = query := x.key_inj query' query huse' huse (hkey'.symm.trans hkey)
  exact ⟨s.log.length, hs.lsn_le i, Nat.le_refl _, by rw [List.take_length]; exact hbytes⟩

theorem Serving.onWriter (h : Serving x strict s i query t) (hs : Sound x strict s) :
    Serving x strict s i query { t with via := none } := by
  have hposition : ({ t with via := none } : Turn ι).position =
    s.log.length := by rw [position_none rfl, h.log]
  exact { h with position := by rw [hposition]; exact ⟨hs.lsn_le i, Nat.le_refl _⟩ }

theorem Serving.onReader (h : Serving x strict s i query t) (hs : Sound x strict s)
    {b : Backend Pool} (hfound : (t.balancer.choose (s.sessions i).lastWriteLSN).1 = .found b) :
    Serving x strict s i query { t with via := some b.addr } := by
  obtain ⟨hmem, -, hlsn⟩ := RoundRobin.choose_found hfound
  have hposition : ({ t with via := some b.addr } : Turn ι).position = s.replayed b.addr := by
    rw [position_some rfl, h.replayed]
  have hbehind : b.replayLSN ≤ s.replayed b.addr := h.recorded.behind b hmem
  exact { h with position := by rw [hposition]; exact ⟨hlsn.trans hbehind, hs.replayed_le b.addr⟩ }

theorem Serving.sent (h : Serving x strict s i query t) (ok : Bool) :
    Serving x strict s i query
      { t with reply := if ok then some ⟨x.answer query (t.log.take t.position), false⟩
        else t.reply } := by
  cases ok with
  | false => exact h
  | true =>
    have hreply : Good x strict s i query (some ⟨x.answer query (t.log.take t.position),
        false⟩) := by
      intro result hresult _
      obtain rfl := Option.some.inj hresult
      exact ⟨t.position, h.position.1, h.position.2, by rw [h.log]⟩
    exact { h with reply := hreply }

theorem stable_plain (hs : Sound x strict s) (huse : x.inUse query) :
    Stable ((reading x query).restrict (Fills x strict query)) (fun _ _ => True)
      (Plain query (s.sessions i).lastWriteLSN) (Serving x strict s i query) := by
  refine fun o t ho ht => ⟨trivial, fun ans u hstep => ?_⟩
  obtain ⟨hstep, -⟩ := hstep
  cases o with
  | store => exact ho.elim
  | lookup extended query' =>
    obtain ⟨rfl, rfl⟩ := ho
    obtain ⟨now, r, rfl, rfl, rfl⟩ := hstep
    exact { ht with
      current := fun hstrict e he => ht.current hstrict e (Cache.mem_get he)
      reply := good_get hs huse ht.current now }
  | client m =>
    cases m with
    | cached =>
      obtain rfl := hstep
      exact { ht with answered := ht.reply.ite ans }
    | _ =>
      obtain rfl := hstep
      exact ht
  | acquireReader minLSN =>
    obtain rfl := ho
    obtain ⟨r, rfl, hstep⟩ := hstep
    cases ans with
    | none =>
      obtain rfl := hstep
      exact { ht.onWriter hs with recorded := ht.recorded.choose _ }
    | some reader =>
      obtain ⟨b, hfound, hp, rfl⟩ := hstep
      rw [← hp]
      exact { ht.onReader hs hfound with recorded := ht.recorded.choose _ }
  | acquire =>
    obtain rfl := hstep
    exact ht.onWriter hs
  | send =>
    obtain rfl := hstep
    exact ht.sent ans
  | collect | relay =>
    obtain rfl := hstep
    exact { ht with answered := ht.reply.ite _ }
  | _ =>
    obtain rfl := hstep
    exact ht

theorem all_fallbackToWriter (msg : Message) (lsn : Nat) :
    (fallbackToWriter (.forward msg) false).All (Plain query lsn) := by
  refine (Prog.All.perform (by trivial)).bind fun p => (Prog.All.perform (by trivial)).bind fun c =>
    ?_
  cases c with
  | none => exact ((Prog.All.perform (by trivial)).bind fun _ => .pure _).bind fun _ => .pure _
  | some c =>
    refine ((Prog.All.perform (by trivial)).bind fun ok => ?_).bind fun ok => ?_
    · cases ok with
      | true => exact .perform (by trivial)
      | false => exact .pure _
    · cases ok <;> exact (Prog.All.perform (by trivial)).bind fun _ => .pure _

def Fetched (x : Setting) (query : Bytes) (t : Turn ι) : Prop :=
  t.reply = some ⟨x.answer query (t.log.take t.position), false⟩

theorem Serving.stored (h : Serving x strict s i query t) (huse : x.inUse query)
    (hfetched : Fetched x query t) (hfills : strict = true → CaughtUp x query t.log t.position)
    (now : Int) : Serving x strict s i query { t with
      cache := t.cache.set (x.extractor.key x.cfg false query) (t.reply.elim [] Result.bytes)
        (x.extractor.readTables x.cfg query) now } := by
  have hcurrent : strict = true → ∀ e ∈ (t.cache.set (x.extractor.key x.cfg false query)
      (t.reply.elim [] Result.bytes) (x.extractor.readTables x.cfg query) now).entries,
        Current x s.log e := by
    intro hstrict e he
    obtain he | rfl := Cache.mem_set he
    · exact h.current hstrict e he
    · refine ⟨query, huse, rfl, rfl, ?_⟩
      rw [hfetched, ← h.log]
      exact (hfills hstrict).answer_eq
  exact { h with current := hcurrent }

theorem safe_handleReadQuery (hs : Sound x strict s) (huse : x.inUse query) (msg : Message) :
    Safe ((reading x query).restrict (Fills x strict query)) (fun _ _ => True)
      (handleReadQuery x.env x.cfg msg query (s.sessions i))
        (fun _ t => Serving x strict s i query t) (.start s) := by
  have hstable := stable_plain (i := i) hs huse
  have hstart : Serving x strict s i query (.start s) := {
    log := rfl
    replayed := rfl
    sessions := rfl
    recorded := hs.recorded
    current := hs.current
    position := ⟨hs.lsn_le i, Nat.le_refl _⟩
    reply := fun _ h => nomatch h
    answered := fun _ h => nomatch h }
  have hfall :
      (fallbackToWriter (.forward msg) false).All (Plain query (s.sessions i).lastWriteLSN) :=
    all_fallbackToWriter msg _
  unfold handleReadQuery
  rw [x.queryCache, x.causalConsistency]
  refine (Prog.All.perform (by exact ⟨rfl, rfl⟩)).then hstable hstart fun hit t ht => ?_
  cases hit with
  | true => exact Prog.All.safe (.perform (by trivial)) hstable ht
  | false =>
    refine (Prog.All.perform (by rfl)).then hstable ht fun reader t ht => ?_
    cases reader with
    | none => exact hfall.safe hstable ht
    | some reader =>
      refine ⟨trivial, fun sent t₁ hsend => ?_⟩
      have ht₁ : Serving x strict s i query t₁ := (hstable _ t (by trivial) ht).2 sent t₁ hsend
      cases sent with
      | false =>
        exact Prog.All.safe ((Prog.All.perform (by trivial)).bind fun _ => hfall) hstable ht₁
      | true =>
        have hfetched : Fetched x query t₁ := by
          obtain ⟨rfl, -⟩ := hsend
          rfl
        refine ⟨trivial, fun collected t₂ hcollect => ?_⟩
        have ht₂ : Serving x strict s i query t₂ :=
          (hstable _ t₁ (by trivial) ht₁).2 collected t₂ hcollect
        cases collected with
        | none => exact Prog.All.safe ((Prog.All.perform (by trivial)).bind fun _ =>
            .pure _) hstable ht₂
        | some collected =>
          obtain ⟨rfl, -⟩ := hcollect
          -- the release leaves the result alone
          refine ⟨trivial, fun _ t₃ hrelease => ?_⟩
          obtain ⟨rfl, -⟩ := hrelease
          cases collected with
          | false => exact ht₂
          | true =>
            refine ⟨trivial, fun _ t₄ hstore => ?_⟩
            obtain ⟨⟨now, rfl⟩, hfills⟩ := hstore
            exact ht₂.stored huse hfetched hfills now

end

theorem Serving.sound {i : ι} (h : Serving x strict s i query t) (hs : Sound x strict s) :
    Sound x strict t.toSys where
  replayed_le p := by
    rw [h.replayed, h.log]
    exact hs.replayed_le p
  lsn_le j := by
    rw [h.sessions, h.log]
    exact hs.lsn_le j
  recorded := h.replayed.symm ▸ h.recorded
  current := h.log.symm ▸ h.current

theorem Serving.reflects {i : ι} (h : Serving x strict s i query t) {a : Answered ι}
    (ha : a ∈ t.answered.map (⟨i, query, ·⟩)) (hhit : a.result.hit = true → strict = true) :
    Reflects x t.toSys a := by
  obtain ⟨result, hresult, rfl⟩ := Option.map_eq_some_iff.mp ha
  obtain ⟨position, hlsn, hle, hbytes⟩ := h.answered result hresult hhit
  refine ⟨position, ?_, ?_, ?_⟩
  · rwa [h.sessions]
  · rwa [h.log]
  · rwa [h.log]

theorem Sound.step [DecidableEq ι] {t : Sys ι} {a : Option (Answered ι)} (hs : Sound x strict s)
    (h : Step x strict s a t) :
    Sound x strict t ∧ ∀ r ∈ a, (r.result.hit = true → strict = true) → Reflects x t r := by
  have hnone : ∀ t : Sys ι, ∀ r ∈ (none : Option (Answered ι)),
      (r.result.hit = true → strict = true) → Reflects x t r :=
    fun _ _ hr => nomatch hr
  cases h with
  | write i c msg query hreach =>
    obtain ⟨rfl, rfl⟩ := (safe_handleWriteQuery c msg query (s.sessions i) s).reach hreach
    exact ⟨hs.write query i, hnone _⟩
  | read i msg query huse hreach =>
    have hserving : Serving x strict s i query _ := (safe_handleReadQuery hs huse msg).reach hreach
    exact ⟨hserving.sound hs, fun r hr => hserving.reflects hr⟩
  | replay p n =>
    have hbetween : ∀ q, s.replayed q ≤
        Function.update s.replayed p (min (s.replayed p + n) s.log.length) q ∧
        Function.update s.replayed p (min (s.replayed p + n) s.log.length) q ≤ s.log.length := by
      intro q
      have hlog := hs.replayed_le q
      by_cases hq : q = p
      · subst hq
        rw [Function.update_self]
        omega
      · rw [Function.update_of_ne hq]
        exact ⟨Nat.le_refl _, hlog⟩
    have hrecorded := hs.recorded.mono fun q => (hbetween q).1
    exact ⟨{ hs with recorded := hrecorded, replayed_le := fun q => (hbetween q).2 }, hnone _⟩
  | poll p lsn hlsn => exact ⟨{ hs with recorded := hs.recorded.setReplayLSN hlsn }, hnone _⟩
  | markUnhealthy p => exact ⟨{ hs with recorded := hs.recorded.markUnhealthy p }, hnone _⟩
  | checkBackends dials => exact ⟨{ hs with recorded := hs.recorded.checkBackends dials }, hnone _⟩

def Reachable [DecidableEq ι] (x : Setting) (strict : Bool) (s₀ s : Sys ι) : Prop :=
  Relation.ReflTransGen (fun s t => ∃ a, Step x strict s a t) s₀ s

theorem sound_start (readers : List Pool) (cfg : QueryCache.Config) (delay : Int)
    (astParser : Bool) : Sound x strict (Sys.start ι readers cfg delay astParser) where
  replayed_le _ := Nat.le_refl 0
  lsn_le _ := Nat.le_refl 0
  recorded := recorded_new readers
  current _ _ he := absurd he List.not_mem_nil

theorem Sound.reachable [DecidableEq ι] {t : Sys ι} (hs : Sound x strict s)
    (h : Reachable x strict s t) : Sound x strict t := by
  induction h with
  | refl => exact hs
  | tail _ hstep ih =>
    obtain ⟨a, hstep⟩ := hstep
    exact (ih.step hstep).1

end

/-- A result is never older than the session's last write, if entries come from backends that miss
no write. -/
theorem results_reflect_writes {ι : Type} [DecidableEq ι] (x : Setting) (strict : Bool)
    {readers : List Pool} {cfg : QueryCache.Config} {delay : Int} {astParser : Bool} {s t : Sys ι}
    {a : Answered ι} (hs : Reachable x strict (.start ι readers cfg delay astParser) s)
    (h : Step x strict s (some a) t) (hhit : a.result.hit = true → strict = true) :
    Reflects x t a :=
  (((sound_start readers cfg delay astParser).reachable hs).step h).2 a rfl hhit

/-! ## A lagging reader fills the cache -/

section

variable {ι : Type} [DecidableEq ι] {x : Setting} {strict : Bool} {s : Sys ι}

theorem step_write (i : ι) (query : Bytes) : Step x strict s none { s with
    log := s.log ++ [query]
    cache := (x.extractor.writeTables x.cfg query).foldl Cache.invalidateTable s.cache
    sessions :=
        Function.update s.sessions i ((s.sessions i).setLastWriteLSN (s.log.length + 1)) } := by
  have hreach : Reach (writing x query)
      (handleWriteQuery x.env x.cfg 0 ⟨msgQuery, query⟩ query .write (s.sessions i)) s
      (.ret ((s.sessions i).setLastWriteLSN (s.log ++ [query]).length)) { s with
        log := s.log ++ [query]
        cache := (x.extractor.writeTables x.cfg query).foldl Cache.invalidateTable s.cache } := by
    unfold handleWriteQuery
    rw [x.queryCache, x.causalConsistency]
    refine .ask true _ ⟨rfl, rfl⟩ (.ask true _ ⟨rfl, rfl⟩ ?_)
    exact .ask (some _) _ ⟨rfl, rfl⟩ (.ask () _ rfl .refl)
  rw [List.length_append] at hreach
  exact .write i 0 ⟨msgQuery, query⟩ query hreach

theorem step_miss (i : ι) (huse : x.inUse query) (now : Int) {cache : Cache} {b : Backend Pool}
    (hget : s.cache.get (x.extractor.key x.cfg false query) now = (none, cache))
    (hfound : (s.balancer.choose (s.sessions i).lastWriteLSN).1 = .found b)
    (hfills : strict = true → CaughtUp x query s.log (s.replayed b.addr)) :
    Step x strict s
      (some ⟨i, query, ⟨x.answer query (s.log.take (s.replayed b.addr)), false⟩⟩) { s with
      balancer := (s.balancer.choose (s.sessions i).lastWriteLSN).2
      cache := cache.set (x.extractor.key x.cfg false query)
        (x.answer query (s.log.take (s.replayed b.addr)))
        (x.extractor.readTables x.cfg query) now } := by
  let result : Result := ⟨x.answer query (s.log.take (s.replayed b.addr)), false⟩
  let t : Turn ι := ⟨{ s with
    balancer := (s.balancer.choose (s.sessions i).lastWriteLSN).2
    cache :=
      cache.set (x.extractor.key x.cfg false query) result.bytes
      (x.extractor.readTables x.cfg query) now }, some b.addr, some result, some result⟩
  refine @Step.read _ _ x strict s i ⟨msgQuery, query⟩ query huse true t ?_
  unfold handleReadQuery
  rw [x.queryCache, x.causalConsistency]
  refine .ask false _ ⟨⟨now, _, hget.symm, rfl, rfl⟩, trivial⟩ ?_
  refine .ask (some (0, b.addr)) _ ⟨⟨_, rfl, b, hfound, rfl, rfl⟩, trivial⟩ ?_
  refine .ask true _ ⟨rfl, trivial⟩
    (.ask (some true) _ ⟨rfl, trivial⟩ (.ask () _ ⟨rfl, trivial⟩ ?_))
  exact .ask () _ ⟨⟨now, rfl⟩, hfills⟩ .refl

theorem step_hit (i : ι) (huse : x.inUse query) (now : Int) {cache : Cache} {bytes : Bytes}
    (hget : s.cache.get (x.extractor.key x.cfg false query) now = (some bytes, cache)) :
    Step x strict s (some ⟨i, query, ⟨bytes, true⟩⟩) { s with cache := cache } := by
  let t : Turn ι := ⟨{ s with cache := cache }, none, some ⟨bytes, true⟩, some ⟨bytes, true⟩⟩
  refine @Step.read _ _ x strict s i ⟨msgQuery, query⟩ query huse true t ?_
  unfold handleReadQuery
  rw [x.queryCache, x.causalConsistency]
  exact .ask true _ ⟨⟨now, _, hget.symm, rfl, rfl⟩, trivial⟩ (.ask true _ ⟨rfl, trivial⟩ .refl)

end

def selectT : Bytes := ascii "SELECT a FROM t"

def insertT : Bytes := ascii "INSERT INTO t VALUES (1)"

def counting : Setting where
  env := Invalidation.cachedEnv
  cfg := ⟨⟨false, false, false, false, false⟩, false, true⟩
  extractor := Invalidation.tableT
  answer _ log := [UInt8.ofNat log.length]
  inUse query := query = selectT
  queryCache := rfl
  causalConsistency := rfl
  answer_append _ _ _ h := absurd (List.mem_singleton_self _)
    (h (ascii "t") (List.mem_singleton_self _))
  key_inj _ _ hq hq' _ := hq.trans hq'.symm

def oneReader : Sys Bool := .start Bool [7] ⟨100, 60, 0⟩ 0 false

theorem own_write_seen :
    ∃ (s t : Sys Bool) (a : Answered Bool), Reachable counting true oneReader s ∧
    Step counting true s (some a) t ∧ a.result.hit = true ∧
    (t.sessions a.session).lastWriteLSN = 1 ∧ Reflects counting t a := by
  obtain ⟨s, t, hs, h, hlsn⟩ : ∃ s t : Sys Bool, Reachable counting true oneReader s ∧
      Step counting true s (some ⟨true, selectT, ⟨[1], true⟩⟩) t ∧
      (t.sessions true).lastWriteLSN = 1 := by
    refine ⟨_, _, ((Relation.ReflTransGen.single ⟨none, step_write true insertT⟩).tail ⟨none,
      .replay 7 1⟩).tail
      ⟨_, step_miss false rfl 0 rfl rfl fun _ write hwrite => ?_⟩, step_hit true rfl 0 rfl, rfl⟩
    exact absurd hwrite List.not_mem_nil
  exact ⟨s, t, _, hs, h, rfl, hlsn, results_reflect_writes counting true hs h fun _ => rfl⟩

theorem own_write_missing :
    ∃ (s t : Sys Bool) (a : Answered Bool), Reachable counting false oneReader s ∧
    Step counting false s (some a) t ∧ (t.sessions a.session).lastWriteLSN = 1 ∧
    ¬ Reflects counting t a := by
  refine ⟨_, _, _, (Relation.ReflTransGen.single ⟨none, step_write true insertT⟩).tail
    ⟨_, step_miss false rfl 0 rfl rfl nofun⟩, step_hit true rfl 0 rfl, rfl, ?_⟩
  rintro ⟨position, hlsn, hle, hbytes⟩
  obtain rfl : position = 1 := Nat.le_antisymm hle hlsn
  revert hbytes
  decide

end PgMux.CachedReads
