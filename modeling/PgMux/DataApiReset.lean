import PgMux.DataApi
import PgMux.PgBlocks

/-!
# Resets of the Data API

The proxy gives a connection back if its reset is answered without an error. The Data API reads over
errors to the end of the reply, and also sends an empty reset query.
-/

namespace PgMux.DataApiReset

open Effects Protocol Wire DataApi PgBlocks

/-! ## Streams -/

def arrives (ms : List Message) : Bool := ms.any (·.type = msgReadyForQuery)

def upToReady (ms : List Message) : List Message := ms.takeWhile (·.type ≠ msgReadyForQuery)

def Stream.past (c : Stream) : Stream :=
  { c with incoming := (c.incoming.dropWhile (·.type ≠ msgReadyForQuery)).tail }

theorem ready_ne_error : msgReadyForQuery ≠ msgErrorResponse := by decide

theorem eval_drain_iff (n : Nat) (c : Stream) :
    (eval Stream.answer (drainUntilReady n) c).1 = some true ↔ arrives c.incoming ∧
    (upToReady c.incoming).length < n := by
  induction n generalizing c with
  | zero => simp [drainUntilReady]
  | succ n ih =>
    obtain ⟨writes, incoming⟩ := c
    rw [drainUntilReady, eval_bind, eval_perform]
    cases incoming with
    | nil => simp [arrives, Stream.answer]
    | cons m ms =>
      by_cases hready : m.type = msgReadyForQuery
      · simp [hready, arrives, upToReady, Stream.answer]
      · simpa [hready, arrives, upToReady, Stream.answer] using ih ⟨writes, ms⟩

theorem eval_readReset_iff (n : Nat) (c : Stream) :
    (eval Stream.answer (readReset n) c).1 = some true ↔
      arrives c.incoming ∧ (∀ m ∈ upToReady c.incoming, m.type ≠ msgErrorResponse) ∧
      (upToReady c.incoming).length < n := by
  induction n generalizing c with
  | zero => simp [readReset]
  | succ n ih =>
    obtain ⟨writes, incoming⟩ := c
    rw [readReset, eval_bind, eval_perform]
    cases incoming with
    | nil => simp [arrives, Stream.answer]
    | cons m ms =>
      by_cases hready : m.type = msgReadyForQuery
      · simp [hready, ready_ne_error, arrives, upToReady, Stream.answer]
      · by_cases herror : m.type = msgErrorResponse
        · simp [herror, ready_ne_error.symm, upToReady, Stream.answer]
        · simpa [hready, herror, arrives, upToReady, Stream.answer] using ih ⟨writes, ms⟩

variable {c c₁ : Stream}

theorem eval_readResponse {ρ : Type} (add : ρ → Message → ρ) (n : Nat) (resp : ρ) {r : ρ}
    (h : eval Stream.answer (readResponse add n resp) c = (some (.ok r), c₁)) :
    c₁ = Stream.past c := by
  induction n generalizing resp c with
  | zero => simp [readResponse] at h
  | succ n ih =>
    obtain ⟨writes, incoming⟩ := c
    rw [readResponse, eval_bind, eval_perform] at h
    cases incoming with
    | nil => simp [Stream.answer] at h
    | cons m ms =>
      by_cases herror : m.type = msgErrorResponse
      · simp [herror, Stream.answer, eval_bind] at h
      · by_cases hready : m.type = msgReadyForQuery
        · have hstream : (⟨writes, ms⟩ : Stream) = c₁ := by
            simpa [Stream.answer, hready, ready_ne_error] using congrArg Prod.snd h
          simp [Stream.past, hready, ← hstream]
        · simp only [Stream.answer, List.head?_cons, herror, hready, ↓reduceIte,
            List.tail_cons] at h
          rw [ih _ h]
          simp [Stream.past, hready]

theorem eval_readResponse_mono {ρ : Type} (add : ρ → Message → ρ) {n n' : Nat} (hn : n ≤ n')
    (resp : ρ) {r : ρ} (h : eval Stream.answer (readResponse add n resp) c = (some (.ok r), c₁)) :
    eval Stream.answer (readResponse add n' resp) c = (some (.ok r), c₁) := by
  induction n generalizing n' resp c with
  | zero => simp [readResponse] at h
  | succ n ih =>
    obtain ⟨n', rfl⟩ : ∃ k, n' = k + 1 := ⟨n' - 1, by omega⟩
    obtain ⟨writes, incoming⟩ := c
    rw [readResponse, eval_bind, eval_perform] at h ⊢
    cases incoming with
    | nil => exact h
    | cons m ms =>
      by_cases herror : m.type = msgErrorResponse
      · simp [herror, Stream.answer, eval_bind] at h
      · by_cases hready : m.type = msgReadyForQuery
        · simpa [Stream.answer, hready, ready_ne_error] using h
        · simp only [Stream.answer, List.head?_cons, herror, hready, ↓reduceIte,
            List.tail_cons] at h ⊢
          exact ih (by omega) _ h

section

variable {ρ : Type} (add : ρ → Message → ρ) (empty : ρ) (resetQuery sql : Bytes)

def BehindQuery (c c₁ : Stream) : Prop :=
  ∃ n resp, eval Stream.answer (executeQuery add empty sql n) c = (some (.ok resp), c₁)

def Drained (c : Stream) : Prop := c.writes.head? = some true ∧ arrives c.incoming

def Resets (c : Stream) : Prop := ∃ n, (eval Stream.answer (resetConn resetQuery n) c).1 = some true

def Releases (c : Stream) : Prop :=
  ∃ n p x, Reach (api (.ofWorld Stream.answer)) (executeOnPool add empty resetQuery sql true n)
    (.start, c) p x ∧ p.head = some .release

def Strict (c : Stream) : Prop :=
  if resetQuery = [] then Drained c else Drained c → ∀ m ∈ upToReady c.incoming,
    m.type ≠ msgErrorResponse

def sent (c : Stream) : Stream := if sql = [] then c else { c with writes := c.writes.tail }

theorem eval_executeQuery_iff {n : Nat} {resp : ρ} :
    eval Stream.answer (executeQuery add empty sql n) c = (some (.ok resp), c₁) ↔
      (sql = [] ∨ c.writes.head? = some true) ∧
        eval Stream.answer (readResponse add n empty) (sent sql c) = (some (.ok resp), c₁) := by
  unfold executeQuery sent
  by_cases hempty : sql = []
  · simp [hempty]
  · simp only [hempty, ↓reduceIte, eval_bind, eval_perform, false_or]
    obtain ⟨writes, incoming⟩ := c
    cases writes with
    | nil => simp [Stream.answer]
    | cons ok writes =>
      cases ok <;> simp [Stream.answer]

theorem behindQuery_unique {c₂ : Stream} (h₁ : BehindQuery add empty sql c c₁)
    (h₂ : BehindQuery add empty sql c c₂) : c₁ = c₂ := by
  obtain ⟨n, resp, h₁⟩ := h₁
  obtain ⟨n', resp', h₂⟩ := h₂
  rw [eval_readResponse add n empty ((eval_executeQuery_iff add empty sql).mp h₁).2,
    eval_readResponse add n' empty ((eval_executeQuery_iff add empty sql).mp h₂).2]

theorem resets_iff (c : Stream) : Resets resetQuery c ↔
    resetQuery = [] ∨ (Drained c ∧ ∀ m ∈ upToReady c.incoming, m.type ≠ msgErrorResponse) := by
  unfold Resets resetConn
  by_cases hempty : resetQuery = []
  · simp [hempty]
  · simp only [hempty, ↓reduceIte, false_or, eval_bind, eval_perform, Drained]
    obtain ⟨writes, incoming⟩ := c
    cases writes with
    | nil => simp [Stream.answer]
    | cons ok writes =>
      cases ok with
      | false => simp [Stream.answer]
      | true =>
        simp only [Stream.answer, List.headD_cons, List.tail_cons, ↓reduceIte, eval_readReset_iff,
          List.head?_cons, true_and]
        constructor
        · rintro ⟨n, harrives, hquiet, _⟩
          exact ⟨harrives, hquiet⟩
        · rintro ⟨harrives, hquiet⟩
          exact ⟨_, harrives, hquiet, Nat.lt_succ_self _⟩

theorem releases_of_drained (hquery : BehindQuery add empty sql c c₁) (hdrained : Drained c₁) :
    Releases add empty resetQuery sql c := by
  obtain ⟨n, resp, hquery⟩ := hquery
  obtain ⟨writes, incoming⟩ := c₁
  obtain ⟨hwrite, harrives⟩ := hdrained
  obtain ⟨rest, rfl⟩ : ∃ rest, writes = true :: rest := List.head?_eq_some_iff.mp hwrite
  let fuel := max n ((upToReady incoming).length + 1)
  have hquery' : eval Stream.answer (executeQuery add empty sql fuel) c = (some (.ok resp),
      ⟨true :: rest, incoming⟩) := by
    rw [eval_executeQuery_iff] at hquery ⊢
    exact ⟨hquery.1, eval_readResponse_mono add (Nat.le_max_left _ _) empty hquery.2⟩
  have hdrain : (eval Stream.answer (drainUntilReady fuel) ⟨rest, incoming⟩).1 = some true :=
    (eval_drain_iff fuel _).mpr ⟨harrives, Nat.le_max_right _ _⟩
  have hreach := reach_eval Stream.answer (executeQuery add empty sql fuel) c
  have hreach' := reach_eval Stream.answer (drainUntilReady fuel) ⟨rest, incoming⟩
  rw [hquery'] at hreach
  rw [hdrain] at hreach'
  exact ⟨fuel, _, _, reach_release hreach rfl hreach' (.single (.stop rfl rfl)) rfl, rfl⟩

end

/-! ## Runs of the call -/

theorem safe_onConn {κ : Type} {w : World WireAns κ} {pre : ApiOp → Shared × κ → Prop}
    (hpre : ∀ o x, pre (.wire o) x) {α : Type} (p : Talk α) {k : Nat} {s : Shared} (hs : Unseen k s)
    (c : κ) :
    Safe (api (.ofWorld w)) pre (onConn p) (DataApi.Leaves k fun a d => (a, d) = eval w p c)
      (s, c) := by
  induction p generalizing s c with
  | ret a => exact ⟨hs, .inr rfl⟩
  | op o k' ih =>
    refine ⟨hpre o _, fun ans y ⟨t, hticks, hsame, hact⟩ => ?_⟩
    obtain ⟨t', d⟩ := y
    obtain rfl : t' = t := hsame
    have ht : Unseen k t' := hs.ticks hticks
    by_cases hdeadline : t'.deadline = true
    · exact safe_onConn_expired hpre (k' ans) ht hdeadline
    · rw [if_neg hdeadline] at hact
      have hworld : w o c = (ans, d) := hact
      simp only [eval, hworld]
      exact ih ans ht d

section

variable {ρ : Type} (add : ρ → Message → ρ) (empty : ρ) (resetQuery sql : Bytes)

theorem drained_of_eval {c' : Stream} {m : Message} {n : Nat}
    (hrequest : (true, c') = Stream.answer (.request m) c)
    (hdrain : (eval Stream.answer (drainUntilReady n) c').1 = some true) : Drained c := by
  obtain ⟨hwrite, rfl⟩ := Prod.mk.inj hrequest
  refine ⟨?_, ((eval_drain_iff n _).mp hdrain).1⟩
  cases hwrites : c.writes with
  | nil => simp [hwrites] at hwrite
  | cons ok rest => simpa [hwrites] using hwrite.symm

theorem drained_of_releases (h : Releases add empty resetQuery sql c) :
    ∃ c₁, BehindQuery add empty sql c c₁ ∧ Drained c₁ := by
  obtain ⟨n, p, x, hreach, hhead⟩ := h
  let T : Prop := ∃ c₁, BehindQuery add empty sql c c₁ ∧ Drained c₁
  have hpre : ∀ (o : ApiOp) (_ : Shared × Stream), o ≠ .release → o = .release → T :=
    fun _ _ hne heq => absurd heq hne
  have hsafe : Safe (api (.ofWorld Stream.answer)) (fun o _ => o = .release → T)
      (executeOnPool add empty resetQuery sql true n) (fun _ _ => True) (.start, c) := by
    refine safe_executeOnPool (R := fun ok d => ∃ c₁, BehindQuery add empty sql c c₁ ∧
        (ok, d) = Stream.answer (.request ⟨msgQuery, resetQuery ++ [0]⟩) c₁) (D := fun r _ =>
        r = some true → T) hpre true c
      (fun s hs => safe_onConn (fun _ _ => nofun) _ hs c) (fun resp x hx hQ => ?_)
        (fun y hy => ?_) fun _ _ hD _ => hD rfl
    · have hbehind : BehindQuery add empty sql c x.2 := ⟨n, resp, hQ.symm⟩
      refine (safe_onConn (fun _ _ => nofun) _ hx x.2).mono fun ok y hy =>
      ⟨hy.1, hy.2.imp_right fun heval => ?_⟩
      exact ⟨x.2, hbehind, heval⟩
    · obtain ⟨hunseen, hdeadline | ⟨c₁, hbehind, hrequest⟩⟩ := hy
      · exact safe_onConn_expired (fun _ _ => nofun) _ hunseen hdeadline
      · refine (safe_onConn (fun _ _ => nofun) _ hunseen y.2).mono fun r z hz =>
          ⟨hz.1, hz.2.imp_right fun heval hr => ?_⟩
        exact ⟨c₁, hbehind, drained_of_eval hrequest (hr ▸ congrArg Prod.fst heval.symm)⟩
  exact hsafe.guarded hreach hhead rfl

theorem releases_iff_resets (h : BehindQuery add empty sql c c₁) :
    (Releases add empty resetQuery sql c ↔ Resets resetQuery c₁) ↔ Strict resetQuery c₁ := by
  have hreleases : Releases add empty resetQuery sql c ↔ Drained c₁ := by
    constructor
    · intro hreleases
      obtain ⟨c₂, hbehind, hdrained⟩ := drained_of_releases add empty resetQuery sql hreleases
      exact behindQuery_unique add empty sql hbehind h ▸ hdrained
    · exact releases_of_drained add empty resetQuery sql h
  rw [hreleases, resets_iff, Strict]
  split
  · rename_i hempty
    simp [hempty]
  · rename_i hempty
    simp [hempty]

end

/-! ## Transaction blocks -/

def discardAll : Bytes := ascii "DISCARD ALL"

structure Session where
  status : Status
  pending : List Message
  erred : Bool

section

variable (outcomes : Status → Bytes → List Status)

/-- A server session behind the Data API. `outcomes` is what the server can do to a block by a text;
DISCARD ALL is refused inside a block. -/
def serve : Machine WireAns Session := fun o c ans d =>
  match o, ans with
  | .request m, true => ∃ reply st, IsReply reply ∧
      st ∈ outcomes c.status (extractQueryText m.payload) ∧
    (extractQueryText m.payload = discardAll → c.status ≠ .idle →
      reply.any (·.type = msgErrorResponse) = true ∧ st = c.status.fail) ∧
    d = ⟨st, c.pending ++ reply, reply.any (·.type = msgErrorResponse)⟩
  | .read, some m => c.pending = m :: d.pending ∧ d.status = c.status ∧ d.erred = c.erred
  | .read, none => d = c
  | .request _, false => True
  | _, _ => False

end

def Tidy (d : Session) : Prop := d.erred = false → d.status = .idle

section

variable {outcomes : Status → Bytes → List Status}

theorem tidy_of_reset {c d : Session} (hdiscard : ∀ st ∈ outcomes .idle discardAll, st = .idle)
    (h : serve outcomes (.request ⟨msgQuery, discardAll ++ [0]⟩) c true d) : Tidy d := by
  obtain ⟨reply, st, _, hst, hblock, rfl⟩ := h
  have htext : extractQueryText (discardAll ++ [0]) = discardAll := by decide
  intro herred
  cases hstatus : c.status with
  | idle =>
    rw [htext, hstatus] at hst
    exact hdiscard st hst
  | _ =>
    have herror := (hblock htext (by simp [hstatus])).1
    exact absurd herror (Bool.eq_false_iff.mp herred)

theorem tidy_of_read {c d : Session} {m : Option Message} (h : serve outcomes .read c m d)
    (hc : Tidy c) : Tidy d := by
  cases m with
  | none => exact (show d = c from h) ▸ hc
  | some m =>
    obtain ⟨_, hstatus, herred⟩ := h
    intro hd
    rw [hstatus]
    exact hc (herred.symm.trans hd)

theorem drain_reads (n : Nat) : (drainUntilReady n).All (· = .read) := by
  induction n with
  | zero => trivial
  | succ n ih =>
    refine ⟨rfl, fun m => ?_⟩
    cases m with
    | none => trivial
    | some m =>
      change Prog.All _ (if _ then _ else _)
      split
      · trivial
      · exact ih

theorem safe_reads {pre : ApiOp → Shared × Session → Prop} (hpre : ∀ o x, pre (.wire o) x)
    {α : Type} {p : Talk α} (hp : p.All (· = .read)) {k : Nat} {x : Shared × Session}
    (hx : Unseen k x.1) (htidy : Tidy x.2) :
    Safe (api (serve outcomes)) pre (onConn p) (DataApi.Leaves k fun _ d => Tidy d) x := by
  induction p generalizing x with
  | ret a => exact ⟨hx, .inr htidy⟩
  | op o k' ih =>
    obtain ⟨rfl, hrest⟩ := hp
    refine ⟨hpre _ _, fun ans y ⟨t, hticks, hsame, hact⟩ => ?_⟩
    obtain ⟨t', d⟩ := y
    obtain rfl : t' = t := hsame
    have ht : Unseen k t' := hx.ticks hticks
    by_cases hdeadline : t'.deadline = true
    · exact safe_onConn_expired hpre (k' ans) ht hdeadline
    · rw [if_neg hdeadline] at hact
      exact ih ans (hrest ans) ht (tidy_of_read hact htidy)

theorem released_tidy {ρ : Type} (add : ρ → Message → ρ) (empty : ρ) (sql : Bytes) (hasPool : Bool)
    (n : Nat) (c : Session) {p : Api (Option (Except ApiErr ρ))} {x : Shared × Session}
    (hdiscard : ∀ st ∈ outcomes .idle discardAll, st = .idle)
    (h : Reach (api (serve outcomes)) (executeOnPool add empty discardAll sql hasPool n)
      (.start, c) p x)
    (hp : p.head = some .release) : Tidy x.2 := by
  have hwire : ∀ (o : WireOp) (x : Shared × Session), ApiOp.wire o = .release → Tidy x.2 :=
    fun _ _ => nofun
  have hsafe : Safe (api (serve outcomes)) (fun o x => o = .release → Tidy x.2)
      (executeOnPool add empty discardAll sql hasPool n)
      (fun _ _ => True) (.start, c) := by
    refine safe_executeOnPool (Q := fun _ _ => True) (R := fun ok d => ok = true → Tidy d)
      (D := fun _ d => Tidy d)
      (fun _ _ hne heq => absurd heq hne) hasPool c (fun s hs => ?_) (fun _ x hx _ => ?_)
        (fun y hy => ?_) fun _ _ hD _ => hD
    · have hstable : Stable (api (serve outcomes)) (fun o x => o = .release → Tidy x.2)
          (fun o => ∃ w, o = .wire w) fun x => Unseen 0 x.1 :=
        stable_onConn (fun _ _ h hstep => h.tick hstep) hwire
      exact ((onConn_all _).safe hstable hs).mono fun _ _ hy => ⟨hy, .inr trivial⟩
    · refine ⟨hwire _ _, fun ok y ⟨t, hticks, hsame, hact⟩ => ?_⟩
      obtain ⟨t', d⟩ := y
      obtain rfl : t' = t := hsame
      refine ⟨hx.ticks hticks, ?_⟩
      by_cases hdeadline : t'.deadline = true
      · exact .inl hdeadline
      · rw [if_neg hdeadline] at hact
        right
        rintro rfl
        exact tidy_of_reset hdiscard hact
    · obtain ⟨hunseen, hdeadline | htidy⟩ := hy
      · exact safe_onConn_expired hwire _ hunseen hdeadline
      · exact safe_reads hwire (drain_reads n) hunseen (htidy rfl)
  exact hsafe.guarded h hp rfl

end

/-- A connection goes back to the pool only when the answer to the reset query was read up to its
end; that is the same as a reset that succeeded exactly where no error was read. Behind DISCARD ALL
without an error no block is open, for every server that leaves none open by it outside a block. -/
theorem api_resets {ρ : Type} (add : ρ → Message → ρ) (empty : ρ) (sql : Bytes) :
    (∀ resetQuery c, Releases add empty resetQuery sql c → ∃ c₁, BehindQuery add empty sql c c₁ ∧
      Drained c₁) ∧ (∀ resetQuery c c₁, BehindQuery add empty sql c c₁ →
        ((Releases add empty resetQuery sql c ↔ Resets resetQuery c₁) ↔ Strict resetQuery c₁)) ∧
      ∀ outcomes : Status → Bytes → List Status, (∀ st ∈ outcomes .idle discardAll, st = .idle) →
        ∀ (hasPool : Bool) (n : Nat) (c : Session) (p : Api (Option (Except ApiErr ρ)))
          (x : Shared × Session),
        Reach (api (serve outcomes)) (executeOnPool add empty discardAll sql hasPool n)
          (.start, c) p x → p.head = some .release → x.2.erred = false → x.2.status = .idle :=
  ⟨fun resetQuery _ h => drained_of_releases add empty resetQuery sql h,
    fun resetQuery _ _ h => releases_iff_resets add empty resetQuery sql h,
    fun _ hdiscard hasPool n c _ _ h hp => released_tidy add empty sql hasPool n c hdiscard h hp⟩

def ready : Message := ⟨msgReadyForQuery, [73]⟩

def failure : Message := ⟨msgErrorResponse, [0]⟩

theorem resets_differ :
    (∃ c c₁, BehindQuery (fun _ _ => ()) () (ascii "BEGIN") c c₁ ∧
      Releases (fun _ _ => ()) () discardAll (ascii "BEGIN") c ∧ ¬ Resets discardAll c₁) ∧
    (∃ p x, Reach (api (serve command))
      (executeOnPool (fun _ _ => ()) () discardAll (ascii "BEGIN") true 2)
      (.start, ⟨.idle, [], false⟩) p x ∧ p.head = some .release ∧ x.2.status = .failed) ∧
    ∃ c c₁, BehindQuery (fun _ _ => ()) () (ascii "SELECT 1") c c₁ ∧
      ¬ Releases (fun _ _ => ()) () [] (ascii "SELECT 1") c ∧ Resets [] c₁ := by
  refine ⟨?_, ?_, ?_⟩
  · have hbehind : BehindQuery (fun _ _ => ()) () (ascii "BEGIN")
        ⟨[true, true], [ready, failure, ready]⟩
        ⟨[true], [failure, ready]⟩ := ⟨1, (), rfl⟩
    refine ⟨_, _, hbehind, releases_of_drained _ _ _ _ hbehind ⟨rfl, rfl⟩, fun hresets => ?_⟩
    obtain hempty | ⟨_, hquiet⟩ := (resets_iff _ _).mp hresets
    · exact absurd hempty (by decide)
    · exact hquiet failure (by decide) rfl
  · have hquery : Reach (serve command) (executeQuery (fun _ _ => ()) () (ascii "BEGIN") 2)
        ⟨.idle, [], false⟩ (.ret (some (.ok ())))
        ⟨.inTx, [], false⟩ := by
      refine .ask true ⟨.inTx, [ready], false⟩
        ⟨[ready], .inTx, rfl, by decide +kernel, fun h => absurd h (by decide), rfl⟩ ?_
      exact .ask (some ready) ⟨.inTx, [], false⟩ ⟨rfl, rfl, rfl⟩ .refl
    have hreset : serve command (.request ⟨msgQuery, discardAll ++ [0]⟩)
        ⟨.inTx, [], false⟩ true ⟨.failed, [failure, ready], true⟩ :=
      ⟨[failure, ready], .failed, rfl, by decide +kernel, fun _ _ => ⟨rfl, rfl⟩, rfl⟩
    have hdrain : Reach (serve command) (drainUntilReady 2) ⟨.failed, [failure, ready], true⟩
        (.ret (some true)) ⟨.failed, [], true⟩ :=
      .ask (some failure) ⟨.failed, [ready], true⟩ ⟨rfl, rfl, rfl⟩
        (.ask (some ready) ⟨.failed, [], true⟩ ⟨rfl, rfl, rfl⟩ .refl)
    exact ⟨_, _, reach_release hquery hreset hdrain (.single (.stop rfl rfl)) rfl, rfl, rfl⟩
  · have hbehind : BehindQuery (fun _ _ => ()) () (ascii "SELECT 1") ⟨[true], [ready]⟩ ⟨[], []⟩ :=
      ⟨1, (), rfl⟩
    refine ⟨_, _, hbehind, fun hreleases => ?_, (resets_iff _ _).mpr (.inl rfl)⟩
    obtain ⟨c₁, hc₁, hdrained⟩ := drained_of_releases _ _ _ _ hreleases
    rw [behindQuery_unique _ _ _ hc₁ hbehind] at hdrained
    exact absurd hdrained.2 (by decide)

end PgMux.DataApiReset
