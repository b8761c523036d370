import PgMux.Loans
import PgMux.LoopInvariant

/-!
# The connections a session holds

In every run, with reloads between any two operations, a session uses and gives back only
connections that it holds.
-/

namespace PgMux.Holding

open Effects PgQuery Protocol Relay
open Router hiding Env
open Pools (Conn Pool)

def borrowed : (o : Op) → Ans o → Option Conn
  | .acquireWriter, c | .acquire _, c => c
  | .acquireReader _, r => r.map Prod.fst
  | _, _ => none

def givenBack : Op → Option Conn
  | .release c _ | .discard c _ => some c
  | _ => none

def used : Op → Option Conn
  | .send c _ | .relay c | .collect c | .relayDescribe c | .queryLSN c | .reset c | .release c _
  | .discard c _ | .nilPool c => some c
  | _ => none

def next (o : Op) (s : Set Conn) (ans : Ans o) : Set Conn :=
  {c | (c ∈ s ∨ borrowed o ans = some c) ∧ givenBack o ≠ some c}

def step : Machine Ans (Set Conn) :=
  fun o s ans t => (∀ c ∈ borrowed o ans, c ∉ s) ∧ t = next o s ans

/-- A session uses what it holds. -/
def Held (o : Op) (s : Set Conn) : Prop := ∀ c ∈ used o, c ∈ s

variable {o : Op}

theorem next_of_none {s : Set Conn} {ans : Ans o} (hb : borrowed o ans = none)
    (hg : givenBack o = none) : next o s ans = s := by
  ext c
  simp [next, hb, hg]

theorem next_of_borrowed {s : Set Conn} {ans : Ans o} {c : Conn} (hb : borrowed o ans = some c)
    (hg : givenBack o = none) : next o s ans = insert c s := by
  ext d
  simp [next, hb, hg, or_comm, eq_comm]

theorem next_of_givenBack {s : Set Conn} {ans : Ans o} {c : Conn} (hb : borrowed o ans = none)
    (hg : givenBack o = some c) : next o s ans = s \ {c} := by
  ext d
  simp [next, hb, hg, eq_comm]

/-! ## Exchanges -/

structure Within (s : Set Conn) (o : Op) : Prop where
  borrowed : ∀ ans, borrowed o ans = none
  givenBack : givenBack o = none
  held : Held o s

instance (s : Set Conn) : Answers (Within s) := ⟨fun _ _ => ⟨fun _ => rfl, rfl, nofun⟩⟩

section

variable {env : Env} {s : Set Conn} {c : Conn}

theorem stable_within : Stable step Held (Within s) (· = s) := by
  rintro o t ho rfl
  refine ⟨ho.held, fun ans u hu => ?_⟩
  rw [hu.2, next_of_none (ho.borrowed ans) ho.givenBack]

theorem within_used (hb : ∀ ans, borrowed o ans = none) (hg : givenBack o = none)
    (hu : used o = some c) (hc : c ∈ s) : Within s o := by
  refine ⟨hb, hg, fun d hd => ?_⟩
  obtain rfl : c = d := Option.some.inj (hu.symm.trans hd)
  exact hc

theorem all_exchange (r : Request) (hc : c ∈ s) : (exchange c r).All (Within s) := by
  refine (Prog.All.perform (within_used (fun _ => rfl) rfl rfl hc)).bind fun ok => ?_
  cases ok with
  | true => exact .perform (within_used (fun _ => rfl) rfl rfl hc)
  | false => exact .pure _

theorem all_handleWriteQuery (cfg : Config) (msg : Message) (query : Bytes) (qtype : QueryType)
    (session : Session) (hc : c ∈ s) :
    (handleWriteQuery env cfg c msg query qtype session).All (Within s) := by
  refine (all_exchange _ hc).bind fun ok => ?_
  cases ok with
  | false => exact .pure _
  | true =>
    have hlsn : ∀ asks, (lsnAfter asks c).All (Within s) := by
      intro asks
      cases asks with
      | true => exact .perform (within_used (fun _ => rfl) rfl rfl hc)
      | false => exact .pure _
    exact (hlsn _).bind fun _ => (all_onlyIf _ (.perform ⟨fun _ => rfl, rfl, nofun⟩)).bind fun _ =>
      .pure _

/-! ## Giving back -/

theorem safe_return {p : Pool} (ho : o = .release c p ∨ o = .discard c p) (hc : c ∈ s) :
    Safe step Held (perform o) (fun _ t => t = s \ {c}) s := by
  obtain ⟨hb, hg, hu⟩ : (∀ ans, borrowed o ans = none) ∧ givenBack o = some c ∧
      used o = some c := by
    rcases ho with rfl | rfl
    · exact ⟨fun _ => rfl, rfl, rfl⟩
    · exact ⟨fun _ => rfl, rfl, rfl⟩
  refine ⟨fun d hd => ?_, fun ans t ht => ?_⟩
  · obtain rfl : c = d := Option.some.inj (hu.symm.trans hd)
    exact hc
  · rw [ht.2]
    exact next_of_givenBack (hb ans) hg

def Back (c : Conn) (s : Set Conn) (p : Option Pool) (t : Set Conn) : Prop :=
  t = if p.isSome then s \ {c} else s

theorem safe_nilPool (hc : c ∈ s) : Safe step Held (nilPool c) (fun _ t => t = s) s :=
  (Prog.All.perform (within_used (fun _ => rfl) rfl rfl hc)).safe stable_within rfl

theorem safe_releaseToPool (p : Option Pool) (hc : c ∈ s) :
    Safe step Held (releaseToPool c p) (fun _ => Back c s p) s := by
  cases p with
  | some p => exact (safe_return (.inl rfl) hc).bind fun _ _ ht => ht
  | none => exact (safe_nilPool hc).bind fun _ _ ht => ht

theorem safe_discardToPool (p : Option Pool) (hc : c ∈ s) :
    Safe step Held (discardToPool c p) (fun _ => Back c s p) s := by
  cases p with
  | some p => exact (safe_return (.inr rfl) hc).bind fun _ _ ht => ht
  | none => exact (safe_nilPool hc).bind fun _ _ ht => ht

theorem safe_giveBack (dirty : Bool) (p : Option Pool) (hc : c ∈ s) :
    Safe step Held (giveBack dirty c p) (fun _ => Back c s p) s := by
  cases dirty with
  | false => exact safe_releaseToPool p hc
  | true =>
    refine (Prog.All.perform (within_used (fun _ => rfl) rfl rfl hc)).then stable_within rfl
      fun ok t ht => ?_
    subst ht
    cases ok with
    | true => exact safe_releaseToPool p hc
    | false => exact safe_discardToPool p hc

/-! ## Reads -/

abbrev Restores {α : Type} (p : Run α) : Prop := Keeps step Held Eq p

def Lent (s : Set Conn) : Option Conn → Set Conn → Prop
  | none, t => t = s
  | some c, t => c ∉ s ∧ t = insert c s

theorem safe_borrow (hu : used o = none) (hg : givenBack o = none) :
    Safe step Held (perform o) (fun ans => Lent s (borrowed o ans)) s := by
  refine ⟨fun c hc => (nomatch hu.symm.trans hc), fun ans t ht => ?_⟩
  obtain ⟨hnew, rfl⟩ := ht
  change Lent s (borrowed o ans) _
  cases hb : borrowed o ans with
  | none => exact next_of_none hb hg
  | some c => exact ⟨hnew c hb, next_of_borrowed hb hg⟩

theorem within_aside (ho : Aside o) : Within s o := by
  cases o with
  | client | writerPool | lookup | store => exact ⟨fun _ => rfl, rfl, nofun⟩
  | _ => exact ho.elim

def OneMore (s : Set Conn) (c : Conn) (t : Set Conn) : Prop := c ∉ s ∧ t = insert c s

theorem OneMore.mem {t : Set Conn} (h : OneMore s c t) : c ∈ t := h.2 ▸ Set.mem_insert c s

theorem OneMore.use {t : Set Conn} (h : OneMore s c t) (hb : ∀ ans, borrowed o ans = none)
    (hg : givenBack o = none) (hu : used o = some c) :
    Safe step Held (perform o) (fun _ => OneMore s c) t :=
  ((Prog.All.perform (within_used hb hg hu h.mem)).safe stable_within rfl).mono fun _ _ ht => ht ▸ h

theorem OneMore.giveBack {t u : Set Conn} (h : OneMore s c t) (hu : u = t \ {c}) : u = s := by
  rw [hu, h.2, Set.insert_sdiff_self_of_notMem h.1]

theorem loans (s : Set Conn) : Loans step Held (· = s) fun _ c _ => OneMore s c where
  aside o t ho ht := stable_within o t (within_aside ho) ht
  acquire p t ht := by
    subst ht
    refine (safe_borrow (o := .acquire p) rfl rfl).mono fun conn u hu => ?_
    cases conn <;> exact hu
  acquireReader minLSN t ht := by
    subst ht
    refine (safe_borrow (o := .acquireReader minLSN) rfl rfl).mono fun reader u hu => ?_
    cases reader <;> exact hu
  send _ _ _ _ ht := ht.use (fun _ => rfl) rfl rfl
  relay _ _ _ ht := ht.use (fun _ => rfl) rfl rfl
  collect _ _ _ ht := ht.use (fun _ => rfl) rfl rfl
  reset _ _ _ ht := ht.use (fun _ => rfl) rfl rfl
  release _ p _ ht := (safe_return (.inl rfl) ht.mem).mono fun _ _ hu => ht.giveBack hu
  discard _ p _ ht := (safe_return (.inr rfl) ht.mem).mono fun _ _ hu => ht.giveBack hu

theorem restores_handleReadQuery (cfg : Config) (msg : Message) (query : Bytes)
    (session : Session) : Restores (handleReadQuery env cfg msg query session) :=
  fun s => ((loans s).handleReadQuery cfg msg query session rfl).mono fun _ _ ht => ht.symm

theorem restores_handleExtendedRead (buf : List Message) (sync : Message) :
    Restores (handleExtendedRead env buf sync) :=
  fun s => ((loans s).handleExtendedRead buf sync rfl).mono fun _ _ ht => ht.symm

theorem restores_handleSynthesizedRead (query : Bytes) : Restores (handleSynthesizedRead query) :=
  fun s => ((loans s).handleSynthesizedRead query rfl).mono fun _ _ ht => ht.symm

theorem restores_handleMultiplexDescribe (payload : Bytes) (synth : Synthesizer.Registry) :
    Restores (handleMultiplexDescribe payload synth) := by
  intro s
  have hdescribe := (loans s).handleMultiplexDescribe payload synth (fun _ _ _ ht =>
    ht.use (fun _ => rfl) rfl rfl) rfl
  exact hdescribe.mono fun _ _ ht => ht.symm

/-! ## Writes -/

def Bound (v : Vars) (s : Set Conn) : Prop := ∀ c ∈ v.boundWriter, c ∈ s

abbrev Ends : Flow Vars → Set Conn → Prop := Flow.Post Bound Bound

variable {v : Vars}

theorem Bound.of_none (h : v.boundWriter = none) : Bound v s := by
  intro c hc
  rw [h] at hc
  exact nomatch hc

theorem safe_withWriter {use : Pool → Conn → Bool → Run (Flow Vars)} (hv : Bound v s)
    (huse : ∀ p c acquired t, c ∈ t → Bound v t → (acquired = true → v.boundWriter = none) →
      Safe step Held (use p c acquired) Ends t) : Safe step Held (withWriter v use) Ends s := by
  refine Prog.All.then (.perform ⟨fun _ => rfl, rfl, nofun⟩) stable_within rfl fun p t ht => ?_
  subst ht
  cases hb : v.boundWriter with
  | some c => exact huse p c false t (hv c hb) hv nofun
  | none =>
    refine safe_bind.mpr ((safe_borrow (o := .acquireWriter) rfl rfl).bind fun conn u hu => ?_)
    cases conn with
    | none => exact (all_sendError _).then (stable_within (s := u)) rfl fun _ _ _ =>
        Bound.of_none hb
    | some c =>
      obtain ⟨_, rfl⟩ : c ∉ t ∧ u = insert c t := hu
      exact huse p c true _ (Set.mem_insert c t) (Bound.of_none hb) fun _ => hb

theorem safe_goBack (dirty : Bool) (p : Option Pool) (hc : c ∈ s) (hv : v.boundWriter = none) :
    Safe step Held (do if ← giveBack dirty c p then return .next v else return .stop v) Ends s := by
  refine (safe_giveBack dirty p hc).bind fun ok t _ => ?_
  cases ok <;> exact Bound.of_none hv

theorem safe_settle (binds ends dirty dirtyAfter : Bool) {acquired : Bool} (p : Pool) (hc : c ∈ s)
    (hv : Bound v s) (hacq : acquired = true → v.boundWriter = none) :
    Safe step Held (settle binds ends acquired dirty dirtyAfter c p v) Ends s := by
  unfold settle
  split
  · exact fun d hd => Option.some.inj hd ▸ hc
  split
  · exact safe_goBack dirty _ hc rfl
  split
  · rename_i hacquired
    exact safe_goBack dirty _ hc (hacq hacquired)
  · exact hv

theorem safe_dropWriter {acquired : Bool} (p : Pool) (hc : c ∈ s) (hv : Bound v s)
    (hacq : acquired = true → v.boundWriter = none) :
    Safe step Held (dropWriter acquired c p v) Ends s := by
  unfold dropWriter
  split
  · rename_i hacquired
    exact (safe_discardToPool (some p) hc).bind fun _ _ _ => Bound.of_none (hacq hacquired)
  · split
    · exact hv
    · rename_i b hb
      cases v.boundWriterPool with
      | some q => exact safe_bind.mpr ((safe_return (.inr rfl) (hv b hb)).bind fun _ _ _ =>
          Bound.of_none rfl)
      | none =>
        refine safe_bind.mpr ((safe_nilPool (hv b hb)).bind fun _ t ht => ?_)
        subst ht
        exact hv

theorem safe_writeSimple (i : Input) (query : Bytes) (pq : Option ParseResult) (routed : RoutedTx)
    (hv : Bound v s) : Safe step Held (writeSimple env i query pq routed v) Ends s := by
  refine safe_withWriter hv fun p c acquired t hc hv hacq => ?_
  refine (all_handleWriteQuery _ _ _ _ _ hc).then stable_within rfl fun session u hu => ?_
  subst hu
  exact safe_settle _ _ _ _ p hc hv hacq

theorem safe_writeExtended (synthesized : Bool) (r : Request) (hv : Bound v s) :
    Safe step Held (writeExtended synthesized r v) Ends s := by
  refine safe_withWriter hv fun p c acquired t hc hv hacq => ?_
  refine (all_exchange r hc).then stable_within rfl fun ok u hu => ?_
  subst hu
  cases ok with
  | true => exact safe_settle _ _ _ _ p hc hv hacq
  | false => exact safe_dropWriter p hc hv hacq

/-! ## Messages -/

theorem stable_speaks (v : Vars) : Stable step Held Speaks (Bound v) := by
  intro o s ho hs
  have hwithin : Within s o := by
    cases o with
    | client m | allow => exact ⟨fun _ => rfl, rfl, nofun⟩
    | _ => exact ho.elim
  obtain ⟨hheld, hkeep⟩ := stable_within o s hwithin rfl
  exact ⟨hheld, fun ans t ht => hkeep ans t ht ▸ hs⟩

theorem loopInvariant : LoopInvariant step Held Bound Bound where
  alike h hv := fun c hc => hv c (h.boundWriter ▸ hc)
  stop hv := hv
  speaks := stable_speaks

theorem Restores.safe {p : Run Bool} (hp : Restores p) (hv : Bound v s) :
    Safe step Held p (fun _ => Bound v) s :=
  (hp s).mono fun _ _ ht => ht ▸ hv

theorem safe_executeQuery (i : Input) (query : Bytes) (pq : Option ParseResult) (hv : Bound v s) :
    Safe step Held (executeQuery env i query pq v) Ends s :=
  loopInvariant.executeQuery (fun _ => safe_writeSimple i query pq _ hv) fun _ =>
    (restores_handleReadQuery _ _ _ _).safe hv

theorem safe_executeSynthesizedQuery (query : Bytes) (hv : Bound v s) :
    Safe step Held (executeSynthesizedQuery query v) Ends s := by
  unfold executeSynthesizedQuery
  split
  · exact loopInvariant.goOn (.refl v) ((restores_handleSynthesizedRead query).safe hv)
  · exact safe_writeExtended _ _ hv

theorem safe_executeBatch (sync : Message) (hv : Bound v s) :
    Safe step Held (executeBatch env sync v) Ends s := by
  unfold executeBatch
  split
  · exact loopInvariant.goOn (.refl v) ((restores_handleExtendedRead _ sync).safe hv)
  · exact safe_writeExtended _ _ hv

theorem safe_dispatch (i : Input) (hv : Bound v s) : Safe step Held (dispatch env i v) Ends s :=
  loopInvariant.dispatch hv (fun _ pq => safe_executeQuery i _ pq hv)
    (fun _ => (restores_handleMultiplexDescribe _ _).safe hv)
    (fun _ _ query _ => safe_executeSynthesizedQuery query hv) fun _ _ => safe_executeBatch i.msg hv

theorem safe_round (hv : Bound v s) : Safe step Held (round env v) Ends s := by
  refine Prog.All.then (.perform ⟨fun _ => rfl, rfl, nofun⟩) stable_within rfl fun i t ht => ?_
  subst ht
  cases i with
  | none => exact hv
  | some i => exact loopInvariant.handleMessage (fun _ h => h) (stable_speaks v) hv fun t ht =>
      safe_dispatch i ht

theorem safe_cleanup (hv : Bound v s) : Safe step Held (cleanup v) (fun _ _ => True) s := by
  refine Prog.All.then (.perform ⟨fun _ => rfl, rfl, nofun⟩) stable_within rfl fun _ t ht => ?_
  subst ht
  cases hb : v.boundWriter with
  | none => trivial
  | some c => exact (safe_giveBack _ _ (hv c hb)).bind fun _ _ _ => trivial

theorem safe_relayQueries (n : Nat) (session : Session) :
    Safe step Held (relayQueries env n session) (fun _ _ => True) s :=
  safe_bind.mpr ((Safe.rounds n (fun _ _ hv => safe_round hv) (fun _ _ hv => hv)
    (Bound.of_none rfl)).mono fun _ _ hv => safe_cleanup hv)

end

end PgMux.Holding
