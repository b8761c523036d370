import PgMux.ClientView

/-!
# Cached replies of batches

The reply to a batch is stored and looked up under the text of its first Parse. What a backend
answers depends on the kinds of all messages, and what it executes on the statements that the
Executes go back to: a Parse of the batch, or what the session had before.
-/

namespace PgMux.ExtendedCache

open Effects Protocol Relay

/-! ## Batches -/

inductive Reply where
  | parseComplete | bindComplete | parameterDescription | rowDescription | rows | commandComplete
  | closeComplete | readyForQuery
  deriving DecidableEq, Repr

inductive Kind where
  | parse | bind | describeStatement | describePortal | execute | close
  deriving DecidableEq, Repr

def Kind.replies : Kind → List Reply
  | .parse => [.parseComplete]
  | .bind => [.bindComplete]
  | .describeStatement => [.parameterDescription, .rowDescription]
  | .describePortal => [.rowDescription]
  | .execute => [.rows, .commandComplete]
  | .close => [.closeComplete]

/-- The kinds of messages that a backend replies to. -/
def kind (m : Message) : Option Kind :=
  if m.type = msgParse then some .parse
  else if m.type = msgBind then some .bind
  else if m.type = msgDescribe then
    some (if m.payload.head? = some kindStatement then .describeStatement else .describePortal)
  else if m.type = msgExecute then some .execute
  else if m.type = msgClose then some .close
  else none

def kinds (buf : List Message) : List Kind := buf.filterMap kind

def replies (buf : List Message) : List Reply :=
  (kinds buf).flatMap Kind.replies ++ [.readyForQuery]

def executed (w : View) : List Message → List (Option Bytes)
  | [] => []
  | m :: rest =>
    if m.type = msgExecute then w.portals (View.portalName m.payload) :: executed (w.next m) rest
    else executed (w.next m) rest

/-- Where a statement comes from: a Parse message of the batch, by its position, or the session
before the batch. -/
inductive Source where
  | parse (j : Nat)
  | before (text : Option Bytes)
  deriving DecidableEq, Repr

structure Sources where
  stmts : Bytes → Source
  portals : Bytes → Source

def Sources.next (o : Sources) (j : Nat) (m : Message) : Sources :=
  if m.type = msgParse then
    { o with stmts := Function.update o.stmts (parseParseMessage m.payload).1 (.parse j) }
  else if m.type = msgBind then
    { o with
      portals := Function.update o.portals (parseBindMessage m.payload).1
        (o.stmts (parseBindMessage m.payload).2) }
  else if m.type = msgClose then
    let close := parseCloseMessage m.payload
    if close.1 = kindStatement then
      { o with stmts := Function.update o.stmts close.2 (.before none) }
    else { o with portals := Function.update o.portals close.2 (.before none) }
  else o

def sourcesFrom (o : Sources) (j : Nat) : List Message → List Source
  | [] => []
  | m :: rest =>
    if m.type = msgExecute then o.portals (View.portalName m.payload) :: sourcesFrom (o.next j m)
      (j + 1) rest
    else sourcesFrom (o.next j m) (j + 1) rest

/-- What the Executes of a batch go back to. -/
def sources (w : View) (buf : List Message) : List Source :=
  sourcesFrom ⟨fun name => .before (w.stmts name), fun name => .before (w.portals name)⟩ 0 buf

def Source.text (buf : List Message) : Source → Option Bytes
  | .parse j => buf[j]?.map fun m => (parseParseMessage m.payload).2
  | .before text => text

/-- The condition: behind the first Parse the batches have messages of the same kinds, and their
Executes go back to the same places, with the same texts where that is a Parse of the batch. -/
structure Suit (w₁ w₂ : View) (b₁ b₂ : List Message) : Prop where
  kinds : kinds b₂.tail = kinds b₁.tail
  sources : sources w₂ b₂ = sources w₁ b₁
  texts : ∀ j, .parse j ∈ ExtendedCache.sources w₁ b₁ →
    Source.text b₂ (.parse j) = Source.text b₁ (.parse j)

def Serves {Key : Type} (env : Env) (key : Bytes → Key) (b₁ b₂ : List Message) : Prop :=
  ∃ (s₁ s₂ : Message) (q₁ q₂ : Bytes), (handleExtendedRead env b₁ s₁).Performs (.store true q₁) ∧
    (handleExtendedRead env b₂ s₂).Performs (.client (.cached true q₂)) ∧ key q₁ = key q₂

/-! ## What is cached -/

def Under (key : Option Bytes) : Op → Prop
  | .store extended query | .client (.cached extended query) => extended = true ∧ key = some query
  | _ => True

instance (key : Option Bytes) : LetsRelay (Under key) where
  basic o ho := by
    cases o with
    | store => exact ho.elim
    | client m =>
      cases m with
      | cached => exact ho.elim
      | _ => trivial
    | _ => trivial
  relay _ := trivial
  collect _ := trivial

theorem all_handleExtendedRead (env : Env) (buf : List Message) (sync : Message) :
    (handleExtendedRead env buf sync).All (Under (if env.queryCache then batchKey buf
      else none)) := by
  unfold handleExtendedRead
  generalize (if env.queryCache then batchKey buf else none) = key
  have hkeep : (key.elim (pure ()) (store true) : Run Unit).All (Under key) := by
    cases key with
    | none => exact .pure _
    | some query => exact .perform ⟨rfl, rfl⟩
  refine all_cachedOr _ (fun k hk => ?_) (all_readFrom _ _ (fun _ => trivial) trivial hkeep)
  obtain ⟨query, rfl, rfl⟩ := Option.map_eq_some_iff.mp hk
  exact ⟨rfl, rfl⟩

variable {buf : List Message} {env : Env} {query : Bytes}

theorem performs_store (hcache : env.queryCache = true) (h : batchKey buf = some query)
    (sync : Message) : (handleExtendedRead env buf sync).Performs (.store true query) := by
  unfold handleExtendedRead
  rw [hcache, if_pos rfl, h]
  -- no entry, a reader, and a reply that is collected before the reader goes back
  exact .inr ⟨false, .inr ⟨some (0, 0), .inr ⟨true, .inr ⟨some true, .inr ⟨(), .inl rfl⟩⟩⟩⟩⟩

theorem performs_cached (hcache : env.queryCache = true) (h : batchKey buf = some query)
    (sync : Message) :
    (handleExtendedRead env buf sync).Performs (.client (.cached true query)) := by
  unfold handleExtendedRead
  rw [hcache, if_pos rfl, h]
  exact .inr ⟨true, .inl rfl⟩

theorem serves_iff {Key : Type} {key : Bytes → Key} {b₁ b₂ : List Message} :
    Serves env key b₁ b₂ ↔ env.queryCache = true ∧
      ∃ q₁ q₂, batchKey b₁ = some q₁ ∧ batchKey b₂ = some q₂ ∧ key q₁ = key q₂ := by
  constructor
  · rintro ⟨s₁, s₂, q₁, q₂, hstore, hserve, hkey⟩
    have h₁ := ((all_handleExtendedRead env b₁ s₁).of_performs hstore).2
    have h₂ := ((all_handleExtendedRead env b₂ s₂).of_performs hserve).2
    obtain ⟨hcache, h₁⟩ := Option.ite_none_right_eq_some.mp h₁
    exact ⟨hcache, q₁, q₂, h₁, (Option.ite_none_right_eq_some.mp h₂).2, hkey⟩
  · rintro ⟨hcache, q₁, q₂, h₁, h₂, hkey⟩
    exact ⟨⟨msgSync, []⟩, ⟨msgSync, []⟩, q₁, q₂, performs_store hcache h₁ _,
      performs_cached hcache h₂ _, hkey⟩

theorem starts_of_batchKey (h : batchKey buf = some query) :
    ∃ m rest, buf = m :: rest ∧ m.type = msgParse := by
  cases buf with
  | nil => cases h
  | cons m rest =>
    have hguard := (Option.ite_none_right_eq_some.mp h).1
    simp only [Bool.and_eq_true, beq_iff_eq] at hguard
    exact ⟨m, rest, rfl, hguard.2⟩

/-! ## What a batch is answered by -/

theorem kinds_injective {l₁ l₂ : List Kind}
    (h : l₁.flatMap Kind.replies ++ [.readyForQuery] =
      l₂.flatMap Kind.replies ++ [.readyForQuery]) : l₁ = l₂ := by
  induction l₁ generalizing l₂ with
  | nil =>
    cases l₂ with
    | nil => rfl
    | cons k₂ l₂ => cases k₂ <;> simp [Kind.replies] at h
  | cons k₁ l₁ ih =>
    cases l₂ with
    | nil => cases k₁ <;> simp [Kind.replies] at h
    | cons k₂ l₂ =>
      cases k₁ <;> cases k₂ <;> simp [Kind.replies] at h ⊢
      all_goals exact ih (by simpa using h)

theorem replies_eq_iff {b₁ b₂ : List Message} : replies b₂ = replies b₁ ↔ kinds b₂ = kinds b₁ :=
  ⟨kinds_injective, fun h => by rw [replies, replies, h]⟩

/-! ## What a batch executes -/

theorem sources_next {o : Sources} {w : View} {text : Source → Option Bytes} {j : Nat} {m : Message}
    (hnone : text (.before none) = none)
    (hparse : text (.parse j) = some (parseParseMessage m.payload).2)
    (hstmts : w.stmts = text ∘ o.stmts) (hportals : w.portals = text ∘ o.portals) :
    (w.next m).stmts = text ∘ (o.next j m).stmts ∧
    (w.next m).portals = text ∘ (o.next j m).portals := by
  unfold View.next Sources.next
  by_cases htype : m.type = msgParse
  · simp only [if_pos htype, Function.comp_update, hparse, hstmts, hportals, and_self]
  by_cases hbind : m.type = msgBind
  · simp only [if_neg htype, if_pos hbind, Function.comp_update, hstmts, hportals,
      Function.comp_apply, and_self]
  by_cases hclose : m.type = msgClose
  · have hexecute : m.type ≠ msgExecute := by rw [hclose]; decide
    simp only [if_neg htype, if_neg hbind, if_neg hexecute, if_pos hclose]
    split
    · simp only [Function.comp_update, hnone, hstmts, hportals, and_self]
    · simp only [Function.comp_update, hnone, hstmts, hportals, and_self]
  · simp only [if_neg htype, if_neg hbind, if_neg hclose]
    split_ifs <;> exact ⟨hstmts, hportals⟩

theorem executed_sourcesFrom {o : Sources} {w : View} {before rest : List Message}
    (hstmts : w.stmts = Source.text (before ++ rest) ∘ o.stmts)
    (hportals : w.portals = Source.text (before ++ rest) ∘ o.portals) :
    executed w rest = (sourcesFrom o before.length rest).map (Source.text (before ++ rest)) := by
  induction rest generalizing o w before with
  | nil => rfl
  | cons m rest ih =>
    obtain ⟨hstmts', hportals'⟩ :=
      sources_next (m := m) (j := before.length) rfl (by simp [Source.text]) hstmts hportals
    have hrest := @ih (o.next before.length m) (w.next m) (before ++ [m]) (by simpa using hstmts')
      (by simpa using hportals')
    simp only [List.length_append, List.length_singleton, List.append_assoc,
      List.singleton_append] at hrest
    unfold executed sourcesFrom
    split
    · rw [List.map_cons, ← hrest, hportals]
      rfl
    · exact hrest

theorem executed_eq (w : View) (buf : List Message) :
    executed w buf = (sources w buf).map (Source.text buf) :=
  @executed_sourcesFrom _ w [] buf rfl rfl

theorem Suit.executed {w₁ w₂ : View} {b₁ b₂ : List Message} (h : Suit w₁ w₂ b₁ b₂) :
    executed w₂ b₂ = executed w₁ b₁ := by
  rw [executed_eq, executed_eq, h.sources]
  refine List.map_congr_left fun x hx => ?_
  cases x with
  | parse j => exact h.texts j hx
  | before text => rfl

def cachedEnv : Env := { plainEnv false with queryCache := true }

def parseOf (name query : Bytes) : Message := ⟨msgParse, name ++ [0] ++ query ++ [0, 0, 0]⟩

def bindTo (name : Bytes) : Message := ⟨msgBind, [0] ++ name ++ [0, 0, 0, 0, 0, 0, 0]⟩

def describePortal : Message := ⟨msgDescribe, [kindPortal, 0]⟩

def executeAll : Message := ⟨msgExecute, [0, 0, 0, 0, 0]⟩

end PgMux.ExtendedCache
