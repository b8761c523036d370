import PgMux.Loans
import PgMux.LoopInvariant

/-!
# Connections that may go back to a pool

An abstract machine in which a connection is fit or unfit for a pool: its server session is changed,
or in a transaction. A request may leave its connection unfit unless its message gives the
connection back without a reset; then the loop releases fit connections only.
-/

namespace PgMux.Hygiene

open Effects Protocol Relay
open Router hiding Env
open Pools (Conn Pool)

/-- The unfit connections, and what the message may do and send. -/
structure Ward where
  unfit : Finset Conn
  may : Bool
  allowed : List Request

def givesBackBare (binds ends acquired dirty : Bool) : Bool :=
  !binds && (ends || acquired) && !dirty

def dirtyBehind (v : Vars) (i : Input) : Bool :=
  v.connDirty || isSessionModifying (extractQueryText i.msg.payload)

/-- The message gives its connection back without a reset. -/
def bare (env : Env) (v : Vars) (i : Input) : Bool :=
  if i.msg.type = msgQuery then
    let r := (routeWithTxState env.toEnv v.session i.now (extractQueryText i.msg.payload)).1
    r.route == .reader ||
      givesBackBare (!r.wasInTx && r.nowInTx)
        (r.wasInTx && !r.nowInTx) v.boundWriter.isNone (dirtyBehind v i)
  else if i.msg.type = msgSync then
    readsOnly v || !env.multiplexMode &&
      givesBackBare (v.extTxStart && !v.extTxEnd) v.extTxEnd v.boundWriter.isNone v.connDirty
  else false

def Lets (exempt : Bool) (env : Env) (v : Vars) (i : Input) : Prop :=
  bare env v i = false ∧ (exempt = true ∨ i.msg.type = msgQuery ∧ dirtyBehind v i = true)

section

variable (exempt : Bool) (env : Env)

def step : Machine Ans Ward := fun o s ans t =>
  match o, ans with
  | .recv _, none => t = s
  | .recv v, some i => t.unfit = s.unfit ∧ (t.may = true → Lets exempt env v i) ∧
      t.allowed = requests env v i
  | .leave v, _ =>
    (exempt = true → v.connDirty = false → ∀ c, v.boundWriter = some c → c ∉ s.unfit) ∧ t = s
  | .acquireWriter, c => t = { s with unfit := c.elim s.unfit s.unfit.erase }
  | .acquire _, c => t = { s with unfit := c.elim s.unfit s.unfit.erase }
  | .acquireReader _, r => t = { s with unfit := r.elim s.unfit fun (c, _) => s.unfit.erase c }
  | .send c _, _ =>
    t = { s with unfit := if exempt then s.unfit.erase c else s.unfit } ∨
      s.may = true ∧ t = { s with unfit := insert c s.unfit }
  | .reset c, ok => t = if ok then { s with unfit := s.unfit.erase c } else s
  | .release c _, _ => t = { s with unfit := s.unfit.erase c }
  | .discard c _, _ => t = { s with unfit := s.unfit.erase c }
  | _, _ => t = s

def Kept (v : Vars) (s : Ward) : Prop :=
  ∀ c ∈ s.unfit, v.boundWriter = some c ∧ (exempt = true ∨ v.connDirty = true)

def Stopped (v : Vars) (s : Ward) : Prop :=
  ∀ c ∈ s.unfit, v.boundWriter = some c → exempt = true ∨ v.connDirty = true

abbrev Ends : Flow Vars → Ward → Prop := Flow.Post (Kept exempt) (Stopped exempt)

/-- Only fit connections are released. -/
def Releases : Op → Ward → Prop
  | .release c _, s => c ∉ s.unfit
  | .recv v, s => Kept exempt v s
  | _, _ => True

end

section

variable {exempt : Bool} {env : Env}

structure Shrinks (s t : Ward) : Prop where
  unfit : t.unfit ⊆ s.unfit
  may : t.may = s.may

variable {s t u : Ward} {v : Vars} {c : Conn} {i : Input}

theorem Kept.stopped (h : Kept exempt v s) : Stopped exempt v s := fun c hc _ => (h c hc).2

theorem Kept.shrink (h : Kept exempt v s) (ht : t.unfit ⊆ s.unfit) : Kept exempt v t :=
  fun c hc => h c (ht hc)

/-! ## Giving back -/

structure GivenBack (c : Conn) (p : Option Pool) (s : Ward) (ok : Bool) (t : Ward) :
    Prop extends Shrinks s t where
  fit : ok = true ∨ p ≠ none → t.unfit ⊆ s.unfit.erase c

theorem safe_nilPool (c : Conn) (s : Ward) :
    Safe (step exempt env) (Releases exempt) (do nilPool c; return false)
      (GivenBack c none s) s := by
  refine safe_bind.mpr ⟨trivial, fun _ t ht => ?_⟩
  obtain rfl : t = s := ht
  exact ⟨⟨fun _ hd => hd, rfl⟩, fun h => by simp at h⟩

theorem safe_releaseToPool (h : c ∉ s.unfit) (p : Option Pool) :
    Safe (step exempt env) (Releases exempt) (releaseToPool c p) (GivenBack c p s) s := by
  cases p with
  | none => exact safe_nilPool c s
  | some p =>
    refine safe_bind.mpr ⟨h, fun _ t ht => ?_⟩
    obtain rfl : t = _ := ht
    exact ⟨⟨Finset.erase_subset _ _, rfl⟩, fun _ _ hd => hd⟩

theorem safe_discardToPool (c : Conn) (s : Ward) (p : Option Pool) :
    Safe (step exempt env) (Releases exempt) (discardToPool c p) (GivenBack c p s) s := by
  cases p with
  | none => exact safe_nilPool c s
  | some p =>
    refine safe_bind.mpr ⟨trivial, fun _ t ht => ?_⟩
    obtain rfl : t = _ := ht
    exact ⟨⟨Finset.erase_subset _ _, rfl⟩, fun _ _ hd => hd⟩

theorem safe_giveBack {dirty : Bool} (h : c ∈ s.unfit → dirty = true) (p : Option Pool) :
    Safe (step exempt env) (Releases exempt) (giveBack dirty c p) (GivenBack c p s) s := by
  cases dirty with
  | false => exact safe_releaseToPool (fun hc => nomatch h hc) p
  | true =>
    refine safe_bind.mpr ⟨trivial, fun ok t ht => ?_⟩
    cases ok with
    | false =>
      obtain rfl : t = s := ht
      exact safe_discardToPool c t p
    | true =>
      obtain rfl : t = _ := ht
      refine (safe_releaseToPool (Finset.notMem_erase c s.unfit) p).mono fun ok u hu =>
        ⟨⟨?_, hu.may⟩, fun _ => ?_⟩
      · exact hu.unfit.trans (Finset.erase_subset _ _)
      · exact hu.unfit

/-! ## Exchanges -/

structure Exchanged (exempt : Bool) (c : Conn) (s t : Ward) : Prop where
  others : ∀ d ∈ t.unfit, d = c ∨ d ∈ s.unfit
  fit : s.may = false → c ∈ t.unfit → exempt = false ∧ c ∈ s.unfit
  may : t.may = s.may

theorem exchanged_of_send {r : Request} {ok : Bool} (h : step exempt env (.send c r) s ok t) :
    Exchanged exempt c s t := by
  obtain rfl | ⟨hmay, rfl⟩ := h
  · cases exempt with
    | true =>
      refine ⟨fun d hd => .inr (Finset.mem_of_mem_erase hd), fun _ hc => ?_, rfl⟩
      exact absurd hc (Finset.notMem_erase c s.unfit)
    | false => exact ⟨fun d hd => .inr hd, fun _ hc => ⟨rfl, hc⟩, rfl⟩
  · exact ⟨fun d hd => Finset.mem_insert.mp hd, fun hno => by simp [hno] at hmay, rfl⟩

theorem safe_sendThen {next : Run Bool} (c : Conn) (r : Request) (s : Ward)
    (hnext : ∀ t, Safe (step exempt env) (Releases exempt) next (fun _ u => u = t) t) :
    Safe (step exempt env) (Releases exempt) (do if ← send c r then next else return false)
      (fun _ t => Exchanged exempt c s t) s := by
  refine safe_bind.mpr ⟨trivial, fun ok t ht => ?_⟩
  have hsent := exchanged_of_send ht
  cases ok with
  | false => exact hsent
  | true => exact (hnext t).mono fun _ u hu => hu ▸ hsent

theorem safe_exchange (c : Conn) (r : Request) (s : Ward) :
    Safe (step exempt env) (Releases exempt) (exchange c r) (fun _ t => Exchanged exempt c s t) s :=
  safe_sendThen c r s fun _ => ⟨trivial, fun _ _ hu => hu⟩

theorem safe_describeOn (c : Conn) (query : Bytes) (s : Ward) :
    Safe (step exempt env) (Releases exempt) (describeOn c query)
      (fun _ t => Exchanged exempt c s t) s :=
  safe_sendThen c (.describe query) s fun _ => ⟨trivial, fun _ _ hu => hu⟩

theorem safe_handleWriteQuery (cfg : Config) (c : Conn) (msg : Message) (query : Bytes)
    (qtype : QueryType) (session : Session) (s : Ward) :
    Safe (step exempt env) (Releases exempt) (handleWriteQuery env cfg c msg query qtype session)
      (fun _ t => Exchanged exempt c s t) s := by
  refine (safe_exchange c _ s).bind fun ok t ht => ?_
  cases ok with
  | false => exact ht
  | true =>
    have hlsn : Safe (step exempt env) (Releases exempt)
        (lsnAfter (cfg.causalConsistency && qtype == .write) c)
        (fun _ u => u = t) t := by
      unfold lsnAfter
      split
      · exact ⟨trivial, fun _ u hu => hu⟩
      · rfl
    refine hlsn.bind fun lsn u hu => ?_
    subst hu
    have hinv : Safe (step exempt env) (Releases exempt)
        (onlyIf (env.queryCache && qtype == .write) (invalidate query))
        (fun _ w => w = u) u := by
      unfold onlyIf
      split
      · exact ⟨trivial, fun _ w hw => hw⟩
      · rfl
    refine hinv.bind fun _ w hw => ?_
    exact hw ▸ ht

theorem safe_sendError (text : ErrorText) (s : Ward) :
    Safe (step exempt env) (Releases exempt) (sendError text) (fun _ t => t = s) s :=
  safe_bind.mpr ⟨trivial, fun _ _ ht => ht⟩

/-! ## Connections borrowed for one exchange -/

theorem Shrinks.refl (s : Ward) : Shrinks s s := ⟨fun _ hd => hd, rfl⟩

theorem Shrinks.trans (h : Shrinks s t) (h' : Shrinks t u) : Shrinks s u :=
  ⟨h'.unfit.trans h.unfit, h'.may.trans h.may⟩

theorem shrinks_erase (s : Ward) (c : Conn) : Shrinks s { s with unfit := s.unfit.erase c } :=
  ⟨Finset.erase_subset _ _, rfl⟩

theorem Exchanged.given (h : Exchanged exempt c s t) (hu : u.unfit ⊆ t.unfit.erase c)
    (hmay : u.may = t.may) : Shrinks s u := by
  refine ⟨fun d hd => ?_, hmay.trans h.may⟩
  obtain ⟨hne, hd⟩ := Finset.mem_erase.mp (hu hd)
  exact (h.others d hd).resolve_left hne

theorem safe_onWriterPool {unavailable : Run Bool} {use : Conn → Run Bool} {resets : Bool}
    (hun : ∀ t, Safe (step exempt env) (Releases exempt) unavailable (fun _ u => u = t) t)
    (huse : ∀ c t, Safe (step exempt env) (Releases exempt) (use c)
      (fun _ u => Exchanged exempt c t u) t)
    (hmay : s.may = true → resets = true) :
    Safe (step exempt env) (Releases exempt) (onWriterPool unavailable use resets)
      (fun _ t => Shrinks s t) s := by
  refine safe_bind.mpr ⟨trivial, fun p t ht => safe_bind.mpr ⟨trivial, fun c u hu => ?_⟩⟩
  obtain rfl : t = s := ht
  cases c with
  | none =>
    obtain rfl : u = t := hu
    exact (hun u).mono fun _ w hw => hw ▸ .refl u
  | some c =>
    obtain ⟨hacquired, hfresh⟩ : Shrinks t u ∧ c ∉ u.unfit := by
      obtain rfl : u = _ := hu
      exact ⟨shrinks_erase t c, Finset.notMem_erase c t.unfit⟩
    refine (huse c u).bind fun ok w hw => ?_
    cases ok with
    | true =>
      have hfit : c ∈ w.unfit → resets = true := by
        intro hc
        cases hm : t.may with
        | true => exact hmay hm
        | false => exact absurd (hw.fit (hacquired.may.trans hm) hc).2 hfresh
      refine (safe_giveBack hfit (some p)).mono fun ok y hy => ?_
      exact hacquired.trans (hw.given (hy.fit (.inr (by simp))) hy.may)
    | false =>
      refine safe_bind.mpr ⟨trivial, fun _ y hy => ?_⟩
      obtain rfl : y = _ := hy
      exact hacquired.trans (hw.given (fun _ hd => hd) rfl)

theorem safe_failWith (text : ErrorText) (goOn : Bool) (s : Ward) :
    Safe (step exempt env) (Releases exempt) (failWith text goOn) (fun _ t => t = s) s :=
  safe_bind.mpr ((safe_sendError text s).mono fun _ _ ht => ht)

structure OnLoan (s : Ward) (c : Conn) (t : Ward) : Prop extends Shrinks s t where
  fit : c ∉ t.unfit

theorem OnLoan.send (h : OnLoan s c t) (hmay : s.may = false) (hu : Exchanged exempt c t u) :
    OnLoan s c u := by
  have hfit : c ∉ u.unfit := fun hc => h.fit (hu.fit (h.may.trans hmay) hc).2
  refine ⟨⟨fun d hd => h.unfit ((hu.others d hd).resolve_left ?_), hu.may.trans h.may⟩, hfit⟩
  rintro rfl
  exact hfit hd

theorem Shrinks.lend (h : Shrinks s t) (c : Conn) :
    OnLoan s c { t with unfit := t.unfit.erase c } :=
  ⟨h.trans (shrinks_erase t c), Finset.notMem_erase c t.unfit⟩

theorem loans (hmay : s.may = false) :
    Loans (step exempt env) (Releases exempt) (Shrinks s) fun _ c _ => OnLoan s c where
  aside o t ho ht := by
    cases o with
    | client | writerPool | lookup | store => exact ⟨trivial, fun _ u (hu : u = t) => hu ▸ ht⟩
    | _ => exact ho.elim
  acquire p t ht := by
    refine ⟨trivial, fun c u hu => ?_⟩
    obtain rfl : u = _ := hu
    cases c with
    | none => exact ht
    | some c => exact ht.lend c
  acquireReader minLSN t ht := by
    refine ⟨trivial, fun reader u hu => ?_⟩
    obtain rfl : u = _ := hu
    cases reader with
    | none => exact ht
    | some reader => exact ht.lend reader.1
  send c p r t ht := ⟨trivial, fun ok u hu => ht.send hmay (exchanged_of_send hu)⟩
  relay c p t ht := ⟨trivial, fun _ u (hu : u = t) => hu ▸ ht⟩
  collect c p t ht := ⟨trivial, fun _ u (hu : u = t) => hu ▸ ht⟩
  reset c p t ht := by
    refine ⟨trivial, fun ok u hu => ?_⟩
    obtain rfl : u = _ := hu
    cases ok with
    | true => exact ht.lend c
    | false => exact ht
  release c p t ht := ⟨ht.fit, fun _ u hu => (hu : u = _) ▸ ht.trans (shrinks_erase t c)⟩
  discard c p t ht := ⟨trivial, fun _ u hu => (hu : u = _) ▸ ht.trans (shrinks_erase t c)⟩

/-! ## The writer path -/

structure Used (exempt : Bool) (c : Conn) (acquired : Bool) (v : Vars) (s : Ward) : Prop where
  only : ∀ d ∈ s.unfit, d = c
  dirty : c ∈ s.unfit → exempt = true ∨ v.connDirty = true
  bound : acquired = false → v.boundWriter = some c
  free : acquired = true → v.boundWriter = none

theorem empty_of_given (honly : ∀ d ∈ s.unfit, d = c) (h : t.unfit ⊆ s.unfit.erase c) (d : Conn) :
    d ∉ t.unfit := by
  intro hd
  obtain ⟨hne, hd⟩ := Finset.mem_erase.mp (h hd)
  exact hne (honly d hd)

theorem safe_settle {binds ends acquired dirty dirtyAfter : Bool} {p : Pool}
    (h : Used exempt c acquired v s)
    (hbare : c ∈ s.unfit → givesBackBare binds ends acquired dirty = false) :
    Safe (step exempt env) (Releases exempt) (settle binds ends acquired dirty dirtyAfter c p v)
      (Ends exempt) s := by
  have hdirty : c ∈ s.unfit → binds = false → (ends = true ∨ acquired = true) → dirty = true := by
    intro hc hb hgive
    have hbare := hbare hc
    cases dirty with
    | true => rfl
    | false =>
      obtain rfl | rfl := hgive
      · simp [givesBackBare, hb] at hbare
      · simp [givesBackBare, hb] at hbare
  cases binds with
  | true =>
    intro d hd
    obtain rfl := h.only d hd
    exact ⟨rfl, h.dirty hd⟩
  | false =>
    cases ends with
    | true =>
      have hfit : c ∈ s.unfit → dirty = true := fun hc => hdirty hc rfl (.inl rfl)
      refine (safe_giveBack hfit v.boundWriterPool).bind fun ok t ht => ?_
      cases ok with
      | true => exact fun d hd => absurd hd (empty_of_given h.only (ht.fit (.inl rfl)) d)
      | false => exact fun d _ hnone => nomatch hnone
    | false =>
      cases acquired with
      | true =>
        have hfit : c ∈ s.unfit → dirty = true := fun hc => hdirty hc rfl (.inr rfl)
        refine (safe_giveBack hfit (some p)).bind fun ok t ht => ?_
        have hempty := empty_of_given h.only (ht.fit (.inr (by simp)))
        cases ok <;> exact fun d hd => absurd hd (hempty d)
      | false =>
        intro d hd
        obtain rfl := h.only d hd
        exact ⟨h.bound rfl, h.dirty hd⟩

theorem safe_withWriter {use : Pool → Conn → Bool → Run (Flow Vars)} (h : Kept exempt v s)
    (huse : ∀ p c acquired t, (∀ d ∈ t.unfit, d = c ∧ (exempt = true ∨ v.connDirty = true)) →
      t.may = s.may → (acquired = false → v.boundWriter = some c) →
      (acquired = true → v.boundWriter = none) → Safe (step exempt env) (Releases exempt)
      (use p c acquired) (Ends exempt) t) :
    Safe (step exempt env) (Releases exempt) (withWriter v use) (Ends exempt) s := by
  refine safe_bind.mpr ⟨trivial, fun p t ht => ?_⟩
  obtain rfl : t = s := ht
  cases hb : v.boundWriter with
  | some c =>
    refine huse p c false t (fun d hd => ?_) rfl (fun _ => hb) (fun hno => nomatch hno)
    obtain ⟨hd, hdirty⟩ := h d hd
    exact ⟨Option.some.inj (hd.symm.trans hb), hdirty⟩
  | none =>
    refine safe_bind.mpr (safe_bind.mpr ⟨trivial, fun c u hu => ?_⟩)
    cases c with
    | none =>
      obtain rfl : u = t := hu
      exact (safe_sendError _ u).bind fun _ w hw => hw ▸ h.stopped
    | some c =>
      obtain rfl : u = _ := hu
      refine huse p c true _ (fun d hd => ?_) rfl (fun hno => nomatch hno) fun _ => hb
      have hd := (h d (Finset.mem_of_mem_erase hd)).1
      simp [hb] at hd

theorem givesBackBare_dirty (binds ends acquired : Bool) :
    givesBackBare binds ends acquired true = false := by
  simp [givesBackBare]

theorem Exchanged.only (h : Exchanged exempt c t u)
    (honly : ∀ d ∈ t.unfit, d = c ∧ (exempt = true ∨ v.connDirty = true)) : ∀ d ∈ u.unfit, d = c :=
  fun d hd => (h.others d hd).elim id fun hd => (honly d hd).1

theorem Exchanged.source (h : Exchanged exempt c t u)
    (honly : ∀ d ∈ t.unfit, d = c ∧ (exempt = true ∨ v.connDirty = true)) (hmay : t.may = s.may)
    (hc : c ∈ u.unfit) : s.may = true ∨ v.connDirty = true := by
  cases hm : s.may with
  | true => exact .inl rfl
  | false =>
    obtain ⟨hexempt, hc⟩ := h.fit (hmay.trans hm) hc
    exact .inr ((honly c hc).2.resolve_left (by simp [hexempt]))

theorem isNone_eq_acquired {acquired : Bool} {b : Option Conn}
    (hbound : acquired = false → b = some c) (hfree : acquired = true → b = none) :
    b.isNone = acquired := by
  cases acquired with
  | true => rw [hfree rfl]; rfl
  | false => rw [hbound rfl]; rfl

theorem safe_writeSimple {query : Bytes} {pq : Option PgQuery.ParseResult} {r : RoutedTx}
    (h : Kept exempt v s)
    (hlets : s.may = true → givesBackBare (!r.wasInTx && r.nowInTx)
      (r.wasInTx && !r.nowInTx) v.boundWriter.isNone (v.connDirty || isSessionModifying query) =
      false ∧ (exempt = true ∨ (v.connDirty || isSessionModifying query) = true)) :
    Safe (step exempt env) (Releases exempt) (writeSimple env i query pq r v) (Ends exempt) s := by
  refine safe_withWriter h fun p c acquired t honly hmay hbound hfree => ?_
  refine (safe_handleWriteQuery _ c _ _ _ _ t).bind fun session u hu => ?_
  refine safe_settle ⟨hu.only honly, fun hc => ?_, hbound, hfree⟩ fun hc => ?_
  · obtain hm | hd := hu.source honly hmay hc
    · exact (hlets hm).2
    · exact .inr (by simp [hd])
  · obtain hm | hd := hu.source honly hmay hc
    · have hbare := (hlets hm).1
      rwa [isNone_eq_acquired hbound hfree] at hbare
    · rw [hd]
      exact givesBackBare_dirty _ _ _

theorem safe_dropWriter {acquired : Bool} {p : Pool} (h : Used exempt c acquired v s) :
    Safe (step exempt env) (Releases exempt) (dropWriter acquired c p v) (Ends exempt) s := by
  unfold dropWriter
  cases acquired with
  | true =>
    refine (safe_discardToPool c s (some p)).bind fun _ t ht => ?_
    exact fun d hd => absurd hd (empty_of_given h.only (ht.fit (.inr (by simp))) d)
  | false =>
    have hb := h.bound rfl
    simp only [Bool.false_eq_true, if_false, hb]
    refine (safe_discardToPool c s v.boundWriterPool).bind fun ok t ht => ?_
    cases ok with
    | true => exact fun d _ hnone => nomatch hnone
    | false =>
      intro d hd _
      obtain rfl := h.only d (ht.unfit hd)
      exact h.dirty (ht.unfit hd)

theorem safe_writeExtended {synthesized : Bool} {r : Request} (h : Kept exempt v s)
    (hlets : s.may = true → (synthesized = true ∨
      givesBackBare (v.extTxStart && !v.extTxEnd) v.extTxEnd v.boundWriter.isNone v.connDirty =
      false) ∧ exempt = true) :
    Safe (step exempt env) (Releases exempt) (writeExtended synthesized r v) (Ends exempt) s := by
  refine safe_withWriter h fun p c acquired t honly hmay hbound hfree => ?_
  refine (safe_exchange c r t).bind fun ok u hu => ?_
  have hdirty : c ∈ u.unfit → exempt = true ∨ v.connDirty = true := fun hc =>
    (hu.source honly hmay hc).imp (fun hm => (hlets hm).2) id
  cases ok with
  | false => exact safe_dropWriter ⟨hu.only honly, hdirty, hbound, hfree⟩
  | true =>
    refine safe_settle ⟨hu.only honly, hdirty, hbound, hfree⟩ fun hc => ?_
    cases synthesized with
    | true => exact givesBackBare_dirty _ _ _
    | false =>
      obtain hm | hd := hu.source honly hmay hc
      · have hbare := (hlets hm).1.resolve_left Bool.false_ne_true
        rwa [isNone_eq_acquired hbound hfree] at hbare
      · rw [hd]
        exact givesBackBare_dirty _ _ _

/-! ## Messages -/

theorem safe_handleMultiplexDescribe (payload : Bytes) (synth : Synthesizer.Registry) (s : Ward) :
    Safe (step exempt env) (Releases exempt) (handleMultiplexDescribe payload synth)
      (fun _ t => Shrinks s t) s := by
  obtain ⟨text, hfail⟩ | ⟨stmt, _, hask⟩ := handleMultiplexDescribe_cases payload synth
  · rw [hfail]
    exact (safe_failWith text true s).mono fun _ t ht => ht ▸ .refl s
  · rw [hask]
    exact safe_onWriterPool (fun t => safe_failWith _ _ t)
      (fun c t => safe_describeOn c _ t) fun _ => rfl

theorem stable_speaks {P : Ward → Prop} : Stable (step exempt env) (Releases exempt) Speaks P := by
  intro o s ho hs
  cases o with
  | client m | allow => exact ⟨trivial, fun _ t (ht : t = s) => ht ▸ hs⟩
  | _ => exact ho.elim

theorem loopInvariant :
    LoopInvariant (step exempt env) (Releases exempt) (Kept exempt) (Stopped exempt) where
  alike hv h := fun c hc => by
    rw [hv.boundWriter, hv.connDirty]
    exact h c hc
  stop h := h.stopped
  speaks _ := stable_speaks

theorem Kept.reads (h : Kept exempt v s) {p : Run Bool}
    (hp : Safe (step exempt env) (Releases exempt) p (fun _ t => Shrinks s t) s) :
    Safe (step exempt env) (Releases exempt) p (fun _ => Kept exempt v) s :=
  hp.mono fun _ _ ht => h.shrink ht.unfit

theorem safe_executeQuery {pq : Option PgQuery.ParseResult} (hquery : i.msg.type = msgQuery)
    (h : Kept exempt v s) (hlets : s.may = true → Lets exempt env v i) :
    Safe (step exempt env) (Releases exempt)
      (executeQuery env i (extractQueryText i.msg.payload) pq v) (Ends exempt) s := by
  refine loopInvariant.executeQuery (fun _ => ?_) fun hroute =>
    h.reads ((loans ?_).handleReadQuery _ _ _ _ (.refl s))
  · refine safe_writeSimple h fun hm => ?_
    obtain ⟨hbare, hdirty⟩ := hlets hm
    rw [bare, if_pos hquery] at hbare
    exact ⟨(Bool.or_eq_false_iff.mp hbare).2, hdirty.imp id And.right⟩
  · cases hm : s.may with
    | false => rfl
    | true =>
      have hbare := (hlets hm).1
      simp [bare, hquery, hroute] at hbare

theorem lets_sync (hsync : i.msg.type = msgSync) (h : Lets exempt env v i) :
    readsOnly v = false ∧ exempt = true ∧ (env.multiplexMode = true ∨
      givesBackBare (v.extTxStart && !v.extTxEnd) v.extTxEnd v.boundWriter.isNone v.connDirty =
        false) := by
  obtain ⟨hbare, hdirty⟩ := h
  have hquery : i.msg.type ≠ msgQuery := by rw [hsync]; decide
  rw [bare, if_neg hquery, if_pos hsync] at hbare
  obtain ⟨hreads, hends⟩ := Bool.or_eq_false_iff.mp hbare
  refine ⟨hreads, hdirty.resolve_right fun hd => hquery hd.1, ?_⟩
  cases hmux : env.multiplexMode with
  | true => exact .inl rfl
  | false => exact .inr (by simpa [hmux] using hends)

theorem may_of_reads (hsync : i.msg.type = msgSync) (hlets : s.may = true → Lets exempt env v i)
    (hreads : readsOnly v = true) : s.may = false := by
  cases hm : s.may with
  | false => rfl
  | true => exact absurd hreads (by simp [(lets_sync hsync (hlets hm)).1])

theorem safe_executeSynthesizedQuery (query : Bytes) (hsync : i.msg.type = msgSync)
    (h : Kept exempt v s) (hlets : s.may = true → Lets exempt env v i) :
    Safe (step exempt env) (Releases exempt) (executeSynthesizedQuery query v) (Ends exempt) s := by
  unfold executeSynthesizedQuery
  split
  · rename_i hreads
    have hmay := may_of_reads hsync hlets hreads
    exact loopInvariant.goOn (.refl v)
      (h.reads ((loans hmay).handleSynthesizedRead query (.refl s)))
  · exact safe_writeExtended h fun hm => ⟨.inl rfl, (lets_sync hsync (hlets hm)).2.1⟩

theorem safe_executeBatch (hmux : env.multiplexMode = false) (hsync : i.msg.type = msgSync)
    (h : Kept exempt v s) (hlets : s.may = true → Lets exempt env v i) :
    Safe (step exempt env) (Releases exempt) (executeBatch env i.msg v) (Ends exempt) s := by
  unfold executeBatch
  split
  · rename_i hreads
    have hmay := may_of_reads hsync hlets hreads
    exact loopInvariant.goOn (.refl v) (h.reads ((loans hmay).handleExtendedRead _ _ (.refl s)))
  · refine safe_writeExtended h fun hm => ?_
    obtain ⟨_, hexempt, hends⟩ := lets_sync hsync (hlets hm)
    exact ⟨.inr (hends.resolve_left (by simp [hmux])), hexempt⟩

theorem safe_dispatch (h : Kept exempt v s) (hlets : s.may = true → Lets exempt env v i) :
    Safe (step exempt env) (Releases exempt) (dispatch env i v) (Ends exempt) s :=
  loopInvariant.dispatch h (fun hquery _ => safe_executeQuery hquery h hlets)
    (fun _ => h.reads (safe_handleMultiplexDescribe _ _ s))
    (fun hsync _ query _ => safe_executeSynthesizedQuery query hsync h hlets)
    fun hsync hmux => safe_executeBatch hmux hsync h hlets

/-! ## The loop -/

theorem safe_handleMessage (h : Kept exempt v s) (hlets : s.may = true → Lets exempt env v i) :
    Safe (step exempt env) (Releases exempt) (handleMessage env i v) (Ends exempt) s :=
  loopInvariant.handleMessage (J := fun t => Kept exempt v t ∧ (t.may = true → Lets exempt env v i))
    (fun _ ht => ht.1) stable_speaks ⟨h, hlets⟩ fun _ ht => safe_dispatch ht.1 ht.2

theorem safe_round (h : Kept exempt v s) :
    Safe (step exempt env) (Releases exempt) (round env v) (Ends exempt) s := by
  refine safe_bind.mpr ⟨h, fun i t ht => ?_⟩
  cases i with
  | none =>
    obtain rfl : t = s := ht
    exact h.stopped
  | some i => exact safe_handleMessage (h.shrink ht.1.subset) ht.2.1

theorem safe_cleanup (h : Stopped exempt v s) :
    Safe (step exempt env) (Releases exempt) (cleanup v) (fun _ _ => True) s := by
  refine safe_bind.mpr ⟨trivial, fun _ t ht => ?_⟩
  obtain ⟨hfit, rfl⟩ : _ ∧ t = s := ht
  cases hb : v.boundWriter with
  | none => trivial
  | some c =>
    refine (safe_giveBack (fun hc => ?_) v.boundWriterPool).bind fun _ _ _ => trivial
    cases hd : v.connDirty with
    | true => rfl
    | false => exact absurd hc (hfit ((h c hc hb).resolve_right (by simp [hd])) hd c hb)

def Asked : Op → Ward → Prop
  | .send _ r, s => r ∈ s.allowed
  | _, _ => True

theorem allowed_of_step {o : Op} {rs : List Request} {ls : List (Option Nat)} {ans : Ans o}
    (ho : Sends rs ls o) (h : step exempt env o s ans t) : t.allowed = s.allowed := by
  cases o with
  | recv v | leave v => exact ho.elim
  | send c r => obtain rfl | ⟨_, rfl⟩ := h <;> rfl
  | reset c =>
    cases ans with
    | true | false => obtain rfl : t = _ := h; rfl
  | _ => obtain rfl : t = _ := h; rfl

theorem stable_asked (rs : List Request) (ls : List (Option Nat)) :
    Stable (step exempt env) Asked (Sends rs ls) fun s => s.allowed = rs := by
  intro o s ho hs
  refine ⟨?_, fun ans t ht => (allowed_of_step ho ht).trans hs⟩
  cases o with
  | send c r =>
    change r ∈ s.allowed
    rwa [hs]
  | _ => trivial

theorem asked_round (v : Vars) (s : Ward) :
    Safe (step exempt env) Asked (round env v) (fun _ _ => True) s := by
  refine safe_bind.mpr ⟨trivial, fun i t ht => ?_⟩
  cases i with
  | none => trivial
  | some i => exact ((all_handleMessage i v).safe (stable_asked _ _) ht.2.2).mono fun _ _ _ =>
      trivial

theorem asked_relayQueries (n : Nat) (session : Session) (s : Ward) :
    Safe (step exempt env) Asked (relayQueries env n session) (fun _ _ => True) s := by
  refine safe_session (P := fun _ => True) n session (fun v s _ => asked_round v s)
    (fun _ _ _ => trivial) ?_ trivial
  intro o t ho _
  refine ⟨?_, fun _ _ _ => trivial⟩
  cases o with
  | send c r => exact absurd ho List.not_mem_nil
  | _ => trivial

theorem releases_relayQueries (n : Nat) (session : Session) (h : s.unfit = ∅) :
    Safe (step exempt env) (Releases exempt) (relayQueries env n session) (fun _ _ => True) s := by
  have hkept : Kept exempt (Vars.init session) s := fun c hc => absurd hc (by simp [h])
  refine Safe.bind ?_ fun v t ht => safe_cleanup ht
  exact Safe.rounds (I := Kept exempt) n (fun v t ht => safe_round ht)
    (fun v t ht => ht.stopped) hkept

theorem safe_relayQueries (n : Nat) (session : Session) (h : s.unfit = ∅) :
    Safe (step exempt env) (fun o s => Releases exempt o s ∧ Asked o s) (relayQueries env n session)
      (fun _ _ => True) s :=
  ((releases_relayQueries n session h).and (asked_relayQueries n session s)).mono fun _ _ _ =>
    trivial

end

end PgMux.Hygiene
