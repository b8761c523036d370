import PgMux.Borrowing
import PgMux.LoopInvariant

/-!
# The bound writer

At the head of the loop nothing is borrowed but the bound writer, which is bound together with its
pool exactly while the session is in a transaction. Every round keeps this.
-/

namespace PgMux.Borrowing

open Effects Protocol Relay
open Router hiding Env
open Pools (Conn Pool)

section

variable {env : Env} {l : Ledger}

inductive Held : Option Conn → Option Pool → List (Conn × Pool) → Prop where
  | idle : Held none none []
  | bound (c : Conn) (p : Pool) : Held (some c) (some p) [(c, p)]

theorem Held.paired {b : Option Conn} {bp : Option Pool} {bor : List (Conn × Pool)}
    (h : Held b bp bor) : b.isSome = bp.isSome := by
  cases h <;> rfl

structure Tidy (v : Vars) (l : Ledger) : Prop where
  held : Held v.boundWriter v.boundWriterPool l.borrowed
  current : l.reloaded = false → ∀ p ∈ v.boundWriterPool, p = l.writerPool

structure Settled (v : Vars) (l : Ledger) : Prop extends Tidy v l where
  inTx : v.session.inTransaction = v.boundWriter.isSome

def Stopped (v : Vars) (l : Ledger) : Prop :=
  Held v.boundWriter v.boundWriterPool l.borrowed ∨
    (l.endsUnbound = true ∧ v.boundWriter = none ∧ v.boundWriterPool = none)

def Ends (r : Flow Vars) (l : Ledger) : Prop :=
  match r with
  | .next v => Settled v l
  | .stop v => Stopped v l

inductive Leased (p : Pool) (c : Conn) (l : Ledger) : Option Conn → Option Pool → Bool → Prop where
  | new (hl : l.borrowed = [(c, p)]) (hc : l.reloaded = false → p = l.writerPool) :
      Leased p c l none none true
  | bound (q : Pool) (hl : l.borrowed = [(c, q)]) (hc : l.reloaded = false → q = l.writerPool)
      (hre : l.rebinds = some q → p = q) : Leased p c l (some c) (some q) false

variable {l' : Ledger} {v : Vars} {p : Pool} {i : Input}

theorem Tidy.same (h : Tidy v l) (hs : Same l l') : Tidy v l' where
  held := hs.borrowed ▸ h.held
  current hr q hq := by
    obtain ⟨hr', hw⟩ := hs.current hr
    rw [hw]
    exact h.current hr' q hq

theorem Settled.same (h : Settled v l) (hs : Same l l') : Settled v l' :=
  ⟨h.toTidy.same hs, h.inTx⟩

theorem Settled.of_eq {v' : Vars} (h : Settled v l) (hb : v'.boundWriter = v.boundWriter)
    (hp : v'.boundWriterPool = v.boundWriterPool)
    (htx : v'.session.inTransaction = v.session.inTransaction) : Settled v' l where
  held := by
    rw [hb, hp]
    exact h.held
  current := by
    rw [hp]
    exact h.current
  inTx := by rw [htx, hb, h.inTx]

theorem Leased.same {b : Option Conn} {bp : Option Pool} {c : Conn} {acquired : Bool}
    (h : Leased p c l b bp acquired) (hs : Same l l') : Leased p c l' b bp acquired := by
  cases h with
  | new hl hc =>
    refine .new (hs.borrowed.trans hl) fun hr => ?_
    obtain ⟨hr', hw⟩ := hs.current hr
    exact (hc hr').trans hw.symm
  | bound q hl hc hre =>
    refine .bound q (hs.borrowed.trans hl) (fun hr => ?_) fun hq => hre (hs.rebinds ▸ hq)
    obtain ⟨hr', hw⟩ := hs.current hr
    exact (hc hr').trans hw.symm

theorem safe_acquireWriter (hp : l.acquiredPool = some p)
    (hc : l.reloaded = false → p = l.writerPool) :
    Safe (machine env) Sound acquireWriter (fun c l' => Kept l l' ∧
        l'.borrowed = c.toList.map (·, p) ++ l.borrowed ∧
        (l'.reloaded = false → p = l'.writerPool)) l := by
  refine ⟨trivial, ?_⟩
  rintro c l' ⟨l₁, hd, hst, rfl⟩
  have hlends : p = l₁.writerPool := by
    cases hr : l₁.reloaded with
    | true =>
      have hsome : some p = some l₁.writerPool := by rw [← hst hr, hd.acquiredPool, hp]
      exact Option.some.inj hsome
    | false =>
      obtain ⟨hr', hw⟩ := hd.same.current hr
      rw [hw]
      exact hc hr'
  refine ⟨⟨hd.same.rebinds, hd.same.endsUnbound, hd.same.current⟩, ?_, fun _ => hlends⟩
  rw [hlends, ← hd.same.borrowed]
  rfl

theorem safe_withWriter {use : Pool → Conn → Bool → Run (Flow Vars)} (hv : Tidy v l)
    (huse : ∀ p c acquired l', Kept l l' → Leased p c l' v.boundWriter v.boundWriterPool acquired →
      Safe (machine env) Sound (use p c acquired) Ends l') :
    Safe (machine env) Sound (withWriter v use) Ends l := by
  refine safe_bind.mpr ⟨trivial, ?_⟩
  rintro p l₁ ⟨l₀, hd₀, hp, hre, rfl⟩
  have hk₀ : Kept l { l₀ with acquiredPool := some p } :=
    ⟨hd₀.same.rebinds, hd₀.same.endsUnbound, hd₀.same.current⟩
  obtain ⟨hheld, hcur⟩ := hv
  have hstop : ∀ l', Same l l' → Held v.boundWriter v.boundWriterPool l'.borrowed := by
    intro l' hs
    rw [hs.borrowed]
    exact hheld
  generalize v.boundWriter = b at hheld huse ⊢
  generalize v.boundWriterPool = bp at hheld hcur huse
  generalize hbor : l.borrowed = bor at hheld
  cases hheld with
  | bound b q =>
    refine huse p b false _ hk₀ (.bound q (hd₀.same.borrowed.trans hbor)
      (fun hr => ?_) fun hrb => ?_)
    · obtain ⟨hr', hw⟩ := hd₀.same.current hr
      exact (hcur hr' q rfl).trans hw.symm
    · cases hr : l₀.reloaded with
      | true => exact hre hr q hrb
      | false =>
        obtain ⟨hr', hw⟩ := hd₀.same.current hr
        rw [hp, hw]
        exact (hcur hr' q rfl).symm
  | idle =>
    have hnil : l₀.borrowed = [] := hd₀.same.borrowed.trans hbor
    have hacq := @safe_acquireWriter env { l₀ with acquiredPool := some p } p rfl fun _ => hp
    refine safe_bind.mpr (hacq.bind ?_)
    rintro (_ | c) l₂ ⟨hk, hb₂, hc₂⟩
    · refine (keeps_sendError _).then fun _ l₃ h₃ => ?_
      have hsame : Same l l₂ := ⟨hk₀.trans hk, hb₂.trans hd₀.same.borrowed⟩
      exact .inl (hstop l₃ (trans_of Same hsame h₃))
    · refine huse p c true l₂ (hk₀.trans hk) (.new ?_ hc₂)
      simpa [hnil] using hb₂

theorem safe_settle {binds ends acquired dirty dirtyAfter : Bool} {c : Conn}
    (hl : Leased p c l v.boundWriter v.boundWriterPool acquired)
    (hre : binds = true → v.boundWriter.isSome = true → l.rebinds = v.boundWriterPool)
    (hun : ends = true → v.boundWriter = none → l.endsUnbound = true)
    (htx : v.session.inTransaction = (binds || (!ends && v.boundWriter.isSome))) :
    Safe (machine env) Sound (settle binds ends acquired dirty dirtyAfter c p v) Ends l := by
  generalize hb : v.boundWriter = b at hl hre hun htx
  generalize hbp : v.boundWriterPool = bp at hl hre
  cases binds with
  | true =>
    simp only [settle, ↓reduceIte, safe_pure]
    have hpool : l.borrowed = [(c, p)] ∧ (l.reloaded = false → p = l.writerPool) := by
      cases hl with
      | new hl hc => exact ⟨hl, hc⟩
      | bound q hl hc hrb =>
        have hpq : p = q := hrb (hre rfl rfl)
        exact hpq ▸ ⟨hl, hc⟩
    refine ⟨⟨hpool.1 ▸ .bound c p, ?_⟩, by simpa using htx⟩
    rintro hr p' ⟨⟩
    exact hpool.2 hr
  | false =>
    cases ends with
    | true =>
      simp only [settle, Bool.false_eq_true, ↓reduceIte, hbp]
      cases hl with
      | new hl hc =>
        refine (safe_giveBack_none dirty c (hun rfl rfl)).bind ?_
        rintro ok l' ⟨rfl, hs⟩
        exact .inr ⟨hs.endsUnbound.trans (hun rfl rfl), rfl, rfl⟩
      | bound q hl hc hrb =>
        have hmem : (c, q) ∈ l.borrowed := by simp [hl]
        refine (safe_giveBack dirty hmem).bind ?_
        rintro ok l' ⟨rfl, hk, hb'⟩
        refine ⟨⟨?_, fun _ p' hp' => absurd hp' (by simp)⟩, by simpa using htx⟩
        rw [hb', hl, List.erase_cons_head]
        exact .idle
    | false =>
      cases hl with
      | new hl hc =>
        simp only [settle, Bool.false_eq_true, ↓reduceIte]
        have hmem : (c, p) ∈ l.borrowed := by simp [hl]
        refine (safe_giveBack dirty hmem).bind ?_
        rintro ok l' ⟨rfl, hk, hb'⟩
        have hsettled : Settled { v with boundWriter := none, boundWriterPool := none } l' := by
          refine ⟨⟨?_, fun _ p' hp' => absurd hp' (by simp)⟩, by simpa using htx⟩
          rw [hb', hl, List.erase_cons_head]
          exact .idle
        exact hsettled.of_eq hb hbp rfl
      | bound q hl hc hrb =>
        simp only [settle, Bool.false_eq_true, ↓reduceIte, safe_pure]
        have hsettled : Settled { v with boundWriter := some c, boundWriterPool := some q } l := by
          refine ⟨⟨hl ▸ .bound c q, ?_⟩, by simpa using htx⟩
          rintro hr p' ⟨⟩
          exact hc hr
        exact hsettled.of_eq hb hbp rfl

theorem safe_dropWriter {acquired : Bool} {c : Conn}
    (hl : Leased p c l v.boundWriter v.boundWriterPool acquired) :
    Safe (machine env) Sound (dropWriter acquired c p v) Ends l := by
  generalize hb : v.boundWriter = b at hl
  generalize hbp : v.boundWriterPool = bp at hl
  cases hl with
  | new hl hc =>
    have hmem : (c, p) ∈ l.borrowed := by simp [hl]
    refine safe_bind.mpr ((safe_return (.inr rfl) hmem).bind ?_)
    rintro _ l' ⟨hk, hb'⟩
    refine .inl ?_
    rw [hb', hl, List.erase_cons_head, hb, hbp]
    exact .idle
  | bound q hl hc hrb =>
    have hmem : (c, q) ∈ l.borrowed := by simp [hl]
    simp only [dropWriter, Bool.false_eq_true, ↓reduceIte, hb, hbp]
    refine safe_bind.mpr ((safe_return (.inr rfl) hmem).bind ?_)
    rintro _ l' ⟨hk, hb'⟩
    have hnil : l'.borrowed = [] := by rw [hb', hl, List.erase_cons_head]
    exact .inl (hnil ▸ .idle)

/-! ## Messages -/

theorem safe_writeSimple {query : Bytes} {pq : Option PgQuery.ParseResult} {routed : RoutedTx}
    (hv : Tidy v l) (hwas : routed.wasInTx = v.boundWriter.isSome)
    (hnow : routed.nowInTx = v.session.inTransaction) :
    Safe (machine env) Sound (writeSimple env i query pq routed v) Ends l := by
  refine safe_withWriter hv fun p c acquired l₁ _ hl => ?_
  refine (safe_handleWriteQuery _ _ _ _ _ _).bind ?_
  rintro session l₂ ⟨h₂, htx⟩
  refine safe_settle (hl.same h₂) ?_ ?_ ?_
  · intro hbinds hsome
    simp [hwas, show v.boundWriter.isSome = true from hsome] at hbinds
  · intro hends hnone
    simp [hwas, show v.boundWriter = none from hnone] at hends
  · change session.inTransaction = _
    rw [htx, ← hnow, hwas]
    cases routed.nowInTx <;> cases v.boundWriter.isSome <;> rfl

theorem safe_writeExtended {synthesized : Bool} {r : Request} (hv : Settled v l)
    (hre : (v.extTxStart && !v.extTxEnd) = true → l.rebinds = v.boundWriterPool)
    (hun : v.extTxEnd = true → v.boundWriter = none → l.endsUnbound = true) :
    Safe (machine env) Sound (writeExtended synthesized r v) Ends l := by
  refine safe_withWriter hv.toTidy fun p c acquired l₁ hk hl => ?_
  refine (keeps_exchange c r).then fun ok l₂ h₂ => ?_
  cases ok with
  | false => exact safe_dropWriter (hl.same h₂)
  | true =>
    refine safe_settle (hl.same h₂) ?_ ?_ ?_
    · intro hbinds _
      exact (h₂.rebinds.trans hk.rebinds).trans (hre hbinds)
    · intro hends hnone
      exact (h₂.endsUnbound.trans hk.endsUnbound).trans (hun hends hnone)
    · have htx := hv.inTx
      cases hs : v.extTxStart <;> cases he : v.extTxEnd <;> simp [Session.setInTransaction, htx]

theorem endsUnbound_of_runs (hi : i.msg.type = msgSync) (hend : v.extTxEnd = true)
    (hnone : v.boundWriter = none) (hreads : readsOnly v = false)
    (hruns : env.multiplexMode = true → (synthesizedQuery v).isSome) :
    endsUnbound env v i = true := by
  cases hmux : env.multiplexMode with
  | false => simp [endsUnbound, hi, hend, hnone, hreads, hmux]
  | true =>
    obtain ⟨query, hquery⟩ := Option.isSome_iff_exists.mp (hruns hmux)
    obtain ⟨detail, hbind, hsynth⟩ := Option.bind_eq_some_iff.mp hquery
    simp [endsUnbound, hi, hend, hnone, hreads, hbind, hsynth]

theorem keeps_speaks {o : Op} (ho : Speaks o) : Keeps (machine env) Sound Same (perform o) := by
  cases o with
  | client m => exact keeps_toClient m
  | allow => exact keeps_perform (fun _ => trivial) fun _ _ _ h => h
  | _ => exact ho.elim

theorem stable_of_same {P : Ledger → Prop} (hP : ∀ {l l'}, Same l l' → P l → P l') :
    Stable (machine env) Sound Speaks P := by
  intro o l ho hl
  have hkeeps : Keeps (machine env) Sound Same (perform o) := keeps_speaks ho
  obtain ⟨hpre, hsame⟩ := hkeeps l
  exact ⟨hpre, fun ans l' hs => hP (hsame ans l' hs) hl⟩

theorem ends_eq : Ends = Flow.Post Settled Stopped := by
  funext r l
  cases r <;> rfl

theorem loopInvariant : LoopInvariant (machine env) Sound Settled Stopped where
  alike hv h := h.of_eq hv.boundWriter hv.boundWriterPool hv.inTransaction
  stop h := .inl h.held
  speaks _ := stable_of_same fun hs h => h.same hs

theorem Settled.keeps (hv : Settled v l) {p : Run Bool} (hp : Keeps (machine env) Sound Same p) :
    Safe (machine env) Sound p (fun _ => Settled v) l :=
  (hp l).mono fun _ _ hs => hv.same hs

structure Noted (env : Env) (v : Vars) (i : Input) (l : Ledger) : Prop extends Settled v l where
  rebinds : l.rebinds = rebinds v i
  endsUnbound : l.endsUnbound = endsUnbound env v i

theorem Noted.same (h : Noted env v i l) (hs : Same l l') : Noted env v i l' :=
  ⟨h.toSettled.same hs, hs.rebinds.trans h.rebinds, hs.endsUnbound.trans h.endsUnbound⟩

theorem safe_batch (hi : i.msg.type = msgSync) (hv : Noted env v i l)
    (hruns : env.multiplexMode = true → (synthesizedQuery v).isSome) {p : Run Bool}
    (hp : Keeps (machine env) Sound Same p) (synthesized : Bool) (r : Request) :
    Safe (machine env) Sound (if readsOnly v then do if ← p then return .next v else return .stop v
      else writeExtended synthesized r v) (Flow.Post Settled Stopped) l := by
  split
  · exact loopInvariant.goOn (.refl v) (hv.keeps hp)
  · rename_i hreads
    rw [← ends_eq]
    refine safe_writeExtended hv.toSettled (fun hbinds => ?_) fun hend hnone => ?_
    · obtain ⟨hs, he⟩ := Bool.and_eq_true_iff.mp hbinds
      simp [hv.rebinds, Borrowing.rebinds, hi, hs, show v.extTxEnd = false by simpa using he]
    · rw [hv.endsUnbound]
      exact endsUnbound_of_runs hi hend hnone (Bool.eq_false_iff.mpr hreads) hruns

theorem safe_dispatch (hv : Noted env v i l) :
    Safe (machine env) Sound (dispatch env i v) (Flow.Post Settled Stopped) l := by
  refine loopInvariant.dispatch hv.toSettled (fun _ pq => ?_) (fun _ => ?_)
    (fun hi hmux query hquery => ?_)
    fun hi hmux => ?_
  · refine loopInvariant.executeQuery (fun _ => ?_) fun _ =>
      hv.keeps (keeps_handleReadQuery _ _ _ _)
    rw [← ends_eq]
    exact safe_writeSimple ⟨hv.held, hv.current⟩ hv.inTx rfl
  · exact hv.keeps (keeps_handleMultiplexDescribe _ _)
  · exact safe_batch hi hv (fun _ => Option.isSome_of_mem hquery)
      (keeps_handleSynthesizedRead query) _ _
  · exact safe_batch hi hv (by simp [hmux]) (keeps_handleExtendedRead _ _) _ _

theorem safe_handleMessage (hv : Noted env v i l) :
    Safe (machine env) Sound (handleMessage env i v) (Flow.Post Settled Stopped) l :=
  loopInvariant.handleMessage (fun _ h => h.toSettled) (stable_of_same fun hs h => h.same hs) hv
    fun _ h => safe_dispatch h

theorem safe_round (hv : Settled v l) :
    Safe (machine env) Sound (round env v) (Flow.Post Settled Stopped) l := by
  refine safe_bind.mpr ⟨hv.held.paired, ?_⟩
  rintro i l' ⟨l₁, hd, rfl⟩
  have hv₁ := hv.same hd.same
  have hv' : Settled v
      { l₁ with rebinds := i.bind (rebinds v), endsUnbound := i.any (endsUnbound env v) } :=
    ⟨⟨hv₁.held, hv₁.current⟩, hv₁.inTx⟩
  cases i with
  | none => exact .inl hv'.held
  | some i => exact safe_handleMessage ⟨hv', rfl, rfl⟩

theorem safe_cleanup (hv : Stopped v l) :
    Safe (machine env) Sound (cleanup v) (fun _ l' => l'.endsUnbound = false →
      l'.borrowed = []) l := by
  have hpaired : v.boundWriter.isSome = v.boundWriterPool.isSome := by
    cases hv with
    | inl h => exact h.paired
    | inr h => rw [h.2.1, h.2.2]
  refine safe_bind.mpr ⟨hpaired, ?_⟩
  rintro _ l₁ ⟨_, hd, rfl⟩
  cases hv with
  | inr h =>
    rw [h.2.1]
    intro hun
    rw [hd.same.endsUnbound, h.1] at hun
    exact absurd hun (by simp)
  | inl h =>
    rw [← hd.same.borrowed] at h
    generalize v.boundWriter = b at h
    generalize v.boundWriterPool = bp at h
    generalize hbor : l₁.borrowed = bor at h
    cases h with
    | idle => exact fun _ => hbor
    | bound c p =>
      have hmem : (c, p) ∈ l₁.borrowed := by simp [hbor]
      refine (safe_giveBack _ hmem).bind ?_
      rintro _ l' ⟨-, -, hb'⟩ -
      rw [hb', hbor, List.erase_cons_head]

theorem safe_relayQueries {session : Session} (n : Nat) (hs : session.inTransaction = false)
    (hl : l.borrowed = []) :
    Safe (machine env) Sound (relayQueries env n session) (fun _ l' => l'.endsUnbound = false →
      l'.borrowed = []) l := by
  have hinit : Settled (Vars.init session) l :=
    ⟨⟨hl ▸ .idle, fun _ p hp => absurd hp (by simp [Vars.init])⟩, hs⟩
  refine Safe.bind ?_ fun v l' hv => safe_cleanup hv
  exact Safe.rounds n (fun v l hv => safe_round hv) (fun v l hv => .inl hv.held) hinit

end

end PgMux.Borrowing
