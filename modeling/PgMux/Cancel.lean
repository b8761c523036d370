import PgMux.Holding

/-!
# Cancel requests

A session tells its `cancelTarget` which connection runs its query. A cancel request and a fired
timer read the target and send a CancelRequest later, while the session goes on.
-/

namespace PgMux.Cancel

open Effects Holding Relay
open Pools (Conn)
open Router (Session)

/-! ## Sessions with a target -/

inductive TargetOp where
  | setFromConn (c : Conn)
  | startQueryTimer
  | stopTimer
  | clear
  | run (o : Op)

abbrev TargetAns : TargetOp → Type
  | .startQueryTimer => Bool
  | .run o => Ans o
  | .setFromConn _ | .stopTimer | .clear => Unit

abbrev Timed := Prog TargetAns

abbrev setFromConn (c : Conn) : Timed Unit := perform (TargetOp.setFromConn c)
abbrev startQueryTimer : Timed Bool := perform TargetOp.startQueryTimer
abbrev stopTimer : Timed Unit := perform TargetOp.stopTimer
abbrev clear : Timed Unit := perform TargetOp.clear
abbrev run (o : Op) : Timed (Ans o) := perform (TargetOp.run o)

structure Exchange where
  running : Bool
  timer : Bool
  fallback : Bool

def Exchange.none : Exchange := ⟨false, false, false⟩

def within : Op → Bool
  | .relay _ | .collect _ | .queryLSN _ | .invalidate _ => true
  | _ => false

def isFallback : Op → Bool
  | .acquire _ => true
  | _ => false

def targeted : Op → Option (Conn × Bool)
  | .send c (.forward _) | .send c (.batch _ _) => some (c, true)
  | .send c (.synthesized _) => some (c, false)
  | _ => none

def finish (x : Exchange) : Timed Unit := do
  if x.timer then stopTimer
  if x.running then clear

def withTarget (o : Op) (x : Exchange) : Timed (Ans o × Exchange) := do
  if within o then return (← run o, x)
  else
    finish x
    match targeted o with
    | none => return (← run o, ⟨false, false, isFallback o⟩)
    | some (c, timed) =>
      setFromConn c
      let timer ← if timed && !x.fallback then startQueryTimer else pure false
      return (← run o, ⟨true, timer, false⟩)

def session (env : Env) (n : Nat) (session : Session) : Timed (Unit × Exchange) :=
  (relayQueries env n session).elaborate withTarget .none

structure Local where
  held : Set Conn
  target : Option Conn

namespace Local

def step : Machine TargetAns Local := fun o s ans t =>
  match o, ans with
  | .setFromConn c, _ => t = { s with target := some c }
  | .clear, _ => t = { s with target := none }
  | .startQueryTimer, _ | .stopTimer, _ => t = s
  | .run o, ans => Holding.step o s.held ans t.held ∧ t.target = s.target

def Fits : TargetOp → Local → Prop
  | .setFromConn c, s => c ∈ s.held
  | .run o, s => Held o s.held ∧ ((givenBack o).isSome = true → s.target = none)
  | _, _ => True

structure Follows (s : Set Conn) (x : Exchange) (u : Local) : Prop where
  held : u.held = s
  target : if x.running then ∃ c ∈ s, u.target = some c else u.target = none

end Local

variable {c : Conn}

section

variable {o : Op} {s : Set Conn} {x : Exchange} {u : Local}

theorem within_plain (h : within o = true) :
    (∀ ans, borrowed o ans = none) ∧ givenBack o = none := by
  cases o <;> first | exact ⟨fun _ => rfl, rfl⟩ | exact nomatch h

theorem targeted_send {timed : Bool} (h : targeted o = some (c, timed)) :
    used o = some c ∧ (∀ ans, borrowed o ans = none) ∧ givenBack o = none := by
  cases o with
  | send d r => cases r <;> cases h <;> exact ⟨rfl, fun _ => rfl, rfl⟩
  | _ => exact nomatch h

theorem safe_finish (h : Local.Follows s x u) :
    Safe Local.step Local.Fits (finish x) (fun _ u' => u' = ⟨s, none⟩) u := by
  obtain ⟨running, timer, fallback⟩ := x
  obtain ⟨rfl, htarget⟩ := h
  have hclear : ∀ u', u' = u → Safe Local.step Local.Fits (if running then clear else pure ())
      (fun _ u' => u' = ⟨u.held, none⟩) u' := by
    rintro u' rfl
    cases running with
    | true => exact ⟨trivial, fun _ t ht => ht⟩
    | false =>
      have hnone : u'.target = none := htarget
      exact hnone ▸ rfl
  cases timer with
  | true => exact safe_bind.mpr ⟨trivial, fun _ t ht => hclear t ht⟩
  | false => exact hclear u rfl

theorem safe_withTarget (hheld : Held o s) (h : Local.Follows s x u) :
    Safe Local.step Local.Fits (withTarget o x)
      (fun r u' => ∃ t, Holding.step o s r.1 t ∧ Local.Follows t r.2 u') u := by
  unfold withTarget
  cases hwithin : within o with
  | true =>
    obtain ⟨hb, hg⟩ := within_plain hwithin
    obtain ⟨rfl, htarget⟩ := h
    refine safe_bind.mpr ⟨⟨hheld, fun hsome => by simp [hg] at hsome⟩, fun ans t ht => ?_⟩
    obtain ⟨hstep, hsame⟩ := ht
    have hset : t.held = u.held := hstep.2.trans (next_of_none (hb ans) hg)
    exact ⟨t.held, hstep, rfl, by rw [hset, hsame]; exact htarget⟩
  | false =>
    refine (safe_finish h).bind fun _ u' hu => ?_
    subst hu
    cases htargeted : targeted o with
    | none =>
      refine safe_bind.mpr ⟨⟨hheld, fun _ => rfl⟩, fun ans t ht => ?_⟩
      exact ⟨t.held, ht.1, rfl, ht.2⟩
    | some ct =>
      obtain ⟨c, timed⟩ := ct
      obtain ⟨hused, hb, hg⟩ := targeted_send htargeted
      have hc : c ∈ s := hheld c hused
      have hsend : ∀ timer : Bool,
          Safe Local.step Local.Fits (do return (← run o, ⟨true, timer, false⟩))
          (fun r u' => ∃ t, Holding.step o s r.1 t ∧ Local.Follows t r.2 u') ⟨s, some c⟩ := by
        intro timer
        refine safe_bind.mpr ⟨⟨hheld, fun hsome => by simp [hg] at hsome⟩, fun ans t ht => ?_⟩
        obtain ⟨hstep, hsame⟩ := ht
        have hset : t.held = s := hstep.2.trans (next_of_none (hb ans) hg)
        exact ⟨t.held, hstep, rfl, c, hset ▸ hc, hsame⟩
      refine safe_bind.mpr ⟨hc, fun _ t ht => ?_⟩
      subst ht
      cases timed && !x.fallback with
      | true =>
        refine safe_bind.mpr ⟨trivial, fun timer t ht => ?_⟩
        subst ht
        exact hsend timer
      | false => exact hsend false

theorem safe_session (env : Env) (n : Nat) (sess : Session) :
    Safe Local.step Local.Fits (session env n sess) (fun _ _ => True) ⟨∅, none⟩ := by
  have hstart : Local.Follows ∅ .none ⟨∅, none⟩ := ⟨rfl, rfl⟩
  exact (Safe.elaborate @safe_withTarget (safe_relayQueries n sess) hstart).mono fun _ _ _ =>
    trivial

end

/-! ## Sessions and cancel requests -/

structure Sys (ι : Type) where
  prog : ι → Timed (Unit × Exchange)
  target : ι → Option Conn
  armed : ι → Bool
  callbacks : ι → Nat
  holder : Conn → Option ι
  flying : List (ι × Conn)

def lent : (o : TargetOp) → TargetAns o → Option Conn
  | .run o, ans => borrowed o ans
  | _, _ => none

def back : TargetOp → Option Conn
  | .run o => givenBack o
  | _ => none

namespace Sys

variable {ι : Type} [DecidableEq ι]

def start (prog : ι → Timed (Unit × Exchange)) : Sys ι :=
  ⟨prog, fun _ => none, fun _ => false, fun _ => 0, fun _ => none, []⟩

def act (s : Sys ι) (i : ι) (o : TargetOp) (ans : TargetAns o) : Sys ι :=
  match o, ans with
  | .setFromConn c, _ => { s with target := Function.update s.target i (some c) }
  | .clear, _ => { s with target := Function.update s.target i none }
  | .startQueryTimer, started => { s with armed := Function.update s.armed i started }
  | .stopTimer, _ => { s with armed := Function.update s.armed i false }
  | .run o, ans =>
    { s with
      holder := fun c =>
        if borrowed o ans = some c then some i else if givenBack o = some c then none
          else s.holder c }

def get (named : Conn → Bool) (i : ι) (s : Sys ι) : Sys ι :=
  { s with flying := ((s.target i).filter named).toList.map (i, ·) ++ s.flying }

end Sys

inductive Step {ι : Type} [DecidableEq ι] (named : Conn → Bool) (ok : Sys ι → ι → Conn → Prop) :
    Sys ι → Sys ι → Prop where
  | act {s : Sys ι} (i : ι) {o : TargetOp} {k : TargetAns o → Timed (Unit × Exchange)}
      (ans : TargetAns o)
      (hprog : s.prog i = .op o k) (hfree : ∀ c ∈ lent o ans, s.holder c = none)
        (hback : ∀ c ∈ back o, ok s i c) :
      Step named ok s { s.act i o ans with prog := Function.update s.prog i (k ans) }
  | fire {s : Sys ι} (i : ι) (harmed : s.armed i = true) :
      Step named ok s
        { s with
          armed := Function.update s.armed i false
          callbacks := Function.update s.callbacks i (s.callbacks i + 1) }
  | callback {s : Sys ι} (i : ι) {n : Nat} (hn : s.callbacks i = n + 1) :
      Step named ok s (Sys.get named i { s with callbacks := Function.update s.callbacks i n })
  | handleCancelRequest {s : Sys ι} (i : ι) : Step named ok s (s.get named i)
  | arrive {s : Sys ι} (i : ι) (c : Conn) (h : (i, c) ∈ s.flying) :
      Step named ok s { s with flying := s.flying.erase (i, c) }

abbrev Runs {ι : Type} [DecidableEq ι] (named : Conn → Bool) (ok : Sys ι → ι → Conn → Prop) :
    Sys ι → Sys ι → Prop :=
  Relation.ReflTransGen (Step named ok)

/-- No CancelRequest for the session that names the connection is on its way. -/
abbrev Settled {ι : Type} (s : Sys ι) (i : ι) (c : Conn) : Prop := (i, c) ∉ s.flying

section

variable {ι : Type} {named : Conn → Bool} {s t : Sys ι}

def Sys.local (s : Sys ι) (i : ι) : Local := ⟨{c | s.holder c = some i}, s.target i⟩

structure Sound (s : Sys ι) : Prop where
  safe : ∀ i, Safe Local.step Local.Fits (s.prog i) (fun _ _ => True) (s.local i)
  target : ∀ i c, s.target i = some c → s.holder c = some i
  flying : ∀ i c, (i, c) ∈ s.flying → s.holder c = some i

theorem sound_start {prog : ι → Timed (Unit × Exchange)}
    (h : ∀ i, Safe Local.step Local.Fits (prog i) (fun _ _ => True) ⟨∅, none⟩) :
    Sound (Sys.start prog) where
  safe i := by
    have hlocal : (Sys.start prog).local i = ⟨∅, none⟩ := by simp [Sys.local, Sys.start]
    rw [hlocal]
    exact h i
  target _ _ h := nomatch h
  flying _ _ h := nomatch h

theorem Sound.get (h : Sound s) (i : ι) : Sound (s.get named i) where
  safe := h.safe
  target := h.target
  flying j c hj := by
    obtain hnew | hold := List.mem_append.mp hj
    · obtain ⟨d, hd, heq⟩ := List.mem_map.mp hnew
      obtain ⟨rfl, rfl⟩ := Prod.mk.inj heq
      exact h.target i d (Option.mem_filter_iff.mp (Option.mem_toList.mp hd)).1
    · exact h.flying j c hold

variable {o : TargetOp} {i : ι}

theorem Sound.local_step (h : Sound s) (i : ι) {k : TargetAns o → Timed (Unit × Exchange)}
    (hprog : s.prog i = .op o k) :
    Local.Fits o (s.local i) ∧ ∀ ans u, Local.step o (s.local i) ans u →
      Safe Local.step Local.Fits (k ans) (fun _ _ => True) u := by
  have hsafe := h.safe i
  rw [hprog] at hsafe
  exact hsafe

theorem givenBack_of_borrowed {o : Op} {ans : Ans o} (h : borrowed o ans = some c) :
    givenBack o = none := by
  cases o <;> first | rfl | exact nomatch h

theorem used_of_givenBack {o : Op} (h : givenBack o = some c) : used o = some c := by
  cases o <;> first | exact h | exact nomatch h

variable [DecidableEq ι]

theorem holder_act {j : ι} {ans : TargetAns o} (hc : s.holder c = some j)
    (hfree : ∀ c ∈ lent o ans, s.holder c = none) (hback : back o ≠ some c) :
    (s.act i o ans).holder c = some j := by
  cases o with
  | run o =>
    have hlent : borrowed o ans ≠ some c := fun hb => nomatch hc.symm.trans (hfree c hb)
    have hkeep : givenBack o ≠ some c := hback
    simp [Sys.act, hlent, hkeep, hc]
  | _ => exact hc

theorem local_act_self {ans : TargetAns o} (hfree : ∀ c ∈ lent o ans, s.holder c = none) :
    Local.step o (s.local i) ans ((s.act i o ans).local i) := by
  cases o with
  | setFromConn c | clear => simp [Local.step, Sys.local, Sys.act]
  | startQueryTimer | stopTimer => rfl
  | run o =>
    refine ⟨⟨fun c hc hmem => (nomatch (hfree c hc).symm.trans hmem), ?_⟩, rfl⟩
    ext c
    change (if borrowed o ans = some c then some i else if givenBack o = some c then none
      else s.holder c) = some i ↔
      (s.holder c = some i ∨ borrowed o ans = some c) ∧ givenBack o ≠ some c
    by_cases hb : borrowed o ans = some c
    · simp [hb, givenBack_of_borrowed hb]
    · by_cases hg : givenBack o = some c <;> simp [hb, hg]

theorem local_act_other {j : ι} {ans : TargetAns o} (hij : j ≠ i)
    (hfree : ∀ c ∈ lent o ans, s.holder c = none) (hown : ∀ c ∈ back o, s.holder c = some i) :
    (s.act i o ans).local j = s.local j := by
  cases o with
  | setFromConn c | clear => simp [Sys.local, Sys.act, hij]
  | startQueryTimer | stopTimer => rfl
  | run o =>
    have hset : {c | ((s.act i (.run o) ans).holder c) = some j} = {c | s.holder c = some j} := by
      ext c
      refine ⟨fun hc => ?_, fun hc => holder_act hc hfree fun hb => ?_⟩
      · change (if borrowed o ans = some c then some i else if givenBack o = some c then none
          else s.holder c) = some j at hc
        split at hc
        · exact absurd (Option.some.inj hc).symm hij
        split at hc
        · exact nomatch hc
        · exact hc
      · exact hij (Option.some.inj ((Eq.symm hc).trans (hown c hb)))
    exact congrArg (Local.mk · (s.target j)) hset

theorem flying_act {ans : TargetAns o} : (s.act i o ans).flying = s.flying := by
  cases o <;> rfl

theorem holder_of_target_act {j : ι} {ans : TargetAns o} (h : Sound s)
    (hfits : Local.Fits o (s.local i)) (hfree : ∀ c ∈ lent o ans, s.holder c = none)
    (hown : ∀ c ∈ back o, s.holder c = some i ∧ s.target i = none)
    (hj : (s.act i o ans).target j = some c) : (s.act i o ans).holder c = some j := by
  cases o with
  | setFromConn d =>
    change Function.update s.target i (some d) j = some c at hj
    by_cases hij : j = i
    · subst hij
      rw [Function.update_self] at hj
      obtain rfl : d = c := Option.some.inj hj
      exact hfits
    · rw [Function.update_of_ne hij] at hj
      exact h.target j c hj
  | clear =>
    change Function.update s.target i none j = some c at hj
    by_cases hij : j = i
    · subst hij
      rw [Function.update_self] at hj
      exact nomatch hj
    · rw [Function.update_of_ne hij] at hj
      exact h.target j c hj
  | startQueryTimer | stopTimer => exact h.target j c hj
  | run o =>
    have hold : s.holder c = some j := h.target j c hj
    refine holder_act hold hfree fun hb => ?_
    obtain ⟨hi, hnone⟩ := hown c hb
    obtain rfl : j = i := Option.some.inj (hold.symm.trans hi)
    exact nomatch hnone.symm.trans hj

theorem Sound.act (h : Sound s) (i : ι) {k : TargetAns o → Timed (Unit × Exchange)}
    (ans : TargetAns o) (hprog : s.prog i = .op o k) (hfree : ∀ c ∈ lent o ans, s.holder c = none)
    (hback : ∀ c ∈ back o, Settled s i c) :
    Sound { s.act i o ans with prog := Function.update s.prog i (k ans) } := by
  obtain ⟨hfits, hgo⟩ := h.local_step i hprog
  have hown : ∀ c ∈ back o, s.holder c = some i ∧ s.target i = none := by
    intro c hc
    cases o with
    | run o =>
      have hused : used o = some c := used_of_givenBack hc
      exact ⟨hfits.1 c hused, hfits.2 (by simp [show givenBack o = some c from hc])⟩
    | _ => exact nomatch hc
  refine ⟨fun j => ?_, fun j c hj => ?_, fun j c hj => ?_⟩
  · change Safe _ _ (Function.update s.prog i (k ans) j) _ ((s.act i o ans).local j)
    by_cases hij : j = i
    · subst hij
      rw [Function.update_self]
      exact hgo ans _ (local_act_self hfree)
    · rw [Function.update_of_ne hij, local_act_other hij hfree fun c hc => (hown c hc).1]
      exact h.safe j
  · exact holder_of_target_act h hfits hfree hown hj
  · have hold : s.holder c = some j := h.flying j c (flying_act (s := s) ▸ hj)
    refine holder_act hold hfree fun hb => hback c hb ?_
    obtain rfl : j = i := Option.some.inj (hold.symm.trans (hown c hb).1)
    exact flying_act (s := s) ▸ hj

theorem Sound.step (h : Sound s) (hs : Step named Settled s t) : Sound t := by
  cases hs with
  | act i ans hprog hfree hback => exact h.act i ans hprog hfree hback
  | fire i _ => exact ⟨h.safe, h.target, h.flying⟩
  | @callback i n _ =>
    have hsame : Sound { s with callbacks := Function.update s.callbacks i n } :=
      ⟨h.safe, h.target, h.flying⟩
    exact hsame.get i
  | handleCancelRequest i => exact h.get i
  | arrive i c _ => exact ⟨h.safe, h.target, fun j d hd => h.flying j d (List.mem_of_mem_erase hd)⟩

theorem Sound.runs (h : Sound s) (hs : Runs named Settled s t) : Sound t := by
  induction hs with
  | refl => exact h
  | tail _ hstep ih => exact ih.step hstep

/-- A CancelRequest arrives while the connection it names is held by the session it is sent for. -/
theorem cancel_reaches_own {env : ι → Env} {n : ι → Nat} {sess : ι → Session}
    (hr : Runs named Settled (Sys.start fun i => session (env i) (n i) (sess i)) s) {i : ι}
    {c : Conn} (h : (i, c) ∈ s.flying) : s.holder c = some i :=
  ((sound_start fun i => safe_session (env i) (n i) (sess i)).runs hr).flying i c h

end

/-! ## Runs -/

inductive Move (ι : Type) where
  | act (i : ι)
  | handleCancelRequest (i : ι)

section

variable {ι : Type} [DecidableEq ι] {named : Conn → Bool} {ok : Sys ι → ι → Conn → Prop}
  [∀ s i c, Decidable (ok s i c)]

def move (named : Conn → Bool) (ok : Sys ι → ι → Conn → Prop) [∀ s i c, Decidable (ok s i c)]
    (reply : (o : TargetOp) → TargetAns o) (s : Sys ι) : Move ι → Option (Sys ι)
  | .act i =>
    match s.prog i with
    | .ret _ => none
    | .op o k =>
      if (∀ c ∈ lent o (reply o), s.holder c = none) ∧ ∀ c ∈ back o, ok s i c then
        some { s.act i o (reply o) with prog := Function.update s.prog i (k (reply o)) }
      else none
  | .handleCancelRequest i => some (s.get named i)

theorem step_of_move {reply : (o : TargetOp) → TargetAns o} {s t : Sys ι} {m : Move ι}
    (h : move named ok reply s m = some t) : Step named ok s t := by
  cases m with
  | act i =>
    unfold move at h
    dsimp only at h
    split at h
    · exact nomatch h
    · rename_i o k hprog
      split at h
      · rename_i hcan
        exact Option.some.inj h ▸ .act i (reply o) hprog hcan.1 hcan.2
      · exact nomatch h
  | handleCancelRequest i => exact Option.some.inj h ▸ .handleCancelRequest i

theorem runs_of_moves {reply : (o : TargetOp) → TargetAns o} {s t : Sys ι} (ms : List (Move ι))
    (h : ms.foldlM (move named ok reply) s = some t) : Runs named ok s t := by
  induction ms generalizing s with
  | nil => exact Option.some.inj h ▸ .refl
  | cons m ms ih =>
    obtain ⟨u, hu, ht⟩ := Option.bind_eq_some_iff.mp h
    exact .head (step_of_move hu) (ih ht)

end

def reply : (o : TargetOp) → TargetAns o
  | .startQueryTimer => true
  | .run o => (Script.reply o ⟨[plainQuery "SELECT 1"], [0], [0]⟩).1
  | .setFromConn _ | .stopTimer | .clear => ()

def pair : Sys Bool := .start fun _ => session (plainEnv false) 1 (Session.new 0 false false)

def shown (s : Sys Bool) : List (Bool × Conn) × Option Bool × Option Conn :=
  (s.flying, s.holder 0, s.target true)

def cancelled : List (Move Bool) := List.replicate 8 (.act false) ++ [.handleCancelRequest false]

def overtaken : List (Move Bool) :=
  cancelled ++ List.replicate 3 (.act false) ++ List.replicate 7 (.act true)

theorem cancel_reaches_own_running :
    ∃ s, Runs (fun _ => true) Settled pair s ∧ (false, 0) ∈ s.flying ∧ s.holder 0 = some false := by
  have hshown : (cancelled.foldlM (move (fun _ => true) Settled reply) pair).map shown =
      some ([(false, 0)], some false, none) := by
    decide +kernel
  obtain ⟨s, hmoves, hs⟩ := Option.map_eq_some_iff.mp hshown
  have hruns := runs_of_moves _ hmoves
  have hflying : (false, 0) ∈ s.flying := by simp [(Prod.mk.inj hs).1]
  exact ⟨s, hruns, hflying, cancel_reaches_own hruns hflying⟩

theorem cancel_reaches_other :
    ∃ s, Runs (fun _ => true) (fun _ _ _ => True) pair s ∧ (false, 0) ∈ s.flying ∧
    s.holder 0 = some true ∧ s.target true = some 0 := by
  have hshown : (overtaken.foldlM (move (fun _ => true) (fun _ _ _ => True) reply) pair).map shown =
      some ([(false, 0)], some true, some 0) := by
    decide +kernel
  obtain ⟨s, hmoves, hs⟩ := Option.map_eq_some_iff.mp hshown
  obtain ⟨hflying, hrest⟩ := Prod.mk.inj hs
  obtain ⟨hholder, htarget⟩ := Prod.mk.inj hrest
  exact ⟨s, runs_of_moves _ hmoves, by simp [hflying], hholder, htarget⟩

end PgMux.Cancel
