import PgMux.Classifier
import PgMux.Hygiene

/-!
# What a query leaves behind in a server session

A query that changes its server session marks its connection until a reset. On the writer path of
simple queries `connDirty` follows the marks; readers and the fallback release without a reset.
-/

namespace PgMux.SessionState

open Effects Protocol Relay
open Router hiding Env
open Pools (Conn Pool)

/-- The connections that were modified since they were acquired or reset. -/
abbrev Marks := Finset Conn

def modifies : Request → Bool
  | .forward msg => isSessionModifying (extractQueryText msg.payload)
  | _ => false

def next : (o : Op) → Marks → Ans o → Marks
  | .acquireWriter, s, c => c.elim s s.erase
  | .acquire _, s, c => c.elim s s.erase
  | .acquireReader _, s, r => r.elim s fun (c, _) => s.erase c
  | .send c r, s, _ => if modifies r then insert c s else s
  | .reset c, s, ok => if ok then s.erase c else s
  | .release c _, s, _ => s.erase c
  | .discard c _, s, _ => s.erase c
  | _, s, _ => s

abbrev machine : Machine Ans Marks := .ofFun next

abbrev simple : Machine Ans Marks :=
  machine.restrict (OnRecv fun _ i _ => i.msg.type = msgQuery ∨ i.msg.type = msgTerminate)

def ToWriter (env : Env) (v : Vars) (i : Input) : Prop :=
  let query := extractQueryText i.msg.payload
  i.msg.type = msgQuery → isSessionModifying query = true → blocked env i = false →
    (routeWithTxState env.toEnv v.session i.now query).1.route = .writer

abbrev tame (env : Env) : Machine Ans Marks :=
  simple.restrict (OnRecv fun v i _ => ToWriter env v i)

section

variable {env : Env}

theorem lets_of_modifies {v : Vars} {i : Input}
    (hsimple : i.msg.type = msgQuery ∨ i.msg.type = msgTerminate) (hwriter : ToWriter env v i)
    {r : Request} (hr : r ∈ requests env v i) (hmod : modifies r = true) :
    Hygiene.Lets false env v i := by
  obtain hquery | hterm := hsimple
  · rw [requests, if_pos hquery] at hr
    cases hblocked : blocked env i with
    | true => simp [hblocked] at hr
    | false =>
      obtain rfl : r = .forward i.msg := by simpa [hblocked] using hr
      have hroute := hwriter hquery hmod hblocked
      have hdirty : Hygiene.dirtyBehind v i = true := by
        rw [Hygiene.dirtyBehind, Bool.or_eq_true]
        exact .inr hmod
      refine ⟨?_, .inr ⟨hquery, hdirty⟩⟩
      simp [Hygiene.bare, hquery, hroute, hdirty, Hygiene.givesBackBare]
  · simp [requests, extRequests, hterm, msgTerminate, msgQuery, msgSync, msgDescribe] at hr

structure Follows (s : Marks) (u : Hygiene.Ward) : Prop where
  unfit : s ⊆ u.unfit
  quiet : u.may = false → ∀ r ∈ u.allowed, modifies r = false

theorem Follows.erase {s : Marks} {u : Hygiene.Ward} (h : Follows s u) (c : Conn) :
    Follows (s.erase c) { u with unfit := u.unfit.erase c } :=
  ⟨Finset.erase_subset_erase c h.unfit, h.quiet⟩

theorem follows_step {o : Op} {s t : Marks} {u : Hygiene.Ward} {ans : Ans o} (h : Follows s u)
    (hasked : Hygiene.Asked o u) (ht : tame env o s ans t) :
    ∃ w, Hygiene.step false env o u ans w ∧ Follows t w := by
  obtain ⟨⟨ht, hsimple⟩, hwriter⟩ := ht
  cases o with
  | recv v =>
    cases ans with
    | none => exact ⟨u, rfl, ht ▸ h⟩
    | some i =>
      obtain rfl : t = s := ht
      by_cases hlets : Hygiene.Lets false env v i
      · exact ⟨⟨u.unfit, true, requests env v i⟩, ⟨rfl, fun _ => hlets, rfl⟩, h.unfit,
          fun hno => nomatch hno⟩
      · refine ⟨⟨u.unfit, false, requests env v i⟩, ⟨rfl, (fun hno => nomatch hno), rfl⟩, h.unfit,
          fun _ r hr => ?_⟩
        cases hmod : modifies r with
        | false => rfl
        | true => exact absurd (lets_of_modifies hsimple hwriter hr hmod) hlets
  | leave v => exact ⟨u, ⟨(fun hno => nomatch hno), rfl⟩, ht ▸ h⟩
  | send c r =>
    cases hmod : modifies r with
    | false =>
      obtain rfl : t = s := by simpa [hmod, Machine.ofFun, next] using ht
      exact ⟨u, .inl rfl, h⟩
    | true =>
      obtain rfl : t = insert c s := by simpa [hmod, Machine.ofFun, next] using ht
      have hmay : u.may = true := by
        cases hm : u.may with
        | true => rfl
        | false => exact absurd hmod (by simp [h.quiet hm r hasked])
      exact ⟨_, .inr ⟨hmay, rfl⟩, Finset.insert_subset_insert c h.unfit, h.quiet⟩
  | acquireWriter | acquire p =>
    obtain rfl : _ = t := ht.symm
    cases ans with
    | none => exact ⟨u, rfl, h⟩
    | some c => exact ⟨_, rfl, h.erase c⟩
  | acquireReader minLSN =>
    obtain rfl : _ = t := ht.symm
    cases ans with
    | none => exact ⟨u, rfl, h⟩
    | some r => exact ⟨_, rfl, h.erase r.1⟩
  | reset c =>
    obtain rfl : _ = t := ht.symm
    cases ans with
    | false => exact ⟨u, rfl, h⟩
    | true => exact ⟨_, rfl, h.erase c⟩
  | release c p | discard c p => exact ⟨_, rfl, ht ▸ h.erase c⟩
  | _ => exact ⟨u, rfl, ht ▸ h⟩

def Unmarked : Op → Marks → Prop
  | .release c _, s => c ∉ s
  | _, _ => True

theorem safe_relayQueries (n : Nat) (session : Session) :
    Safe (tame env) Unmarked (relayQueries env n session) (fun _ _ => True) ∅ := by
  have hfit := @Hygiene.safe_relayQueries false env ⟨∅, false, []⟩ n session rfl
  have hrefined := hfit.refine (M := tame env) (fun o s u ans t hR hpre => follows_step hR hpre.2)
    ⟨Finset.Subset.refl _, fun _ r hr => absurd hr List.not_mem_nil⟩
  refine (hrefined.mono fun _ _ _ => trivial).guard fun o s hpre => ?_
  obtain ⟨u, hR, hreleases, _⟩ := hpre
  cases o with
  | release c p => exact fun hc => hreleases (hR.unfit hc)
  | _ => trivial

/-- A connection that a modifying query ran on is reset or discarded, not released. -/
theorem modified_not_released {ι : Type} [DecidableEq ι] {n : ι → Nat} {session : ι → Session}
    {x : ι → Run Unit × Marks}
    (hr : ReachAll (tame env) (fun j => (relayQueries env (n j) (session j), ∅)) x) {j : ι}
    {c : Conn} {p : Pool} (hp : (x j).1.head = some (.release c p)) : c ∉ (x j).2 :=
  (safe_relayQueries (n j) (session j)).guarded (hr.at j) hp

end

def setEnv : Env := { plainEnv false with classify := Classifier.classify id }

theorem modified_released :
    ∃ x : Unit → Run Unit × Marks,
    ReachAll simple (fun _ => (relayQueries setEnv 1 (Session.new 0 false false), ∅)) x ∧
      (x ()).1.head = some (.release 0 0) ∧ 0 ∈ (x ()).2 := by
  have hreach := drive_reach_restrict Script.reply (ofFun_of_always next)
    (OnRecv fun _ i _ => i.msg.type = msgQuery ∨ i.msg.type = msgTerminate) 7
    (relayQueries setEnv 1 (Session.new 0 false false)) ⟨[plainQuery "SET search_path = x"],
      [0], [0]⟩ ∅
  exact ⟨_, hreach.all () rfl, rfl, by decide +kernel⟩

instance (env : Env) (v : Vars) (i : Input) : Decidable (ToWriter env v i) :=
  inferInstanceAs (Decidable (_ → _ → _ → _))

theorem modified_not_released_block :
    ∃ x : Unit → Run Unit × Marks, (x ()).1.head = some (.release 0 0) ∧ 0 ∉ (x ()).2 ∧
      ReachAll (tame setEnv) (fun _ => (relayQueries setEnv 3 (Session.new 0 false false),
        ∅)) x := by
  have hreach := drive_reach_restrict Script.reply (restrict_of_onlyWhen (ofFun_of_always next)
      (OnRecv fun _ i _ => i.msg.type = msgQuery ∨ i.msg.type = msgTerminate))
    (OnRecv fun v i _ => ToWriter setEnv v i) 17 (relayQueries setEnv 3 (Session.new 0 false false))
    ⟨[plainQuery "BEGIN", plainQuery "SET search_path = x", plainQuery "COMMIT"], [0, 0, 0], [0]⟩ ∅
  have hall := hreach.all (x := fun _ : Unit => (_, ∅)) () rfl
  exact ⟨_, rfl, modified_not_released hall rfl, hall⟩

end PgMux.SessionState
