import Mathlib.Logic.Function.Basic

/-!
# Programs and the machines that run them

A program is a tree of operations, each with one branch for every answer. A machine says which
answers an operation can get in a state and what state is left. `Safe` is the weakest precondition
of a program whose operations are guarded by `pre`.
-/

namespace PgMux.Effects

inductive Prog {Op : Type} (Ans : Op → Type) (α : Type) where
  | ret (a : α)
  | op (o : Op) (k : Ans o → Prog Ans α)

section

variable {Op : Type} {Ans : Op → Type} {α β : Type}

namespace Prog

def bind : Prog Ans α → (α → Prog Ans β) → Prog Ans β
  | ret a, f => f a
  | op o k, f => op o fun ans => (k ans).bind f

instance : Monad (Prog Ans) where
  pure := ret
  bind := bind

def head : Prog Ans α → Option Op
  | ret _ => none
  | op o _ => some o

end Prog

def perform (o : Op) : Prog Ans (Ans o) := .op o .ret

inductive Flow (α : Type) where
  | next (a : α)
  | stop (a : α)

def rounds (body : α → Prog Ans (Flow α)) : Nat → α → Prog Ans α
  | 0, a => pure a
  | n + 1, a => do
    match ← body a with
    | .next b => rounds body n b
    | .stop b => return b

end

/-- The states an operation with a given answer can leave. -/
def Machine {Op : Type} (Ans : Op → Type) (σ : Type) : Type := (o : Op) → σ → Ans o → σ → Prop

section

variable {Op : Type} {Ans : Op → Type} {α β σ : Type}
  {o : Op} {p p' : Prog Ans α} {M : Machine Ans σ} {s s' : σ} {Q : α → σ → Prop}
    {f : α → Prog Ans β} {R : α → Prop}

theorem Prog.head_bind (f : α → Prog Ans β) (h : p.head = some o) : (p >>= f).head = some o := by
  cases p with
  | ret a => simp [Prog.head] at h
  | op o' k => exact h

namespace Machine

def ofFun (next : (o : Op) → σ → Ans o → σ) : Machine Ans σ := fun o s ans t => t = next o s ans

/-- The machine of a function that lists every state a step may end in. -/
def ofList (next : (o : Op) → σ → Ans o → List σ) : Machine Ans σ :=
  fun o s ans t => t ∈ next o s ans

/-- The runs of a machine whose steps all meet a condition. -/
def restrict (M : Machine Ans σ) (C : (o : Op) → σ → Ans o → σ → Prop) : Machine Ans σ :=
  fun o s ans t => M o s ans t ∧ C o s ans t

end Machine

/-- The points of the runs of a program. -/
inductive Reach (M : Machine Ans σ) : Prog Ans α → σ → Prog Ans α → σ → Prop where
  | refl {p : Prog Ans α} {s : σ} : Reach M p s p s
  | step {o : Op} {k : Ans o → Prog Ans α} {p : Prog Ans α} {s t u : σ} {ans : Ans o}
      (hs : M o s ans t) (hr : Reach M (k ans) t p u) : Reach M (.op o k) s p u

theorem Reach.ask {k : Ans o → Prog Ans α} {u : σ} (ans : Ans o) (t : σ) (hs : M o s ans t)
    (hr : Reach M (k ans) t p u) : Reach M (.op o k) s p u :=
  .step hs hr

theorem Reach.trans {q r : Prog Ans α} {t u : σ} (h : Reach M p s q t) (h' : Reach M q t r u) :
    Reach M p s r u := by
  induction h with
  | refl => exact h'
  | step hs _ ih => exact .step hs (ih h')

theorem Reach.bind {q : Prog Ans α} {t : σ} (h : Reach M p s q t) (f : α → Prog Ans β) :
    Reach M (p >>= f) s (q >>= f) t := by
  induction h with
  | refl => exact .refl
  | step hs _ ih => exact .step hs ih

inductive ReachAll {ι : Type} [DecidableEq ι] (M : Machine Ans σ) :
    (ι → Prog Ans α × σ) → (ι → Prog Ans α × σ) → Prop where
  | refl {x : ι → Prog Ans α × σ} : ReachAll M x x
  | step {x y : ι → Prog Ans α × σ} (i : ι) {o : Op} {k : Ans o → Prog Ans α} {s t : σ}
      {ans : Ans o}
      (hx : x i = (.op o k, s)) (hs : M o s ans t)
        (hr : ReachAll M (Function.update x i (k ans, t)) y) : ReachAll M x y

theorem ReachAll.at {ι : Type} [DecidableEq ι] {x y : ι → Prog Ans α × σ} (h : ReachAll M x y)
    (i : ι) : Reach M (x i).1 (x i).2 (y i).1 (y i).2 := by
  induction h with
  | refl => exact .refl
  | @step x y j o k s t ans hx hs _ ih =>
    by_cases hij : i = j
    · subst hij
      rw [Function.update_self] at ih
      rw [hx]
      exact .step hs ih
    · rwa [Function.update_of_ne hij] at ih

theorem Reach.all {ι : Type} [DecidableEq ι] {x : ι → Prog Ans α × σ} (i : ι)
    (h : Reach M p s p' s') (hx : x i = (p, s)) : ReachAll M x (Function.update x i (p', s')) := by
  induction h generalizing x with
  | refl => rw [← hx, Function.update_eq_self]; exact .refl
  | step hs _ ih =>
    refine .step i hx hs ?_
    have hlater := ih (Function.update_self i _ x)
    rwa [Function.update_idem] at hlater

def Safe (M : Machine Ans σ) (pre : Op → σ → Prop) : Prog Ans α → (α → σ → Prop) → σ → Prop
  | .ret a, Q, s => Q a s
  | .op o k, Q, s => pre o s ∧ ∀ ans t, M o s ans t → Safe M pre (k ans) Q t

variable {M : Machine Ans σ} {pre : Op → σ → Prop} {a : α} {S : α → Prop} {pre' : Op → σ → Prop}

@[simp] theorem safe_ret : Safe M pre (.ret a) Q s ↔ Q a s := Iff.rfl

@[simp] theorem safe_pure : Safe M pre (pure a) Q s ↔ Q a s := Iff.rfl

@[simp] theorem safe_bind {Q : β → σ → Prop} :
    Safe M pre (p >>= f) Q s ↔ Safe M pre p (fun a t => Safe M pre (f a) Q t) s := by
  induction p generalizing s with
  | ret a => exact Iff.rfl
  | op o k ih => exact and_congr_right fun _ => forall₃_congr fun ans _ _ => ih ans

theorem Safe.mono {R : α → σ → Prop} (h : Safe M pre p Q s) (hQ : ∀ a t, Q a t → R a t) :
    Safe M pre p R s := by
  induction p generalizing s with
  | ret a => exact hQ a s h
  | op o k ih => exact ⟨h.1, fun ans t hs => ih ans (h.2 ans t hs)⟩

theorem Safe.bind {R : β → σ → Prop} (h : Safe M pre p Q s)
    (hf : ∀ a t, Q a t → Safe M pre (f a) R t) :
    Safe M pre (p >>= f) R s := safe_bind.mpr (h.mono hf)

theorem Safe.reach (h : Safe M pre p Q s) (hr : Reach M p s p' s') : Safe M pre p' Q s' := by
  induction hr with
  | refl => exact h
  | step hs _ ih => exact ih (h.2 _ _ hs)

theorem Safe.guarded (h : Safe M pre p Q s) (hr : Reach M p s p' s') (ho : p'.head = some o) :
    pre o s' := by
  have hsafe := h.reach hr
  cases p' with
  | ret a => simp [Prog.head] at ho
  | op o' k =>
    have hoo : o' = o := by simpa [Prog.head] using ho
    exact hoo ▸ hsafe.1

theorem Safe.holds {I : σ → Prop} (h : Safe M pre p Q s) (hr : Reach M p s p' s')
    (hpre : ∀ o s, pre o s → I s) (hQ : ∀ a s, Q a s → I s) : I s' := by
  have hsafe := h.reach hr
  cases p' with
  | ret a => exact hQ a s' hsafe
  | op o k => exact hpre o s' hsafe.1

def Flow.Post (I Q : α → σ → Prop) : Flow α → σ → Prop
  | .next a => I a
  | .stop a => Q a

theorem Safe.rounds {body : α → Prog Ans (Flow α)} {I : α → σ → Prop} (n : Nat)
    (hbody : ∀ a s, I a s → Safe M pre (body a) (Flow.Post I Q) s) (hend : ∀ a s, I a s → Q a s)
    (h : I a s) : Safe M pre (rounds body n a) Q s := by
  induction n generalizing a s with
  | zero => exact hend a s h
  | succ n ih =>
    refine (hbody a s h).bind fun r t hr => ?_
    cases r with
    | next b => exact ih hr
    | stop b => exact hr

def Keeps (M : Machine Ans σ) (pre : Op → σ → Prop) (R : σ → σ → Prop) (p : Prog Ans α) : Prop :=
  ∀ s, Safe M pre p (fun _ t => R s t) s

theorem Keeps.then {R : σ → σ → Prop} {Q : β → σ → Prop} (hp : Keeps M pre R p)
    (hf : ∀ a t, R s t → Safe M pre (f a) Q t) : Safe M pre (p >>= f) Q s :=
  safe_bind.mpr ((hp s).mono fun a t hst => hf a t hst)

section

variable {R : σ → σ → Prop} [IsPreorder σ R]

theorem Keeps.pure (a : α) : Keeps M pre R (pure a : Prog Ans α) := fun s => refl_of R s

theorem Keeps.bind (hp : Keeps M pre R p) (hf : ∀ a, Keeps M pre R (f a)) :
    Keeps M pre R (p >>= f) := by
  intro s
  refine (hp s).bind fun a t hst => ?_
  exact (hf a t).mono fun _ u htu => trans_of R hst htu

end

def Prog.All (φ : Op → Prop) : Prog Ans α → Prop
  | .ret _ => True
  | .op o k => φ o ∧ ∀ ans, (k ans).All φ

section

variable {φ : Op → Prop}

theorem Prog.All.pure (a : α) : (Pure.pure a : Prog Ans α).All φ := trivial

theorem Prog.All.perform (h : φ o) : (Effects.perform o : Prog Ans (Ans o)).All φ :=
  ⟨h, fun _ => trivial⟩

theorem Prog.All.bind (hp : p.All φ) (hf : ∀ a, (f a).All φ) : (p >>= f).All φ := by
  induction p with
  | ret a => exact hf a
  | op o k ih => exact ⟨hp.1, fun ans => ih ans (hp.2 ans)⟩

theorem Prog.All.mono {ψ : Op → Prop} (hp : p.All φ) (h : ∀ o, φ o → ψ o) : p.All ψ := by
  induction p with
  | ret a => trivial
  | op o k ih => exact ⟨h o hp.1, fun ans => ih ans (hp.2 ans)⟩

theorem Prog.All.of_forall (h : ∀ o, φ o) (p : Prog Ans α) : p.All φ := by
  induction p with
  | ret a => trivial
  | op o k ih => exact ⟨h o, ih⟩

def Prog.Performs (o : Op) : Prog Ans α → Prop
  | .ret _ => False
  | .op o' k => o' = o ∨ ∃ ans, (k ans).Performs o

theorem Prog.All.of_performs (hp : p.All φ) (h : p.Performs o) : φ o := by
  induction p with
  | ret a => exact h.elim
  | op o' k ih =>
    obtain rfl | ⟨ans, h⟩ := h
    · exact hp.1
    · exact ih ans (hp.2 ans) h

def Stable (M : Machine Ans σ) (pre : Op → σ → Prop) (φ : Op → Prop) (P : σ → Prop) : Prop :=
  ∀ o s, φ o → P s → pre o s ∧ ∀ ans t, M o s ans t → P t

theorem Prog.All.safe {P : σ → Prop} (hp : p.All φ) (hstable : Stable M pre φ P) (hs : P s) :
    Safe M pre p (fun _ t => P t) s := by
  induction p generalizing s with
  | ret a => exact hs
  | op o k ih =>
    obtain ⟨hpre, hkeep⟩ := hstable o s hp.1 hs
    exact ⟨hpre, fun ans t hstep => ih ans (hp.2 ans) (hkeep ans t hstep)⟩

theorem Prog.All.then {P : σ → Prop} {Q : β → σ → Prop} (hp : p.All φ) (hstable : Stable M pre φ P)
    (hs : P s) (hf : ∀ a t, P t → Safe M pre (f a) Q t) : Safe M pre (p >>= f) Q s :=
  safe_bind.mpr ((hp.safe hstable hs).mono hf)

end

def Prog.Returns (R : α → Prop) : Prog Ans α → Prop
  | .ret a => R a
  | .op _ k => ∀ ans, (k ans).Returns R

theorem Prog.Returns.bind {R : β → Prop} (hp : p.Returns S) (hf : ∀ a, S a → (f a).Returns R) :
    (p >>= f).Returns R := by
  induction p with
  | ret a => exact hf a hp
  | op o k ih => exact fun ans => ih ans (hp ans)

theorem Prog.Returns.mono (hp : p.Returns R) (h : ∀ a, R a → S a) : p.Returns S := by
  induction p with
  | ret a => exact h a hp
  | op o k ih => exact fun ans => ih ans (hp ans)

theorem Prog.returns_trivial (p : Prog Ans α) : p.Returns fun _ => True := by
  induction p with
  | ret a => trivial
  | op o k ih => exact ih

theorem Prog.Returns.of_bind {R : β → Prop} (p : Prog Ans α) (hf : ∀ a, (f a).Returns R) :
    (p >>= f).Returns R :=
  p.returns_trivial.bind fun a _ => hf a

theorem Safe.returns (h : Safe M pre p Q s) (hr : p.Returns R) :
    Safe M pre p (fun a t => Q a t ∧ R a) s := by
  induction p generalizing s with
  | ret a => exact ⟨h, hr⟩
  | op o k ih => exact ⟨h.1, fun ans t hs => ih ans (h.2 ans t hs) (hr ans)⟩

def Flow.Next (R : α → Prop) : Flow α → Prop
  | .next a => R a
  | .stop _ => True

theorem Flow.Next.mono (h : ∀ a, R a → S a) (r : Flow α) (hr : r.Next R) : r.Next S := by
  cases r with
  | next a => exact h a hr
  | stop a => trivial

def Machine.free : Machine Ans Unit := fun _ _ _ _ => True

theorem Prog.returns_iff_safe :
    p.Returns R ↔ Safe Machine.free (fun _ _ => True) p (fun a _ => R a) () := by
  induction p with
  | ret a => exact Iff.rfl
  | op o k ih =>
    constructor
    · intro h
      exact ⟨trivial, fun ans _ _ => (ih ans).mp (h ans)⟩
    · intro h ans
      exact (ih ans).mpr (h.2 ans () trivial)

theorem Prog.returns_next_iff {p : Prog Ans (Flow α)} : p.Returns (Flow.Next R) ↔
    Safe Machine.free (fun _ _ => True) p (Flow.Post (fun a _ => R a) fun _ _ => True) () := by
  have hpost : (fun (r : Flow α) (_ : Unit) => r.Next R) = Flow.Post (fun a _ => R a) fun _ _ =>
      True := by
    funext r _
    cases r <;> rfl
  rw [Prog.returns_iff_safe, hpost]

theorem Safe.weaken (h : Safe M pre p Q s) (hp : p.All fun o => ∀ s, pre o s → pre' o s) :
    Safe M pre' p Q s := by
  induction p generalizing s with
  | ret a => exact h
  | op o k ih => exact ⟨hp.1 s h.1, fun ans t hs => ih ans (h.2 ans t hs) (hp.2 ans)⟩

theorem Safe.guard (h : Safe M pre p Q s) (hpre : ∀ o s, pre o s → pre' o s) : Safe M pre' p Q s :=
  h.weaken (.of_forall hpre p)

theorem Safe.and {R : α → σ → Prop} (h : Safe M pre p Q s) (h' : Safe M pre' p R s) :
    Safe M (fun o s => pre o s ∧ pre' o s) p (fun a s => Q a s ∧ R a s) s := by
  induction p generalizing s with
  | ret a => exact ⟨h, h'⟩
  | op o k ih => exact ⟨⟨h.1, h'.1⟩, fun ans t hs => ih ans (h.2 ans t hs) (h'.2 ans t hs)⟩

theorem Safe.refine {τ : Type} {N : Machine Ans τ} {pre' : Op → τ → Prop} {R : σ → τ → Prop}
    (hstep : ∀ o s u ans t, R s u → pre' o u → M o s ans t → ∃ w, N o u ans w ∧ R t w)
    {Q : α → τ → Prop} {u : τ} (h : Safe N pre' p Q u) (hR : R s u) :
    Safe M (fun o s => ∃ u, R s u ∧ pre' o u) p (fun a s => ∃ u, R s u ∧ Q a u) s := by
  induction p generalizing s u with
  | ret a => exact ⟨u, hR, h⟩
  | op o k ih =>
    refine ⟨⟨u, hR, h.1⟩, fun ans t hs => ?_⟩
    obtain ⟨w, hN, hRw⟩ := hstep o s u ans t hR h.1 hs
    exact ih ans (h.2 ans w hN) hRw

theorem Safe.simulate {τ : Type} {N : Machine Ans τ} {pre' : Op → τ → Prop} {I : σ → Prop}
    (f : σ → τ) (hstep : ∀ o s ans t, I s → pre' o (f s) → M o s ans t → I t ∧ N o (f s) ans (f t))
    {Q : α → τ → Prop} (h : Safe N pre' p Q (f s)) (hi : I s) :
    Safe M (fun o s => I s ∧ pre' o (f s)) p (fun a s => I s ∧ Q a (f s)) s := by
  have hrefine := h.refine (R := fun s u => I s ∧ u = f s) (M := M) ?_ ⟨hi, rfl⟩
  · refine (hrefine.guard fun o s hpre => ?_).mono fun a s hQ => ?_
    · obtain ⟨_, ⟨hi, rfl⟩, hpre⟩ := hpre
      exact ⟨hi, hpre⟩
    · obtain ⟨_, ⟨hi, rfl⟩, hQ⟩ := hQ
      exact ⟨hi, hQ⟩
  · rintro o s _ ans t ⟨hi, rfl⟩ hpre hs
    obtain ⟨hit, hN⟩ := hstep o s ans t hi hpre hs
    exact ⟨f t, hN, hit, rfl⟩

def Prog.elaborate {Op' : Type} {Ans' : Op' → Type} {τ : Type}
    (act : (o : Op) → τ → Prog Ans' (Ans o × τ)) :
    Prog Ans α → τ → Prog Ans' (α × τ)
  | .ret a, x => .ret (a, x)
  | .op o k, x => (act o x).bind fun (ans, y) => (k ans).elaborate act y

theorem Safe.elaborate {Op' : Type} {Ans' : Op' → Type} {τ υ : Type}
    {act : (o : Op) → τ → Prog Ans' (Ans o × τ)} {N : Machine Ans' υ} {pre' : Op' → υ → Prop}
    {R : σ → τ → υ → Prop}
    (hact : ∀ o s x u, pre o s → R s x u →
      Safe N pre' (act o x) (fun r u' => ∃ t, M o s r.1 t ∧ R t r.2 u') u)
    (h : Safe M pre p Q s) {x : τ} {u : υ} (hR : R s x u) :
    Safe N pre' (p.elaborate act x) (fun r u' => ∃ t, Q r.1 t ∧ R t r.2 u') u := by
  induction p generalizing s x u with
  | ret a => exact ⟨s, h, hR⟩
  | op o k ih =>
    refine (hact o s x u h.1 hR).bind fun r u' hr => ?_
    obtain ⟨t, hstep, hR'⟩ := hr
    exact ih r.1 (h.2 r.1 t hstep) hR'

def drive {τ : Type} (reply : (o : Op) → τ → Ans o × τ) (next : (o : Op) → σ → Ans o → Option σ) :
    Nat → Prog Ans α → τ → σ → Prog Ans α × σ
  | 0, p, _, s => (p, s)
  | _ + 1, .ret a, _, s => (.ret a, s)
  | n + 1, .op o k, x, s =>
    match next o s (reply o x).1 with
    | none => (.op o k, s)
    | some t => drive reply next n (k (reply o x).1) (reply o x).2 t

theorem drive_reach {τ : Type} (reply : (o : Op) → τ → Ans o × τ)
    {next : (o : Op) → σ → Ans o → Option σ}
    (hnext : ∀ o s ans t, next o s ans = some t → M o s ans t) (n : Nat) (p : Prog Ans α) (x : τ)
    (s : σ) : Reach M p s (drive reply next n p x s).1 (drive reply next n p x s).2 := by
  induction n generalizing p x s with
  | zero => exact .refl
  | succ n ih =>
    cases p with
    | ret a => exact .refl
    | op o k =>
      rw [drive]
      cases hs : next o s (reply o x).1 with
      | none => exact .refl
      | some t => exact .step (hnext o s _ t hs) (ih _ _ t)

abbrev World (Ans : Op → Type) (σ : Type) := (o : Op) → σ → Ans o × σ

def Machine.ofWorld (w : World Ans σ) : Machine Ans σ := fun o s ans t => w o s = (ans, t)

def eval (w : World Ans σ) : Prog Ans α → σ → α × σ
  | .ret a, s => (a, s)
  | .op o k, s => eval w (k (w o s).1) (w o s).2

theorem reach_eval (w : World Ans σ) (p : Prog Ans α) (s : σ) :
    Reach (.ofWorld w) p s (.ret (eval w p s).1) (eval w p s).2 := by
  induction p generalizing s with
  | ret a => exact .refl
  | op o k ih => exact .ask (w o s).1 (w o s).2 rfl (ih _ _)

@[simp] theorem eval_pure (w : World Ans σ) (a : α) (s : σ) : eval w (pure a) s = (a, s) := rfl

@[simp] theorem eval_perform (w : World Ans σ) (o : Op) (s : σ) : eval w (perform o) s = w o s :=
  rfl

theorem eval_bind (w : World Ans σ) (p : Prog Ans α) (f : α → Prog Ans β) (s : σ) :
    eval w (p >>= f) s = eval w (f (eval w p s).1) (eval w p s).2 := by
  induction p generalizing s with
  | ret a => rfl
  | op o k ih => exact ih _ _

def exec {κ : Type} (w : World Ans σ) (note : (o : Op) → Ans o → List κ) :
    Prog Ans α → σ → α × List κ × σ
  | .ret a, s => (a, [], s)
  | .op o k, s =>
    let (ans, t) := w o s
    let (a, notes, u) := exec w note (k ans) t
    (a, note o ans ++ notes, u)

section

variable {κ : Type} {w : World Ans σ} {note : (o : Op) → Ans o → List κ}

@[simp] theorem exec_pure (a : α) (s : σ) : exec w note (pure a) s = (a, [], s) := rfl

@[simp] theorem exec_perform (o : Op) (s : σ) :
    exec w note (perform o) s = ((w o s).1, note o (w o s).1, (w o s).2) := by
  simp [exec, perform]

theorem exec_bind (p : Prog Ans α) (f : α → Prog Ans β) (s : σ) :
    exec w note (p >>= f) s =
      let (a, notes, t) := exec w note p s
      let (b, notes', u) := exec w note (f a) t
      (b, notes ++ notes', u) := by
  change exec w note (p.bind f) s = _
  induction p generalizing s with
  | ret a => rfl
  | op o k ih => simp [Prog.bind, exec, ih]

end

def always (next : (o : Op) → σ → Ans o → σ) (o : Op) (s : σ) (ans : Ans o) : Option σ :=
  some (next o s ans)

theorem ofFun_of_always (next : (o : Op) → σ → Ans o → σ) (o : Op) (s : σ) (ans : Ans o) (t : σ)
    (h : always next o s ans = some t) : Machine.ofFun next o s ans t := (Option.some.inj h).symm

theorem mem_guard {P : Prop} [Decidable P] {s t : σ} : t ∈ (if P then [s] else []) ↔ P ∧ t = s := by
  split <;> simp [*]

def first (next : (o : Op) → σ → Ans o → List σ) (o : Op) (s : σ) (ans : Ans o) : Option σ :=
  (next o s ans).head?

theorem ofList_of_first (next : (o : Op) → σ → Ans o → List σ) (o : Op) (s : σ) (ans : Ans o)
    (t : σ) (h : first next o s ans = some t) : Machine.ofList next o s ans t :=
  List.mem_of_mem_head? h

def onlyWhen (next : (o : Op) → σ → Ans o → Option σ) (C : (o : Op) → σ → Ans o → σ → Prop)
    [∀ o s ans t, Decidable (C o s ans t)] (o : Op) (s : σ) (ans : Ans o) : Option σ :=
  (next o s ans).filter fun t => C o s ans t

theorem restrict_of_onlyWhen {next : (o : Op) → σ → Ans o → Option σ}
    (hnext : ∀ o s ans t, next o s ans = some t → M o s ans t) (C : (o : Op) → σ → Ans o → σ → Prop)
    [∀ o s ans t, Decidable (C o s ans t)] (o : Op) (s : σ) (ans : Ans o) (t : σ)
    (h : onlyWhen next C o s ans = some t) : M.restrict C o s ans t := by
  obtain ⟨hn, hC⟩ := Option.filter_eq_some_iff.mp h
  exact ⟨hnext o s ans t hn, by simpa using hC⟩

theorem drive_reach_restrict {τ : Type} (reply : (o : Op) → τ → Ans o × τ)
    {next : (o : Op) → σ → Ans o → Option σ}
    (hnext : ∀ o s ans t, next o s ans = some t → M o s ans t) (C : (o : Op) → σ → Ans o → σ → Prop)
    [∀ o s ans t, Decidable (C o s ans t)] (n : Nat) (p : Prog Ans α) (x : τ) (s : σ) :
    Reach (M.restrict C) p s (drive reply (onlyWhen next C) n p x s).1
      (drive reply (onlyWhen next C) n p x s).2 :=
  drive_reach reply (restrict_of_onlyWhen hnext C) n p x s

end

end PgMux.Effects
