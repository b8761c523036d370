import PgMux.Effects

/-!
# Programs that share a world

Each program has a state of its own, and every operation also moves a world that all of them share.
What a program does to its own state is a run of its own.
-/

namespace PgMux.Effects

section

variable {Op : Type} {Ans : Op → Type} {α σ ω ι : Type} [DecidableEq ι]

/-- The points of the runs of programs on a shared world. -/
inductive ReachShared (M : Machine Ans σ) (W : Machine Ans ω) :
    (ι → Prog Ans α × σ) → ω → (ι → Prog Ans α × σ) → ω → Prop where
  | refl {x : ι → Prog Ans α × σ} {w : ω} : ReachShared M W x w x w
  | step {x y : ι → Prog Ans α × σ} {w w' w'' : ω} (i : ι) {o : Op} {k : Ans o → Prog Ans α}
      {s t : σ} {ans : Ans o}
      (hx : x i = (.op o k, s)) (hs : M o s ans t) (hw : W o w ans w')
      (hr : ReachShared M W (Function.update x i (k ans, t)) w' y w'') : ReachShared M W x w y w''

def Machine.both (M : Machine Ans σ) (W : Machine Ans ω) : Machine Ans (σ × ω) :=
  fun o s ans t => M o s.1 ans t.1 ∧ W o s.2 ans t.2

variable {M : Machine Ans σ} {W : Machine Ans ω} {x y z : ι → Prog Ans α × σ} {w w' w'' : ω}

theorem ReachShared.trans (h : ReachShared M W x w y w') (h' : ReachShared M W y w' z w'') :
    ReachShared M W x w z w'' := by
  induction h with
  | refl => exact h'
  | step i hx hs hw _ ih => exact .step i hx hs hw (ih h')

theorem ReachShared.all (h : ReachShared M W x w y w') : ReachAll M x y := by
  induction h with
  | refl => exact .refl
  | step i hx hs _ _ ih => exact .step i hx hs ih

theorem Reach.shared (i : ι) {p p' : Prog Ans α} {s s' : σ × ω} (h : Reach (M.both W) p s p' s')
    (hx : x i = (p, s.1)) : ReachShared M W x s.2 (Function.update x i (p', s'.1)) s'.2 := by
  induction h generalizing x with
  | refl => rw [← hx, Function.update_eq_self]; exact .refl
  | step hs _ ih =>
    refine .step i hx hs.1 hs.2 ?_
    have hlater := ih (Function.update_self i _ x)
    rwa [Function.update_idem] at hlater

theorem ReachShared.invariant {pre : Op → σ → Prop} {Q : ι → α → σ → Prop} {J : (ι → σ) → ω → Prop}
    (hstep : ∀ s w i o ans t w', J s w → pre o (s i) → M o (s i) ans t → W o w ans w' →
      J (Function.update s i t) w')
    (h : ReachShared M W x w y w') (hsafe : ∀ i, Safe M pre (x i).1 (Q i) (x i).2)
    (hJ : J (fun i => (x i).2) w) : J (fun i => (y i).2) w' := by
  induction h with
  | refl => exact hJ
  | @step x y w w' w'' i o k s t ans hx hs hw _ ih =>
    have hi : Safe M pre (.op o k) (Q i) s := by simpa [hx] using hsafe i
    apply ih
    · intro j
      by_cases hij : j = i
      · subst hij
        rw [Function.update_self]
        exact hi.2 ans t hs
      · rw [Function.update_of_ne hij]
        exact hsafe j
    · have hsi : (x i).2 = s := by rw [hx]
      have hstates : (fun j => (Function.update x i (k ans, t) j).2) =
        Function.update (fun j => (x j).2) i t := by
        funext j
        by_cases hij : j = i
        · subst hij
          simp
        · simp [Function.update_of_ne hij]
      rw [hstates]
      exact hstep _ w i o ans t w' hJ (hsi ▸ hi.1) (hsi ▸ hs) hw

def driveTurns {τ : Type} (reply : (o : Op) → τ → Ans o × τ)
    (next : (o : Op) → σ × ω → Ans o → Option (σ × ω)) :
    List (ι × Nat × τ) → (ι → Prog Ans α × σ) → ω → (ι → Prog Ans α × σ) × ω
  | [], x, w => (x, w)
  | (i, n, script) :: turns, x, w =>
    let r := drive reply next n (x i).1 script ((x i).2, w)
    driveTurns reply next turns (Function.update x i (r.1, r.2.1)) r.2.2

theorem reach_driveTurns {τ : Type} (reply : (o : Op) → τ → Ans o × τ)
    {next : (o : Op) → σ × ω → Ans o → Option (σ × ω)}
    (hnext : ∀ o s ans t, next o s ans = some t → M.both W o s ans t) (turns : List (ι × Nat × τ))
    (x : ι → Prog Ans α × σ) (w : ω) :
    ReachShared M W x w (driveTurns reply next turns x w).1
      (driveTurns reply next turns x w).2 := by
  induction turns generalizing x w with
  | nil => exact .refl
  | cons turn turns ih =>
    obtain ⟨i, n, script⟩ := turn
    exact ((drive_reach reply hnext n (x i).1 script ((x i).2, w)).shared i rfl).trans (ih _ _)

end

end PgMux.Effects
