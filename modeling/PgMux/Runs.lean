import Mathlib.Data.List.Basic

/-!
# Runs of a system with events

Where an event that happens in a sound state leads to a right one just when it meets a condition,
the runs that are right in all their states are those whose events all meet it.
-/

namespace PgMux.Runs

variable {σ ε : Type}

def states (next : σ → ε → σ) : σ → List ε → List σ
  | _, [] => []
  | s, e :: es => next s e :: states next (next s e) es

/-- Every event meets a condition in the state it happens in. -/
def Each (next : σ → ε → σ) (C : σ → ε → Prop) : σ → List ε → Prop
  | _, [] => True
  | s, e :: es => C s e ∧ Each next C (next s e) es

instance Each.decidable (next : σ → ε → σ) (C : σ → ε → Prop) [∀ s e, Decidable (C s e)] :
    ∀ s es, Decidable (Each next C s es)
  | _, [] => inferInstanceAs (Decidable True)
  | s, e :: es =>
    have := Each.decidable next C (next s e) es
    inferInstanceAs (Decidable (C s e ∧ Each next C (next s e) es))

variable {next : σ → ε → σ} {E C : σ → ε → Prop} {I P : σ → Prop} {s : σ} {es : List ε}

theorem Each.and (h : Each next E s es) (h' : Each next C s es) :
    Each next (fun s e => E s e ∧ C s e) s es := by
  induction es generalizing s with
  | nil => trivial
  | cons e es ih => exact ⟨⟨h.1, h'.1⟩, ih h.2 h'.2⟩

theorem Each.invariant (hstep : ∀ s e, I s → C s e → I (next s e)) (hs : I s)
    (h : Each next C s es) : ∀ t ∈ states next s es, I t := by
  induction es generalizing s with
  | nil => simp [states]
  | cons e es ih =>
    have ht : I (next s e) := hstep s e hs h.1
    exact List.forall_mem_cons.mpr ⟨ht, ih ht h.2⟩

theorem Each.foldl (hstep : ∀ s e, I s → C s e → I (next s e)) (hs : I s) (h : Each next C s es) :
    I (es.foldl next s) := by
  induction es generalizing s with
  | nil => exact hs
  | cons e es ih => exact ih (hstep s e hs h.1) h.2

theorem each_append {fs : List ε} :
    Each next C s (es ++ fs) ↔ Each next C s es ∧ Each next C (es.foldl next s) fs := by
  induction es generalizing s with
  | nil => simp [Each]
  | cons e es ih => exact (and_congr_right fun _ => ih).trans and_assoc.symm

theorem right_iff_each (hsound : ∀ s e, I s → E s e → C s e → I (next s e) ∧ P (next s e))
    (hright : ∀ s e, I s → E s e → P (next s e) → C s e) (hs : I s) (hrun : Each next E s es) :
    (∀ t ∈ states next s es, P t) ↔ Each next C s es := by
  induction es generalizing s with
  | nil => simp [states, Each]
  | cons e es ih =>
    obtain ⟨he, hes⟩ := hrun
    simp only [states, List.forall_mem_cons, Each]
    constructor
    · rintro ⟨hP, hrest⟩
      have hC : C s e := hright s e hs he hP
      exact ⟨hC, (ih (hsound s e hs he hC).1 hes).mp hrest⟩
    · rintro ⟨hC, hrest⟩
      obtain ⟨ht, hP⟩ := hsound s e hs he hC
      exact ⟨hP, (ih ht hes).mpr hrest⟩

end PgMux.Runs
