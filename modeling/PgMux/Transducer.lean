import Mathlib.Data.List.Basic

/-!
# Letter-by-letter transducers

A transducer emits finished tokens as soon as the next letter settles them. A state and a text are
separated when reading the text emits the pending tokens and then what a fresh run on the text
emits.
-/

namespace PgMux

variable {α σ τ : Type}

structure Transducer (α σ τ : Type) where
  start : σ
  step : σ → α → List τ × σ
  finish : σ → List τ
  finish_start : finish start = []

namespace Transducer

variable (M : Transducer α σ τ)

def after (s : σ) : List α → σ
  | [] => s
  | a :: w => after (M.step s a).2 w

def emitted (s : σ) : List α → List τ
  | [] => []
  | a :: w => (M.step s a).1 ++ emitted (M.step s a).2 w

def outputFrom (s : σ) (w : List α) : List τ := M.emitted s w ++ M.finish (M.after s w)

def output (w : List α) : List τ := M.outputFrom M.start w

@[simp] theorem after_nil (s : σ) : M.after s [] = s := rfl
@[simp] theorem after_cons (s : σ) (a : α) (w : List α) :
    M.after s (a :: w) = M.after (M.step s a).2 w := rfl
@[simp] theorem emitted_nil (s : σ) : M.emitted s [] = [] := rfl
@[simp] theorem emitted_cons (s : σ) (a : α) (w : List α) :
    M.emitted s (a :: w) = (M.step s a).1 ++ M.emitted (M.step s a).2 w := rfl
@[simp] theorem outputFrom_nil (s : σ) : M.outputFrom s [] = M.finish s := by simp [outputFrom]

theorem outputFrom_cons (s : σ) (a : α) (w : List α) :
    M.outputFrom s (a :: w) = (M.step s a).1 ++ M.outputFrom (M.step s a).2 w := by
  simp [outputFrom]

theorem after_append (s : σ) (u v : List α) : M.after s (u ++ v) = M.after (M.after s u) v := by
  induction u generalizing s with
  | nil => rfl
  | cons a u ih => simpa using ih (M.step s a).2

theorem emitted_append (s : σ) (u v : List α) :
    M.emitted s (u ++ v) = M.emitted s u ++ M.emitted (M.after s u) v := by
  induction u generalizing s with
  | nil => rfl
  | cons a u ih => simp [ih]

theorem outputFrom_append (s : σ) (u v : List α) :
    M.outputFrom s (u ++ v) = M.emitted s u ++ M.outputFrom (M.after s u) v := by
  simp [outputFrom, emitted_append, after_append]

/-- `w` gives what is pending in `s` and then its own tokens. -/
def Separated (s : σ) (w : List α) : Prop := M.outputFrom s w = M.finish s ++ M.output w

theorem separated_nil (s : σ) : M.Separated s [] := by
  simp [Separated, output, M.finish_start]

theorem separated_start (w : List α) : M.Separated M.start w := by
  simp [Separated, output, M.finish_start]

def Flushes (s : σ) (a : α) : Prop :=
  M.step s a = (M.finish s ++ (M.step M.start a).1, (M.step M.start a).2)

theorem separated_cons {s : σ} {a : α} (w : List α) (h : M.Flushes s a) :
    M.Separated s (a :: w) := by
  have hs : M.step s a = _ := h
  simp [Separated, output, outputFrom_cons, hs]

theorem output_append {u v : List α} (h : M.Separated (M.after M.start u) v) :
    M.output (u ++ v) = M.output u ++ M.output v := by
  have hv : M.outputFrom (M.after M.start u) v = _ := h
  rw [output, outputFrom_append, hv, ← List.append_assoc]
  rfl

def SeamsSeparated : List (List α) → Prop
  | [] => True
  | u :: us => M.Separated (M.after M.start u) us.flatten ∧ SeamsSeparated us

theorem output_flatten (us : List (List α)) (h : M.SeamsSeparated us) :
    M.output us.flatten = us.flatMap M.output := by
  induction us with
  | nil => simp [output, M.finish_start]
  | cons u us ih =>
    obtain ⟨hu, hus⟩ := h
    rw [List.flatten_cons, M.output_append hu, ih hus, List.flatMap_cons]

def emittedAt (i : Nat) (s : σ) : List α → List (Nat × τ)
  | [] => (M.finish s).map fun t => (i, t)
  | a :: w => ((M.step s a).1.map fun t => (i, t)) ++ emittedAt (i + 1) (M.step s a).2 w

@[simp] theorem emittedAt_nil (i : Nat) (s : σ) :
    M.emittedAt i s [] = (M.finish s).map fun t => (i, t) := rfl
@[simp] theorem emittedAt_cons (i : Nat) (s : σ) (a : α) (w : List α) : M.emittedAt i s (a :: w) =
      ((M.step s a).1.map fun t => (i, t)) ++ M.emittedAt (i + 1) (M.step s a).2 w := rfl

theorem emittedAt_of_flushes (i : Nat) {s : σ} {a : α} (w : List α) (h : M.Flushes s a) :
    M.emittedAt i s (a :: w) = ((M.finish s).map fun t => (i, t)) ++
      M.emittedAt i M.start (a :: w) := by
  have hs : M.step s a = _ := h
  simp [hs]

theorem emittedAt_snd (i : Nat) (s : σ) (w : List α) :
    (M.emittedAt i s w).map Prod.snd = M.outputFrom s w := by
  induction w generalizing i s with
  | nil => simp [Function.comp_def]
  | cons a w ih => simp [outputFrom_cons, ih, Function.comp_def]

end Transducer

end PgMux
