import PgMux.Effects

/-!
# Checked access to a text

Reading and cutting a list by positions fails outside of the list, and a loop fails if it has not
come to its end after a number of rounds. `Ends` says how a computation ends.
-/

namespace PgMux.Indexing

open Effects (Flow)

inductive Fault where
  | outOfRange | outOfFuel
  deriving DecidableEq, Repr

abbrev Checked (α : Type) := Except Fault α

section

variable {α β σ : Type}

def fetch (s : List α) (i : Nat) : Checked α := match s[i]? with
  | some c => pure c
  | none => throw .outOfRange

def sliceFrom (s : List α) (i : Nat) : Checked (List α) :=
  if i ≤ s.length then pure (s.drop i) else throw .outOfRange

def slice (s : List α) (i j : Nat) : Checked (List α) :=
  if i ≤ j ∧ j ≤ s.length then pure ((s.take j).drop i) else throw .outOfRange

def test (s : List α) (i : Nat) (p : α → Bool) : Checked Bool := do
  if i < s.length then return p (← fetch s i)
  return false

def loop (body : σ → Checked (Flow σ)) : Nat → σ → Checked σ
  | 0, _ => throw .outOfFuel
  | n + 1, s => do
    match ← body s with
    | .next t => loop body n t
    | .stop t => return t

@[simp] theorem ok_bind (a : α) (f : α → Checked β) : (Except.ok a >>= f) = f a := rfl

/-- Ends with a value of `Q`, or out of range if `bad`. -/
def Ends (bad : Prop) (Q : α → Prop) : Checked α → Prop
  | .ok a => Q a
  | .error .outOfRange => bad
  | .error .outOfFuel => False

variable {bad : Prop} {Q : α → Prop}

@[simp] theorem ends_ok {a : α} : Ends bad Q (.ok a) ↔ Q a := Iff.rfl

variable {x : Checked α} {w : List α}

theorem Ends.bind {S : β → Prop} {f : α → Checked β} (h : Ends bad Q x)
    (hf : ∀ a, Q a → Ends bad S (f a)) : Ends bad S (x >>= f) := by
  cases x with
  | ok a => exact hf a h
  | error e =>
    cases e <;> exact h

theorem Ends.map {S : β → Prop} {f : α → β} (h : Ends bad Q x) (hf : ∀ a, Q a → S (f a)) :
    Ends bad S (f <$> x) := by
  cases x with
  | ok a => exact hf a h
  | error e =>
    cases e <;> exact h

theorem ends_eq_ok {a : α} : Ends False (· = a) x ↔ x = .ok a := by
  cases x with
  | ok b => simp
  | error e =>
    cases e <;> simp [Ends]

variable {s : List α} {i j : Nat}

@[simp] theorem test_eq (s : List α) (i : Nat) (p : α → Bool) :
    test s i p = .ok ((s.drop i).head?.any p) := by
  rw [List.head?_drop]
  by_cases h : i < s.length
  · simp [test, fetch, h]
    rfl
  · simp [test, h]
    rfl

def Turn (I Q : σ → Prop) : Flow σ → Prop
  | .next t => I t
  | .stop t => Q t

theorem ends_loop {body : σ → Checked (Flow σ)} {Q : σ → Prop} (I : σ → Prop) (μ : σ → Nat)
    (hbody : ∀ s, I s → Ends bad (Turn (fun t => I t ∧ μ t < μ s) Q) (body s))
    {n : Nat} {s : σ} (hs : I s) (hn : μ s < n) : Ends bad Q (loop body n s) := by
  induction n generalizing s with
  | zero => omega
  | succ n ih =>
    refine (hbody s hs).bind fun f hf => ?_
    cases f with
    | next t => exact ih hf.1 (by have := hf.2; omega)
    | stop t => exact hf

/-! ## Positions and the rest of a list -/

theorem lt_of_drop {c : α} (h : s.drop i = c :: w) : i < s.length := by
  by_contra hle
  rw [List.drop_eq_nil_of_le (Nat.le_of_not_lt hle)] at h
  exact List.cons_ne_nil c w h.symm

theorem drop_add_of_drop {k : Nat} (h : s.drop i = w) : s.drop (i + k) = w.drop k := by
  rw [← h, List.drop_drop]

theorem slice_of_drop {k : Nat} (h : s.drop i = w) (hi : i ≤ s.length) (hk : k ≤ w.length) :
    slice s i (i + k) = .ok (w.take k) := by
  have hlength : w.length = s.length - i := by rw [← h, List.length_drop]
  have hrange : i ≤ i + k ∧ i + k ≤ s.length := by omega
  rw [slice, if_pos hrange, List.drop_take, h, Nat.add_sub_cancel_left]
  rfl

theorem loop_test (s : List α) (p : α → Bool) {n : Nat} (hn : s.length < n) (hi : i ≤ s.length) :
    loop (fun j => do if ← test s j p then return .next (j + 1) else return .stop j) n i =
      .ok (i + ((s.drop i).takeWhile p).length) := by
  rw [← ends_eq_ok]
  refine ends_loop (fun j => j ≤ s.length ∧
    j + ((s.drop j).takeWhile p).length = i + ((s.drop i).takeWhile p).length)
    (fun j => s.length - j) (fun j hj => ?_) ⟨hi, rfl⟩ (by omega)
  obtain ⟨hle, heq⟩ := hj
  rw [test_eq]
  change Ends False _ (if (s.drop j).head?.any p = true then _ else _)
  cases hs : s.drop j with
  | nil =>
    rw [hs] at heq
    exact heq
  | cons c w =>
    rw [hs] at heq
    by_cases hc : p c = true
    · have hw : s.drop (j + 1) = w := drop_add_of_drop hs
      have hlt : j < s.length := lt_of_drop hs
      simp only [List.head?_cons, Option.any_some, hc, if_true]
      refine ⟨⟨hlt, ?_⟩, by omega⟩
      rw [hw, ← heq, List.takeWhile_cons_of_pos hc, List.length_cons]
      omega
    · simp only [List.head?_cons, Option.any_some, hc]
      rw [List.takeWhile_cons_of_neg hc] at heq
      exact heq

end

end PgMux.Indexing
