import Mathlib.Data.List.Nodup

/-!
# Stores with least recently used eviction

A list of items with the one used last in front. An item that is asked for after its time is
dropped; a new key at capacity drops the item in the back.
-/

namespace PgMux.Lru

/-! ## Objects and their runs -/

section

variable {ο α σ τ : Type}

def replay (exec : ο → σ → α × σ) : List ο → σ → List α × σ
  | [], s => ([], s)
  | o :: ops, s =>
    let (a, s) := exec o s
    let (as, s) := replay exec ops s
    (a :: as, s)

theorem replay_related {exec : ο → σ → α × σ} {exec' : ο → τ → α × τ} {R : σ → τ → Prop}
    (hstep : ∀ o s t, R s t → (exec o s).1 = (exec' o t).1 ∧ R (exec o s).2 (exec' o t).2)
    (ops : List ο) {s : σ} {t : τ} (h : R s t) :
    (replay exec ops s).1 = (replay exec' ops t).1 ∧
    R (replay exec ops s).2 (replay exec' ops t).2 := by
  induction ops generalizing s t with
  | nil => exact ⟨rfl, h⟩
  | cons o ops ih =>
    obtain ⟨hanswer, hrel⟩ := hstep o s t h
    obtain ⟨hanswers, hend⟩ := ih hrel
    exact ⟨congrArg₂ List.cons hanswer hanswers, hend⟩

theorem replay_invariant {exec : ο → σ → α × σ} {I : σ → Prop} (hstep : ∀ o s, I s → I (exec o s).2)
    (ops : List ο) {s : σ} (h : I s) : I (replay exec ops s).2 := by
  induction ops generalizing s with
  | nil => exact h
  | cons o ops ih => exact ih (hstep o s h)

end

/-! ## The store -/

structure Item (κ ν : Type) where
  key : κ
  value : ν
  expiresAt : Int
  deriving DecidableEq, Repr

structure Limits (ν : Type) where
  maxEntries : Int
  ttl : Int
  tooLarge : ν → Bool

inductive Op (κ ν : Type) where
  | get (key : κ) (now : Int)
  | set (key : κ) (value : ν) (now : Int)
  | flush
  | len
  deriving DecidableEq, Repr

inductive Answer (ν : Type) where
  | found (value : Option ν)
  | done
  | count (n : Nat)
  deriving DecidableEq, Repr

section

variable {κ ν : Type} [DecidableEq κ]

def find (key : κ) (items : List (Item κ ν)) : Option (Item κ ν) := items.find? (·.key == key)

def without (key : κ) (items : List (Item κ ν)) : List (Item κ ν) := items.filter (·.key != key)

def get (key : κ) (now : Int) (items : List (Item κ ν)) : Option ν × List (Item κ ν) :=
  match find key items with
  | none => (none, items)
  | some item =>
    if item.expiresAt < now then (none, without key items)
      else (some item.value, item :: without key items)

def put (maxEntries : Int) (item : Item κ ν) (items : List (Item κ ν)) : List (Item κ ν) :=
  if (find item.key items).isSome then item :: without item.key items
  else if 0 < maxEntries ∧ maxEntries ≤ items.length then item :: items.dropLast
  else item :: items

/-- One operation, with its answer. -/
def exec (limits : Limits ν) : Op κ ν → List (Item κ ν) → Answer ν × List (Item κ ν)
  | .get key now, items => (.found (get key now items).1, (get key now items).2)
  | .set key value now, items =>
    (.done, if limits.tooLarge value then items
      else put limits.maxEntries ⟨key, value, now + limits.ttl⟩ items)
  | .flush, _ => (.done, [])
  | .len, items => (.count items.length, items)

def Bounded (limits : Limits ν) (items : List (Item κ ν)) : Prop :=
  0 < limits.maxEntries → (items.length : Int) ≤ limits.maxEntries

variable {items : List (Item κ ν)}

theorem length_without_lt {key : κ} (h : (find key items).isSome) :
    (without key items).length < items.length := by
  obtain ⟨item, hmem, hkey⟩ := List.find?_isSome.mp h
  refine List.length_filter_lt_length_iff_exists.mpr ⟨item, hmem, ?_⟩
  simpa using hkey

theorem Bounded.get {limits : Limits ν} (h : Bounded limits items) (key : κ) (now : Int) :
    Bounded limits (get key now items).2 := by
  intro hpos
  have hlen := h hpos
  unfold Lru.get
  split
  · exact hlen
  · rename_i item hfind
    have hlt := length_without_lt (Option.isSome_of_eq_some hfind)
    split
    · dsimp only
      omega
    · rw [List.length_cons]
      omega

theorem Bounded.put {limits : Limits ν} (h : Bounded limits items) (item : Item κ ν) :
    Bounded limits (put limits.maxEntries item items) := by
  intro hpos
  have hlen := h hpos
  unfold Lru.put
  split
  · rename_i hsome
    have hlt := length_without_lt hsome
    rw [List.length_cons]
    omega
  · split
    · rw [List.length_cons, List.length_dropLast]
      omega
    · rw [List.length_cons]
      omega

theorem Bounded.exec {limits : Limits ν} (h : Bounded limits items) (o : Op κ ν) :
    Bounded limits (exec limits o items).2 := by
  cases o with
  | get key now => exact h.get key now
  | set key value now =>
    change Bounded limits (if limits.tooLarge value then items else _)
    split
    · exact h
    · exact h.put _
  | flush => exact fun hpos => Int.le_of_lt hpos
  | len => exact h

end

end PgMux.Lru
