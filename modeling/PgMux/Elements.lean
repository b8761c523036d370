import Mathlib.Data.List.Nodup

/-!
# Lists with named elements

A list in the manner of Go's `container/list`: whoever put an element into it keeps its name, to
move it to the front, to take it out or to change its value.
-/

namespace PgMux

/-- The elements in order, and the name that is given next. -/
structure Elements (α : Type) where
  elems : List (Nat × α)
  next : Nat
  names_lt : ∀ p ∈ elems, p.1 < next
  names_nodup : (elems.map Prod.fst).Nodup

namespace Elements

variable {α : Type}

def empty (α : Type) : Elements α := ⟨[], 0, by simp, by simp⟩

def values (l : Elements α) : List α := l.elems.map Prod.snd

def len (l : Elements α) : Nat := l.elems.length

def value (l : Elements α) (name : Nat) : Option α := (l.elems.find? (·.1 == name)).map Prod.snd

def back (l : Elements α) : Option Nat := l.elems.getLast?.map Prod.fst

def remove (l : Elements α) (name : Nat) : Elements α where
  elems := l.elems.filter (·.1 != name)
  next := l.next
  names_lt p hp := l.names_lt p (List.mem_filter.mp hp).1
  names_nodup := l.names_nodup.sublist (List.filter_sublist.map Prod.fst)

def pushFront (l : Elements α) (a : α) : Nat × Elements α :=
  (l.next, {
    elems := (l.next, a) :: l.elems
    next := l.next + 1
    names_lt := by
      intro p hp
      obtain rfl | hp := List.mem_cons.mp hp
      · exact Nat.lt_succ_self _
      · exact Nat.lt_succ_of_lt (l.names_lt p hp)
    names_nodup := by
      refine List.nodup_cons.mpr ⟨fun hmem => ?_, l.names_nodup⟩
      obtain ⟨p, hp, hname⟩ := List.mem_map.mp hmem
      exact Nat.ne_of_lt (l.names_lt p hp) hname })

def moveToFront (l : Elements α) (name : Nat) : Elements α where
  elems := l.elems.filter (·.1 == name) ++ l.elems.filter (·.1 != name)
  next := l.next
  names_lt p hp := l.names_lt p ((List.filter_append_perm (·.1 == name) l.elems).mem_iff.mp hp)
  names_nodup :=
    ((List.filter_append_perm (·.1 == name) l.elems).map Prod.fst).nodup_iff.mpr l.names_nodup

def modify (l : Elements α) (name : Nat) (f : α → α) : Elements α where
  elems := l.elems.map fun p => (p.1, if p.1 = name then f p.2 else p.2)
  next := l.next
  names_lt p hp := by
    obtain ⟨q, hq, rfl⟩ := List.mem_map.mp hp
    exact l.names_lt q hq
  names_nodup := by
    rw [List.map_map]
    exact l.names_nodup

def init (l : Elements α) : Elements α := ⟨[], l.next, by simp, by simp⟩

/-! ## What the operations do with an element of the list -/

section

variable {l : Elements α} {name : Nat} {a : α}

theorem split_of_mem (h : (name, a) ∈ l.elems) :
    ∃ front back, l.elems = front ++ (name, a) :: back ∧
    (∀ p ∈ front, p.1 ≠ name) ∧ ∀ p ∈ back, p.1 ≠ name := by
  obtain ⟨front, back, hsplit⟩ := List.append_of_mem h
  have hnodup := l.names_nodup
  rw [hsplit, List.map_append, List.map_cons, List.nodup_middle, List.nodup_cons,
    List.mem_append] at hnodup
  refine ⟨front, back, hsplit, fun p hp hname => ?_, fun p hp hname => ?_⟩
  · exact hnodup.1 (.inl (List.mem_map.mpr ⟨p, hp, hname⟩))
  · exact hnodup.1 (.inr (List.mem_map.mpr ⟨p, hp, hname⟩))

theorem value_eq_some : l.value name = some a ↔ (name, a) ∈ l.elems := by
  refine ⟨fun h => ?_, fun h => ?_⟩
  · obtain ⟨p, hfind, rfl⟩ := Option.map_eq_some_iff.mp h
    have hname : p.1 = name := by simpa using List.find?_some hfind
    exact hname ▸ List.mem_of_find?_eq_some hfind
  · obtain ⟨front, back, hsplit, hfront, -⟩ := split_of_mem h
    have hnone : front.find? (·.1 == name) = none :=
    List.find?_eq_none.mpr fun p hp => by simpa using hfront p hp
    simp [value, hsplit, hnone]

theorem elems_moveToFront (h : (name, a) ∈ l.elems) :
    (l.moveToFront name).elems = (name, a) :: l.elems.filter (·.1 != name) := by
  obtain ⟨front, back, hsplit, hfront, hback⟩ := split_of_mem h
  have hnone : ∀ ps : List (Nat × α), (∀ p ∈ ps, p.1 ≠ name) → ps.filter (·.1 == name) = [] :=
    fun ps hps => List.filter_eq_nil_iff.mpr fun p hp => by simpa using hps p hp
  simp [moveToFront, hsplit, hnone front hfront, hnone back hback]

theorem elems_modify_moveToFront (h : (name, a) ∈ l.elems) (f : α → α) :
    ((l.moveToFront name).modify name f).elems = (name, f a) :: l.elems.filter (·.1 != name) := by
  have hothers : (l.elems.filter (·.1 != name)).map (fun p => (p.1, if p.1 = name then f p.2
      else p.2)) = l.elems.filter (·.1 != name) := by
    refine (List.map_congr_left fun p hp => ?_).trans (List.map_id' _)
    have hne : p.1 ≠ name := by simpa using (List.mem_filter.mp hp).2
    rw [if_neg hne]
  simp [modify, elems_moveToFront h, hothers]

end

end Elements

end PgMux
