import Mathlib.Data.List.Basic

/-!
# Streams and buffers

A stream in memory is a list with the error that ends it. A slice is the front part of an array;
what the array holds behind it is still there when the slice grows.
-/

namespace PgMux.Streams

inductive ReadErr (ε : Type) where
  | eof
  | unexpectedEOF
  | other (e : ε)
  deriving DecidableEq, Repr

structure Filled (α ε : Type) (n : Nat) where
  data : List α
  err : Option (ReadErr ε)
  length_le : data.length ≤ n
  full : err = none → data.length = n

def Filled.empty (α ε : Type) : Filled α ε 0 := ⟨[], none, Nat.le_refl 0, fun _ => rfl⟩

abbrev Source (m : Type → Type) (α ε : Type) := (n : Nat) → m (Filled α ε n)

section

variable {α ε : Type}

structure Reader (α ε : Type) where
  data : List α
  stop : ReadErr ε
  deriving DecidableEq, Repr

def Reader.shortErr (r : Reader α ε) : ReadErr ε :=
  match r.stop with
  | .eof => if r.data.isEmpty then .eof else .unexpectedEOF
  | err => err

def readFull : Source (StateM (Reader α ε)) α ε := fun n r =>
  if h : n ≤ r.data.length then
    (⟨r.data.take n, none, List.length_take_le .., fun _ => by simp [h]⟩,
      { r with data := r.data.drop n })
  else (⟨r.data, some r.shortErr, Nat.le_of_not_le h, nofun⟩, { r with data := [] })

theorem readFull_append (front rest : List α) (stop : ReadErr ε) :
    (readFull front.length : StateM (Reader α ε) _) ⟨front ++ rest, stop⟩ =
      (⟨front, none, Nat.le_refl _, fun _ => rfl⟩, ⟨rest, stop⟩) := by
  simp [readFull]

theorem data_readFull (n : Nat) (r : Reader α ε) :
    ((readFull n : StateM (Reader α ε) _) r).1.data ++
      ((readFull n : StateM (Reader α ε) _) r).2.data = r.data := by
  unfold readFull
  split
  · exact List.take_append_drop n r.data
  · exact List.append_nil r.data

end

structure Slice (α : Type) where
  array : List α
  len : Nat
  len_le : len ≤ array.length

namespace Slice

variable {α : Type}

def toList (s : Slice α) : List α := s.array.take s.len

def cap (s : Slice α) : Nat := s.array.length

def make [Inhabited α] (n : Nat) : Slice α := ⟨List.replicate n default, n, by simp⟩

def reslice (s : Slice α) (n : Nat) (h : n ≤ s.cap) : Slice α := ⟨s.array, n, h⟩

def copyAt (s : Slice α) (off : Nat) (src : List α) : Slice α where
  array :=
    s.array.take off ++ src.take (s.len - off) ++ s.array.drop (off + min src.length (s.len - off))
  len := s.len
  len_le := by
    have hlen := s.len_le
    simp only [List.length_append, List.length_take, List.length_drop]
    omega

def grow [Inhabited α] (s : Slice α) (n : Nat) : Slice α :=
  if h : n ≤ s.cap then s.reslice n h else make n

theorem len_grow [Inhabited α] (s : Slice α) (n : Nat) : (s.grow n).len = n := by
  unfold grow
  split
  · rfl
  · rfl

theorem toList_copyAt_copyAt (s : Slice α) (front back : List α)
    (h : s.len = front.length + back.length) :
    ((s.copyAt 0 front).copyAt front.length back).toList = front ++ back := by
  have hfront : front.take (front.length + back.length) = front := List.take_of_length_le (by omega)
  simp only [toList, copyAt, h, List.take_zero, List.nil_append, Nat.sub_zero, hfront,
    Nat.add_sub_cancel_left, List.take_length, List.take_left']
  rw [List.append_assoc, List.take_length_add_append]
  simp

end Slice

end PgMux.Streams
