import Mathlib.Data.List.Basic

/-!
# Arrays that slices share

A heap is the list of all arrays made so far, and a slice names a part of one of them. What is
written through one slice shows in the others of its array.
-/

namespace PgMux.Arrays

variable {α : Type}

/-- The arrays of a program. None is ever given back. -/
abbrev Heap (α : Type) := List (List α)

structure View where
  array : Nat
  off : Nat
  len : Nat
  cap : Nat
  len_le : len ≤ cap
  deriving DecidableEq

namespace View

def drop (s : View) (i : Nat) : View :=
  ⟨s.array, s.off + i, s.len - i, s.cap - i, Nat.sub_le_sub_right s.len_le i⟩

def upTo (s : View) (j : Nat) : View := ⟨s.array, s.off, min j s.cap, s.cap, Nat.min_le_right ..⟩

theorem upTo_len (s : View) : s.upTo s.len = s := by
  obtain ⟨array, off, len, cap, hlen⟩ := s
  simp [upTo, hlen]

end View

namespace Heap

def cells (h : Heap α) (a : Nat) : List α := h.getD a []

def read (h : Heap α) (s : View) : List α := ((h.cells s.array).drop s.off).take s.len

def make [Inhabited α] (h : Heap α) (n : Nat) : View × Heap α :=
  (⟨h.length, 0, n, n, Nat.le_refl n⟩, h ++ [List.replicate n default])

def copy (h : Heap α) (s : View) (src : List α) : Heap α :=
  h.modify s.array fun a => a.take s.off ++ src.take s.len ++ a.drop (s.off + min src.length s.len)

def grow [Inhabited α] (h : Heap α) (s : View) (n : Nat) : View × Heap α :=
  if n ≤ s.cap then (s.upTo n, h) else h.make n

def clone [Inhabited α] (h : Heap α) (s : View) : View × Heap α :=
  let (t, h') := h.make s.len
  (t, h'.copy t (h'.read s))

structure Holds (h : Heap α) (s : View) : Prop where
  made : s.array < h.length
  room : s.off + s.cap ≤ (h.cells s.array).length

structure Keeps (h : Heap α) (a : Nat) (h' : Heap α) : Prop where
  made : h.length ≤ h'.length
  same : ∀ b, b < h.length → b ≠ a → h'.cells b = h.cells b

theorem Keeps.refl (h : Heap α) (a : Nat) : h.Keeps a h := ⟨Nat.le_refl _, fun _ _ _ => rfl⟩

variable {a : Nat} {h h' : Heap α} {s : View}

theorem Keeps.trans {h'' : Heap α} (hk : h.Keeps a h') (hk' : h'.Keeps a h'') : h.Keeps a h'' where
  made := Nat.le_trans hk.made hk'.made
  same b hb hne := (hk'.same b (Nat.lt_of_lt_of_le hb hk.made) hne).trans (hk.same b hb hne)

theorem Keeps.of_later (hk : h.Keeps a h') (ha : h.length ≤ a) (b : Nat) : h.Keeps b h' where
  made := hk.made
  same c hc _ := hk.same c hc (Nat.ne_of_lt (Nat.lt_of_lt_of_le hc ha))

theorem Keeps.read (hk : h.Keeps a h') (hs : s.array < h.length) (hne : s.array ≠ a) :
    h'.read s = h.read s := by
  rw [Heap.read, hk.same _ hs hne]
  rfl

theorem Keeps.holds (hk : h.Keeps a h') (hs : h.Holds s) (hne : s.array ≠ a) : h'.Holds s where
  made := Nat.lt_of_lt_of_le hs.made hk.made
  room := by
    rw [hk.same _ hs.made hne]
    exact hs.room

theorem read_drop (h : Heap α) (s : View) (i : Nat) : h.read (s.drop i) = (h.read s).drop i := by
  simp [read, View.drop, List.drop_take]

theorem Holds.length_read (hs : h.Holds s) : (h.read s).length = s.len := by
  have hroom := hs.room
  have hlen := s.len_le
  simp only [read, List.length_take, List.length_drop]
  omega

theorem Holds.drop (hs : h.Holds s) {i : Nat} (hi : i ≤ s.cap) : h.Holds (s.drop i) where
  made := hs.made
  room := by
    have hroom := hs.room
    simp only [View.drop]
    omega

theorem Holds.upTo (hs : h.Holds s) (j : Nat) : h.Holds (s.upTo j) := ⟨hs.made, hs.room⟩

section

variable [Inhabited α]

theorem keeps_make (h : Heap α) (n a : Nat) : h.Keeps a (h.make n).2 where
  made := by simp [make]
  same b hb _ := by simp [make, Heap.cells, List.getElem?_append_left hb]

theorem holds_make (h : Heap α) (n : Nat) : (h.make n).2.Holds (h.make n).1 where
  made := by simp [make]
  room := by simp [make, Heap.cells]

end

/-! ## Copies -/

theorem cells_copy (h : Heap α) (s : View) (src : List α) (b : Nat) : (h.copy s src).cells b =
    if s.array = b ∧ b < h.length then
      (h.cells b).take s.off ++ src.take s.len ++ (h.cells b).drop (s.off + min src.length s.len)
    else h.cells b := by
  simp only [Heap.cells, copy, List.getD_eq_getElem?_getD, List.getElem?_modify]
  by_cases hb : b < h.length
  · by_cases heq : s.array = b
    · simp [hb, heq]
    · simp [hb, heq]
  · simp [hb]

theorem length_copy (h : Heap α) (s : View) (src : List α) : (h.copy s src).length = h.length :=
  by simp [copy]

theorem keeps_copy (h : Heap α) (s : View) (src : List α) : h.Keeps s.array (h.copy s src) where
  made := Nat.le_of_eq (length_copy h s src).symm
  same b _ hne := by rw [cells_copy, if_neg fun hb => hne hb.1.symm]

theorem length_cells_copy (hs : h.Holds s) (src : List α) (b : Nat) :
    ((h.copy s src).cells b).length = (h.cells b).length := by
  rw [cells_copy]
  split
  · rename_i hb
    have hroom := hs.room
    have hlen := s.len_le
    rw [hb.1] at hroom
    simp only [List.length_append, List.length_take, List.length_drop]
    omega
  · rfl

theorem Holds.copy {t : View} (ht : h.Holds t) (hs : h.Holds s) (src : List α) :
    (h.copy s src).Holds t where
  made := by rw [length_copy]; exact ht.made
  room := by rw [length_cells_copy hs]; exact ht.room

theorem cells_copy_self (hs : h.Holds s) {src : List α} (hlen : src.length = s.len) :
    (h.copy s src).cells s.array =
      (h.cells s.array).take s.off ++ src ++ (h.cells s.array).drop (s.off + src.length) := by
  rw [cells_copy, if_pos ⟨rfl, hs.made⟩, List.take_of_length_le (Nat.le_of_eq hlen), ← hlen,
    Nat.min_self]

theorem read_of_cells {front data rest : List α} (hcells : h.cells s.array = front ++ data ++ rest)
    (hfront : front.length = s.off) (hdata : data.length = s.len) : h.read s = data := by
  rw [read, hcells, List.append_assoc, List.drop_left' hfront, List.take_left' hdata]

theorem Holds.length_front (hs : h.Holds s) : ((h.cells s.array).take s.off).length = s.off := by
  have hroom := hs.room
  simp only [List.length_take]
  omega

theorem read_copy (hs : h.Holds s) {src : List α} (hlen : src.length = s.len) :
    (h.copy s src).read s = src :=
  read_of_cells (cells_copy_self hs hlen) hs.length_front hlen

theorem read_copy_copy (hs : h.Holds s) {front back : List α}
    (hlen : s.len = front.length + back.length) :
    ((h.copy (s.upTo front.length) front).copy (s.drop front.length) back).read s =
      front ++ back := by
  have hcap := s.len_le
  have hfront : front.length = (s.upTo front.length).len := by simp only [View.upTo]; omega
  have hback : back.length = (s.drop front.length).len := by simp only [View.drop]; omega
  have hs' : (h.copy (s.upTo front.length) front).Holds (s.drop front.length) :=
    (hs.copy (hs.upTo _) front).drop (by omega)
  have hfirst : (h.copy (s.upTo front.length) front).cells s.array =
      (h.cells s.array).take s.off ++ front ++ (h.cells s.array).drop (s.off + front.length) :=
    cells_copy_self (hs.upTo front.length) hfront
  have htake : ((h.copy (s.upTo front.length) front).cells s.array).take (s.off + front.length) =
      (h.cells s.array).take s.off ++ front := by
    rw [hfirst]
    apply List.take_left'
    rw [List.length_append, hs.length_front]
  have hsecond : ((h.copy (s.upTo front.length) front).copy (s.drop front.length) back).cells
      s.array =
      ((h.copy (s.upTo front.length) front).cells s.array).take (s.off + front.length) ++ back ++
        ((h.copy (s.upTo front.length) front).cells s.array).drop
          (s.off + front.length + back.length) :=
    cells_copy_self hs' hback
  rw [htake, List.append_assoc _ front back] at hsecond
  exact read_of_cells hsecond hs.length_front (by rw [List.length_append, hlen])

section

variable [Inhabited α]

theorem read_clone (hs : h.Holds s) : (h.clone s).2.read (h.clone s).1 = h.read s := by
  have hread : (h.make s.len).2.read s = h.read s :=
    (keeps_make h s.len h.length).read hs.made (Nat.ne_of_lt hs.made)
  have hlen : ((h.make s.len).2.read s).length = (h.make s.len).1.len := by
    rw [hread, hs.length_read]
    rfl
  exact (read_copy (holds_make h s.len) hlen).trans hread

theorem holds_clone (h : Heap α) (s : View) : (h.clone s).2.Holds (h.clone s).1 :=
  (holds_make h s.len).copy (holds_make h s.len) _

theorem keeps_clone (h : Heap α) (s : View) : h.Keeps h.length (h.clone s).2 :=
  (keeps_make h s.len h.length).trans (keeps_copy _ (h.make s.len).1 _)

theorem holds_grow (hs : h.Holds s) (n : Nat) : (h.grow s n).2.Holds (h.grow s n).1 := by
  unfold grow
  split
  · exact hs.upTo n
  · exact holds_make h n

theorem len_grow (h : Heap α) (s : View) (n : Nat) : (h.grow s n).1.len = n := by
  unfold grow
  split
  · rename_i hn
    exact Nat.min_eq_left hn
  · rfl

theorem upTo_grow (h : Heap α) (s : View) (n : Nat) : (h.grow s n).1.upTo n = (h.grow s n).1 := by
  have hself := (h.grow s n).1.upTo_len
  rwa [len_grow] at hself

theorem array_grow (h : Heap α) (s : View) (n : Nat) :
    (h.grow s n).1.array = s.array ∨ (h.grow s n).1.array = h.length := by
  unfold grow
  split
  · exact .inl rfl
  · exact .inr rfl

theorem keeps_grow (h : Heap α) (s : View) (n a : Nat) : h.Keeps a (h.grow s n).2 := by
  unfold grow
  split
  · exact .refl h a
  · exact keeps_make h n a

end

end Heap

end PgMux.Arrays
