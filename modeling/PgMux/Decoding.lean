import Mathlib.Data.List.Induction
import PgMux.Indexing
import PgMux.Protocol

/-!
# Fields of a payload

Each reader is described by one equivalence: it returns a value and a rest exactly if the payload is
the encoding of the value with the rest behind it. The readers at an offset, with every slice
checked, return the same.
-/

namespace PgMux.Decoding

open Indexing Literal Protocol

/-! ## Numbers -/

def putUint : Nat → Nat → Bytes
  | 0, _ => []
  | n + 1, v => putUint n (v / 256) ++ [(v % 256).toUInt8]

def unsigned (bits : Nat) (v : Int) : Nat := if 0 ≤ v then v.toNat else (v + 2 ^ bits).toNat

section

variable {n v : Nat} {data rest s : Bytes} {ε α β : Type}

@[simp] theorem length_putUint : (putUint n v).length = n := by
  induction n generalizing v with
  | zero => rfl
  | succ n ih => simp [putUint, ih]

theorem bigEndian_concat (data : Bytes) (b : Byte) :
    bigEndian (data ++ [b]) = 256 * bigEndian data + b.toNat := by
  simp [bigEndian]

theorem bigEndian_putUint (h : v < 256 ^ n) : bigEndian (putUint n v) = v := by
  induction n generalizing v with
  | zero =>
    obtain rfl : v = 0 := by simpa using h
    rfl
  | succ n ih =>
    have hdiv : v / 256 < 256 ^ n := Nat.div_lt_of_lt_mul (by rwa [Nat.pow_succ, Nat.mul_comm] at h)
    rw [putUint, bigEndian_concat, ih hdiv, UInt8.toNat_ofNat']
    omega

theorem putUint_bigEndian (data : Bytes) :
    putUint data.length (bigEndian data) = data ∧ bigEndian data < 256 ^ data.length := by
  induction data using List.reverseRecOn with
  | nil => exact ⟨rfl, by decide⟩
  | append_singleton data b ih =>
    have hb := b.toNat_lt
    have hdiv : (256 * bigEndian data + b.toNat) / 256 = bigEndian data := by omega
    have hmod : (256 * bigEndian data + b.toNat) % 256 = b.toNat := by omega
    rw [bigEndian_concat, List.length_append, List.length_singleton, putUint, hdiv, hmod, ih.1,
      Nat.pow_succ]
    exact ⟨by simp, by have := ih.2; omega⟩

theorem uint_eq_some_iff :
    uint n data = some (v, rest) ↔ v < 256 ^ n ∧ data = putUint n v ++ rest := by
  unfold uint
  constructor
  · intro h
    split_ifs at h with hlen
    obtain ⟨rfl, rfl⟩ := Prod.mk.inj (Option.some.inj h)
    obtain ⟨hput, hlt⟩ := putUint_bigEndian (data.take n)
    rw [List.length_take, Nat.min_eq_left (Nat.le_of_not_lt hlen)] at hput hlt
    exact ⟨hlt, by rw [hput, List.take_append_drop]⟩
  · rintro ⟨hv, rfl⟩
    have hlen : ¬ (putUint n v ++ rest).length < n := by simp
    rw [if_neg hlen, List.take_left' length_putUint, List.drop_left' length_putUint,
      bigEndian_putUint hv]

theorem cstring_eq_some_iff : cstring data = some (s, rest) ↔ 0 ∉ s ∧ data = s ++ 0 :: rest := by
  simp only [cstring, Option.map_eq_some_iff, indexByte_eq_some_iff, Prod.mk.injEq]
  constructor
  · rintro ⟨_, ⟨u, w, rfl, hu, rfl⟩, rfl, rfl⟩
    exact ⟨by simpa using hu, by simp⟩
  · rintro ⟨hs, rfl⟩
    exact ⟨_, ⟨s, rest, rfl, hs, rfl⟩, by simp, by simp⟩

theorem signedValue_eq_iff {bits : Nat} {w : Int} (hn : v < 2 ^ (bits + 1)) :
    signedValue (bits + 1) v = w ↔ (-2 ^ bits ≤ w ∧ w < 2 ^ bits) ∧ v = unsigned (bits + 1) w := by
  have hpow : (2 : Int) ^ (bits + 1) = 2 * 2 ^ bits := by rw [Int.pow_succ, Int.mul_comm]
  have hpow' : 2 ^ (bits + 1) = 2 * 2 ^ bits := by rw [Nat.pow_succ, Nat.mul_comm]
  have hcast : ((2 ^ bits : Nat) : Int) = 2 ^ bits := by simp
  rw [hpow'] at hn
  unfold signedValue unsigned
  rw [hpow, Nat.add_sub_cancel]
  generalize (2 : Int) ^ bits = M at *
  generalize 2 ^ bits = m at *
  subst hcast
  split_ifs <;> omega

theorem signedValue_unsigned {bits : Nat} {w : Int} (h : -2 ^ bits ≤ w ∧ w < 2 ^ bits) :
    unsigned (bits + 1) w < 2 ^ (bits + 1) ∧
    signedValue (bits + 1) (unsigned (bits + 1) w) = w := by
  have hlt : unsigned (bits + 1) w < 2 ^ (bits + 1) := by
    have hpow : (2 : Int) ^ (bits + 1) = 2 * 2 ^ bits := by rw [Int.pow_succ, Int.mul_comm]
    have hcast : ((2 ^ (bits + 1) : Nat) : Int) = 2 ^ (bits + 1) := by simp
    unfold unsigned
    split_ifs <;> omega
  exact ⟨hlt, (signedValue_eq_iff hlt).mpr ⟨h, rfl⟩⟩

/-- A reader of `n` elements, which counts them from `i` on. -/
structure Reads (read : Nat → Nat → Bytes → Except ε (List α × Bytes)) (Valid : α → Prop)
    (encode : α → Bytes) : Prop where
  zero {i data l rest} : read 0 i data = .ok (l, rest) ↔ l = [] ∧ data = rest
  succ {n i data l rest} : read (n + 1) i data = .ok (l, rest) ↔
    ∃ a l' mid, l = a :: l' ∧ Valid a ∧ data = encode a ++ mid ∧ read n (i + 1) mid = .ok (l', rest)

theorem Reads.eq_ok_iff {read : Nat → Nat → Bytes → Except ε (List α × Bytes)} {Valid : α → Prop}
    {encode : α → Bytes} (h : Reads read Valid encode) {i : Nat} {l : List α} :
    read n i data = .ok (l, rest) ↔
      l.length = n ∧ (∀ a ∈ l, Valid a) ∧ data = l.flatMap encode ++ rest := by
  induction n generalizing i data l with
  | zero =>
    rw [h.zero]
    constructor
    · rintro ⟨rfl, rfl⟩
      simp
    · rintro ⟨hlen, -, rfl⟩
      simp [List.length_eq_zero_iff.mp hlen]
  | succ n ih =>
    simp only [h.succ, ih]
    constructor
    · rintro ⟨a, l, _, rfl, ha, rfl, rfl, hl, rfl⟩
      exact ⟨rfl, List.forall_mem_cons.mpr ⟨ha, hl⟩, by simp⟩
    · rintro ⟨hlen, hl, rfl⟩
      obtain ⟨a, l, rfl⟩ := List.exists_cons_of_length_eq_add_one hlen
      obtain ⟨ha, hl⟩ := List.forall_mem_cons.mp hl
      exact ⟨a, l, _, rfl, ha, by simp, by simpa using hlen, hl, rfl⟩

end

/-! ## At an offset -/

def cstringAt (payload : Bytes) (pos : Nat) : Checked (Option (Bytes × Nat)) := do
  match indexByte 0 (← sliceFrom payload pos) with
  | none => return none
  | some e => return some (← slice payload pos (pos + e), pos + e + 1)

def uintAt (size : Nat) (payload : Bytes) (pos : Nat) : Checked (Option (Nat × Nat)) := do
  if payload.length < pos + size then return none
  return some (bigEndian (← slice payload pos (pos + size)), pos + size)

def liftExcept {ε α : Type} (y : Except ε α) : ExceptT ε Checked α := ExceptT.mk (.ok y)

inductive Mirrors {ε α : Type} (payload : Bytes) :
    ExceptT ε Checked (α × Nat) → Except ε (α × Bytes) → Prop
  | error (e : ε) : Mirrors payload (throw e) (.error e)
  | ok (a : α) {pos : Nat} (h : pos ≤ payload.length) : Mirrors payload (pure (a, pos))
      (.ok (a, payload.drop pos))

section

variable {ε α β : Type} {payload : Bytes} {pos size : Nat} {x : ExceptT ε Checked (α × Nat)}
  {y : Except ε (α × Bytes)}

theorem Mirrors.bind {f : α × Nat → ExceptT ε Checked (β × Nat)}
    {g : α × Bytes → Except ε (β × Bytes)} (h : Mirrors payload x y)
    (hf : ∀ a pos, pos ≤ payload.length → Mirrors payload (f (a, pos)) (g (a, payload.drop pos))) :
    Mirrors payload (x >>= f) (y >>= g) := by
  cases h with
  | error e => exact .error e
  | ok a hpos => exact hf a _ hpos

theorem Mirrors.bind_eq {f : α × Nat → ExceptT ε Checked β} {g : α × Bytes → Except ε β}
    (h : Mirrors payload x y)
    (hf : ∀ a pos, pos ≤ payload.length → f (a, pos) = liftExcept (g (a, payload.drop pos))) :
    (x >>= f) = liftExcept (y >>= g) := by
  cases h with
  | error e => rfl
  | ok a hpos => exact hf a _ hpos

theorem slice_eq (h : pos + size ≤ payload.length) :
    slice payload pos (pos + size) = .ok ((payload.drop pos).take size) := by
  exact slice_of_drop rfl (Nat.le_of_add_right_le h) (by rw [List.length_drop]; omega)

theorem uintAt_eq (size pos : Nat) : uintAt size payload pos =
    .ok (if payload.length < pos + size then none
      else some (bigEndian ((payload.drop pos).take size), pos + size)) := by
  unfold uintAt
  by_cases h : payload.length < pos + size
  · simp only [if_pos h]
    rfl
  · simp only [if_neg h, slice_eq (Nat.le_of_not_lt h)]
    rfl

end

end PgMux.Decoding
