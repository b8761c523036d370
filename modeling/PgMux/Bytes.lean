import Mathlib.Algebra.Group.Int.Defs
import Mathlib.Algebra.Group.Nat.Defs
import Mathlib.Data.List.Basic
import Mathlib.Data.List.TakeWhile

/-!
# Byte strings

Go strings are byte strings, so every text of the development is a list of bytes. Here are the bytes
that the scanners look for, the ASCII classes and the two search functions.
-/

namespace PgMux

abbrev Byte := UInt8

abbrev Bytes := List UInt8

instance : LawfulBEq Bytes := inferInstance

-- Decided along the text: all 256 bytes are too many for the elaborator.
instance (priority := high) decidableForallMem (v : Bytes) (P : Byte → Prop) [DecidablePred P] :
    Decidable (∀ c ∈ v, P c) :=
  List.decidableBAll P v

def ascii (s : String) : Bytes := s.toList.map fun c => c.toNat.toUInt8

abbrev tab : Byte := 9
abbrev lineFeed : Byte := 10
abbrev formFeed : Byte := 12
abbrev carriageReturn : Byte := 13
abbrev blank : Byte := 32
abbrev dquote : Byte := 34
abbrev dollar : Byte := 36
abbrev ampersand : Byte := 38
abbrev quote : Byte := 39
abbrev star : Byte := 42
abbrev plus : Byte := 43
abbrev comma : Byte := 44
abbrev minus : Byte := 45
abbrev dot : Byte := 46
abbrev slash : Byte := 47
abbrev colon : Byte := 58
abbrev semicolon : Byte := 59
abbrev equals : Byte := 61
abbrev backslash : Byte := 92
abbrev underscore : Byte := 95

@[simp] theorem dollar_ne_quote : dollar ≠ quote := by decide

def isDigit (c : Byte) : Bool := 48 ≤ c && c ≤ 57

def isUpper (c : Byte) : Bool := 65 ≤ c && c ≤ 90

def isLower (c : Byte) : Bool := 97 ≤ c && c ≤ 122

def isLetter (c : Byte) : Bool := isUpper c || isLower c

def isHighBit (c : Byte) : Bool := 128 ≤ c

def upperByte (c : Byte) : Byte := if isLower c then c - 32 else c

def lowerByte (c : Byte) : Byte := if isUpper c then c + 32 else c

def decimal (ds : Bytes) : Nat := ds.foldl (fun n d => 10 * n + (d.toNat - 48)) 0

variable {v sub w : Bytes} {k : Nat}

theorem takeWhile_isDigit_append {ds : Bytes} (hds : ∀ c ∈ ds, isDigit c)
    (hv : v.head?.any isDigit = false) :
    (ds ++ v).takeWhile isDigit = ds ∧ (ds ++ v).dropWhile isDigit = v := by
  rw [List.takeWhile_append_of_pos hds, List.dropWhile_append_of_pos hds]
  cases v with
  | nil => simp
  | cons c v => simp [show isDigit c = false by simpa using hv]

def nameBefore (start part : Byte → Bool) (d : Byte) (w : Bytes) : Option Bytes :=
  if w.head? = some d then some []
  else if w.head?.any start && (w.dropWhile part).head? == some d then some (w.takeWhile part)
  else none

theorem nameBefore_eq_some_iff {start part : Byte → Bool} {d : Byte} {t : Bytes}
    (hd : part d = false) (hstart : ∀ c, start c → part c) :
    nameBefore start part d w = some t ↔ (t.head?.all start ∧ ∀ c ∈ t, part c) ∧ ∃ v,
    w = t ++ d :: v := by
  constructor
  · intro h
    unfold nameBefore at h
    split_ifs at h with hhead hname
    · obtain ⟨v, rfl⟩ := List.head?_eq_some_iff.mp hhead
      obtain rfl := Option.some.inj h
      exact ⟨by simp, v, rfl⟩
    · obtain rfl := Option.some.inj h
      obtain ⟨hfirst, hend⟩ := by simpa using hname
      obtain ⟨v, hv⟩ := List.head?_eq_some_iff.mp hend
      refine ⟨⟨?_, fun c hc => List.mem_takeWhile_imp hc⟩,
        v, by rw [← hv, List.takeWhile_append_dropWhile]⟩
      cases w with
      | nil => rfl
      | cons c w =>
        have hc : start c := by simpa using hfirst
        simp [hstart c hc, hc]
  · rintro ⟨⟨hhead, hall⟩, v, rfl⟩
    cases t with
    | nil => simp [nameBefore]
    | cons c t =>
      have hne : c ≠ d := by
        rintro rfl
        simpa [hd] using hall c List.mem_cons_self
      have hc : start c := by simpa using hhead
      rw [nameBefore, List.dropWhile_append_of_pos hall, List.takeWhile_append_of_pos hall]
      simp [hne, hc, hd]

theorem forall_byte {p : Byte → Prop} (h : ∀ n : Fin 256, p (UInt8.ofNat n.val)) (c : Byte) :
    p c := by
  have hc := h ⟨c.toNat, c.toNat_lt⟩
  simpa using hc

/-- Position of the first occurrence, as Go's `strings.Index`. -/
def index (sub : Bytes) : Bytes → Option Nat
  | [] => if sub = [] then some 0 else none
  | c :: w => if sub.isPrefixOf (c :: w) then some 0 else (index sub w).map (· + 1)

theorem index_of_isPrefix (hne : sub ≠ []) (h : sub <+: w) : index sub w = some 0 := by
  cases w with
  | nil => exact absurd (List.prefix_nil.mp h) hne
  | cons c w => simp [index, List.isPrefixOf_iff_prefix.mpr h]

theorem index_cons_of_not_isPrefix {c : Byte} (h : ¬ sub <+: c :: w) :
    index sub (c :: w) = (index sub w).map (· + 1) := by
  simp [index, List.isPrefixOf_iff_prefix, h]

theorem index_le (h : index sub w = some k) : k + sub.length ≤ w.length := by
  induction w generalizing k with
  | nil =>
    simp only [index] at h
    split_ifs at h with hs
    simp [hs, ← Option.some.inj h]
  | cons c w ih =>
    simp only [index] at h
    split_ifs at h with hp
    · have hle := (List.isPrefixOf_iff_prefix.mp hp).length_le
      simpa [← Option.some.inj h] using hle
    · obtain ⟨k', hk', rfl⟩ := Option.map_eq_some_iff.mp h
      have := ih hk'
      simp only [List.length_cons]
      omega

theorem index_append_right (v : Bytes) (h : index sub w = some k) :
    index sub (w ++ v) = some k := by
  induction w generalizing k with
  | nil =>
    simp only [index] at h
    split_ifs at h with hs
    subst hs
    cases v <;> simpa [index] using h
  | cons c w ih =>
    by_cases hp : sub <+: c :: w
    · have hlonger : sub <+: c :: (w ++ v) := hp.trans (List.prefix_append (c :: w) v)
      rw [index, if_pos (List.isPrefixOf_iff_prefix.mpr hp)] at h
      rw [List.cons_append, index, if_pos (List.isPrefixOf_iff_prefix.mpr hlonger), h]
    · rw [index_cons_of_not_isPrefix hp] at h
      obtain ⟨k', hk', rfl⟩ := Option.map_eq_some_iff.mp h
      have hle := index_le hk'
      have hlonger : ¬ sub <+: c :: (w ++ v) := by
        intro hpre
        exact hp (List.prefix_of_prefix_length_le hpre (List.prefix_append (c :: w) v)
          (by simp; omega))
      rw [List.cons_append, index_cons_of_not_isPrefix hlonger, ih hk', Option.map_some]

theorem index_append {d : Byte} {x : Bytes} (hx : d ∉ x) (t v : Bytes) :
    index (d :: t) (x ++ v) = (index (d :: t) v).map (· + x.length) := by
  induction x with
  | nil => simp
  | cons c x ih =>
    obtain ⟨hc, hx⟩ := by simpa using hx
    have hp : ¬ d :: t <+: c :: (x ++ v) := by simp [List.cons_prefix_cons, hc]
    rw [List.cons_append, index_cons_of_not_isPrefix hp, ih hx]
    simp [Option.map_map, Function.comp_def, Nat.add_assoc]

def indexByte (b : Byte) : Bytes → Option Nat
  | [] => none
  | c :: w => if c = b then some 0 else (indexByte b w).map (· + 1)

theorem indexByte_eq_none {b : Byte} (h : indexByte b v = none) : b ∉ v := by
  induction v with
  | nil => simp
  | cons c v ih =>
    rw [indexByte] at h
    split_ifs at h with hc
    simpa [Ne.symm hc] using ih (by simpa using h)

theorem indexByte_eq_some_iff {b : Byte} {i : Nat} :
    indexByte b v = some i ↔ ∃ u w, v = u ++ b :: w ∧ b ∉ u ∧ u.length = i := by
  constructor
  · intro h
    induction v generalizing i with
    | nil => cases h
    | cons c v ih =>
      rw [indexByte] at h
      split_ifs at h with hc
      · obtain rfl := Option.some.inj h
        exact ⟨[], v, by simp [hc], by simp, rfl⟩
      · obtain ⟨j, hj, rfl⟩ := Option.map_eq_some_iff.mp h
        obtain ⟨u, w, hv, hb, hlen⟩ := ih hj
        exact ⟨c :: u, w, by simp [hv], by simpa [Ne.symm hc] using hb, by simp [hlen]⟩
  · rintro ⟨u, w, rfl, hb, rfl⟩
    induction u with
    | nil => simp [indexByte]
    | cons c u ih =>
      obtain ⟨hc, hu⟩ : b ≠ c ∧ b ∉ u := by simpa using hb
      simp [indexByte, Ne.symm hc, ih hu]

end PgMux
