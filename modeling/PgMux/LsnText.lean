import Mathlib.Data.Nat.Digits.Defs
import PgMux.Wire

/-!
# Log sequence numbers as text

Two numbers of 32 bits in hexadecimal digits, with a slash between them.
-/

namespace PgMux.LsnText

open Wire

def upperDigit (d : Nat) : Byte := if d < 10 then (48 + d).toUInt8 else (55 + d).toUInt8

/-- The verb %X. -/
def hexUpper (n : Nat) : Bytes := if n = 0 then [48] else (Nat.digits 16 n).reverse.map upperDigit

def string (l : UInt64) : Bytes :=
  hexUpper (l >>> 32).toUInt32.toNat ++ slash :: hexUpper l.toUInt32.toNat

def high (s : Bytes) : Bytes := s.takeWhile (· ≠ slash)

def low (s : Bytes) : Bytes := (s.dropWhile (· ≠ slash)).tail

/-- Upper case, without leading zeros. -/
def normal (half : Bytes) : Bytes :=
  let digits := (half.map upperByte).dropWhile (· = 48)
  if digits = [] then [48] else digits

def digitValue (c : Byte) : Nat := (hexDigit c).getD 0

def hexNumber (half : Bytes) : Nat := (half.map digitValue).foldl (fun k d => 16 * k + d) 0

/-! ## Halves -/

variable {s w : Bytes} {n : Nat}

theorem mapM_hexDigit {ds : List Nat} :
    w.mapM hexDigit = some ds ↔ (∀ c ∈ w, (hexDigit c).isSome) ∧ w.map digitValue = ds := by
  induction w generalizing ds with
  | nil => simp
  | cons c w ih =>
    cases hc : hexDigit c with
    | none => simp [hc]
    | some d => simp [hc, ih, digitValue, Option.bind_eq_some_iff, and_assoc]

theorem parseHex_iff :
    parseHex w = some n ↔ (w ≠ [] ∧ ∀ c ∈ w, (hexDigit c).isSome) ∧ hexNumber w = n ∧
    n < 2 ^ 32 := by
  simp only [parseHex, Option.bind_eq_bind, Option.bind_eq_some_iff, mapM_hexDigit]
  constructor
  · rintro ⟨ds, ⟨hall, rfl⟩, h⟩
    split_ifs at h with hbad
    obtain ⟨hne, hlt⟩ := not_or.mp hbad
    obtain rfl := Option.some.inj h
    exact ⟨⟨hne, hall⟩, rfl, Nat.not_le.mp hlt⟩
  · rintro ⟨⟨hne, hall⟩, rfl, hlt⟩
    exact ⟨_, ⟨hall, rfl⟩, if_neg (not_or.mpr ⟨hne, Nat.not_le.mpr hlt⟩)⟩

theorem halves_append {u w : Bytes} (hu : slash ∉ u) :
    high (u ++ slash :: w) = u ∧ low (u ++ slash :: w) = w := by
  have hall : ∀ c ∈ u, decide (c ≠ slash) = true := fun c hc => by
    simp only [decide_eq_true_eq]
    rintro rfl
    exact hu hc
  rw [high, low, List.takeWhile_append_of_pos hall, List.dropWhile_append_of_pos hall]
  simp

theorem parseLSN_iff : parseLSN s = some n ↔ s = high s ++ slash :: low s ∧
    ∃ h l, parseHex (high s) = some h ∧ parseHex (low s) = some l ∧ h * 2 ^ 32 + l = n := by
  simp only [parseLSN, Option.bind_eq_bind, Option.bind_eq_some_iff, indexByte_eq_some_iff]
  constructor
  · rintro ⟨k, ⟨u, w, rfl, hu, rfl⟩, h, hh, l, hl, hn⟩
    obtain ⟨hhigh, hlow⟩ := halves_append (w := w) hu
    rw [hhigh, hlow]
    exact ⟨rfl, h, l, by simpa using hh, by simpa using hl, by simpa using hn⟩
  · rintro ⟨hs, h, l, hh, hl, rfl⟩
    have hnot : slash ∉ high s := fun hmem => by simpa using List.mem_takeWhile_imp hmem
    generalize high s = u at hs hh hnot
    generalize low s = w at hs hl
    subst hs
    exact ⟨u.length, ⟨u, w, rfl, hnot, rfl⟩, h, by simpa using hh, l, by simpa using hl, rfl⟩

/-! ## Digits -/

theorem digit_cases {c : Byte} (h : (hexDigit c).isSome) :
    digitValue c < 16 ∧ upperByte c = upperDigit (digitValue c) ∧ c ≠ slash ∧
    (upperByte c = 48 ↔ digitValue c = 0) := by
  revert c
  apply forall_byte
  decide +kernel

theorem upperDigit_hex {d : Nat} (h : d < 16) :
    (hexDigit (upperDigit d)).isSome ∧ digitValue (upperDigit d) = d := by
  revert d
  decide

theorem foldl_reverse_eq (ds : List Nat) :
    ds.foldl (fun k d => 16 * k + d) 0 = Nat.ofDigits 16 ds.reverse := by
  rw [Nat.ofDigits_eq_foldr, List.foldr_reverse]
  simp [Nat.add_comm]

theorem hexUpper_hex (n : Nat) :
    hexUpper n ≠ [] ∧ (∀ c ∈ hexUpper n, (hexDigit c).isSome) ∧ hexNumber (hexUpper n) = n := by
  by_cases hn : n = 0
  · subst hn
    decide
  · have hlt : ∀ d ∈ (Nat.digits 16 n).reverse, d < 16 := fun d hd =>
      Nat.digits_lt_base (by decide) (List.mem_reverse.mp hd)
    rw [hexUpper, if_neg hn]
    refine ⟨by simpa [Nat.digits_eq_nil_iff_eq_zero] using hn, fun c hc => ?_, ?_⟩
    · obtain ⟨d, hd, rfl⟩ := List.mem_map.mp hc
      exact (upperDigit_hex (hlt d hd)).1
    · have hsame : ((Nat.digits 16 n).reverse.map upperDigit).map digitValue =
          (Nat.digits 16 n).reverse := by
        rw [List.map_map]
        exact (List.map_congr_left fun d hd => (upperDigit_hex (hlt d hd)).2).trans (List.map_id _)
      rw [hexNumber, hsame, foldl_reverse_eq, List.reverse_reverse, Nat.ofDigits_digits]

theorem parseHex_hexUpper (h : n < 2 ^ 32) : parseHex (hexUpper n) = some n := by
  obtain ⟨hne, hall, hn⟩ := hexUpper_hex n
  exact parseHex_iff.mpr ⟨⟨hne, hall⟩, hn, h⟩

theorem foldl_dropWhile (ds : List Nat) :
    (ds.dropWhile (· = 0)).foldl (fun k d => 16 * k + d) 0 =
      ds.foldl (fun k d => 16 * k + d) 0 := by
  induction ds with
  | nil => rfl
  | cons d ds ih =>
    by_cases hd : d = 0
    · simpa [hd] using ih
    · simp [hd]

theorem map_upperByte (h : ∀ c ∈ w, (hexDigit c).isSome) :
    w.map upperByte = (w.map digitValue).map upperDigit := by
  rw [List.map_map]
  exact List.map_congr_left fun c hc => (digit_cases (h c hc)).2.1

theorem dropWhile_upperByte (h : ∀ c ∈ w, (hexDigit c).isSome) :
    (w.map upperByte).dropWhile (· = 48) =
      ((w.map digitValue).dropWhile (· = 0)).map upperDigit := by
  induction w with
  | nil => rfl
  | cons c w ih =>
    obtain ⟨hc, hw⟩ := List.forall_mem_cons.mp h
    have hzero := (digit_cases hc).2.2.2
    by_cases hd : digitValue c = 0
    · simpa [hd, hzero.mpr hd] using ih hw
    · have hmap := map_upperByte h
      rw [List.map_cons, List.map_cons] at hmap ⊢
      rw [List.dropWhile_cons_of_neg (by simpa [hzero] using hd),
        List.dropWhile_cons_of_neg (by simpa using hd), hmap]

theorem hexUpper_ofDigits {d : Nat} {ds : List Nat} (hlt : ∀ e ∈ d :: ds, e < 16) (hd : d ≠ 0) :
    hexUpper (Nat.ofDigits 16 (d :: ds).reverse) = (d :: ds).map upperDigit := by
  have hdigits : Nat.digits 16 (Nat.ofDigits 16 (d :: ds).reverse) = (d :: ds).reverse :=
    Nat.digits_ofDigits 16 (by decide) _ (fun e he => hlt e (List.mem_reverse.mp he))
      (by simpa using hd)
  have hne : Nat.ofDigits 16 (d :: ds).reverse ≠ 0 := fun hzero => by
    rw [hzero] at hdigits
    simp at hdigits
  rw [hexUpper, if_neg hne, hdigits, List.reverse_reverse]

/-- Only the number of a half counts, not its spelling. -/
theorem hexUpper_hexNumber (h : ∀ c ∈ w, (hexDigit c).isSome) :
    hexUpper (hexNumber w) = normal w := by
  have hlt : ∀ d ∈ (w.map digitValue).dropWhile (· = 0), d < 16 := fun d hd => by
    obtain ⟨c, hc, rfl⟩ := List.mem_map.mp ((List.dropWhile_sublist _).subset hd)
    exact (digit_cases (h c hc)).1
  have hhead := List.head?_dropWhile_not (fun d => decide (d = 0)) (w.map digitValue)
  rw [normal, dropWhile_upperByte h, hexNumber, ← foldl_dropWhile, foldl_reverse_eq]
  generalize (w.map digitValue).dropWhile (· = 0) = ds at hlt hhead
  cases ds with
  | nil => rfl
  | cons d ds =>
    rw [hexUpper_ofDigits hlt (by simpa using hhead), if_neg (by simp)]

/-! ## Numbers and texts -/

theorem string_eq (l : UInt64) :
    string l = hexUpper (l.toNat / 2 ^ 32) ++ slash :: hexUpper (l.toNat % 2 ^ 32) := by
  have hhigh : (l >>> 32).toUInt32.toNat = l.toNat / 2 ^ 32 := by
    have := l.toNat_lt
    rw [UInt64.toNat_toUInt32, UInt64.toNat_shiftRight, show (32 : UInt64).toNat % 64 = 32 from rfl,
      Nat.shiftRight_eq_div_pow]
    omega
  rw [string, hhigh]
  simp

theorem parseLSN_string (l : UInt64) : parseLSN (string l) = some l.toNat := by
  rw [string_eq]
  have hhex := (hexUpper_hex (l.toNat / 2 ^ 32)).2.1
  have hnot : slash ∉ hexUpper (l.toNat / 2 ^ 32) := fun hmem =>
    (digit_cases (hhex _ hmem)).2.2.1 rfl
  obtain ⟨hhigh, hlow⟩ := halves_append (w := hexUpper (l.toNat % 2 ^ 32)) hnot
  rw [parseLSN_iff, hhigh, hlow]
  refine ⟨rfl, l.toNat / 2 ^ 32, l.toNat % 2 ^ 32, ?_, ?_, by omega⟩
  · apply parseHex_hexUpper
    have := l.toNat_lt
    omega
  · apply parseHex_hexUpper
    omega

theorem of_parseLSN (h : parseLSN s = some n) : s = high s ++ slash :: low s ∧
    n = hexNumber (high s) * 2 ^ 32 + hexNumber (low s) ∧ hexNumber (high s) < 2 ^ 32 ∧
    hexNumber (low s) < 2 ^ 32 ∧
      hexUpper (hexNumber (high s)) = normal (high s) ∧
      hexUpper (hexNumber (low s)) = normal (low s) := by
  obtain ⟨hs, h, l, hh, hl, rfl⟩ := parseLSN_iff.mp h
  obtain ⟨⟨-, hhigh⟩, rfl, hlt⟩ := parseHex_iff.mp hh
  obtain ⟨⟨-, hlow⟩, rfl, hlt'⟩ := parseHex_iff.mp hl
  exact ⟨hs, rfl, hlt, hlt', hexUpper_hexNumber hhigh, hexUpper_hexNumber hlow⟩

/-- Printed numbers are read back, accepted texts are printed in normal form, and numbers order
texts by their halves. -/
theorem lsn_text :
    (∀ l : UInt64, parseLSN (string l) = some l.toNat) ∧
    (∀ s l, parseLSN s = some l → s = high s ++ slash :: low s ∧ l < 2 ^ 64 ∧
      string (.ofNat l) = normal (high s) ++ slash :: normal (low s)) ∧
    ∀ s t l m, parseLSN s = some l → parseLSN t = some m →
      (l < m ↔ hexNumber (high s) < hexNumber (high t) ∨
        hexNumber (high s) = hexNumber (high t) ∧ hexNumber (low s) < hexNumber (low t)) := by
  refine ⟨parseLSN_string, fun s l h => ?_, fun s t l m hs ht => ?_⟩
  · obtain ⟨hs, rfl, hhigh, hlow, hnormal, hnormal'⟩ := of_parseLSN h
    have hlt : hexNumber (high s) * 2 ^ 32 + hexNumber (low s) < 2 ^ 64 := by omega
    refine ⟨hs, hlt, ?_⟩
    rw [string_eq, UInt64.toNat_ofNat_of_lt' hlt, ← hnormal, ← hnormal']
    congr 3 <;> omega
  · obtain ⟨-, rfl, -, hlow, -⟩ := of_parseLSN hs
    obtain ⟨-, rfl, -, hlow', -⟩ := of_parseLSN ht
    omega

theorem lsn_text_zeros :
    string (.ofNat 0x16B3748) = ascii "0/16B3748" ∧
    (0x16B3748 < 0x2000000000 ↔ hexNumber (ascii "00") < hexNumber (ascii "20") ∨
      hexNumber (ascii "00") = hexNumber (ascii "20") ∧
      hexNumber (ascii "016b3748") < hexNumber (ascii "0")) := by
  have hlow : parseLSN (ascii "00/016b3748") = some 0x16B3748 := by decide
  have hhigh : parseLSN (ascii "20/0") = some 0x2000000000 := by decide
  obtain ⟨-, hprint, horder⟩ := lsn_text
  exact ⟨(hprint _ _ hlow).2.2, horder _ _ _ _ hlow hhigh⟩

end PgMux.LsnText
