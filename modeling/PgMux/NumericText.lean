import PgMux.LiteralTokens

/-!
# Numeric texts

The texts that isValidNumeric accepts, as a grammar.
-/

namespace PgMux.NumericText

open Literal LiteralTokens PgLexer

def Digits (s : Bytes) : Prop := ∀ c ∈ s, isDigit c

def Sign (s : Bytes) : Prop := s = [] ∨ s = [plus] ∨ s = [minus]

def Significand (s : Bytes) : Prop :=
  (∃ whole, whole ≠ [] ∧ Digits whole ∧
    (s = whole ∨ ∃ fraction, Digits fraction ∧ s = whole ++ dot :: fraction)) ∨
    ∃ fraction, fraction ≠ [] ∧ Digits fraction ∧ s = dot :: fraction

def Exponent (s : Bytes) : Prop :=
  s = [] ∨ ∃ mark sign digits, (mark = 101 ∨ mark = 69) ∧ Sign sign ∧
    (digits ≠ [] ∧ Digits digits) ∧ s = mark :: (sign ++ digits)

def Numeral (s : Bytes) : Prop :=
  ∃ sign text, Sign sign ∧ (∃ significand exponent, Significand significand ∧ Exponent exponent ∧
    text = significand ++ exponent) ∧ s = sign ++ text

variable {s w e : Bytes}

theorem signed_iff {P : Bytes → Prop} (hP : ∀ c w, P (c :: w) → ¬ isSign c) :
    (∃ sign w, Sign sign ∧ P w ∧ s = sign ++ w) ↔ P (splitSign s).2 := by
  constructor
  · rintro ⟨sign, text, hsign, hw, rfl⟩
    rcases hsign with rfl | rfl | rfl
    · obtain ⟨c, w, rfl, hc⟩ | hplain := sign_cases text
      · exact absurd hc (hP c w hw)
      · rwa [List.nil_append, hplain]
    · exact hw
    · exact hw
  · intro h
    obtain ⟨c, w, rfl, hc⟩ | hplain := sign_cases s
    · rw [splitSign_of_isSign hc] at h
      have hsign := of_isSign hc
      exact ⟨[c], w, by simpa [Sign] using hsign, h, rfl⟩
    · rw [hplain] at h
      exact ⟨[], s, .inl rfl, h, rfl⟩

theorem not_isDigit_of_isSign {c : Byte} (h : isSign c) : isDigit c = false ∧ c ≠ dot := by
  obtain rfl | rfl := of_isSign h
  · decide
  · decide

theorem exponent_iff : Exponent e ↔ isExponentPart e := by
  cases e with
  | nil => simp [Exponent, isExponentPart]
  | cons c v =>
    have hsigned := signed_iff (s := v) (P := fun ds => ds ≠ [] ∧ Digits ds) fun c w h hc => by
      simpa [h.2 c List.mem_cons_self] using (not_isDigit_of_isSign hc).1
    have hpart : isExponentPart (c :: v) ↔ (c = 101 ∨ c = 69) ∧ (splitSign v).2 ≠ [] ∧
        Digits (splitSign v).2 := by
      simp [isExponentPart, isExponentMark, Digits, and_assoc]
    rw [hpart, ← hsigned]
    constructor
    · rintro (hnil | ⟨mark, sign, digits, hmark, hsign, hdigits, hv⟩)
      · exact absurd hnil (List.cons_ne_nil c v)
      · obtain ⟨rfl, rfl⟩ := List.cons.inj hv
        exact ⟨hmark, sign, digits, hsign, hdigits, rfl⟩
    · rintro ⟨hmark, sign, digits, hsign, hdigits, rfl⟩
      exact .inr ⟨c, sign, digits, hmark, hsign, hdigits, rfl⟩

theorem head_of_exponent (h : isExponentPart e) :
    e.head?.any isDigit = false ∧ e.head? ≠ some dot := by
  cases e with
  | nil => simp
  | cons c v =>
    obtain ⟨⟨hc, -⟩, -⟩ := by simpa [isExponentPart] using h
    obtain ⟨hdigit, -, hdot⟩ := of_isExponentMark hc
    exact ⟨by simpa using hdigit, by simpa using hdot⟩

theorem numericBody_iff :
    numericBody w ↔ ∃ significand exponent, Significand significand ∧ Exponent exponent ∧
    w = significand ++ exponent := by
  constructor
  · intro h
    obtain ⟨whole, e, hwhole, he, ⟨hne, rfl⟩ | ⟨fraction, hfraction, hne, rfl⟩⟩ :=
      numericBody_cases h
    · exact ⟨whole, e, .inl ⟨whole, hne, hwhole, .inl rfl⟩, exponent_iff.mpr he, rfl⟩
    · refine ⟨whole ++ dot :: fraction, e, ?_, exponent_iff.mpr he, by simp⟩
      by_cases hnil : whole = []
      · subst hnil
        exact .inr ⟨fraction, hne, hfraction, rfl⟩
      · exact .inl ⟨whole, hnil, hwhole, .inr ⟨fraction, hfraction, rfl⟩⟩
  · rintro ⟨significand, e, hs, he, rfl⟩
    rw [exponent_iff] at he
    obtain ⟨hdigit, hdot⟩ := head_of_exponent he
    have hpoint (whole : Bytes) {fraction : Bytes} (hwhole : Digits whole)
        (hfraction : Digits fraction)
        (hsome : whole ≠ [] ∨ fraction ≠ []) : numericBody (whole ++ dot :: (fraction ++ e)) := by
      obtain ⟨htake, hdrop⟩ := takeWhile_isDigit_append hfraction hdigit
      rw [numericBody_append hwhole rfl]
      simpa [htake, hdrop, he] using hsome
    obtain ⟨whole, hne, hwhole, rfl | ⟨fraction, hfraction, rfl⟩⟩ | ⟨fraction, hne, hfraction,
      rfl⟩ := hs
    · rw [numericBody_append hwhole hdigit, if_neg hdot]
      exact ⟨hne, he⟩
    · simpa using hpoint whole hwhole hfraction (.inl hne)
    · simpa using hpoint [] (by simp [Digits]) hfraction (.inr hne)

/-- The words are compared without regard to case. -/
theorem isValidNumeric_iff (s : Bytes) :
    isValidNumeric s ↔ s.map lowerByte ∈ [ascii "nan", ascii "infinity", ascii "-infinity"] ∨
    Numeral s := by
  have hnumeral : Numeral s ↔ numericBody (splitSign s).2 := by
    rw [← signed_iff (s := s) (P := fun w => numericBody w)]
    · simp only [Numeral, numericBody_iff]
    · intro c w h hc
      obtain ⟨hdigit, hdot⟩ := not_isDigit_of_isSign hc
      rw [← List.nil_append (c :: w), numericBody_append (by simp) (by simpa using hdigit)] at h
      simp [hdot] at h
  rw [hnumeral, isValidNumeric]
  simp only [List.mem_cons, List.not_mem_nil, or_false]
  split_ifs with hword
  · simp [hword]
  · simp [hword]

end PgMux.NumericText
