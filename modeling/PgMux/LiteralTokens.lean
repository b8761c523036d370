import PgMux.Literal
import PgMux.PgSeams

/-!
# The tokens of literals

What PostgreSQL reads where a literal of `ParamToLiteral` stands. A number that a validator lets
through is followed byte by byte: the lexer is in its mantissa or in its exponent and emits nothing
before its end.
-/

namespace PgMux.LiteralTokens

open Literal PgLexer

/-! ## Strings -/

theorem outputFrom_str_escaped (acc s r : Bytes) :
    lexer.outputFrom (.str .plain acc)
        (s.flatMap (fun c => if c = quote then [quote, quote] else if c = 0 then []
          else [c]) ++ quote :: r) =
      lexer.outputFrom (.strQuote .plain (acc ++ s.filter (· ≠ 0))) r := by
  induction s generalizing acc with
  | nil => simp [Transducer.outputFrom_cons, step]
  | cons c s ih =>
    by_cases hq : c = quote
    · subst hq
      have hpair := ih (acc ++ [quote])
      have hne : quote ≠ 0 := by decide
      simpa [Transducer.outputFrom_cons, step, doublesQuote, hne] using hpair
    by_cases hz : c = 0
    · subst hz
      simpa [hq] using ih acc
    · have hplain := ih (acc ++ [c])
      simpa [Transducer.outputFrom_cons, step, hq, hz] using hplain

theorem after_escapeStringLiteral (s r : Bytes) :
    lex (escapeStringLiteral s ++ r) =
      lexer.outputFrom (.strQuote .plain (s.filter (· ≠ 0))) r := by
  have hbody := outputFrom_str_escaped [] s r
  have hfirst : first quote = ([], .str .plain []) := by decide
  simpa [lex, Transducer.output, escapeStringLiteral, Transducer.outputFrom_cons, step,
    hfirst] using hbody

theorem lex_literal (s : Bytes) :
    lex (escapeStringLiteral s) = [.str .plain (s.filter (· ≠ 0))] := by
  have hafter := after_escapeStringLiteral s []
  rw [List.append_nil] at hafter
  exact hafter

/-- A string literal is one constant, and what stands behind it is read as it is alone. -/
theorem lex_escapeStringLiteral (s r : Bytes) (hquote : r.head? ≠ some quote)
    (hgap : gapContinues (.space false) r = false) :
    lex (escapeStringLiteral s ++ r) = .str .plain (s.filter (· ≠ 0)) :: lex r := by
  have htouch : touches (.strQuote .plain (s.filter (· ≠ 0))) r = false := by
    cases r with
    | nil => rfl
    | cons c r =>
      have hc : c ≠ quote := by simpa using hquote
      simp [touches, hc, hgap]
  rw [after_escapeStringLiteral]
  exact separated_of_not_touches htouch

theorem lex_escapeStringLiteral_quotes :
    lex (escapeStringLiteral (ascii "a'';" ++ [0] ++ ascii "--'") ++ ascii " -- 'x'") =
      .str .plain (ascii "a'';--'") :: lex (ascii " -- 'x'") :=
  lex_escapeStringLiteral _ _ (by decide) (by decide)

/-! ## Numbers -/

def isDecimalByte (c : Byte) : Bool := isDigit c || c == underscore

inductive Numeral (t : Bytes) : Tok → Prop where
  | integer (h : t.all isDecimalByte) : Numeral t (.integer t)
  | number : Numeral t (.number t)

inductive InMantissa : Bytes → (sawDot sawDigit saw under : Bool) → State → Prop where
  | start : InMantissa [] false false false false .start
  | point : InMantissa [PgMux.dot] true false false false .dot
  | digit {t : Bytes} (h : t.all isDecimalByte) :
      InMantissa t false true true false (.integer t .digit)
  | separator {t : Bytes} (h : t.all isDecimalByte) :
      InMantissa t false true false true (.integer t .separator)
  | numDot {t : Bytes} : InMantissa (t ++ [PgMux.dot]) true true false false (.numDot t)
  | fracDigit {t : Bytes} : InMantissa t true true true false (.frac t .digit)
  | fracSeparator {t : Bytes} : InMantissa t true true false true (.frac t .separator)

inductive InExponent (t : Bytes) : (saw under : Bool) → State → Prop where
  | digit (signed : Bool) : InExponent t true false (.exp signed t .digit)
  | separator (signed : Bool) : InExponent t false true (.exp signed t .separator)

section

variable {t w : Bytes} {c : Byte} {s : State} {sawDot sawDigit saw under : Bool}

theorem first_of_isDigit (h : isDigit c) : first c = ([], .integer [c] .digit) := by
  have hother : isSpace c = false ∧ isIdentStart c = false := by
    grind [isSpace, isIdentStart, isDigit, isLetter, isUpper, isLower, isHighBit]
  simp [first, h, hother]

theorem InMantissa.step_digit (h : InMantissa t sawDot sawDigit saw under s) (hc : isDigit c) :
    ∃ s', step s c = ([], s') ∧ InMantissa (t ++ [c]) sawDot true true false s' := by
  cases h with
  | start => exact ⟨_, first_of_isDigit hc, .digit (by simp [isDecimalByte, hc])⟩
  | point => exact ⟨.frac [PgMux.dot, c] .digit, by simp [step, hc], .fracDigit⟩
  | digit h =>
    exact ⟨_, by simp [step, integerStep, hc], .digit (by simpa [isDecimalByte, hc] using h)⟩
  | separator h => exact ⟨_, by simp [step, hc], .digit (by simpa [isDecimalByte, hc] using h)⟩
  | numDot =>
    refine ⟨_, by simp [step, numDotStep, hc]; rfl, ?_⟩
    rw [List.append_assoc]
    exact .fracDigit
  | fracDigit => exact ⟨_, by simp [step, fracStep, hc], .fracDigit⟩
  | fracSeparator => exact ⟨_, by simp [step, hc], .fracDigit⟩

theorem InMantissa.step_underscore (h : InMantissa t sawDot sawDigit true under s) :
    ∃ s', step s underscore = ([], s') ∧
    InMantissa (t ++ [underscore]) sawDot sawDigit false true s' := by
  have hu : isDigit underscore = false := by decide
  cases h with
  | digit h =>
    exact ⟨_, by simp [step, integerStep, hu], .separator (by simpa [isDecimalByte] using h)⟩
  | fracDigit => exact ⟨_, by simp [step, fracStep, hu], .fracSeparator⟩

theorem InMantissa.step_dot (h : InMantissa t false sawDigit saw false s) :
    ∃ s', step s PgMux.dot = ([], s') ∧
    InMantissa (t ++ [PgMux.dot]) true sawDigit false false s' := by
  have hd : isDigit PgMux.dot = false ∧ PgMux.dot ≠ underscore := by decide
  cases h with
  | start => exact ⟨.dot, by decide, .point⟩
  | digit h => exact ⟨_, by simp [step, integerStep, hd], .numDot⟩

theorem of_isExponentMark (h : isExponentMark c) :
    isDigit c = false ∧ c ≠ underscore ∧ c ≠ PgMux.dot := by
  grind [isDigit, isExponentMark]

theorem isExponentMark_iff : isExponentMark c ↔ lowerByte c = 101 := by
  grind [isUpper, isExponentMark, lowerByte]

theorem InMantissa.step_exponentMark (h : InMantissa t sawDot true saw false s)
    (hc : lowerByte c = 101) : step s c = ([], .expStart (t ++ [c])) := by
  have he : isExponentMark c := isExponentMark_iff.mpr hc
  obtain ⟨hd, hu, hdot⟩ := of_isExponentMark he
  cases h with
  | digit h => simp [step, integerStep, hd, hu, hdot, he]
  | numDot => simp [step, numDotStep, hd, hdot, he]
  | fracDigit => simp [step, fracStep, hd, hu, he]

theorem InMantissa.finish_eq (h : InMantissa t sawDot true saw false s) :
    ∃ tok, finish s = [tok] ∧ Numeral t tok := by
  cases h with
  | digit h => exact ⟨_, rfl, .integer h⟩
  | numDot | fracDigit => exact ⟨_, rfl, .number⟩

theorem outputFrom_inExponent {e : Nat} (h : InExponent t saw under s)
    (hread : (readExponent e w).isSome) (hsep : underscoresBetweenDigits false saw under w) :
    lexer.outputFrom s w = [.number (t ++ w)] := by
  induction w generalizing e t saw under s with
  | nil =>
    cases h with
    | digit signed => simp [finish]
    | separator signed => simp [underscoresBetweenDigits] at hsep
  | cons c w ih =>
    have hnext : ∀ saw under s', step s c = ([], s') → InExponent (t ++ [c]) saw under s' →
        (∃ e, (readExponent e w).isSome) → underscoresBetweenDigits false saw under w →
        lexer.outputFrom s (c :: w) = [.number (t ++ c :: w)] := by
      rintro saw under s' hstep hs' ⟨e, he⟩ hsep
      simpa [Transducer.outputFrom_cons, hstep] using ih hs' he hsep
    have hdu : isDigit underscore = false := by decide
    by_cases hd : isDigit c
    · have hcu : c ≠ underscore := by rintro rfl; simp [hdu] at hd
      simp only [readExponent, hcu, ↓reduceIte, hd] at hread
      simp only [underscoresBetweenDigits, hd, Bool.true_or, ↓reduceIte] at hsep
      cases h with
      | digit signed =>
        exact hnext _ _ _ (by simp [step, expStep, hd]) (.digit signed) ⟨_, hread⟩ hsep
      | separator signed => exact hnext _ _ _ (by simp [step, hd]) (.digit signed) ⟨_, hread⟩ hsep
    · by_cases hu : c = underscore
      · subst hu
        simp only [underscoresBetweenDigits, hd, Bool.false_and, Bool.or_self, Bool.false_eq_true,
          ↓reduceIte, beq_self_eq_true, Bool.and_eq_true] at hsep
        cases h with
        | digit signed =>
          exact hnext _ _ _ (by simp [step, expStep, hd]) (.separator signed)
            ⟨_, by simpa [readExponent] using hread⟩
            hsep.2
        | separator signed => simp at hsep
      · simp [readExponent, hd, hu] at hread

end

theorem splitSign_of_isSign {c : Byte} (h : isSign c) (w : Bytes) : (splitSign (c :: w)).2 = w := by
  obtain rfl | rfl := of_isSign h
  · rfl
  · rfl

theorem sign_cases (text : Bytes) :
    (∃ c w, text = c :: w ∧ isSign c) ∨ splitSign text = (false, text) := by
  unfold splitSign
  split
  · exact .inl ⟨_, _, rfl, rfl⟩
  · exact .inl ⟨_, _, rfl, rfl⟩
  · exact .inr rfl

theorem of_exponentOf {c : Byte} {w : Bytes} (h : (exponentOf false (c :: w)).isSome) :
    lowerByte c = 101 ∧ ∃ d ds e, (splitSign w).2 = d :: ds ∧ isDigit d ∧
    (readExponent e ds).isSome := by
  simp only [exponentOf, Bool.false_eq_true, ↓reduceIte] at h
  split_ifs at h with hc
  · refine ⟨hc, ?_⟩
    cases hds : (splitSign w).2 with
    | nil => simp [hds] at h
    | cons d ds =>
      simp only [hds] at h
      split_ifs at h with hd
      · have hu : d ≠ underscore := by rintro rfl; revert hd; decide
        exact ⟨d, ds, d.toNat - 48, rfl, hd, by simpa [readExponent, hu, hd] using h⟩
      · simp at h
  · simp at h

section

variable {t w digits : Bytes} {s : State} {sawDot sawDigit saw under : Bool}

theorem outputFrom_firstDigit {d : Byte} {e : Nat} {signed : Bool}
    (hstep : step s d = ([], .exp signed (t ++ [d]) .digit)) (hd : isDigit d)
    (hread : (readExponent e w).isSome) (hsep : underscoresBetweenDigits false saw under (d :: w)) :
    lexer.outputFrom s (d :: w) = [.number (t ++ d :: w)] := by
  have hrest : underscoresBetweenDigits false true false w := by
    simpa [underscoresBetweenDigits, hd] using hsep
  have hexp := outputFrom_inExponent (t := t ++ [d]) (.digit signed) hread hrest
  simpa [Transducer.outputFrom_cons, hstep] using hexp

theorem outputFrom_expStart {d : Byte} {ds : Bytes} {e : Nat} (hw : (splitSign w).2 = d :: ds)
    (hd : isDigit d) (hread : (readExponent e ds).isSome)
    (hsep : underscoresBetweenDigits false false false w) :
    lexer.outputFrom (.expStart t) w = [.number (t ++ w)] := by
  rcases sign_cases w with ⟨c, v, rfl, hc⟩ | hplain
  · have hcd : isDigit c = false ∧ c ≠ underscore := by
      obtain rfl | rfl := of_isSign hc
      · decide
      · decide
    rw [splitSign_of_isSign hc] at hw
    subst hw
    have hsep' : underscoresBetweenDigits false false false (d :: ds) := by
      simpa [underscoresBetweenDigits, hcd] using hsep
    have hstep : step (.expSign (t ++ [c])) d = ([], .exp true (t ++ [c] ++ [d]) .digit) := by
      simp [step, hd]
    have hnext := outputFrom_firstDigit hstep hd hread hsep'
    simpa [Transducer.outputFrom_cons, step, hcd, hc] using hnext
  · obtain rfl : w = d :: ds := by simpa [hplain] using hw
    have hstep : step (.expStart t) d = ([], .exp false (t ++ [d]) .digit) := by simp [step, hd]
    exact outputFrom_firstDigit hstep hd hread hsep

theorem outputFrom_inMantissa {fraction : Nat} (h : InMantissa t sawDot sawDigit saw under s)
    (hseen : sawDigit = true ↔ digits ≠ []) (hsep : underscoresBetweenDigits false saw under w)
    (hdigits : (readMantissa false sawDot digits fraction w).digits ≠ [])
    (hexp : (exponentOf false (readMantissa false sawDot digits fraction w).rest).isSome) :
    ∃ tok, lexer.outputFrom s w = [tok] ∧ Numeral (t ++ w) tok := by
  induction w generalizing t sawDot sawDigit saw under s digits fraction with
  | nil =>
    obtain rfl : sawDigit = true := hseen.mpr hdigits
    obtain rfl : under = false := by simpa [underscoresBetweenDigits] using hsep
    simpa using h.finish_eq
  | cons c w ih =>
    rw [readMantissa] at hdigits hexp
    have hnext : ∀ {s' : State}, step s c = ([], s') →
        (∃ tok, lexer.outputFrom s' w = [tok] ∧ Numeral (t ++ [c] ++ w) tok) →
        ∃ tok, lexer.outputFrom s (c :: w) = [tok] ∧ Numeral (t ++ c :: w) tok := by
      intro s' hstep htok
      simpa [Transducer.outputFrom_cons, hstep] using htok
    have hdu : isDigit underscore = false := by decide
    have hdd : isDigit PgMux.dot = false ∧ PgMux.dot ≠ underscore := by decide
    by_cases hu : c = underscore
    · rw [if_pos hu] at hdigits hexp
      subst hu
      obtain ⟨rfl, hsep⟩ : saw = true ∧ underscoresBetweenDigits false false true w := by
        simpa [underscoresBetweenDigits, hdu] using hsep
      obtain ⟨s', hstep, hs'⟩ := h.step_underscore
      exact hnext hstep (ih hs' hseen hsep hdigits hexp)
    by_cases hdot : c = PgMux.dot ∧ sawDot = false
    · rw [if_neg hu, if_pos hdot] at hdigits hexp
      obtain ⟨rfl, rfl⟩ := hdot
      obtain ⟨rfl, hsep⟩ : under = false ∧ underscoresBetweenDigits false false false w := by
        simpa [underscoresBetweenDigits, hdd] using hsep
      obtain ⟨s', hstep, hs'⟩ := h.step_dot
      exact hnext hstep (ih hs' hseen hsep hdigits hexp)
    by_cases hd : isDigit c
    · rw [if_neg hu, if_neg hdot, if_pos (.inl hd)] at hdigits hexp
      have hsep : underscoresBetweenDigits false true false w := by
        simpa [underscoresBetweenDigits, hd] using hsep
      obtain ⟨s', hstep, hs'⟩ := h.step_digit hd
      exact hnext hstep (ih hs' (by simp) hsep hdigits hexp)
    · rw [if_neg hu, if_neg hdot, if_neg (by simpa using hd)] at hdigits hexp
      obtain rfl : sawDigit = true := hseen.mpr hdigits
      obtain ⟨hmark, d, ds, e, hds, hdigit, hread⟩ := of_exponentOf hexp
      obtain ⟨rfl, hsep'⟩ : under = false ∧ underscoresBetweenDigits false false false w := by
        simpa [underscoresBetweenDigits, hd, hu] using hsep
      exact hnext (h.step_exponentMark hmark)
        ⟨_, outputFrom_expStart hds hdigit hread hsep', .number⟩

end

/-! ## What the validators let through -/

structure GoDecimal (w : Bytes) : Prop where
  separators : underscoresBetweenDigits false false false w
  digits : (readMantissa false false [] 0 w).digits ≠ []
  exponent : (exponentOf false (readMantissa false false [] 0 w).rest).isSome

theorem GoDecimal.lex_eq {w : Bytes} (h : GoDecimal w) : ∃ tok, lex w = [tok] ∧ Numeral w tok := by
  simpa [lex, Transducer.output] using outputFrom_inMantissa .start (by simp) h.separators h.digits
    h.exponent

theorem of_isOpChar {c : Byte} (h : isOpChar c) :
    c ≠ underscore ∧ c ≠ PgMux.dot ∧ isDigit c = false := by
  revert c
  apply forall_byte
  decide +kernel

theorem GoDecimal.head {w : Bytes} (h : GoDecimal w) : w.head?.any isOpChar = false := by
  cases w with
  | nil => rfl
  | cons c w =>
    by_contra hop
    have hop : isOpChar c := by simpa using hop
    exact h.digits (by simp [readMantissa, of_isOpChar hop])

theorem lex_sign {c : Byte} {w : Bytes} (hc : isSign c) (hw : w.head?.any isOpChar = false) :
    lex (c :: w) = .op [c] :: lex w := by
  have hsep : lexer.Separated (.op [c]) w := by
    cases w with
    | nil => exact lexer.separated_nil _
    | cons d w => exact lexer.separated_cons w (flushes_op (by simpa using hw))
  have hop : opTokens [c] = [.op [c]] := by
    obtain rfl | rfl := of_isSign hc
    · decide
    · decide
  have hout : lexer.outputFrom (.op [c]) w = opTokens [c] ++ lex w := hsep
  rw [lex, Transducer.output, Transducer.outputFrom_cons, lexer_start, lexer_step,
    show step .start c = ([], .op [c]) from first_of_isSign hc, hout, hop]
  rfl

section

variable {w rest digits : Bytes} {hex saw sawDot : Bool} {fraction : Nat}

theorem underscoresBetweenDigits_of_notMem (h : underscore ∉ w) :
    underscoresBetweenDigits hex saw false w := by
  induction w generalizing saw with
  | nil => rfl
  | cons c w ih =>
    obtain ⟨hc, hw⟩ : underscore ≠ c ∧ underscore ∉ w := by simpa using h
    simp [underscoresBetweenDigits, ih hw, Ne.symm hc]

theorem readMantissa_digits {ds : Bytes} (h : ∀ c ∈ ds, isDigit c) (sawDot : Bool)
    (digits w : Bytes) (fraction : Nat) :
    ∃ n, readMantissa false sawDot digits fraction (ds ++ w) =
      readMantissa false sawDot (digits ++ ds) n w := by
  induction ds generalizing digits fraction with
  | nil => exact ⟨fraction, by simp⟩
  | cons c ds ih =>
    obtain ⟨hc, hds⟩ := List.forall_mem_cons.mp h
    have hother : c ≠ underscore ∧ c ≠ PgMux.dot := by
      constructor
      · rintro rfl; revert hc; decide
      · rintro rfl; revert hc; decide
    obtain ⟨n, hn⟩ := ih hds (digits ++ [c]) (if sawDot then fraction + 1 else fraction)
    exact ⟨n, by simpa [readMantissa, hother, hc] using hn⟩

theorem notMem_of_digits (h : ∀ c ∈ w, isDigit c) : underscore ∉ w := fun hm => by
  have hu := h _ hm
  revert hu
  decide

theorem readExponent_of_digits (h : ∀ c ∈ w, isDigit c) (e : Nat) : (readExponent e w).isSome := by
  induction w generalizing e with
  | nil => rfl
  | cons c w ih =>
    obtain ⟨hc, hw⟩ := List.forall_mem_cons.mp h
    have hu : c ≠ underscore := fun hu => notMem_of_digits h (by simp [hu])
    simpa [readExponent, hc, hu] using ih hw _

def isExponentPart : Bytes → Bool
  | [] => true
  | c :: v => isExponentMark c && (splitSign v).2 ≠ [] && (splitSign v).2.all isDigit

theorem exponentOf_isSome (h : isExponentPart rest) :
    (exponentOf false rest).isSome ∧ underscore ∉ rest := by
  cases rest with
  | nil => exact ⟨rfl, by simp⟩
  | cons c v =>
    obtain ⟨⟨hc, hne⟩, hds⟩ : (isExponentMark c ∧ (splitSign v).2 ≠ []) ∧ ∀ d ∈ (splitSign v).2,
        isDigit d := by
      simpa [isExponentPart] using h
    have hv : underscore ∉ v := by
      rcases sign_cases v with ⟨d, u, rfl, hd⟩ | hplain
      · rw [splitSign_of_isSign hd] at hds
        have hdu : underscore ≠ d := by rintro rfl; revert hd; decide
        simpa [hdu] using notMem_of_digits hds
      · rw [hplain] at hds
        exact notMem_of_digits hds
    refine ⟨?_, by simpa [Ne.symm (of_isExponentMark hc).2.1] using hv⟩
    cases hsign : (splitSign v).2 with
    | nil => exact absurd hsign hne
    | cons d ds =>
      rw [hsign] at hds
      simp [exponentOf, isExponentMark_iff.mp hc, hsign, hds d (by simp),
        readExponent_of_digits hds]

theorem readMantissa_of_exponent (h : isExponentPart rest) :
    (readMantissa false sawDot digits fraction rest).digits = digits ∧
      (readMantissa false sawDot digits fraction rest).rest = rest := by
  cases rest with
  | nil => exact ⟨rfl, rfl⟩
  | cons c v =>
    have hc : isExponentMark c := (Bool.and_eq_true_iff.mp (Bool.and_eq_true_iff.mp h).1).1
    simp [readMantissa, of_isExponentMark hc]

theorem goDecimal_of_read
    (hread : readMantissa false false [] 0 w = readMantissa false sawDot digits fraction rest)
    (hne : digits ≠ []) (hmem : underscore ∉ w) (hrest : isExponentPart rest) : GoDecimal w := by
  obtain ⟨hdigits, hleft⟩ := readMantissa_of_exponent hrest
  exact ⟨underscoresBetweenDigits_of_notMem hmem, by rwa [hread, hdigits], by
    rw [hread, hleft]
    exact (exponentOf_isSome hrest).1⟩

variable {whole fraction : Bytes} (hwhole : ∀ c ∈ whole, isDigit c)

include hwhole

theorem goDecimal_whole (hne : whole ≠ []) (hrest : isExponentPart rest) :
    GoDecimal (whole ++ rest) := by
  obtain ⟨n, hn⟩ := readMantissa_digits hwhole false [] rest 0
  exact goDecimal_of_read hn hne (by simp [notMem_of_digits hwhole, (exponentOf_isSome hrest).2])
    hrest

theorem goDecimal_point (hfrac : ∀ c ∈ fraction, isDigit c) (hne : whole ++ fraction ≠ [])
    (hrest : isExponentPart rest) : GoDecimal (whole ++ PgMux.dot :: (fraction ++ rest)) := by
  have hdot : underscore ≠ PgMux.dot := by decide
  obtain ⟨n, hn⟩ := readMantissa_digits hwhole false [] (PgMux.dot :: (fraction ++ rest)) 0
  obtain ⟨m, hm⟩ := readMantissa_digits hfrac true whole rest n
  refine goDecimal_of_read (hn.trans (Eq.trans ?_ hm)) hne ?_ hrest
  · simp [readMantissa, Ne.symm hdot]
  · simp [notMem_of_digits hwhole, notMem_of_digits hfrac, (exponentOf_isSome hrest).2, hdot]

theorem goDecimal_digits (hne : whole ≠ []) : GoDecimal whole := by
  simpa using goDecimal_whole hwhole hne (show isExponentPart [] from rfl)

end

theorem head_dropWhile_isDigit (w : Bytes) : (w.dropWhile isDigit).head?.any isDigit = false := by
  have hnot := List.head?_dropWhile_not isDigit w
  cases hw : w.dropWhile isDigit with
  | nil => rfl
  | cons c v => simpa [hw] using hnot

theorem numericBody_append {whole rest : Bytes} (hwhole : ∀ c ∈ whole, isDigit c)
    (hrest : rest.head?.any isDigit = false) :
    numericBody (whole ++ rest) ↔ if rest.head? = some dot then
        (whole ≠ [] ∨ rest.tail.takeWhile isDigit ≠ []) ∧
        isExponentPart (rest.tail.dropWhile isDigit)
      else whole ≠ [] ∧ isExponentPart rest := by
  obtain ⟨htake, hdrop⟩ := takeWhile_isDigit_append hwhole hrest
  unfold numericBody
  simp only [htake, hdrop]
  by_cases hdot : rest.head? = some dot
  · obtain ⟨v, rfl⟩ := List.head?_eq_some_iff.mp hdot
    cases he : v.dropWhile isDigit with
    | nil => simp [he, isExponentPart]
    | cons c u => simp [he, isExponentPart, isExponentMark]; tauto
  · cases rest with
    | nil => simp [isExponentPart]
    | cons c v =>
      have hc : c ≠ 46 := by simpa using hdot
      simp [hc, isExponentPart, isExponentMark]
      tauto

theorem numericBody_cases {w : Bytes} (h : numericBody w) :
    ∃ whole rest, (∀ c ∈ whole, isDigit c) ∧ isExponentPart rest ∧
      (whole ≠ [] ∧ w = whole ++ rest ∨ ∃ fraction, (∀ c ∈ fraction, isDigit c) ∧
        whole ++ fraction ≠ [] ∧ w = whole ++ PgMux.dot :: (fraction ++ rest)) := by
  have hwhole : ∀ c ∈ w.takeWhile isDigit, isDigit c := fun c hc => List.mem_takeWhile_imp hc
  rw [← List.takeWhile_append_dropWhile (p := isDigit) (l := w)] at h ⊢
  rw [numericBody_append hwhole (head_dropWhile_isDigit w)] at h
  generalize w.takeWhile isDigit = whole at h hwhole ⊢
  generalize w.dropWhile isDigit = rest at h ⊢
  by_cases hdot : rest.head? = some dot
  · obtain ⟨v, rfl⟩ := List.head?_eq_some_iff.mp hdot
    obtain ⟨hne, he⟩ := by simpa only [hdot, if_true, List.tail_cons] using h
    refine ⟨whole, _, hwhole, he, .inr ⟨v.takeWhile isDigit, ?_, ?_, by simp⟩⟩
    · exact fun c hc => List.mem_takeWhile_imp hc
    · simpa [imp_iff_not_or] using hne
  · rw [if_neg hdot] at h
    exact ⟨whole, rest, hwhole, h.2, .inl ⟨h.1, rfl⟩⟩

theorem goDecimal_of_numericBody {w : Bytes} (h : numericBody w) : GoDecimal w := by
  obtain ⟨whole, rest, hwhole, he, ⟨hne, rfl⟩ | ⟨fraction, hfrac, hne, rfl⟩⟩ := numericBody_cases h
  · exact goDecimal_whole hwhole hne he
  · exact goDecimal_point hwhole hfrac hne he

theorem natText_digits (n : Nat) : natText n ≠ [] ∧ ∀ c ∈ natText n, isDigit c := by
  refine ⟨by simp [natText, Nat.toDigits_ne_nil], ?_⟩
  intro c hc
  obtain ⟨d, hd, rfl⟩ := List.mem_map.mp hc
  have hdigit := Nat.isDigit_of_mem_toDigits (by decide) (by decide) hd
  have hbounds : 48 ≤ d.toNat ∧ d.toNat ≤ 57 := by
    simpa [Char.isDigit, Char.le_def, UInt32.le_iff_toNat_le] using hdigit
  have hlt : d.toNat % 256 = d.toNat := by omega
  simp [isDigit, UInt8.le_iff_toNat_le, Nat.toUInt8, hlt, hbounds]

theorem goDecimal_natText (n : Nat) : GoDecimal (natText n) :=
  goDecimal_digits (natText_digits n).2 (natText_digits n).1

theorem goDecimal_plainDecimal (k : Nat) (p : Int) : GoDecimal (plainDecimal k p) := by
  obtain ⟨hne, hds⟩ := natText_digits k
  have hzeros : ∀ n, ∀ c ∈ List.replicate n (48 : Byte), isDigit c := by
    intro n c hc
    rw [List.eq_of_mem_replicate hc]
    rfl
  unfold plainDecimal
  dsimp only
  split
  · refine goDecimal_digits (fun c hc => ?_) (by simp [hne])
    exact (List.mem_append.mp hc).elim (hds c) (hzeros _ c)
  · have hall : ∀ c ∈ List.replicate (p.natAbs + 1 - (natText k).length) 48 ++ natText k,
        isDigit c := fun c hc =>
      (List.mem_append.mp hc).elim (hzeros _ c) (hds c)
    have hsome : List.replicate (p.natAbs + 1 - (natText k).length) 48 ++ natText k ≠ [] := by
      simp [hne]
    generalize List.replicate (p.natAbs + 1 - (natText k).length) 48 ++ natText k =
      ds at hall hsome ⊢
    have hgo := goDecimal_point (fun c hc => hall c (List.mem_of_mem_take hc))
      (fun c hc => hall c (List.mem_of_mem_drop hc))
      (by rwa [List.take_append_drop (ds.length - p.natAbs)]) (show isExponentPart [] from rfl)
    simpa using hgo

/-! ## Literals -/

def isDecimal : Tok → Bool
  | .integer text => text.all isDecimalByte
  | .number _ => true
  | _ => false

def isString : Tok → Bool
  | .str .plain _ | .str .escape _ => true
  | _ => false

def isConstant : List Tok → Bool
  | [.ident w] => w ∈ [ascii "NULL", ascii "TRUE", ascii "FALSE"]
  | [t] => isDecimal t || isString t
  | [.op c, t] => (c == [plus] || c == [minus]) && isDecimal t
  | [t, .typecast, .ident _] => isString t
  | _ => false

def namesNumber (text : Bytes) : Bool :=
  text.map lowerByte ∈ [ascii "nan", ascii "infinity", ascii "-infinity"]

def isHexFloat (text : Bytes) : Bool :=
  match (splitSign text).2 with
  | 48 :: c :: _ :: _ => lowerByte c == 120
  | _ => false

def isForeign (oid : Nat) (text : Bytes) : Bool :=
  (oid == oidNumeric && namesNumber text) ||
    ((oid == oidFloat4 || oid == oidFloat8) && isHexFloat text)

section

variable {w text : Bytes} {c : Byte}

theorem GoDecimal.isConstant (h : GoDecimal w) :
    isConstant (lex w) ∧ ∀ c, isSign c → LiteralTokens.isConstant (lex (c :: w)) := by
  obtain ⟨tok, htok, hnum⟩ := h.lex_eq
  have hdec : isDecimal tok := by
    cases hnum with
    | integer hall => exact hall
    | number => rfl
  refine ⟨?_, fun c hc => ?_⟩
  · rw [htok]
    cases hnum <;> simp [LiteralTokens.isConstant, hdec]
  · have hsign := of_isSign hc
    rw [lex_sign hc h.head, htok]
    simp [LiteralTokens.isConstant, hdec, hsign]

theorem isConstant_of_goDecimal (h : GoDecimal (splitSign text).2) : isConstant (lex text) := by
  rcases sign_cases text with ⟨c, w, rfl, hc⟩ | hplain
  · rw [splitSign_of_isSign hc] at h
    exact h.isConstant.2 c hc
  · rw [hplain] at h
    exact h.isConstant.1

theorem isConstant_escape (s : Bytes) : isConstant (lex (escapeStringLiteral s)) := by
  rw [lex_literal]
  rfl

theorem of_baseMark (h : (lowerByte c == 98 || lowerByte c == 111 || lowerByte c == 120) = true) :
    c ≠ underscore ∧ c ≠ PgMux.dot ∧ isDigit c = false ∧ lowerByte c ≠ 101 := by
  grind [lowerByte, isUpper, isDigit]

theorem parseFloat_of_special (h : special text = none) : parseFloat text =
    let w := (splitSign text).2
    let hex := isHexFloat text
    let m := readMantissa hex false [] 0 (if hex then w.drop 2 else w)
    match exponentOf hex m.rest with
    | none => none
    | some (neg, e) =>
      let base := if hex then 16 else 10
      let value := m.digits.foldl (fun n d => base * n + hexValue d) 0
      if m.digits = [] ∨ (text.contains underscore ∧ underscoreOK text = false) then none
      else if inFloatRange value (base ^ m.fraction) ((if hex then 2 else 10) ^ e) neg then
        some .finite
      else none := by
  rw [parseFloat, h]
  rfl

theorem goDecimal_of_parseFloat {k : FloatClass} (hspecial : special text = none)
    (hhex : isHexFloat text = false) (h : parseFloat text = some k) :
    GoDecimal (splitSign text).2 := by
  simp only [parseFloat_of_special hspecial, hhex, Bool.false_eq_true, ↓reduceIte] at h
  cases hexp : exponentOf false (readMantissa false false [] 0 (splitSign text).2).rest with
  | none => simp [hexp] at h
  | some e =>
    simp only [hexp] at h
    split_ifs at h with hbad
    obtain ⟨hdigits, hunder⟩ := not_or.mp hbad
    refine ⟨?_, hdigits, by simp [hexp]⟩
    by_cases hmem : underscore ∈ (splitSign text).2
    · have htext : underscore ∈ text := by
        rcases sign_cases text with ⟨c, w, rfl, hc⟩ | hplain
        · rw [splitSign_of_isSign hc] at hmem
          exact List.mem_cons_of_mem c hmem
        · rwa [hplain] at hmem
      have hok : underscoreOK text := by simpa [htext] using hunder
      unfold underscoreOK at hok
      split at hok
      · rename_i c w hw
        dsimp only at hok
        split at hok
        · rename_i hmark
          -- Go has stopped before the base mark, which begins no exponent.
          obtain ⟨hu, hdot, hd, he⟩ := of_baseMark hmark
          have hzero : (48 : Byte) ≠ underscore ∧ (48 : Byte) ≠ PgMux.dot ∧ isDigit 48 := by decide
          have hrest : (readMantissa false false [] 0 (48 :: c :: w)).rest = c :: w := by
            simp [readMantissa, hu, hdot, hd, hzero]
          rw [hw, hrest] at hexp
          simp [exponentOf, he] at hexp
        · rwa [hw]
      · exact hok
    · exact underscoresBetweenDigits_of_notMem hmem

theorem isConstant_cast {k : FloatClass} {type : Bytes}
    (htype : type = ascii "float4" ∨ type = ascii "float8")
    (h : specialFloatLiteral k type = some w) : isConstant (lex w) := by
  rcases htype with rfl | rfl <;> cases k <;>
    simp only [specialFloatLiteral, Option.some.injEq, reduceCtorEq] at h <;>
    subst h <;> decide +kernel

theorem isConstant_formatFloat (f : FloatFormat) (bits : Nat) :
    isConstant (lex (formatFloat f bits)) := by
  have hzero : GoDecimal [48] := goDecimal_natText 0
  simp only [formatFloat]
  split
  · split
    · exact hzero.isConstant.2 minus rfl
    · exact (goDecimal_plainDecimal _ _).isConstant.2 minus rfl
  · split
    · exact hzero.isConstant.1
    · exact (goDecimal_plainDecimal _ _).isConstant.1

theorem isConstant_formatInt (v : Int) : isConstant (lex (formatInt v)) := by
  unfold formatInt
  split
  · exact (goDecimal_natText _).isConstant.2 minus rfl
  · exact (goDecimal_natText _).isConstant.1

theorem lex_byteaLiteral (data : Bytes) :
    lex (byteaLiteral data) = [.str .escape ([backslash, backslash, 120] ++ hexText data)] := by
  have hdigit : ∀ n : Fin 16, hexDigit n.val ≠ quote ∧ hexDigit n.val ≠ backslash := by decide
  have hrun : ∀ (v acc : Bytes), lexer.outputFrom (.str .escape acc) (hexText v ++ [quote]) =
      [.str .escape (acc ++ hexText v)] := by
    intro v
    induction v with
    | nil => intro acc; simp [hexText, Transducer.outputFrom_cons, step, finish]
    | cons b v ih =>
      intro acc
      have hb := b.toNat_lt
      have hhigh := hdigit ⟨b.toNat / 16, by omega⟩
      have hlow := hdigit ⟨b.toNat % 16, by omega⟩
      have hrest := ih (acc ++ [hexDigit (b.toNat / 16), hexDigit (b.toNat % 16)])
      simpa [hexText, Transducer.outputFrom_cons, step, hhigh, hlow] using hrest
  have hopen : lexer.outputFrom .start ([69, quote, backslash, backslash,
      120] ++ (hexText data ++ [quote])) =
      lexer.outputFrom (.str .escape [backslash, backslash, 120]) (hexText data ++ [quote]) := rfl
  rw [lex, Transducer.output, lexer_start, byteaLiteral, List.append_assoc, hopen, hrun]

end

theorem isConstant_binary {data lit : Bytes} {oid : Nat}
    (h : binaryParamToLiteral data oid = .ok lit) : isConstant (lex lit) := by
  have hbool : ∀ b, isConstant (lex (booleanLiteral b)) := by decide
  have hint : ∀ size, binaryIntLiteral oid size data = .ok lit → isConstant (lex lit) := by
    intro size hlit
    unfold binaryIntLiteral at hlit
    split at hlit
    · simp at hlit
    · obtain rfl := Except.ok.inj hlit
      exact isConstant_formatInt _
  have hfloat : ∀ size f type, (type = ascii "float4" ∨ type = ascii "float8") →
      binaryFloatLiteral oid size f type data = .ok lit → isConstant (lex lit) := by
    intro size f type htype hlit
    unfold binaryFloatLiteral at hlit
    split at hlit
    · simp at hlit
    · obtain rfl := Except.ok.inj hlit
      cases hspecial : specialFloatLiteral (f.classify (bigEndian data)) type with
      | none => exact isConstant_formatFloat f _
      | some w => exact isConstant_cast htype hspecial
  unfold binaryParamToLiteral at h
  split_ifs at h
  · split at h
    · obtain rfl := Except.ok.inj h
      exact hbool _
    · simp at h
  · exact hint 2 h
  · exact hint 4 h
  · exact hint 8 h
  · exact hfloat 4 float32 _ (.inl rfl) h
  · exact hfloat 8 float64 _ (.inr rfl) h
  · obtain rfl := Except.ok.inj h
    rw [lex_byteaLiteral]
    rfl
  · obtain rfl := Except.ok.inj h
    exact isConstant_escape data

theorem special_ne_finite (text : Bytes) : special text ≠ some .finite := by
  simp only [special]
  split_ifs <;> simp

theorem isConstant_float {text : Bytes} {k : FloatClass} (h : parseFloat text = some k)
    (hhex : isHexFloat text = false) :
    isConstant (lex ((specialFloatLiteral k (ascii "float8")).getD text)) := by
  cases hcast : specialFloatLiteral k (ascii "float8") with
  | some w => exact isConstant_cast (.inr rfl) hcast
  | none =>
    obtain rfl : k = .finite := by cases k <;> simp_all [specialFloatLiteral]
    have hspecial : special text = none := by
      cases hk : special text with
      | none => rfl
      | some k =>
        obtain rfl : k = .finite := by simpa [parseFloat, hk] using h
        exact absurd hk (special_ne_finite text)
    exact isConstant_of_goDecimal (goDecimal_of_parseFloat hspecial hhex h)

theorem isConstant_int {text : Bytes} {v : Int} (h : parseInt text = some v) :
    isConstant (lex text) := by
  apply isConstant_of_goDecimal
  simp only [parseInt] at h
  split_ifs at h with hbad
  all_goals
    obtain ⟨hne, hds⟩ : (splitSign text).2 ≠ [] ∧ ∀ c ∈ (splitSign text).2, isDigit c := by
      simpa using hbad
    exact goDecimal_digits hds hne

theorem isConstant_numeric {text : Bytes} (h : isValidNumeric text)
    (hname : namesNumber text = false) : isConstant (lex text) := by
  have hword : ¬ (text.map lowerByte = ascii "nan" ∨ text.map lowerByte = ascii "infinity" ∨
      text.map lowerByte = ascii "-infinity") := by simpa [namesNumber] using hname
  rw [isValidNumeric, if_neg hword] at h
  exact isConstant_of_goDecimal (goDecimal_of_numericBody h)

theorem isConstant_text {text lit : Bytes} {oid : Nat} (h : textParamToLiteral text oid = .ok lit)
    (hforeign : isForeign oid text = false) : isConstant (lex lit) := by
  have hbool : ∀ b, isConstant (lex (booleanLiteral b)) := by decide
  obtain ⟨hname, hhex⟩ := by simpa [isForeign] using hforeign
  unfold textParamToLiteral at h
  split_ifs at h with hb hi hf hn hnum hby hu huuid
  · split at h
    · obtain rfl := Except.ok.inj h
      exact hbool _
    · simp at h
  · split at h
    · rename_i v hv
      obtain rfl := Except.ok.inj h
      exact isConstant_int hv
    · simp at h
  · split at h
    · rename_i k hk
      obtain rfl := Except.ok.inj h
      exact isConstant_float hk (hhex (by simpa using hf))
    · simp at h
  · obtain rfl := Except.ok.inj h
    exact isConstant_numeric hnum (hname hn)
  · obtain rfl := Except.ok.inj h
    rw [lex_byteaLiteral]
    rfl
  · obtain rfl := Except.ok.inj h
    exact isConstant_escape text
  · obtain rfl := Except.ok.inj h
    exact isConstant_escape text

/-! ## Texts that are no constants -/

/-- A token that no constant has at its start or behind a sign. -/
inductive Foreign : Tok → Prop where
  | error : Foreign .error
  | integer {digits : Bytes} (h : digits.all isDecimalByte = false) : Foreign (.integer digits)
  | ident {w : Bytes} (h : w ∉ [ascii "NULL", ascii "TRUE", ascii "FALSE"]) : Foreign (.ident w)

theorem isConstant_cases {t : Tok} {ts : List Tok} (h : isConstant (t :: ts)) :
    (∃ w, t = .ident w ∧ w ∈ [ascii "NULL", ascii "TRUE", ascii "FALSE"]) ∨ isDecimal t ∨
      isString t ∨ ∃ c t', t = .op c ∧ ts = [t'] ∧ isDecimal t' := by
  unfold isConstant at h
  split at h
  all_goals simp_all

theorem not_isConstant {text : Bytes} {t : Tok} {ts : List Tok} (ht : Foreign t)
    (hlex : lex (splitSign text).2 = t :: ts)
    (hhead : (splitSign text).2.head?.any isOpChar = false) : ¬ isConstant (lex text) := by
  have hplain : isDecimal t = false ∧ isString t = false := by
    cases ht with
    | error => exact ⟨rfl, rfl⟩
    | integer h => exact ⟨h, rfl⟩
    | ident h => exact ⟨rfl, rfl⟩
  intro hconst
  rcases sign_cases text with ⟨c, w, rfl, hc⟩ | hnosign
  · rw [splitSign_of_isSign hc] at hlex hhead
    rw [lex_sign hc hhead, hlex] at hconst
    rcases isConstant_cases hconst with ⟨w, hw, -⟩ | hd | hs | ⟨c', t', -, hts, hd⟩
    · cases hw
    · cases hd
    · cases hs
    · obtain ⟨rfl, -⟩ := List.cons.inj hts
      simp [hplain] at hd
  · rw [hnosign] at hlex
    rw [hlex] at hconst
    rcases isConstant_cases hconst with ⟨w, rfl, hw⟩ | hd | hs | ⟨c', t', rfl, -, -⟩
    · cases ht with
      | ident h => exact h hw
    · simp [hplain] at hd
    · simp [hplain] at hs
    · cases ht

theorem outputFrom_hex {acc : Bytes} (hacc : acc.all isDecimalByte = false) (last : Last)
    (w : Bytes) : ∃ t ts, lexer.outputFrom (.radix .hex acc last) w = t :: ts ∧ Foreign t := by
  induction w generalizing acc last with
  | nil => cases last <;> simp [finish, Foreign.error, Foreign.integer hacc]
  | cons c w ih =>
    have hmore : (acc ++ [c]).all isDecimalByte = false := by simp [hacc]
    rw [Transducer.outputFrom_cons]
    simp only [lexer_step, step, radixStep]
    split_ifs
    · exact ih hmore _
    · exact ih hmore _
    · exact ⟨_, _, rfl, .error⟩
    · exact ⟨_, _, rfl, .integer hacc⟩

theorem outputFrom_ident {acc w : Bytes} (hw : ∀ c ∈ w, isIdentCont c) :
    lexer.outputFrom (.ident acc) w = [.ident (acc ++ w)] := by
  induction w generalizing acc with
  | nil => simp [finish]
  | cons c w ih =>
    rw [List.forall_mem_cons] at hw
    rw [Transducer.outputFrom_cons]
    simp [step, identStep, hw.1, ih hw.2]

theorem not_isConstant_hex {text : Bytes} (h : isHexFloat text) : ¬ isConstant (lex text) := by
  unfold isHexFloat at h
  split at h
  case h_2 => cases h
  rename_i c d w hw
  have hmark : ∀ c : Byte, lowerByte c == 120 →
      step (.integer [48] .digit) c = ([], .radix .hex [48, c] .mark) ∧
        [48, c].all isDecimalByte = false := by
    apply forall_byte
    decide +kernel
  obtain ⟨hstep, hacc⟩ := hmark c h
  obtain ⟨t, ts, hout, ht⟩ := outputFrom_hex hacc .mark (d :: w)
  have hlex : lex (splitSign text).2 = t :: ts := by
    rw [hw, lex, Transducer.output, Transducer.outputFrom_cons, Transducer.outputFrom_cons,
      lexer_start, lexer_step, show step .start 48 = ([], .integer [48] .digit) by decide,
      lexer_step, hstep, hout]
    rfl
  exact not_isConstant ht hlex (by rw [hw]; rfl)

theorem not_isConstant_word {text : Bytes}
    (h : (splitSign text).2.map lowerByte ∈ [ascii "nan", ascii "infinity"]) :
    ¬ isConstant (lex text) := by
  have hletter : ∀ c : Byte, lowerByte c ∈ ascii "nanifty" →
      isIdentCont c ∧ isOpChar c = false ∧ step .start c = ([], .ident [c]) := by
    apply forall_byte
    decide +kernel
  generalize hw : (splitSign text).2 = w at h
  have hall : ∀ c ∈ w, lowerByte c ∈ ascii "nanifty" := by
    intro c hc
    have hmem := List.mem_map_of_mem (f := lowerByte) hc
    rcases List.mem_pair.mp h with h | h
    · rw [h] at hmem
      exact (by decide : ∀ c ∈ ascii "nan", c ∈ ascii "nanifty") _ hmem
    · rw [h] at hmem
      exact (by decide : ∀ c ∈ ascii "infinity", c ∈ ascii "nanifty") _ hmem
  cases w with
  | nil => exact absurd h (by decide)
  | cons c w =>
    rw [List.forall_mem_cons] at hall
    obtain ⟨-, hop, hstep⟩ := hletter c hall.1
    have hword : c :: w ∉ [ascii "NULL", ascii "TRUE", ascii "FALSE"] := by
      have hnone : ∀ w ∈ [ascii "NULL", ascii "TRUE", ascii "FALSE"],
          w.map lowerByte ∉ [ascii "nan", ascii "infinity"] := by decide
      exact fun hmem => hnone _ hmem h
    have hlex : lex (splitSign text).2 = [.ident (c :: w)] := by
      rw [hw, lex, Transducer.output, Transducer.outputFrom_cons, lexer_start, lexer_step, hstep,
        outputFrom_ident fun d hd => (hletter d (hall.2 d hd)).1]
      rfl
    exact not_isConstant (.ident hword) hlex (by simp [hw, hop])

theorem not_isConstant_named {text : Bytes} (h : namesNumber text) : ¬ isConstant (lex text) := by
  have hminus : ∀ c : Byte, lowerByte c = 45 → c = 45 := by
    grind [lowerByte, isUpper]
  have hwords : text.map lowerByte ∈ [ascii "nan", ascii "infinity", ascii "-infinity"] :=
    of_decide_eq_true h
  apply not_isConstant_word
  rcases sign_cases text with ⟨c, w, rfl, hc⟩ | hnosign
  · rw [splitSign_of_isSign hc]
    obtain rfl | rfl := of_isSign hc
    · rw [List.map_cons, show lowerByte plus = 43 by decide] at hwords
      simp [ascii] at hwords
    · rw [List.map_cons, show lowerByte minus = 45 by decide] at hwords
      simp [ascii] at hwords ⊢
      exact .inr hwords
  · rw [hnosign]
    rcases text with _ | ⟨c, w⟩
    · simp [ascii] at hwords
    · simp only [List.mem_cons, List.not_mem_nil, or_false] at hwords ⊢
      rcases hwords with hw | hw | hw
      · exact .inl hw
      · exact .inr hw
      · rw [hminus c (List.cons.inj hw).1] at hnosign
        cases hnosign

theorem special_of_hex {text : Bytes} (h : isHexFloat text) : special text = none := by
  unfold isHexFloat at h
  split at h
  case h_2 => cases h
  rename_i c d w hw
  have hzero : lowerByte 48 = 48 := by decide
  have hnan : text.map lowerByte ≠ ascii "nan" := by
    intro hnan
    rcases text with _ | ⟨a, text⟩
    · cases hw
    rcases sign_cases (a :: text) with ⟨b, v, hb, hsign⟩ | hnosign
    · obtain ⟨rfl, rfl⟩ := List.cons.inj hb
      obtain rfl | rfl := of_isSign hsign
      all_goals exact absurd (List.cons.inj hnan).1 (by decide)
    · rw [hnosign] at hw
      rw [(List.cons.inj hw).1] at hnan
      exact absurd (List.cons.inj hnan).1 (by decide)
  simp only [special, hw, hnan, List.map_cons, hzero, if_false]
  rw [if_neg]
  rintro (heq | heq)
  all_goals exact absurd (List.cons.inj heq).1 (by decide)

theorem not_isConstant_foreign {text lit : Bytes} {oid : Nat}
    (h : textParamToLiteral text oid = .ok lit) (hforeign : isForeign oid text) :
    ¬ isConstant (lex lit) := by
  simp only [isForeign, Bool.or_eq_true, Bool.and_eq_true, beq_iff_eq] at hforeign
  rcases hforeign with ⟨rfl, hname⟩ | ⟨hoid, hhex⟩
  · have hlit : (if isValidNumeric text then .ok text else .error (.invalidNumeric text)) =
        (Except.ok lit : Except LiteralError Bytes) := h
    split_ifs at hlit
    obtain rfl := Except.ok.inj hlit
    exact not_isConstant_named hname
  · have hcase : oid ≠ oidBoolean ∧ oid ∉ [oidInt2, oidInt4, oidInt8, oidOid] ∧
        oid ∈ [oidFloat4, oidFloat8] := by rcases hoid with rfl | rfl <;> decide
    rw [textParamToLiteral, if_neg hcase.1, if_neg hcase.2.1, if_pos hcase.2.2] at h
    cases hk : parseFloat text with
    | none => simp [hk] at h
    | some k =>
      rw [hk] at h
      rw [parseFloat_of_special (special_of_hex hhex)] at hk
      obtain rfl : k = .finite := by
        dsimp only at hk
        split at hk
        · cases hk
        · split_ifs at hk
          exact (Option.some.inj hk).symm
      obtain rfl := Except.ok.inj h
      exact not_isConstant_hex hhex

/-- The literal is a closed constant just if the text is neither a named numeric nor a
hexadecimal float. -/
theorem isConstant_paramToLiteral {value : Option Bytes} {oid : Nat} {formatCode : Int}
    {lit : Bytes} (h : paramToLiteral value oid formatCode = .ok lit) :
    isConstant (lex lit) ↔
      ∀ text, value = some text → formatCode ≠ 1 → isForeign oid text = false := by
  cases value with
  | none =>
    obtain rfl := Except.ok.inj h
    exact iff_of_true (by decide) nofun
  | some v =>
    simp only [paramToLiteral] at h
    split_ifs at h with hformat
    · exact iff_of_true (isConstant_binary h) fun _ _ hne => absurd hformat hne
    · constructor
      · rintro hconst text ⟨⟩ -
        by_contra hforeign
        exact not_isConstant_foreign h (by simpa using hforeign) hconst
      · exact fun hforeign => isConstant_text h (hforeign v rfl hformat)

theorem isConstant_paramToLiteral_million : isConstant (lex (ascii "-1_000_000.5e+2")) := by
  have hlit : paramToLiteral (some (ascii "-1_000_000.5e+2")) oidFloat8 0 =
      .ok (ascii "-1_000_000.5e+2") := by decide +kernel
  exact (isConstant_paramToLiteral hlit).mpr (by rintro text ⟨⟩ -; decide)

theorem literals_that_are_no_constants :
    paramToLiteral (some (ascii "NaN")) oidNumeric 0 = .ok (ascii "NaN") ∧
    lex (ascii "NaN") = [.ident (ascii "NaN")] ∧
      paramToLiteral (some (ascii "0x1p4")) oidFloat8 0 = .ok (ascii "0x1p4") ∧
      lex (ascii "0x1p4") = [.error] ∧
      isConstant (lex (ascii "NaN")) = false ∧ isConstant (lex (ascii "0x1p4")) = false := by
  decide +kernel

end PgMux.LiteralTokens
