import PgMux.PgLexeme

/-!
# Texts that do not run into each other

`touches` says for every state the lexer can be left in which following texts would be drawn into
the pending lexeme. A text that touches nothing is separated.
-/

namespace PgMux.PgLexer

inductive Gap where
  | space (newline : Bool)
  | dash
  | comment
  deriving DecidableEq, Repr

def gapContinues : Gap → Bytes → Bool
  | _, [] => false
  | .space newline, c :: w =>
    if isNewline c then gapContinues (.space true) w
    else if isSpace c then gapContinues (.space newline) w
    else if c = minus then gapContinues .dash w
    else c == quote && newline
  | .dash, c :: w => c == minus && gapContinues .comment w
  | .comment, c :: w => if isNewline c then gapContinues (.space true) w
      else gapContinues .comment w

def opTouches (acc : Bytes) : Bytes → Bool
  | [] => false
  | c :: w =>
    isOpChar c && !(isSign c && !acc.any isSpecialOp &&
      !(c == minus && acc.getLast? == some minus) && !w.head?.any isOpChar)

def isStringMark (acc : Bytes) : Bool :=
  acc ∈ [[101], [69], [98], [66], [120], [88], [110], [78]]

/-- The text begins with what the pending lexeme would take in. -/
def touches (s : State) : Bytes → Bool
  | [] => false
  | c :: w =>
    match s with
    | .start => false
    | .ident acc => isIdentCont c || (c == quote && isStringMark acc) ||
      (c == ampersand && (acc == [117] || acc == [85]))
    | .uAmp _ => c == quote || c == dquote || isOpChar c
    | .quotedIdentQuote _ acc => c == dquote || acc == []
    | .strQuote kind _ => (c == quote && doublesQuote kind) || gapContinues (.space false) (c :: w)
    | .strGap _ _ newline => gapContinues (.space newline) (c :: w)
    | .strGapDash _ _ => opTouches [minus] (c :: w)
    | .dollar => isTagChar c || c == PgMux.dollar
    | .param _ => isTagChar c
    | .integer _ .digit => isTagChar c || c == PgMux.dot
    | .radix _ _ .digit => isIdentCont c
    | .numDot _ => isTagChar c || c == PgMux.dot
    | .frac _ .digit => isTagChar c
    | .exp signed _ .digit => isTagChar c || (c == PgMux.dollar && !signed)
    | .dot => isDigit c || c == PgMux.dot
    | .colon => c == PgMux.colon || c == equals
    | .op acc => opTouches acc (c :: w)
    | _ => true

variable {c : Byte} {acc : Bytes}

theorem isSpace_of_isNewline (h : isNewline c) : isSpace c := by
  grind [isNewline, isSpace]

theorem first_of_isSpace (h : isSpace c) : first c = ([], .start) := by
  simp [first, h]

theorem first_minus : first minus = ([], .op [minus]) := by decide

theorem outputFrom_gap (kind : StrKind) (acc : Bytes) (v : Bytes) :
    (∀ newline, gapContinues (.space newline) v = false →
      lexer.outputFrom (.strGap kind acc newline) v = .str kind acc :: lexer.outputFrom .start v) ∧
    (gapContinues .dash v = false →
      lexer.outputFrom (.strGapDash kind acc) v =
        .str kind acc :: lexer.outputFrom (.op [minus]) v) ∧ (gapContinues .comment v = false →
      lexer.outputFrom (.strGapComment kind acc) v =
        .str kind acc :: lexer.outputFrom .lineComment v) := by
  induction v with
  | nil => exact ⟨fun _ _ => rfl, fun _ => rfl, fun _ => rfl⟩
  | cons c v ih =>
    obtain ⟨hspace, hdash, hcomment⟩ := ih
    refine ⟨fun newline h => ?_, fun h => ?_, fun h => ?_⟩
    · simp only [gapContinues] at h
      simp only [Transducer.outputFrom_cons, lexer_step, step, gapStep]
      split_ifs at h ⊢ with hn hs hm hq
      · simpa [first_of_isSpace (isSpace_of_isNewline hn)] using hspace true h
      · simpa [first_of_isSpace hs] using hspace newline h
      · subst hm
        simpa [first_minus] using hdash h
      · simp [hq] at h
      · simp
    · simp only [Transducer.outputFrom_cons, lexer_step, step]
      split_ifs with hm
      · subst hm
        have hop : opStep [minus] minus = ([], .lineComment) := by decide
        simpa [hop] using hcomment (by simpa [gapContinues] using h)
      · simp
    · simp only [gapContinues] at h
      simp only [Transducer.outputFrom_cons, lexer_step, step]
      split_ifs at h ⊢ with hn
      · simpa using hspace true h
      · simpa using hcomment h

theorem separated_strGap {kind : StrKind} {newline : Bool} {v : Bytes}
    (h : gapContinues (.space newline) v = false) : lexer.Separated (.strGap kind acc newline) v :=
  (outputFrom_gap kind acc v).1 newline h

theorem opTokens_concat (hacc : acc.any isSpecialOp = false) (hc : isSign c) :
    opTokens (acc ++ [c]) = opTokens acc ++ opTokens [c] := by
  have hspecial : isSpecialOp c = false := by
    obtain rfl | rfl := of_isSign hc
    · rfl
    · rfl
  simp [opTokens, hacc, hspecial, hc]

theorem first_of_isSign (h : isSign c) : first c = ([], .op [c]) := by
  obtain rfl | rfl := of_isSign h
  · rfl
  · rfl

theorem flushes_op (h : isOpChar c = false) : lexer.Flushes (.op acc) c := by
  have hm : c ≠ minus := by rintro rfl; revert h; decide
  have hs : c ≠ star := by rintro rfl; revert h; decide
  simp [Transducer.Flushes, step, opStep, h, hm, hs, emit, finish]

theorem separated_op {v : Bytes} (h : opTouches acc v = false) : lexer.Separated (.op acc) v := by
  cases v with
  | nil => exact lexer.separated_nil _
  | cons c w =>
    by_cases ho : isOpChar c
    · simp only [opTouches, ho, Bool.true_and, Bool.not_eq_false', Bool.and_eq_true,
        Bool.not_eq_true'] at h
      obtain ⟨⟨⟨hc, hacc⟩, hminus⟩, hw⟩ := h
      have hstar : c ≠ star := by rintro rfl; revert hc; decide
      have hdash : ¬ (c = minus ∧ acc.getLast? = some minus) := by simpa using hminus
      have hstep : step (.op acc) c = ([], .op (acc ++ [c])) := by
        simp only [step, opStep, ho, ↓reduceIte, hdash, hstar, false_and]
      have hcat : finish (.op (acc ++ [c])) = finish (.op acc) ++ finish (.op [c]) :=
        opTokens_concat hacc hc
      have hfresh : step .start c = ([], .op [c]) := first_of_isSign hc
      simp only [Transducer.Separated, Transducer.output, lexer_start, Transducer.outputFrom_cons,
        lexer_step, lexer_finish, hstep, hfresh, List.nil_append]
      cases w with
      | nil => simpa using hcat
      | cons d w =>
        have hd (a : Bytes) : lexer.Flushes (.op a) d := flushes_op (by simpa using hw)
        have h1 := lexer.separated_cons w (hd (acc ++ [c]))
        have h2 := lexer.separated_cons w (hd [c])
        rw [h1, h2, lexer_finish, lexer_finish, hcat, List.append_assoc]
    · exact lexer.separated_cons w (flushes_op (by simpa using ho))

theorem of_not_isTagChar (h : isTagChar c = false) :
    isDigit c = false ∧ isIdentStart c = false ∧ c ≠ underscore ∧ isExponentMark c = false := by
  grind [isTagChar, isIdentStart, isDigit, isLetter, isUpper, isLower, isHighBit, isExponentMark]

theorem flushes_ident (hc : isIdentCont c = false) (hq : c = quote → isStringMark acc = false)
    (ha : c = ampersand → ¬ (acc = [117] ∨ acc = [85])) : lexer.Flushes (.ident acc) c := by
  have hamp : ¬ (c = ampersand ∧ (acc = [117] ∨ acc = [85])) := fun h => ha h.1 h.2
  by_cases hquote : c = quote
  · have hmark := hq hquote
    have hfirst : first quote = ([], .str .plain []) := by decide
    subst hquote
    simp only [isStringMark, List.mem_cons, List.not_mem_nil, or_false, decide_eq_false_iff_not,
      not_or] at hmark
    simp [Transducer.Flushes, step, identStep, identQuote, hc, hmark, finish, hfirst]
  · simp [Transducer.Flushes, step, identStep, hc, hquote, hamp, emit, finish]

theorem flushes_number (h : isTagChar c = false) (acc : Bytes) :
    (c ≠ PgMux.dot → lexer.Flushes (.integer acc .digit) c ∧ lexer.Flushes (.numDot acc) c) ∧
      lexer.Flushes (.frac acc .digit) c ∧
      ∀ signed, (c = PgMux.dollar → signed = true) → lexer.Flushes (.exp signed acc .digit) c := by
  obtain ⟨hd, hi, hu, he⟩ := of_not_isTagChar h
  refine ⟨fun hdot => ⟨?_, ?_⟩, ?_, fun signed hs => ?_⟩
  · simp [Transducer.Flushes, step, integerStep, hd, hi, hu, he, hdot, emit, finish]
  · simp [Transducer.Flushes, step, numDotStep, hd, hi, he, hdot, emit, finish]
  · simp [Transducer.Flushes, step, fracStep, hd, hi, hu, he, emit, finish]
  · have hs' : ¬ (c = PgMux.dollar ∧ signed = false) := by
      rintro ⟨hc, hf⟩
      simp [hs hc] at hf
    simp [Transducer.Flushes, step, expStep, hd, hi, hu, hs', emit, finish]

theorem flushes_radix {r : Radix} (h : isIdentCont c = false) :
    lexer.Flushes (.radix r acc .digit) c := by
  have hr : isRadixDigit r c = false := by
    cases r <;> grind [isIdentCont, isTagChar, isIdentStart, isDigit, isLetter, isUpper, isLower,
      isRadixDigit]
  have hu : c ≠ underscore := by rintro rfl; revert h; decide
  simp [Transducer.Flushes, step, radixStep, h, hr, hu, emit, finish]

theorem separated_of_not_touches {s : State} {v : Bytes} (h : touches s v = false) :
    lexer.Separated s v := by
  cases v with
  | nil => exact lexer.separated_nil s
  | cons c w =>
    cases s with
    | start => exact lexer.separated_start _
    | strGap kind acc newline => exact separated_strGap h
    | strQuote kind acc =>
      obtain ⟨hq, hgap⟩ := by simpa only [touches, Bool.or_eq_false_iff] using h
      have hstep : step (.strQuote kind acc) c = step (.strGap kind acc false) c := by
        simp only [step]
        rw [if_neg (by simpa using hq)]
      have hsep : lexer.Separated (.strGap kind acc false) (c :: w) := separated_strGap hgap
      simpa [Transducer.Separated, Transducer.outputFrom_cons, hstep, finish] using hsep
    | strGapDash kind acc =>
      have hm : c ≠ minus := by
        rintro rfl
        simp [touches, opTouches, isOpChar, isSign] at h
      have hsep : lexer.Separated (.op [minus]) (c :: w) := separated_op h
      simp only [Transducer.Separated, Transducer.outputFrom_cons, lexer_step,
        lexer_finish] at hsep ⊢
      simp [step, hm, finish] at hsep ⊢
      exact hsep
    | op acc => exact separated_op h
    | integer acc last =>
      cases last with
      | digit =>
        obtain ⟨ht, hdot⟩ := by simpa [touches] using h
        exact lexer.separated_cons w ((flushes_number ht acc).1 hdot).1
      | _ => simp [touches] at h
    | numDot acc =>
      obtain ⟨ht, hdot⟩ := by simpa [touches] using h
      exact lexer.separated_cons w ((flushes_number ht acc).1 hdot).2
    | radix r acc last =>
      cases last with
      | digit => exact lexer.separated_cons w (flushes_radix h)
      | _ => simp [touches] at h
    | frac acc last =>
      cases last with
      | digit => exact lexer.separated_cons w (flushes_number h acc).2.1
      | _ => simp [touches] at h
    | exp signed acc last =>
      cases last with
      | digit =>
        obtain ⟨ht, hdollar⟩ := by simpa [touches] using h
        exact lexer.separated_cons w ((flushes_number ht acc).2.2 signed hdollar)
      | _ => simp [touches] at h
    | ident acc =>
      obtain ⟨⟨hc, hq⟩, ha⟩ := by simpa [touches] using h
      exact lexer.separated_cons w (flushes_ident hc hq (by simpa using ha))
    | uAmp acc =>
      obtain ⟨⟨hq, hd⟩, ho⟩ := by simpa [touches] using h
      have hflush : lexer.Flushes (.op [ampersand]) c := flushes_op ho
      refine lexer.separated_cons w ?_
      have hop : opStep [ampersand] c = (opTokens [ampersand] ++ (first c).1, (first c).2) := hflush
      simp [Transducer.Flushes, step, hq, hd, hop, emit, finish, opTokens, isSpecialOp]
    | dollar =>
      obtain ⟨ht, hc⟩ := by simpa [touches] using h
      obtain ⟨hd, hi, _⟩ := of_not_isTagChar ht
      refine lexer.separated_cons w ?_
      simp [Transducer.Flushes, step, hd, hi, hc, emit, finish]
    | param ds =>
      obtain ⟨hd, hi, _⟩ := of_not_isTagChar h
      exact lexer.separated_cons w (flushes_param hd hi)
    | quotedIdentQuote uni acc | dot | colon =>
      refine lexer.separated_cons w ?_
      simp_all [touches, Transducer.Flushes, step, emit, finish]
    | _ => simp [touches] at h

end PgMux.PgLexer
