import PgMux.PgSeams
import PgMux.PgStatements

/-!
# Semicolons, comment marks and failures in the lexer

A semicolon ends whatever is pending, so the token runs between semicolons are the tokens of the
texts between them. A comment is entered on the second byte of its mark. A failure is always
reported by a token.
-/

namespace PgMux.PgLexer

open PgStatements (splitSemicolons)

variable {c : Byte} {s : State}

theorem step_of_flushes (h : lexer.Flushes s c) :
    step s c = (finish s ++ (first c).1, (first c).2) := h

theorem first_semicolon : first semicolon = ([.self semicolon], .start) := by decide

theorem semicolon_notMem_of_quiet (hc : c ≠ semicolon) {ts : List Tok} (h : Quiet c ts) :
    Tok.self semicolon ∉ ts := by
  intro hm
  have hq : (semicolon == c || semicolon == PgMux.dollar || semicolon == PgMux.dot ||
      semicolon == PgMux.colon) :=
    h _ hm
  have hne : (semicolon == c) = false := beq_eq_false_iff_ne.mpr (Ne.symm hc)
  rw [hne] at hq
  exact absurd hq (by decide)

theorem semicolon_notMem_finish (s : State) : Tok.self semicolon ∉ finish s := by
  have hd : semicolon ≠ PgMux.dollar := by decide
  unfold finish
  split <;> try split_ifs
  all_goals first
    | decide
    | exact semicolon_notMem_of_quiet (by decide) (quiet_opTokens 0 _)
    | simp [hd]

theorem semicolon_notMem_step (hc : c ≠ semicolon) (s : State) :
    Tok.self semicolon ∉ (step s c).1 := by
  by_cases hs : ∃ ds, s = .param ds
  · obtain ⟨ds, rfl⟩ := hs
    simp only [step]
    split_ifs
    · simp
    · simp [fail]
    · simpa using semicolon_notMem_of_quiet hc (lands_first c).quiet
  · exact semicolon_notMem_of_quiet hc (quiet_step (fun ds h => hs ⟨ds, h⟩) c)

def inCode : State → Bool
  | .dollar | .dollarTag _ | .param _ => true
  | s => topLevel s

def isBreak (c : Byte) : Bool :=
  c == semicolon || c == quote || c == dquote || c == PgMux.dollar || c == minus || c == slash

def draws (s : State) (c : Byte) : Bool :=
  match s with
  | .ident _ | .dollarTag _ => c == quote || c == PgMux.dollar
  | .uAmp _ => c == quote || c == dquote || isOpChar c
  | .quotedIdentQuote .. => c == dquote
  | .strQuote .. | .strGap .. => c == quote || c == minus
  | .strGapDash .. | .op _ => isOpChar c
  | .expStart _ => isSign c
  | .dollar => c == PgMux.dollar
  | _ => false

theorem of_isBreak (h : isBreak c) :
    isTagChar c = false ∧ isSpace c = false ∧ isNewline c = false ∧ c ≠ PgMux.dot ∧
    c ≠ PgMux.colon ∧
      c ≠ equals ∧ c ≠ underscore ∧ c ≠ ampersand ∧ ∀ r, isRadixDigit r c = false := by
  simp only [isBreak, Bool.or_eq_true, beq_iff_eq] at h
  rcases h with ((((rfl | rfl) | rfl) | rfl) | rfl) | rfl <;>
    exact ⟨rfl, rfl,
      rfl, by decide, by decide, by decide, by decide, by decide, fun r => by cases r <;> rfl⟩

theorem flushes_break (hs : inCode s) (hc : isBreak c) (hd : draws s c = false) :
    lexer.Flushes s c ∨ step s c = fail := by
  obtain ⟨htag, hspace, hnl, hdot, hcolon, heq, hunder, hamp, hradix⟩ := of_isBreak hc
  obtain ⟨hdigit, hident, _, _⟩ := of_not_isTagChar htag
  cases s with
  | start => exact .inl (by simp [Transducer.Flushes, finish])
  | ident acc =>
    obtain ⟨hq, hdollar⟩ := by simpa [draws] using hd
    have hcont : isIdentCont c = false := by simp [isIdentCont, htag, hdollar]
    exact .inl (flushes_ident hcont (fun h => absurd h hq) fun h => absurd h hamp)
  | uAmp acc =>
    obtain ⟨⟨hq, hdq⟩, hop⟩ := by simpa [draws] using hd
    have hflush : lexer.Flushes (.op [ampersand]) c := flushes_op hop
    have hstep : opStep [ampersand] c = _ := step_of_flushes hflush
    exact .inl
      (by simp [Transducer.Flushes, step, hq, hdq, hstep, emit, finish, opTokens, isSpecialOp])
  | quotedIdentQuote uni acc =>
    have hdq : c ≠ dquote := by simpa [draws] using hd
    by_cases hacc : acc = []
    · exact .inr (by simp [step, hdq, hacc])
    · exact .inl (by simp [Transducer.Flushes, step, hdq, hacc, emit, finish])
  | strQuote kind acc | strGap kind acc newline =>
    obtain ⟨hq, hm⟩ := by simpa [draws] using hd
    exact .inl (by simp [Transducer.Flushes, step, gapStep, hq, hm, hnl, hspace, emit, finish])
  | strGapDash kind acc =>
    have hop : isOpChar c = false := by simpa [draws] using hd
    have hm : c ≠ minus := by rintro rfl; revert hop; decide
    have hflush : lexer.Flushes (.op [minus]) c := flushes_op hop
    have hstep : opStep [minus] c = _ := step_of_flushes hflush
    exact .inl
      (by simp [Transducer.Flushes, step, hm, hstep, emit, finish, opTokens, isSpecialOp, isSign])
  | integer acc last =>
    cases last with
    | digit => exact .inl ((flushes_number htag acc).1 hdot).1
    | _ => exact .inr (by simp [step, hdigit])
  | radix r acc last =>
    by_cases hdollar : c = PgMux.dollar
    · have hcont : isIdentCont c := by simp [isIdentCont, hdollar]
      exact .inr (by simp [step, radixStep, hradix, hunder, hcont])
    · have hcont : isIdentCont c = false := by simp [isIdentCont, htag, hdollar]
      cases last with
      | digit => exact .inl (flushes_radix hcont)
      | _ => exact .inr (by simp [step, radixStep, hradix, hunder])
  | numDot acc => exact .inl ((flushes_number htag acc).1 hdot).2
  | frac acc last =>
    cases last with
    | digit => exact .inl (flushes_number htag acc).2.1
    | _ => exact .inr (by simp [step, hdigit])
  | expStart acc =>
    have hsign : isSign c = false := by simpa [draws] using hd
    exact .inr (by simp [step, hdigit, hsign])
  | expSign acc => exact .inr (by simp [step, hdigit])
  | exp signed acc last =>
    cases last with
    | digit =>
      by_cases hj : c = PgMux.dollar ∧ signed = false
      · exact .inr
          (by rw [step, expStep, if_neg (by simp [hdigit]), if_neg hunder, if_pos (.inr hj)])
      · refine .inl ((flushes_number htag acc).2.2 signed fun h => ?_)
        simpa [h] using hj
    | _ => exact .inr (by simp [step, hdigit])
  | param ds => exact .inl (flushes_param hdigit hident)
  | dollar =>
    have hdollar : c ≠ PgMux.dollar := by simpa [draws] using hd
    exact .inl (by simp [Transducer.Flushes, step, hdigit, hdollar, hident, emit, finish])
  | dollarTag acc =>
    obtain ⟨hq, hdollar⟩ := by simpa [draws] using hd
    have hcont : isIdentCont c = false := by simp [isIdentCont, htag, hdollar]
    have hflush : lexer.Flushes (.ident acc) c :=
      flushes_ident hcont (fun h => absurd h hq) fun h => absurd h hamp
    have hstep : identStep acc c = _ := step_of_flushes hflush
    exact .inl (by simp [Transducer.Flushes, step, htag, hdollar, hstep, emit, finish])
  | dot => exact .inl (by simp [Transducer.Flushes, step, hdigit, hdot, emit, finish])
  | colon => exact .inl (by simp [Transducer.Flushes, step, hcolon, heq, emit, finish])
  | op acc => exact .inl (flushes_op (by simpa [draws] using hd))
  | _ => simp [inCode, topLevel, outside] at hs

theorem step_semicolon (hs : inCode s) :
    step s semicolon = (finish s ++ [.self semicolon], .start) ∨ step s semicolon = fail := by
  have hd : draws s semicolon = false := by cases s <;> rfl
  refine (flushes_break hs (by decide) hd).imp_left fun h => ?_
  rw [step_of_flushes h, first_semicolon]

theorem eq_str_of_inString (h : inString s) : ∃ kind acc, s = .str kind acc := by
  cases s with
  | str kind acc => exact ⟨kind, acc, rfl⟩
  | _ => simp [inString] at h

theorem inString_identQuote (acc : Bytes) : inString (identQuote acc).2 := by
  unfold identQuote
  split_ifs <;> rfl

theorem step_quote (hs : inCode s) : inString (step s quote).2 ∨ step s quote = fail := by
  have hfirst : first quote = ([], .str .plain []) := by decide
  have hcont : isIdentCont quote = false := by decide
  have hgap (kind : StrKind) (acc : Bytes) (newline : Bool) :
      inString (gapStep kind acc newline quote).2 := by
    have hn : isNewline quote = false := by decide
    have hsp : isSpace quote = false := by decide
    have hm : quote ≠ minus := by decide
    cases newline <;> simp [gapStep, hn, hsp, hm, hfirst, inString]
  cases hd : draws s quote with
  | false =>
    refine (flushes_break hs (by decide) hd).imp_left fun h => ?_
    simp [step_of_flushes h, hfirst, inString]
  | true =>
    left
    cases s with
    | ident acc => simpa [step, identStep, hcont] using inString_identQuote acc
    | uAmp acc => simp [step, inString]
    | strQuote kind acc =>
      simp only [step]
      split_ifs
      · rfl
      · exact hgap kind acc false
    | strGap kind acc newline => exact hgap kind acc newline
    | dollarTag acc =>
      have ht : isTagChar quote = false := by decide
      have hne : quote ≠ PgMux.dollar := by decide
      simpa [step, ht, hne, identStep, hcont] using inString_identQuote acc
    | _ => exact absurd hd Bool.false_ne_true

theorem step_dquote (hs : inCode s) :
    (∃ uni acc, (step s dquote).2 = .quotedIdent uni acc) ∨ step s dquote = fail := by
  have hfirst : first dquote = ([], .quotedIdent false []) := by decide
  cases hd : draws s dquote with
  | false =>
    refine (flushes_break hs (by decide) hd).imp_left fun h => ⟨false, [], ?_⟩
    simp [step_of_flushes h, hfirst]
  | true =>
    left
    cases s with
    | uAmp acc =>
      have hne : dquote ≠ quote := by decide
      exact ⟨true, [], by simp [step, hne]⟩
    | quotedIdentQuote uni acc => exact ⟨uni, acc ++ [dquote], by simp [step]⟩
    | _ => exact absurd hd Bool.false_ne_true

theorem semicolon_notMem_of_not_inCode (h : inCode s = false) (c : Byte) :
    Tok.self semicolon ∉ (step s c).1 := by
  cases s with
  | quotedIdent | str | strGapComment | lineComment =>
    simp only [step]
    split_ifs <;> simp
  | strBackslash | error => simp [step]
  | dollarBody tag acc pending =>
    rcases bodyStep_cases tag acc pending c with ⟨_, _, hb⟩ | hb <;> simp [step, hb]
  | blockComment depth last =>
    rcases commentStep_cases depth last c with ⟨_, _, hb⟩ | hb <;> simp [step, hb]
  | _ => simp [inCode, topLevel, outside] at h

theorem step_of_semicolon_mem (h : Tok.self semicolon ∈ (step s c).1) :
    step s c = (finish s ++ [.self semicolon], .start) := by
  have hc : c = semicolon := by
    by_contra hc
    exact semicolon_notMem_step hc s h
  subst hc
  cases hs : inCode s with
  | false => exact absurd h (semicolon_notMem_of_not_inCode hs _)
  | true =>
    rcases step_semicolon hs with hflush | hfail
    · exact hflush
    · simp [hfail, fail] at h

def lexSplitFrom : State → Bytes → Bytes → List Bytes
  | _, cur, [] => [cur]
  | s, cur, c :: w =>
    if Tok.self semicolon ∈ (step s c).1 then cur :: lexSplitFrom (step s c).2 [] w
    else lexSplitFrom (step s c).2 (cur ++ [c]) w

theorem splitSemicolons_of_notMem {ts : List Tok} (h : Tok.self semicolon ∉ ts) :
    splitSemicolons ts = [ts] := by
  induction ts with
  | nil => rfl
  | cons t ts ih =>
    obtain ⟨ht, hts⟩ := by simpa using h
    simp [splitSemicolons, Ne.symm ht, ih hts]

theorem splitSemicolons_append {ts : List Tok} (us : List Tok) (h : Tok.self semicolon ∉ ts) :
    splitSemicolons (ts ++ Tok.self semicolon :: us) = ts :: splitSemicolons us := by
  induction ts with
  | nil => simp [splitSemicolons]
  | cons t ts ih =>
    obtain ⟨ht, hts⟩ := by simpa using h
    simp [splitSemicolons, Ne.symm ht, ih hts]

theorem splitSemicolons_outputFrom (cur v : Bytes)
    (hcur : Tok.self semicolon ∉ lexer.emitted .start cur) :
    splitSemicolons (lexer.emitted .start cur ++ lexer.outputFrom (lexer.after .start cur) v) =
      (lexSplitFrom (lexer.after .start cur) cur v).map lex := by
  induction v generalizing cur with
  | nil =>
    have hfin := semicolon_notMem_finish (lexer.after .start cur)
    rw [splitSemicolons_of_notMem (by simp [hcur, hfin])]
    simp [lexSplitFrom, lex, Transducer.output, Transducer.outputFrom]
  | cons c w ih =>
    have hemit : lexer.emitted .start (cur ++ [c]) =
        lexer.emitted .start cur ++ (step (lexer.after .start cur) c).1 := by
      simp [Transducer.emitted_append]
    have hafter : lexer.after .start (cur ++ [c]) = (step (lexer.after .start cur) c).2 := by
      simp [Transducer.after_append]
    rw [Transducer.outputFrom_cons, lexSplitFrom, lexer_step]
    split_ifs with hcut
    · have hnil := ih [] (by simp)
      have hfin := semicolon_notMem_finish (lexer.after .start cur)
      rw [step_of_semicolon_mem hcut, List.append_assoc, ← List.append_assoc, List.singleton_append,
        splitSemicolons_append _ (by simp [hcur, hfin])]
      simpa [lex, Transducer.output, Transducer.outputFrom] using hnil
    · rw [← List.append_assoc, ← hemit, ← hafter]
      exact ih (cur ++ [c]) (by simp [hemit, hcur, hcut])

theorem splitSemicolons_lex (q : Bytes) :
    splitSemicolons (lex q) = (lexSplitFrom .start [] q).map lex :=
  splitSemicolons_outputFrom [] q (by simp)

def marked (c : Byte) : State → Bool
  | .op acc => acc.getLast? == some c
  | .strGapDash .. => c == minus
  | .expSign _ | .error => true
  | _ => false

def inLineComment : State → Bool
  | .lineComment | .strGapComment .. => true
  | _ => false

theorem marked_step (hs : inCode s) (hc : c = minus ∨ c = slash) (ho : opensComment s [c] = false) :
    marked c (step s c).2 := by
  have hfirst : first c = ([], .op [c]) := by rcases hc with rfl | rfl <;> decide
  have hop (acc : Bytes) (h : ¬ (c = minus ∧ acc.getLast? = some minus)) :
      marked c (opStep acc c).2 := by
    have hstar : c ≠ star := by rcases hc with rfl | rfl <;> decide
    have hopc : isOpChar c := by rcases hc with rfl | rfl <;> decide
    simp [opStep, h, hstar, hopc, marked]
  have hgap (kind : StrKind) (acc : Bytes) (newline : Bool) (h : c = minus) :
      marked c (gapStep kind acc newline c).2 := by
    have hn : isNewline minus = false := by decide
    have hsp : isSpace minus = false := by decide
    simp [gapStep, h, hn, hsp, marked]
  have hquote : c ≠ quote := by rcases hc with rfl | rfl <;> decide
  have hdollar : c ≠ PgMux.dollar := by rcases hc with rfl | rfl <;> decide
  have hdquote : c ≠ dquote := by rcases hc with rfl | rfl <;> decide
  cases hd : draws s c with
  | false =>
    rcases flushes_break hs (by rcases hc with rfl | rfl <;> decide) hd with h | h
    · simp [step_of_flushes h, hfirst, marked]
    · simp [h, fail, marked]
  | true =>
    cases s with
    | uAmp acc =>
      have hlast : [ampersand].getLast? ≠ some minus := by decide
      simpa [step, hquote, hdquote] using hop [ampersand] fun h => hlast h.2
    | strQuote kind acc =>
      simpa [step, hquote] using hgap kind acc false (by simpa [draws, hquote] using hd)
    | strGap kind acc newline => exact hgap kind acc newline (by simpa [draws, hquote] using hd)
    | strGapDash kind acc =>
      have hm : c ≠ minus := by simpa [opensComment] using ho
      simpa [step, hm] using hop [minus] (by simp [hm])
    | expStart acc =>
      have hdigit : isDigit c = false := by rcases hc with rfl | rfl <;> decide
      have hsign : isSign c := hd
      simp [step, hdigit, hsign, marked]
    | op acc =>
      refine hop acc fun h => ?_
      simp [opensComment, h.1, h.2] at ho
    | _ => simp [draws, hquote, hdquote, hdollar] at hd

theorem step_marked_minus (h : marked minus s) :
    inLineComment (step s minus).2 ∨ (step s minus).2 = .error := by
  have hd : isDigit minus = false := by decide
  cases s with
  | op acc =>
    have hl : acc.getLast? = some minus := by simpa [marked] using h
    exact .inl (by simp [step, opStep, hl, inLineComment])
  | strGapDash kind acc => exact .inl (by simp [step, inLineComment])
  | expSign acc => exact .inr (by simp [step, hd, fail])
  | error => exact .inr rfl
  | _ => simp [marked] at h

theorem step_marked_slash (h : marked slash s) :
    (step s star).2 = .blockComment 0 0 ∨ (step s star).2 = .error := by
  have hd : isDigit star = false := by decide
  have hm : star ≠ minus := by decide
  cases s with
  | op acc =>
    have hl : acc.getLast? = some slash := by simpa [marked] using h
    exact .inl (by simp [step, opStep, hl, hm])
  | strGapDash kind acc => exact absurd h (by simp [marked]; decide)
  | expSign acc => exact .inr (by simp [step, hd, fail])
  | error => exact .inr rfl
  | _ => simp [marked] at h

theorem first_ne_error (c : Byte) : (first c).2 ≠ .error := by
  unfold first
  split_ifs <;> simp

theorem identStep_ne_error (acc : Bytes) (c : Byte) : (identStep acc c).2 ≠ .error := by
  unfold identStep identQuote
  split_ifs <;> simp [first_ne_error]

theorem opStep_ne_error (acc : Bytes) (c : Byte) : (opStep acc c).2 ≠ .error := by
  unfold opStep
  split_ifs <;> simp [first_ne_error]

theorem gapStep_ne_error (kind : StrKind) (acc : Bytes) (newline : Bool) (c : Byte) :
    (gapStep kind acc newline c).2 ≠ .error := by
  unfold gapStep
  split_ifs <;> simp [first_ne_error]

theorem step_eq_error (h : (step s c).2 = .error) (hs : s ≠ .error) : Tok.error ∈ (step s c).1 := by
  have hfirst := first_ne_error c
  cases s with
  | start => exact absurd h hfirst
  | ident acc => exact absurd h (identStep_ne_error acc c)
  | op acc => exact absurd h (opStep_ne_error acc c)
  | strGap kind acc newline => exact absurd h (gapStep_ne_error kind acc newline c)
  | dollarBody tag acc pending =>
    rcases bodyStep_cases tag acc pending c with ⟨_, _, hb⟩ | hb <;> simp [step, hb] at h
  | blockComment depth last =>
    rcases commentStep_cases depth last c with ⟨_, _, hb⟩ | hb <;> simp [step, hb] at h
  | integer acc last | frac acc last | exp signed acc last =>
    cases last
    all_goals
      simp only [step, integerStep, fracStep, expStep] at h ⊢
      (repeat' split at h) <;> simp_all [fail]
  | strBackslash acc => simp [step] at h
  | error => exact absurd rfl hs
  | _ =>
    simp only [step, numDotStep, radixStep] at h ⊢
    split_ifs at h ⊢ <;>
      simp_all [fail, identStep_ne_error, opStep_ne_error, gapStep_ne_error]

end PgMux.PgLexer
