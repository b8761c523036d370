import PgMux.ScannerTags
import PgMux.Synthesizer

/-!
# Placeholders the scanner and PostgreSQL both see

The scanner and the lexer run over the same bytes as long as a text keeps to what both read alike,
and then every `$n` that one of them takes for a parameter is one for the other.
-/

namespace PgMux.Placeholders

open PgLexer (State lexer step finish inRange params paramsFrom openingTag closingTag isIdentStart
  outside inString)
open DollarTag (parseDollarTag)
open ScannerTags
open Synthesizer (Piece Mode scan replaced placeholder)

def candidateAhead (n : Nat) : Bytes → Bool
  | [] => false
  | c :: w => (c == dollar && inRange n (w.takeWhile isDigit)) || candidateAhead n w

def misnumbered (n : Nat) (w : Bytes) : Bool :=
  inRange n (w.takeWhile isDigit) &&
    ((w.head? == some 48) != (w.dropWhile isDigit).head?.any isIdentStart)

def clearAt (n : Nat) (s : State) : Bytes → Bool
  | [] => true
  | c :: w =>
    match s with
    | .str .. | .dollarBody .. | .dollar | .dollarTag _ => true
    | .strBackslash _ => c != quote
    | _ =>
      if c = quote then inString (step s c).2
      else if c = dollar then
        if (step s c).2 = .dollar then !highTag w && !misnumbered n w
        else parseDollarTag (c :: w) == none && placeholder n w == none
      else true

def clearFrom (n : Nat) (s : State) : Bytes → Bool
  | [] => true
  | c :: w => !candidateAhead n (c :: w) || (clearAt n s (c :: w) && clearFrom n (step s c).2 w)

def clear (n : Nat) (query : Bytes) : Bool := clearFrom n .start query

variable {n : Nat} {w v : Bytes} {s : State}

theorem clearFrom_of_not_candidateAhead (s : State) (h : candidateAhead n w = false) :
    clearFrom n s w := by
  cases w with
  | nil => rfl
  | cons c w => simp [clearFrom, h]

theorem clearFrom_append {u : Bytes} (h : clearFrom n s (u ++ v)) :
    clearFrom n (lexer.after s u) v := by
  induction u generalizing s with
  | nil => exact h
  | cons c u ih =>
    by_cases hc : candidateAhead n (c :: (u ++ v))
    · simp only [List.cons_append, clearFrom, hc, Bool.not_true, Bool.false_or,
        Bool.and_eq_true] at h
      exact ih h.2
    · refine clearFrom_of_not_candidateAhead _ ?_
      simp only [candidateAhead, Bool.or_eq_true, not_or] at hc
      have hrest : candidateAhead n (u ++ v) = false := by simpa using hc.2
      clear ih h hc
      induction u with
      | nil => exact hrest
      | cons d u ih => exact ih (by simp [candidateAhead] at hrest; simpa using hrest.2)

theorem placeholder_eq_some {ds : Bytes} (h : placeholder n w = some ds) :
    ds = w.takeWhile isDigit ∧ inRange n ds ∧ w.head? ≠ some 48 ∧ w.head?.any isDigit := by
  unfold placeholder at h
  simp only at h
  split_ifs at h with hd hr
  obtain rfl := Option.some.inj h
  refine ⟨rfl, by simp [inRange, hr.2.1, hr.2.2], ?_, ?_⟩
  · intro h0
    simp [h0] at hd
  · cases w with
    | nil => simp at hd
    | cons c w =>
      simp only [List.head?_cons, Option.any_some, Bool.and_eq_true, decide_eq_true_eq] at hd ⊢
      simp only [isDigit, Bool.and_eq_true, decide_eq_true_eq]
      exact ⟨UInt8.le_trans (by decide : (48 : Byte) ≤ 49) hd.1, hd.2⟩

def replacedOf (ps : List Piece) : List (Nat × Nat) := ps.filterMap Piece.replaced

@[simp] theorem replacedOf_nil : replacedOf [] = [] := rfl
@[simp] theorem replacedOf_byte (b : Byte) (ps : List Piece) :
    replacedOf (.byte b :: ps) = replacedOf ps := rfl
@[simp] theorem replacedOf_lit (pos idx : Nat) (ps : List Piece) :
    replacedOf (.lit pos idx :: ps) = (pos, idx + 1) :: replacedOf ps := rfl
@[simp] theorem replacedOf_map_byte_append (w : Bytes) (ps : List Piece) :
    replacedOf (w.map .byte ++ ps) = replacedOf ps := by
  induction w with
  | nil => rfl
  | cons c w ih => simpa using ih

@[simp] theorem replacedOf_map_byte (w : Bytes) : replacedOf (w.map .byte) = [] := by
  simpa using replacedOf_map_byte_append w []

theorem placeholder_eq_none_of_not_candidate (h : inRange n (w.takeWhile isDigit) = false) :
    placeholder n w = none := by
  rw [Option.eq_none_iff_forall_ne_some]
  intro ds hds
  obtain ⟨rfl, hr, _⟩ := placeholder_eq_some hds
  simp [h] at hr

theorem replacedOf_scan_of_not_candidateAhead (m : Mode) (i : Nat)
    (h : candidateAhead n w = false) : replacedOf (scan n m i w) = [] := by
  induction w generalizing m i with
  | nil => simp
  | cons c w ih =>
    obtain ⟨hc, hw⟩ := by simpa only [candidateAhead, Bool.or_eq_false_iff] using h
    have next := fun m => ih m (i + 1) hw
    cases m with
    | code =>
      by_cases hq : c = quote
      · subst hq
        simp [Synthesizer.scan_code_quote, next]
      by_cases hd : c = dollar
      · subst hd
        have hp := placeholder_eq_none_of_not_candidate (by simpa using hc)
        cases ht : parseDollarTag (dollar :: w) with
        | none => simp [Synthesizer.scan_code_dollar n i ht hp, next]
        | some tag =>
          rw [Synthesizer.scan_code_tag n i ht]
          split_ifs
          · simp [next]
          · split
            · exact replacedOf_map_byte (dollar :: w)
            · simp [next]
      · simp [Synthesizer.scan_code_other n i w hq hd, next]
    | quoted =>
      unfold scan
      split_ifs <;> simp [next]
    | quotedPair => simp [scan, next]
    | copy k | skip k => cases k <;> simp [scan, next]

def Idle (n : Nat) (w : Bytes) : State → Prop
  | .dollar => inRange n (w.takeWhile isDigit) = false
  | .param ds => inRange n (ds ++ w.takeWhile isDigit) = false
  | _ => True

theorem idle_step {c : Byte} (hs : Idle n (c :: w) s) (h : candidateAhead n (c :: w) = false) :
    Idle n w (step s c).2 := by
  cases hnext : (step s c).2 with
  | dollar =>
    obtain ⟨rfl, _⟩ := PgLexer.step_eq_dollar hnext
    simpa [Idle] using (Bool.or_eq_false_iff.mp h).1
  | param ds =>
    obtain ⟨hd, rfl | ⟨ds', rfl⟩⟩ := PgLexer.step_eq_param hnext
    · obtain rfl : ds = [c] := by simpa [step, hd, eq_comm] using hnext
      simpa [Idle, hd] using hs
    · obtain rfl : ds = ds' ++ [c] := by simpa [step, hd, eq_comm] using hnext
      simpa [Idle, hd] using hs
  | _ => trivial

theorem paramsFrom_of_not_candidateAhead (i : Nat) (hs : Idle n w s)
    (h : candidateAhead n w = false) : paramsFrom n i s w = [] := by
  induction w generalizing i s with
  | nil =>
    by_cases hp : ∃ ds, s = .param ds
    · obtain ⟨ds, rfl⟩ := hp
      have hr : inRange n ds = false := by simpa [Idle] using hs
      rw [PgLexer.paramsFrom_param n i ds rfl rfl, hr, PgLexer.paramsFrom_nil n i (by simp)]
      rfl
    · exact PgLexer.paramsFrom_nil n i (by simpa using hp)
  | cons c w ih =>
    have hw : candidateAhead n w = false := (Bool.or_eq_false_iff.mp h).2
    have hrest := ih (i + 1) (idle_step hs h) hw
    by_cases hp : ∃ ds, s = .param ds
    · obtain ⟨ds, rfl⟩ := hp
      by_cases hd : isDigit c
      · rw [PgLexer.paramsFrom_cons n i w (by simp [step, hd]), hrest]
      by_cases hi : isIdentStart c
      · exact PgLexer.paramsFrom_param_junk n i ds (by simpa using hd) (by simpa using hi)
      have hr : inRange n ds = false := by simpa [Idle, hd] using hs
      have hstep : (step (.param ds) c).2 = (step .start c).2 := by simp [step, hd, hi]
      rw [PgLexer.paramsFrom_param n i ds (by simpa using hd) (by simpa using hi), hr,
        PgLexer.paramsFrom_cons n i w (PgLexer.paramFree_step (by simp) c), ← hstep, hrest]
      rfl
    · rw [PgLexer.paramsFrom_cons n i w (PgLexer.paramFree_step (by simpa using hp) c), hrest]

inductive InCode (v : Bytes) : State → Prop
  | outside {s : State} (h : outside s) : InCode v s
  | dollar (hd : v.head?.any isDigit = false) (ht : openingTag v = none) : InCode v .dollar
  | dollarTag (acc : Bytes) (h : (v.dropWhile PgLexer.isTagChar).head? ≠ some dollar) :
      InCode v (.dollarTag acc)

inductive InQuotes : State → Prop
  | str (kind : PgLexer.StrKind) (acc : Bytes) : InQuotes (.str kind acc)
  | strBackslash (acc : Bytes) : InQuotes (.strBackslash acc)
  | error : InQuotes .error

theorem inCode_ne_param (h : InCode v s) (ds : Bytes) : s ≠ .param ds := by
  rintro rfl
  cases h with
  | outside h => simp [PgLexer.outside] at h

theorem inQuotes_ne_param (h : InQuotes s) (ds : Bytes) : s ≠ .param ds := by
  rintro rfl
  cases h

theorem inCode_step {c : Byte} (h : InCode (c :: w) s) (hq : c ≠ quote) (hd : c ≠ dollar) :
    InCode w (step s c).2 := by
  have land {ts : List PgLexer.Tok} {r : List PgLexer.Tok × State}
      (hl : PgLexer.Lands PgLexer.outside ts c r) : InCode w r.2 := by
    rcases hl.state with ho | ⟨hc, _⟩ | ⟨hc, _⟩
    · exact .outside ho
    · exact absurd hc hq
    · exact absurd hc hd
  cases h with
  | outside h => exact land (PgLexer.lands_outside h c)
  | dollar hdig ht =>
    have hdig : isDigit c = false := by simpa using hdig
    simp only [PgLexer.step, hdig, hd, Bool.false_eq_true, ↓reduceIte]
    split_ifs with hi
    · refine .dollarTag _ fun hend => ?_
      have htag : PgLexer.isTagChar c := PgLexer.isTagChar_of_isIdentStart hi
      simp [openingTag, hd, hi, htag, hend] at ht
    · exact land (PgLexer.lands_emit_first c (PgLexer.quiet_mark c (.inl rfl))).outside
  | dollarTag acc hend =>
    simp only [PgLexer.step, hd, ↓reduceIte]
    split_ifs with hi
    · exact .dollarTag _ (by simpa [hi] using hend)
    · exact land ((PgLexer.lands_identStep acc c).emit (PgLexer.quiet_mark c (.inl rfl))).outside

def Agree (n i : Nat) (m : Mode) (s : State) (v : Bytes) : Prop :=
  replacedOf (scan n m i v) = paramsFrom n i s v

def AgreeBelow (n len : Nat) : Prop :=
  ∀ v i s, v.length < len → clearFrom n s v →
    (InCode v s → Agree n i .code s v) ∧ (InQuotes s → Agree n i .quoted s v)

section cases

variable {n i : Nat} {s : State} {c : Byte} {w : Bytes} (ih : AgreeBelow n (w.length + 1))
  (hrest : clearFrom n (step s c).2 w)

include ih hrest

theorem agree_quoted (hclear : clearAt n s (c :: w)) (hs : InQuotes s) :
    Agree n i .quoted s (c :: w) := by
  have hfree := PgLexer.paramFree_step (inQuotes_ne_param hs) c
  obtain ⟨hcode, hquoted⟩ := ih w (i + 1) _ (by simp) hrest
  rw [Agree, PgLexer.paramsFrom_cons n i w hfree]
  by_cases hq : c = quote
  · subst hq
    rw [Synthesizer.scan_quoted_quote, replacedOf_byte]
    cases hs with
    | str kind acc => exact hcode (.outside (by simp [step, PgLexer.step, outside]))
    | strBackslash acc => simp [clearAt] at hclear
    | error => simp [clearAt, PgLexer.step, inString] at hclear
  · rw [Synthesizer.scan_quoted_other n i w hq, replacedOf_byte]
    refine hquoted ?_
    cases hs with
    | str kind acc =>
      simp only [PgLexer.step, hq, ↓reduceIte]
      split_ifs
      · exact .strBackslash _
      · exact .str _ _
    | strBackslash acc => exact .str _ _
    | error => exact .error

theorem agree_code_quote (hclear : clearAt n s (c :: w)) (hc : c = quote) (hs : InCode (c :: w) s) :
    Agree n i .code s (c :: w) := by
  have hfree := PgLexer.paramFree_step (inCode_ne_param hs) c
  obtain ⟨_, hquoted⟩ := ih w (i + 1) _ (by simp) hrest
  subst hc
  rw [Agree, PgLexer.paramsFrom_cons n i w hfree, Synthesizer.scan_code_quote, replacedOf_byte]
  refine hquoted ?_
  have hstr : inString (step s quote).2 := by
    cases hs with
    | dollar => rfl
    | dollarTag acc =>
      have htag : PgLexer.isTagChar quote = false := by decide
      have hcont : PgLexer.isIdentCont quote = false := by decide
      simp only [PgLexer.step, PgLexer.identStep, PgLexer.identQuote, htag, hcont]
      split_ifs <;> first | rfl | simp_all
    | outside h => cases s <;> simp_all [clearAt, outside]
  cases hnext : (step s quote).2 with
  | str kind acc => exact .str kind acc
  | _ => simp [hnext, inString] at hstr

theorem agree_code_other (hq : c ≠ quote) (hd : c ≠ dollar) (hs : InCode (c :: w) s) :
    Agree n i .code s (c :: w) := by
  have hfree := PgLexer.paramFree_step (inCode_ne_param hs) c
  rw [Agree, PgLexer.paramsFrom_cons n i w hfree, Synthesizer.scan_code_other n i w hq hd,
    replacedOf_byte]
  exact (ih w (i + 1) _ (by simp) hrest).1 (inCode_step hs hq hd)

end cases

theorem scan_code_append (n i : Nat) {x : Bytes} (v : Bytes)
    (hx : ∀ c ∈ x, c ≠ quote ∧ c ≠ dollar) :
    scan n .code i (x ++ v) = x.map .byte ++ scan n .code (i + x.length) v := by
  induction x generalizing i with
  | nil => rfl
  | cons c x ih =>
    obtain ⟨hq, hd⟩ := hx c (by simp)
    rw [List.cons_append, Synthesizer.scan_code_other n i _ hq hd,
      ih (i + 1) fun d hd => hx d (by simp [hd])]
    simp [Nat.add_comm, Nat.add_left_comm]

theorem isDigit_ne {c : Byte} (h : isDigit c) : c ≠ quote ∧ c ≠ dollar := by
  constructor <;> rintro rfl <;> revert h <;> decide

theorem clearFrom_param {ds : Bytes} (hd : v.head?.any isDigit = false)
    (hi : v.head?.any isIdentStart = false) (h : clearFrom n (.param ds) v) :
    clearFrom n .start v := by
  cases v with
  | nil => rfl
  | cons c v =>
    have hstep : (step (.param ds) c).2 = (step .start c).2 := by
      simp only [List.head?_cons, Option.any_some] at hd hi
      simp [PgLexer.step, hd, hi]
    simpa only [clearFrom, clearAt, hstep] using h

theorem head_dropWhile_isDigit (w : Bytes) : (w.dropWhile isDigit).head?.any isDigit = false := by
  have h := List.head?_dropWhile_not isDigit w
  cases hd : (w.dropWhile isDigit).head? with
  | none => rfl
  | some c => simpa [hd] using h

theorem openingTag_of_isDigit (h : w.head?.any isDigit) : openingTag w = none := by
  cases w with
  | nil => rfl
  | cons c w =>
    have hc : isDigit c := by simpa using h
    have hi : isIdentStart c = false := by
      by_contra hi
      simp [PgLexer.isIdentStart_not_digit (by simpa using hi)] at hc
    simp [openingTag, (isDigit_ne hc).2, hi]

theorem placeholder_of_isDigit (hn : n < 2 ^ 63) (hw : w.head?.any isDigit) (h0 : w.head? ≠ some 48)
    (hr : inRange n (w.takeWhile isDigit)) : placeholder n w = some (w.takeWhile isDigit) := by
  obtain ⟨h1, hle⟩ : 1 ≤ decimal (w.takeWhile isDigit) ∧ decimal (w.takeWhile isDigit) ≤ n := by
    simpa [inRange] using hr
  have hfirst : w.head?.any (fun c => 49 ≤ c && c ≤ 57) := by
    cases w with
    | nil => simp at hw
    | cons c w =>
      grind [isDigit]
  simp only [placeholder, hfirst, ↓reduceIte]
  rw [if_pos ⟨by omega, h1, hle⟩]

theorem candidateAhead_append (n : Nat) {x : Bytes} (hx : dollar ∉ x) (v : Bytes) :
    candidateAhead n (x ++ v) = candidateAhead n v := by
  induction x with
  | nil => rfl
  | cons c x ih =>
    obtain ⟨hc, hx⟩ := by simpa using hx
    simp [candidateAhead, Ne.symm hc, ih hx]

section dollar

variable {n i : Nat} {s : State} {w : Bytes} (ih : AgreeBelow n (w.length + 1))
  (hs : step s dollar = (finish s, .dollar)) (hne : ∀ ds, s ≠ .param ds)
  (hrest : clearFrom n (step s dollar).2 w)

include ih hs hne hrest

theorem agree_number (hn : n < 2 ^ 63) (hw : w.head?.any isDigit) (hm : misnumbered n w = false) :
    Agree n i .code s (dollar :: w) := by
  obtain ⟨ds, v, hds, hv⟩ : ∃ ds v, ds = w.takeWhile isDigit ∧ v = w.dropWhile isDigit :=
    ⟨_, _, rfl, rfl⟩
  have hsplit : w = ds ++ v := by rw [hds, hv, List.takeWhile_append_dropWhile]
  have hdig : ∀ c ∈ ds, isDigit c := fun c hc => List.mem_takeWhile_imp (hds ▸ hc)
  have hdsne : ds ≠ [] := by
    cases w with
    | nil => simp at hw
    | cons c w => simp [hds, show isDigit c by simpa using hw]
  have hlen : v.length < w.length := by
    have := List.length_pos_iff.mpr hdsne
    rw [hsplit, List.length_append]
    omega
  have hvd : v.head?.any isDigit = false := hv ▸ head_dropWhile_isDigit w
  have htag := parseDollarTag_eq_none (openingTag_of_isDigit hw)
  obtain ⟨hem, haf⟩ := PgLexer.dollar_digits hs hdsne (List.all_eq_true.mpr hdig)
  have hlex : paramsFrom n i s (dollar :: w) = paramsFrom n (i + 1 + ds.length) (.param ds) v := by
    have h := PgLexer.paramsFrom_append n i v (hem ▸ PgLexer.paramFree_finish hne)
    rw [haf] at h
    simpa [hsplit, Nat.add_comm, Nat.add_left_comm] using h
  have hclear : clearFrom n (.param ds) v := by
    have hafter : lexer.after (step s dollar).2 ds = .param ds := haf
    rw [hsplit] at hrest
    exact hafter ▸ clearFrom_append hrest
  -- The scanner copies a number it does not take; the digits contain no quote and no `$`.
  have hcopy (hp : placeholder n w = none) :
      replacedOf (scan n .code i (dollar :: w)) =
        replacedOf (scan n .code (i + 1 + ds.length) v) := by
    rw [Synthesizer.scan_code_dollar n i htag hp, replacedOf_byte, hsplit,
      scan_code_append n (i + 1) v fun c hc => isDigit_ne (hdig c hc), replacedOf_map_byte_append]
  rw [Agree, hlex]
  by_cases hi : v.head?.any isIdentStart
  · have hp : placeholder n w = none := by
      by_cases hr : inRange n ds
      · have h0 : w.head? = some 48 := by simpa [misnumbered, ← hds, ← hv, hr, hi] using hm
        simp [placeholder, h0]
      · exact placeholder_eq_none_of_not_candidate (by simpa [← hds] using hr)
    rw [hcopy hp, PgLexer.paramsFrom_param_junk n _ ds hvd hi]
    cases v with
    | nil => simp at hi
    | cons c v =>
      have hi : isIdentStart c := by simpa using hi
      have hstep : step (.param ds) c = PgLexer.fail := by
        simp [PgLexer.step, hi, PgLexer.isIdentStart_not_digit hi]
      have herr : clearFrom n .error v := by
        have h := clearFrom_append (u := [c]) hclear
        simpa [hstep, PgLexer.fail] using h
      have hc : c ≠ quote ∧ c ≠ dollar := by
        constructor <;> rintro rfl <;> revert hi <;> decide
      have hnext :=
        (ih v (i + 1 + ds.length + 1) .error (by simp at hlen; omega) herr).1 (.outside rfl)
      rw [Synthesizer.scan_code_other n _ v hc.1 hc.2, replacedOf_byte, hnext,
        PgLexer.paramsFrom_error]
  · have hi : v.head?.any isIdentStart = false := by simpa using hi
    have hnext : Agree n (i + 1 + ds.length) .code .start v :=
      (ih v (i + 1 + ds.length) .start (by omega) (clearFrom_param hvd hi hclear)).1 (.outside rfl)
    rw [PgLexer.paramsFrom_param n _ ds hvd hi]
    by_cases hr : inRange n ds
    · have h0 : w.head? ≠ some 48 := by simpa [misnumbered, ← hds, ← hv, hr, hi] using hm
      have hp := placeholder_of_isDigit hn hw h0 (hds ▸ hr)
      have hskip := Synthesizer.scan_skip n (i + 1) (k := ds.length - 1) v (u := ds) (by
        have := List.length_pos_iff.mpr hdsne
        omega)
      have hone : 1 ≤ decimal ds := by simpa [inRange] using (Bool.and_eq_true_iff.mp hr).1
      rw [Synthesizer.scan_code_placeholder n i htag hp, replacedOf_lit, ← hds]
      rw [← hsplit] at hskip
      rw [hskip, hnext, if_pos hr, Nat.sub_add_cancel hone,
        show i + 1 + ds.length - (ds.length + 1) = i by omega]
      rfl
    · have hp := placeholder_eq_none_of_not_candidate (n := n) (w := w) (by simpa [← hds] using hr)
      rw [hcopy hp, hnext]
      simp [hr]

theorem agree_dollarQuote {t : Bytes} (ht : openingTag w = some t) (hh : highTag w = false)
    (hcand : candidateAhead n (dollar :: w)) : Agree n i .code s (dollar :: w) := by
  obtain ⟨htext, v, rfl⟩ := PgLexer.openingTag_iff.mp ht
  obtain ⟨hem, haf⟩ := PgLexer.openingTag_run htext
  have htag := parseDollarTag_eq_some ht hh
  have hlen : (closingTag t).length = t.length + 2 := by simp [closingTag]
  have hbody : (t ++ dollar :: v).drop ((closingTag t).length - 1) = v := by
    rw [hlen, show t ++ dollar :: v = (t ++ [dollar]) ++ v by simp]
    exact List.drop_left' (by simp)
  have hlex : paramsFrom n i s (dollar :: (t ++ dollar :: v)) =
      paramsFrom n (i + (t.length + 2)) (.dollarBody (closingTag t) [] none) v := by
    rw [PgLexer.paramsFrom_cons n i _ (PgLexer.paramFree_step hne dollar), hs,
      show t ++ dollar :: v = (t ++ [dollar]) ++ v by simp,
      PgLexer.paramsFrom_append n (i + 1) v (by rw [hem]; exact PgLexer.paramFree_nil), haf]
    simp [Nat.add_comm, Nat.add_left_comm]
  rw [Agree, hlex, Synthesizer.scan_code_tag n i htag, hbody]
  split_ifs with hv
  · exfalso
    have hfree := candidateAhead_append n htext.dollar_notMem [dollar]
    have hhead : (t ++ [dollar]).takeWhile isDigit = [] := by
      cases t with
      | nil => rfl
      | cons c t =>
        have hc : isIdentStart c := by simpa using htext.head
        simp [PgLexer.isIdentStart_not_digit hc]
    simp [candidateAhead, hv, hhead, hfree, inRange, decimal] at hcand
  · cases hk : index (closingTag t) v with
    | none =>
      obtain ⟨hem', acc, pend, haf'⟩ :=
        PgLexer.dollarBody_open htext [] PgLexer.pending_none v (by simpa using hk)
      have h := PgLexer.paramsFrom_append n (i + (t.length + 2)) [] (hem' ▸ PgLexer.paramFree_nil)
      rw [List.append_nil, haf', PgLexer.paramsFrom_nil _ _ (by simp)] at h
      rw [h]
      exact replacedOf_map_byte _
    | some k =>
      obtain ⟨u, w', body, rfl, hu, hem', haf'⟩ :=
        PgLexer.dollarBody_closed htext [] PgLexer.pending_none v (by simpa using hk)
      have hu : u.length = k + (t.length + 2) := by simpa [hlen] using hu
      have hcopy := Synthesizer.scan_copy n (i + 1) (k := 2 * (closingTag t).length + k - 2) w'
        (u := t ++ dollar :: u) (by simp [hlen, hu]; omega)
      have hlex' := PgLexer.paramsFrom_append n (i + (t.length + 2)) w'
        (s := .dollarBody (closingTag t) [] none) (u := u)
          (by rw [hem']; exact PgLexer.paramFree_str _ _)
      have hclear : clearFrom n .start w' := by
        rw [hs, show t ++ dollar :: (u ++ w') = (t ++ [dollar]) ++ (u ++ w') by simp] at hrest
        have h := clearFrom_append (clearFrom_append hrest)
        rwa [haf, haf'] at h
      have hnext :=
        (ih w' (i + 1 + (t ++ dollar :: u).length) .start (by simp; omega) hclear).1 (.outside rfl)
      have hpos : i + (t.length + 2) + u.length =
        i + 1 + (t ++ dollar :: u).length := by simp; omega
      rw [hlex', haf', hpos, ← hnext]
      simp only [List.append_assoc, List.cons_append] at hcopy
      simp [hcopy]

theorem agree_dollar (hn : n < 2 ^ 63) (hh : highTag w = false) (hm : misnumbered n w = false)
    (hcand : candidateAhead n (dollar :: w)) : Agree n i .code s (dollar :: w) := by
  by_cases hw : w.head?.any isDigit
  · exact agree_number ih hs hne hrest hn hw hm
  cases ht : openingTag w with
  | some t => exact agree_dollarQuote ih hs hne hrest ht hh hcand
  | none =>
    have hp : placeholder n w = none := by
      rw [Option.eq_none_iff_forall_ne_some]
      intro ds hds
      exact hw (placeholder_eq_some hds).2.2.2
    rw [Agree, PgLexer.paramsFrom_cons n i w (PgLexer.paramFree_step hne dollar),
      Synthesizer.scan_code_dollar n i (parseDollarTag_eq_none ht) hp, replacedOf_byte]
    refine (ih w (i + 1) _ (by simp) hrest).1 ?_
    rw [hs]
    exact .dollar (by simpa using hw) ht

end dollar

theorem agree_code_dollar {i : Nat} (hn : n < 2 ^ 63) (ih : AgreeBelow n (w.length + 1))
    (hclear : clearAt n s (dollar :: w)) (hrest : clearFrom n (step s dollar).2 w)
    (hcand : candidateAhead n (dollar :: w)) (hs : InCode (dollar :: w) s) :
    Agree n i .code s (dollar :: w) := by
  have hne := inCode_ne_param hs
  cases hs with
  | dollar _ ht => simp [openingTag] at ht
  | dollarTag acc hend => simp [PgLexer.isTagChar_dollar] at hend
  | outside hout =>
    by_cases hopen : (step s dollar).2 = .dollar
    · obtain ⟨hh, hm⟩ : highTag w = false ∧ misnumbered n w = false := by
        cases s <;> simp_all [clearAt, outside]
      exact agree_dollar ih (PgLexer.step_eq_dollar hopen).2 hne hrest hn hh hm hcand
    · obtain ⟨ht, hp⟩ : parseDollarTag (dollar :: w) = none ∧ placeholder n w = none := by
        cases s <;> simp_all [clearAt, outside]
      rw [Agree, PgLexer.paramsFrom_cons n i w (PgLexer.paramFree_step hne dollar),
        Synthesizer.scan_code_dollar n i ht hp, replacedOf_byte]
      refine (ih w (i + 1) _ (by simp) hrest).1 (.outside ?_)
      rcases (PgLexer.lands_outside hout dollar).state with ho | ⟨hq, _⟩ | ⟨_, hd⟩
      · exact ho
      · exact absurd hq dollar_ne_quote
      · exact absurd (by rw [hd]) hopen

theorem inCode_idle (h : InCode v s) : Idle n v s := by
  cases h with
  | outside h => cases s <;> trivial
  | dollar hd _ =>
    have hnil : v.takeWhile isDigit = [] := by
      cases v with
      | nil => rfl
      | cons c v => simp [show isDigit c = false by simpa using hd]
    simp [Idle, hnil, inRange, decimal]
  | dollarTag acc _ => trivial

theorem inQuotes_idle (h : InQuotes s) : Idle n v s := by
  cases h <;> trivial

theorem agreeBelow (hn : n < 2 ^ 63) (len : Nat) : AgreeBelow n len := by
  induction len with
  | zero => intro v i s hv; simp at hv
  | succ len ih =>
    intro v i s hv hclear
    by_cases hcand : candidateAhead n v = false
    · have hscan := fun m => replacedOf_scan_of_not_candidateAhead m i hcand
      have hlex := fun hs => paramsFrom_of_not_candidateAhead (s := s) i hs hcand
      exact ⟨fun hs => by rw [Agree, hscan, hlex (inCode_idle hs)],
        fun hs => by rw [Agree, hscan, hlex (inQuotes_idle hs)]⟩
    · cases v with
      | nil => exact absurd rfl hcand
      | cons c w =>
        have hcand : candidateAhead n (c :: w) := by simpa using hcand
        obtain ⟨hat, hrest⟩ : clearAt n s (c :: w) ∧ clearFrom n (step s c).2 w := by
          simpa [clearFrom, hcand] using hclear
        have ih : AgreeBelow n (w.length + 1) := fun v' i' s' hlt =>
          ih v' i' s' (by simp at hv; omega)
        refine ⟨fun hs => ?_, agree_quoted ih hrest hat⟩
        by_cases hq : c = quote
        · exact agree_code_quote ih hrest hat hq hs
        by_cases hd : c = dollar
        · subst hd
          exact agree_code_dollar hn ih hat hrest hcand hs
        · exact agree_code_other ih hrest hq hd hs

/-- On a clear text `replacePlaceholders` replaces exactly PostgreSQL's parameters. -/
theorem replaced_eq_params (query : Bytes) (literals : List Bytes) (hn : literals.length < 2 ^ 63)
    (h : clear literals.length query) :
    replaced literals.length query = params literals.length query :=
  (agreeBelow hn (query.length + 1) query 0 .start (by simp) h).1 (.outside rfl)

theorem replaced_ne_params_quotedIdent :
    replaced [ascii "7"].length (ascii "SELECT \"$1\"") ≠
      params [ascii "7"].length (ascii "SELECT \"$1\"") := by
  decide +kernel

theorem replaced_eq_params_update :
    let query := ascii "UPDATE t SET a=$2, b='it''s $1' WHERE c=$1 -- ok"
    clear [ascii "7", ascii "8"].length query ∧
      replaced [ascii "7", ascii "8"].length query = params [ascii "7", ascii "8"].length query :=
  ⟨by decide +kernel, replaced_eq_params _ [ascii "7", ascii "8"] (by decide) (by decide +kernel)⟩

end PgMux.Placeholders
