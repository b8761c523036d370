import PgMux.PgLexer

/-!
# One step of the PostgreSQL lexer

What a single letter can do is said once, in `lands_step`: outside string constants and lexemes that
begin with `$` it leads to another such state, opens a string, or begins a `$` lexeme.
-/

namespace PgMux.PgLexer

@[simp] theorem emit_fst (ts : List Tok) (r : List Tok × State) : (emit ts r).1 = ts ++ r.1 := rfl
@[simp] theorem emit_snd (ts : List Tok) (r : List Tok × State) : (emit ts r).2 = r.2 := rfl

def quietTok (c : Byte) : Tok → Bool
  | .param _ => false
  | .self b => b == c || b == PgMux.dollar || b == PgMux.dot || b == PgMux.colon
  | _ => true

def Quiet (c : Byte) (ts : List Tok) : Prop := ∀ t ∈ ts, quietTok c t

@[simp] theorem quiet_nil (c : Byte) : Quiet c [] := by simp [Quiet]
@[simp] theorem quiet_append (c : Byte) (ts us : List Tok) :
    Quiet c (ts ++ us) ↔ Quiet c ts ∧ Quiet c us := by
  simp [Quiet, or_imp, forall_and]

theorem quiet_ident (c : Byte) (acc : Bytes) : Quiet c [.ident acc] := by simp [Quiet, quietTok]

theorem quiet_str (c : Byte) (kind : StrKind) (acc : Bytes) : Quiet c [.str kind acc] := by
  simp [Quiet, quietTok]

theorem quiet_mark {b : Byte} (c : Byte) (h : b = PgMux.dollar ∨ b = PgMux.dot ∨ b = PgMux.colon) :
    Quiet c [.self b] := by
  rcases h with rfl | rfl | rfl <;> simp [Quiet, quietTok]

theorem quiet_opTokens (c : Byte) (run : Bytes) : Quiet c (opTokens run) := by
  intro t ht
  simp only [opTokens] at ht
  split_ifs at ht <;> simp at ht
  · simp [ht, quietTok]
  · obtain ⟨b, _, rfl⟩ := ht
    rfl
  · rcases ht with rfl | ⟨b, _, rfl⟩ <;> rfl

def ParamFree (ts : List Tok) : Prop := ∀ ds, Tok.param ds ∉ ts

variable {c : Byte} {ts : List Tok} {r : List Tok × State} {s : State}

theorem Quiet.paramFree (h : Quiet c ts) : ParamFree ts := by
  intro ds hm
  simpa [quietTok] using h _ hm

@[simp] theorem paramFree_nil : ParamFree [] := by simp [ParamFree]
@[simp] theorem paramFree_append (ts us : List Tok) :
    ParamFree (ts ++ us) ↔ ParamFree ts ∧ ParamFree us := by
  simp [ParamFree, forall_and]

theorem paramFree_str (kind : StrKind) (acc : Bytes) : ParamFree [.str kind acc] := by
  simp [ParamFree]

def outside : State → Bool
  | .str .. | .strBackslash _ | .dollar | .dollarTag _ | .dollarBody .. | .param _ => false
  | _ => true

def inString : State → Bool
  | .str .. => true
  | _ => false

def topLevel : State → Bool
  | .quotedIdent .. | .strGapComment .. | .lineComment | .blockComment .. | .error => false
  | s => outside s

def opensComment (s : State) (v : Bytes) : Bool :=
  match s with
  | .op acc => (v.head? == some minus && acc.getLast? == some minus) ||
    (v.head? == some star && acc.getLast? == some slash)
  | .strGapDash .. => v.head? == some minus
  | _ => false

def enters (c : Byte) : State → Bool
  | .quotedIdent .. => c == dquote
  | .strGapDash .. => c == minus
  | .op acc => acc.getLast? == some c
  | .error => true
  | s => topLevel s

/-- Where a letter leads from a state of one kind. -/
structure Lands (p : State → Bool) (ts : List Tok) (c : Byte) (r : List Tok × State) : Prop where
  quiet : Quiet c r.1
  state : p r.2 ∨ (c = quote ∧ inString r.2) ∨ (c = PgMux.dollar ∧ r = (ts, .dollar))

variable {p : State → Bool} {us : List Tok} {ds : Bytes}

theorem Lands.mono {q : State → Bool} (h : Lands p ts c r) (hpq : ∀ s, p s → q s) :
    Lands q ts c r :=
  ⟨h.quiet, h.state.imp_left (hpq r.2)⟩

theorem outside_of_enters (h : enters c s) : outside s := by
  cases s <;> first | rfl | simp [enters, topLevel, outside] at h

theorem Lands.outside (h : Lands (enters c) ts c r) : Lands PgLexer.outside ts c r :=
  h.mono fun _ => outside_of_enters

theorem lands_of (hu : Quiet c us) (hs : p s) : Lands p ts c (us, s) := ⟨hu, .inl hs⟩

theorem lands_fail (ts : List Tok) (c : Byte) : Lands (enters c) ts c fail :=
  lands_of (by simp [Quiet, quietTok]) rfl

theorem lands_ite {q : Prop} [Decidable q] (hs : enters c s) :
    Lands (enters c) ts c (if q then ([], s) else fail) := by
  split_ifs
  · exact lands_of (by simp) hs
  · exact lands_fail ts c

theorem lands_first (c : Byte) : Lands (enters c) [] c (first c) := by
  unfold first
  split_ifs with _ _ _ hq hdq hd
  · exact lands_of (by simp) rfl
  · exact lands_of (by simp) rfl
  · exact lands_of (by simp) rfl
  · exact ⟨by simp, .inr (.inl ⟨hq, rfl⟩)⟩
  · exact lands_of (by simp) (by simp [enters, hdq])
  · exact ⟨by simp, .inr (.inr ⟨hd, rfl⟩)⟩
  · exact lands_of (by simp) rfl
  · exact lands_of (by simp) rfl
  · exact lands_of (by simp) (by simp [enters])
  · exact lands_of (by simp [Quiet, quietTok]) rfl

theorem Lands.emit (h : Lands p us c r) (ht : Quiet c ts) : Lands p (ts ++ us) c (emit ts r) := by
  refine ⟨by simpa using ⟨ht, h.quiet⟩, ?_⟩
  rcases h.state with hs | ⟨hq, hs⟩ | ⟨hd, hr⟩
  · exact .inl hs
  · exact .inr (.inl ⟨hq, hs⟩)
  · exact .inr (.inr ⟨hd, by simp [PgLexer.emit, hr]⟩)

theorem lands_emit_first (c : Byte) (ht : Quiet c ts) :
    Lands (enters c) ts c (emit ts (first c)) := by
  simpa using (lands_first c).emit ht

theorem lands_identStep (acc : Bytes) (c : Byte) :
    Lands (enters c) [.ident acc] c (identStep acc c) := by
  unfold identStep identQuote
  split_ifs with _ hq
  all_goals first
    | exact lands_of (by simp) rfl
    | exact ⟨by simp [Quiet, quietTok], .inr (.inl ⟨hq, rfl⟩)⟩
    | exact lands_emit_first c (by simp [Quiet, quietTok])

theorem lands_opStep {acc : Bytes} (h : opensComment (.op acc) [c] = false) :
    Lands (enters c) (opTokens acc) c (opStep acc c) := by
  obtain ⟨hm, hs⟩ : ¬ (c = minus ∧ acc.getLast? = some minus) ∧
      ¬ (c = star ∧ acc.getLast? = some slash) := by
    simpa [opensComment] using h
  rw [opStep, if_neg hm, if_neg hs]
  split_ifs
  · exact lands_of (by simp) (by simp [enters])
  · exact lands_emit_first c (quiet_opTokens c _)

theorem lands_gapStep (kind : StrKind) (acc : Bytes) (newline : Bool) (c : Byte) :
    Lands (enters c) [.str kind acc] c (gapStep kind acc newline c) := by
  unfold gapStep
  split_ifs with _ _ hm hq
  · exact lands_of (by simp) rfl
  · exact lands_of (by simp) rfl
  · exact lands_of (by simp) (by simp [enters, hm])
  · exact ⟨by simp, .inr (.inl ⟨hq.1, rfl⟩)⟩
  · exact lands_emit_first c (by simp [Quiet, quietTok])

theorem lands_integerStep (acc : Bytes) (c : Byte) :
    Lands (enters c) [.integer acc] c (integerStep acc c) := by
  unfold integerStep
  split_ifs
  all_goals first
    | exact lands_of (by simp) rfl
    | exact lands_emit_first c (by simp [Quiet, quietTok])
    | (split <;> first | exact lands_of (by simp) rfl | exact lands_fail _ c)

theorem Lands.of_ne_dollar (h : Lands (enters c) us c r) (hc : c ≠ PgMux.dollar) :
    Lands (enters c) ts c r :=
  ⟨h.quiet, h.state.imp_right (.imp_right fun hd => absurd hd.1 hc)⟩

theorem lands_radixStep (ts : List Tok) (r : Radix) (acc : Bytes) (last : Last) (c : Byte) :
    Lands (enters c) ts c (radixStep r acc last c) := by
  unfold radixStep
  split_ifs with _ _ hc
  · exact lands_of (by simp) rfl
  · exact lands_of (by simp) rfl
  · exact lands_fail _ c
  · have hd : c ≠ PgMux.dollar := by
      rintro rfl
      exact hc (.inl rfl)
    exact (lands_emit_first c (by simp [Quiet, quietTok])).of_ne_dollar hd

theorem lands_numDotStep (acc : Bytes) (c : Byte) :
    Lands (enters c) [.number (acc ++ [PgMux.dot])] c (numDotStep acc c) := by
  unfold numDotStep
  split_ifs
  · exact lands_of (by simp) rfl
  · exact lands_of (by simp [Quiet, quietTok]) rfl
  · exact lands_of (by simp) rfl
  · exact lands_fail _ c
  · exact lands_emit_first c (by simp [Quiet, quietTok])

theorem lands_fracStep (acc : Bytes) (c : Byte) :
    Lands (enters c) [.number acc] c (fracStep acc c) := by
  unfold fracStep
  split_ifs
  · exact lands_of (by simp) rfl
  · exact lands_of (by simp) rfl
  · exact lands_of (by simp) rfl
  · exact lands_fail _ c
  · exact lands_emit_first c (by simp [Quiet, quietTok])

theorem lands_expStep (signed : Bool) (acc : Bytes) (c : Byte) :
    Lands (enters c) [.number acc] c (expStep signed acc c) := by
  unfold expStep
  split_ifs
  · exact lands_of (by simp) rfl
  · exact lands_of (by simp) rfl
  · exact lands_fail _ c
  · exact lands_emit_first c (by simp [Quiet, quietTok])

theorem lands_step (hs : topLevel s) (ho : opensComment s [c] = false) :
    Lands (enters c) (finish s) c (step s c) := by
  cases s with
  | start => exact lands_first c
  | ident acc => exact lands_identStep acc c
  | uAmp acc =>
    simp only [step]
    split_ifs with hq hd
    · exact ⟨by simp, .inr (.inl ⟨hq, rfl⟩)⟩
    · exact lands_of (by simp) (by simp [enters, hd])
    · have hne : ampersand ≠ minus ∧ ampersand ≠ slash := by decide
      have hop : opensComment (.op [ampersand]) [c] = false := by simp [opensComment, hne]
      exact (lands_opStep hop).emit (quiet_ident c acc)
  | quotedIdentQuote uni acc =>
    simp only [step, finish]
    split_ifs with _ hd hd
    · exact lands_of (by simp) (by simp [enters, hd])
    · exact lands_fail _ c
    · exact lands_of (by simp) (by simp [enters, hd])
    · exact lands_emit_first c (by simp [Quiet, quietTok])
  | strQuote kind acc =>
    simp only [step]
    split_ifs with hq
    · exact ⟨by simp, .inr (.inl ⟨hq.1, rfl⟩)⟩
    · exact lands_gapStep kind acc false c
  | strGap kind acc newline => exact lands_gapStep kind acc newline c
  | strGapDash kind acc =>
    simp only [step]
    have hm : c ≠ minus := by simpa [opensComment] using ho
    have hne : minus ≠ slash := by decide
    have hop : opensComment (.op [minus]) [c] = false := by simp [opensComment, hm, hne]
    rw [if_neg hm]
    exact (lands_opStep hop).emit (quiet_str c kind acc)
  | integer acc last =>
    cases last
    case digit => exact lands_integerStep acc c
    all_goals exact lands_ite rfl
  | radix r acc last => exact lands_radixStep _ r acc last c
  | numDot acc => exact lands_numDotStep acc c
  | frac acc last =>
    cases last
    case digit => exact lands_fracStep acc c
    all_goals exact lands_ite rfl
  | expStart acc =>
    simp only [step]
    split_ifs <;> first | exact lands_of (by simp) rfl | exact lands_fail _ c
  | expSign acc => exact lands_ite rfl
  | exp signed acc last =>
    cases last
    case digit => exact lands_expStep signed acc c
    all_goals exact lands_ite rfl
  | dot =>
    simp only [step]
    split_ifs
    · exact lands_of (by simp) rfl
    · exact lands_of (by simp [Quiet, quietTok]) rfl
    · exact lands_emit_first c (quiet_mark c (.inr (.inl rfl)))
  | colon =>
    simp only [step]
    split_ifs
    · exact lands_of (by simp [Quiet, quietTok]) rfl
    · exact lands_of (by simp [Quiet, quietTok]) rfl
    · exact lands_emit_first c (quiet_mark c (.inr (.inr rfl)))
  | op acc => exact lands_opStep ho
  | _ => simp [topLevel, outside] at hs

theorem commentStep_cases (depth : Nat) (last c : Byte) :
    (∃ d l, commentStep depth last c = ([], .blockComment d l)) ∨
    commentStep depth last c = ([], .start) := by
  unfold commentStep
  split_ifs
  · cases depth with
    | zero => exact .inr rfl
    | succ d => exact .inl ⟨d, 0, rfl⟩
  · exact .inl ⟨_, _, rfl⟩
  · exact .inl ⟨_, _, rfl⟩

theorem lands_outside (hs : outside s) (c : Byte) : Lands outside (finish s) c (step s c) := by
  by_cases ht : topLevel s
  · cases ho : opensComment s [c] with
    | false => exact (lands_step ht ho).outside
    | true =>
      cases s with
      | op acc =>
        simp only [step, opStep]
        split_ifs with hm hs
        · exact lands_of (quiet_opTokens c _) rfl
        · exact lands_of (quiet_opTokens c _) rfl
        all_goals simp [opensComment, hm, hs] at ho
      | strGapDash kind acc =>
        have hm : c = minus := by simpa [opensComment] using ho
        simpa [step, hm] using lands_of (quiet_nil _) rfl
      | _ => simp [opensComment] at ho
  · cases s with
    | quotedIdent uni acc | strGapComment kind acc | lineComment =>
      simp only [step]
      split_ifs <;> exact lands_of (by simp) rfl
    | blockComment depth last =>
      simp only [step]
      rcases commentStep_cases depth last c with ⟨d, l,
        h⟩ | h <;> rw [h] <;> exact lands_of (by simp) rfl
    | error => exact lands_of (by simp) rfl
    | _ => simp_all [topLevel, outside]

theorem bodyStep_cases (tag acc : Bytes) (pending : Option Bytes) (c : Byte) :
    (∃ acc' p, bodyStep tag acc pending c = ([], .dollarBody tag acc' p)) ∨
      bodyStep tag acc pending c = ([.str .dollar acc], .start) := by
  unfold bodyStep
  cases pending with
  | none => left; split_ifs <;> exact ⟨_, _, rfl⟩
  | some p =>
    simp only
    split_ifs
    · exact .inr rfl
    all_goals exact .inl ⟨_, _, rfl⟩

theorem quiet_step (hs : ∀ ds, s ≠ .param ds) (c : Byte) : Quiet c (step s c).1 := by
  cases s with
  | str kind acc => simp only [step]; split_ifs <;> simp
  | strBackslash acc => simp [step]
  | dollar =>
    simp only [step]
    split_ifs
    · simp
    · simp
    · simp
    · exact (lands_emit_first c (quiet_mark c (.inl rfl))).quiet
  | dollarTag acc =>
    simp only [step]
    split_ifs
    · simp
    · simp
    · exact ((lands_identStep acc c).emit (quiet_mark c (.inl rfl))).quiet
  | dollarBody tag acc pending =>
    rcases bodyStep_cases tag acc pending c with ⟨_, _, h⟩ | h
    · simp [step, h]
    · simp [step, h, Quiet, quietTok]
  | param ds => exact absurd rfl (hs ds)
  | _ => exact (lands_outside rfl c).quiet

theorem paramFree_step (hs : ∀ ds, s ≠ .param ds) (c : Byte) : ParamFree (step s c).1 :=
  (quiet_step hs c).paramFree

def Plain (ts : List Tok) (c : Byte) (r : List Tok × State) : Prop :=
  (∀ ds, r.2 ≠ .param ds) ∧ (r.2 = .dollar → c = PgMux.dollar ∧ r = (ts, .dollar))

theorem Lands.plain (h : Lands PgLexer.outside ts c r) : Plain ts c r := by
  rcases h.state with ho | ⟨_, hq⟩ | hd
  · exact ⟨fun ds hr => by simp [hr, PgLexer.outside] at ho,
      fun hr => by simp [hr, PgLexer.outside] at ho⟩
  · exact ⟨fun ds hr => by simp [hr, inString] at hq, fun hr => by simp [hr, inString] at hq⟩
  · exact ⟨by simp [hd.2], fun _ => hd⟩

theorem step_plain (s : State) (c : Byte) : Plain (finish s) c (step s c) ∨
      isDigit c ∧ (step s c).2 ≠ .dollar ∧ (s = .dollar ∨ ∃ ds, s = .param ds) := by
  cases s with
  | str kind acc => simp only [step]; split_ifs <;> simp [Plain]
  | strBackslash acc => simp [step, Plain]
  | dollar =>
    simp only [step]
    split_ifs with hd
    · simp [hd]
    · simp [Plain]
    · simp [Plain]
    · exact .inl (lands_emit_first c (quiet_mark c (.inl rfl))).outside.plain
  | dollarTag acc =>
    simp only [step]
    split_ifs
    · simp [Plain]
    · simp [Plain]
    · exact .inl ((lands_identStep acc c).emit (quiet_mark c (.inl rfl))).outside.plain
  | dollarBody tag acc pending =>
    rcases bodyStep_cases tag acc pending c with ⟨_, _, hb⟩ | hb <;> simp [step, hb, Plain]
  | param ds =>
    simp only [step]
    split_ifs with hd
    · simp [hd]
    · simp [Plain, fail]
    · obtain ⟨hparam, hdollar⟩ := (lands_first c).outside.plain
      exact .inl ⟨hparam, fun h => ⟨(hdollar h).1, by simp [emit, (hdollar h).2, finish]⟩⟩
  | _ => exact .inl (lands_outside rfl c).plain

theorem step_eq_dollar (h : (step s c).2 = .dollar) :
    c = PgMux.dollar ∧ step s c = (finish s, .dollar) := by
  obtain hplain | ⟨_, hne, _⟩ := step_plain s c
  · exact hplain.2 h
  · exact absurd h hne

theorem step_eq_param (h : (step s c).2 = .param ds) :
    isDigit c ∧ (s = .dollar ∨ ∃ ds, s = .param ds) := by
  obtain hplain | ⟨hd, _, hs⟩ := step_plain s c
  · exact absurd h (hplain.1 ds)
  · exact ⟨hd, hs⟩

theorem paramFree_finish (hs : ∀ ds, s ≠ .param ds) : ParamFree (finish s) := by
  intro ds hm
  cases s with
  | param ds' => exact hs ds' rfl
  | op acc => exact (quiet_opTokens 0 acc).paramFree ds hm
  | integer acc last | radix r acc last | frac acc last | exp signed acc last =>
    cases last <;> simp [finish] at hm
  | quotedIdentQuote uni acc => simp only [finish] at hm; split_ifs at hm <;> simp at hm
  | _ => simp [finish] at hm

theorem filterMap_paramOf_eq_nil (n i : Nat) (h : ParamFree ts) :
    (ts.map fun t => (i, t)).filterMap (paramOf n) = [] := by
  rw [List.filterMap_eq_nil_iff]
  intro x hx
  obtain ⟨t, ht, rfl⟩ := List.mem_map.mp hx
  cases t with
  | param ds => exact absurd ht (h ds)
  | _ => rfl

theorem paramsFrom_nil (n i : Nat) (hs : ∀ ds, s ≠ .param ds) : paramsFrom n i s [] = [] :=
  filterMap_paramOf_eq_nil n i (paramFree_finish hs)

theorem paramsFrom_cons (n i : Nat) (w : Bytes) (h : ParamFree (step s c).1) :
    paramsFrom n i s (c :: w) = paramsFrom n (i + 1) (step s c).2 w := by
  simp [paramsFrom, filterMap_paramOf_eq_nil n i h]

theorem paramsFrom_append (n i : Nat) {u : Bytes} (v : Bytes) (h : ParamFree (lexer.emitted s u)) :
    paramsFrom n i s (u ++ v) = paramsFrom n (i + u.length) (lexer.after s u) v := by
  induction u generalizing i s with
  | nil => rfl
  | cons c u ih =>
    obtain ⟨hc, hu⟩ := (paramFree_append _ _).mp h
    rw [lexer_step] at hc hu
    rw [List.cons_append, paramsFrom_cons n i _ hc, ih (i + 1) hu]
    simp [Nat.add_comm, Nat.add_left_comm]

@[simp] theorem paramsFrom_error (n i : Nat) (w : Bytes) : paramsFrom n i .error w = [] := by
  induction w generalizing i with
  | nil => rfl
  | cons c w ih => rw [paramsFrom_cons n i w (by simp [step])]; exact ih (i + 1)

theorem flushes_param (hd : isDigit c = false) (hi : isIdentStart c = false) :
    lexer.Flushes (.param ds) c := by
  simp [Transducer.Flushes, step, hd, hi, emit, finish]

theorem after_param_digits (ds es : Bytes) (h : es.all isDigit) :
    lexer.after (.param ds) es = .param (ds ++ es) := by
  induction es generalizing ds with
  | nil => simp
  | cons c es ih =>
    obtain ⟨hc, hes⟩ := by simpa using h
    simpa [step, hc] using ih (ds ++ [c]) (by simpa using hes)

theorem emitted_param_digits (ds es : Bytes) (h : es.all isDigit) :
    lexer.emitted (.param ds) es = [] := by
  induction es generalizing ds with
  | nil => rfl
  | cons c es ih =>
    obtain ⟨hc, hes⟩ := by simpa using h
    simpa [step, hc] using ih (ds ++ [c]) (by simpa using hes)

theorem dollar_digits (hs : step s PgMux.dollar = (finish s, .dollar)) (hne : ds ≠ [])
    (h : ds.all isDigit) :
    lexer.emitted s (PgMux.dollar :: ds) = finish s ∧
    lexer.after s (PgMux.dollar :: ds) = .param ds := by
  cases ds with
  | nil => exact absurd rfl hne
  | cons d ds =>
    obtain ⟨hd, hds⟩ := by simpa using h
    have hstep : step .dollar d = ([], .param [d]) := by simp [step, hd]
    have hall : ds.all isDigit := by simpa using hds
    constructor
    · simp [hs, hstep, emitted_param_digits _ _ hall]
    · simp [hs, hstep, after_param_digits _ _ hall]

theorem paramsFrom_param (n i : Nat) (ds : Bytes) {w : Bytes} (hd : w.head?.any isDigit = false)
    (hi : w.head?.any isIdentStart = false) :
    paramsFrom n i (.param ds) w =
      (if inRange n ds then [(i - (ds.length + 1), decimal ds)]
        else []) ++ paramsFrom n i .start w := by
  have hpend : ([Tok.param ds].map fun t => (i, t)).filterMap (paramOf n) =
      if inRange n ds then [(i - (ds.length + 1), decimal ds)] else [] := by
    simp only [List.map_cons, List.map_nil, List.filterMap_cons, List.filterMap_nil, paramOf]
    split_ifs <;> rfl
  cases w with
  | nil => rw [← hpend]; simp [paramsFrom, finish]
  | cons c w =>
    have hf : lexer.Flushes (.param ds) c := flushes_param (by simpa using hd) (by simpa using hi)
    rw [paramsFrom, lexer.emittedAt_of_flushes i w hf, List.filterMap_append, ← hpend]
    rfl

theorem paramsFrom_param_junk (n i : Nat) (ds : Bytes) {w : Bytes}
    (hd : w.head?.any isDigit = false) (hi : w.head?.any isIdentStart) :
    paramsFrom n i (.param ds) w = [] := by
  cases w with
  | nil => simp at hi
  | cons c w =>
    have hstep : step (.param ds) c = fail := by
      simp only [List.head?_cons, Option.any_some] at hd hi
      simp [step, hd, hi]
    rw [paramsFrom_cons n i w (by simp [hstep, fail, ParamFree]), hstep]
    exact paramsFrom_error n (i + 1) w

end PgMux.PgLexer
