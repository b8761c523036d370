import PgMux.PgCuts
import PgMux.Router
import PgMux.ScannerTags

/-!
# Where the router and PostgreSQL split a query

`Follows` relates a mode of the router's scanner to the states of the lexer. They part at a quote
behind a backslash in an escape string, at a dollar inside an identifier, at a tag with bytes
outside ASCII and at a carriage return that ends a line comment.
-/

namespace PgMux.SplitAgreement

open DollarTag (parseDollarTag)
open PgLexer (State Tok step lexer openingTag closingTag isTagChar topLevel inCode inLineComment
  opensComment marked lexSplitFrom)
open Router (Mode nextMode splitFrom)
open ScannerTags (highTag parseDollarTag_eq_none parseDollarTag_eq_some)

def readsAlike (s : State) (c : Byte) (w : Bytes) : Bool :=
  match s with
  | .strBackslash _ => c != quote
  | .lineComment | .strGapComment .. => c != carriageReturn || w.head?.all (· == lineFeed)
  | .str .. | .quotedIdent .. | .blockComment .. | .dollar | .dollarTag _ | .dollarBody ..
  | .error => true
  | s => c != dollar || (if (step s c).2 = .dollar then !highTag w
      else parseDollarTag (c :: w) == none)

def splitClear : State → Bytes → Bool
  | _, [] => true
  | s, c :: w => readsAlike s c w && splitClear (step s c).2 w

def pairs (last : Byte) (v : Bytes) : Bool :=
  (last == slash && v.head? == some star) || (last == star && v.head? == some slash)

/-- The lexer state fits the scanner's mode. -/
inductive Follows : Mode → State → Bytes → Prop
  | top {s : State} {v : Bytes} (hs : topLevel s) (ho : opensComment s v = false) :
      Follows .code s v
  | dollar {v : Bytes} (ht : openingTag v = none) : Follows .code .dollar v
  | dollarTag {v : Bytes} (acc : Bytes) (ht : (v.dropWhile isTagChar).head? ≠ some PgMux.dollar) :
      Follows .code (.dollarTag acc) v
  | param (ds v : Bytes) : Follows .code (.param ds) v
  | str (kind : PgLexer.StrKind) (acc v : Bytes) : Follows .single (.str kind acc) v
  | strBackslash (acc v : Bytes) : Follows .single (.strBackslash acc) v
  | strPair (kind : PgLexer.StrKind) (acc w : Bytes) : Follows .singlePair (.strQuote kind acc)
      (quote :: w)
  | quotedIdent (uni : Bool) (acc v : Bytes) : Follows .double (.quotedIdent uni acc) v
  | line {s : State} (hs : inLineComment s) (v : Bytes) : Follows .line s v
  | lineMark {s : State} (hs : marked minus s) (w : Bytes) : Follows .line s (minus :: w)
  -- the lexer ends a line comment at the carriage return before a line feed already
  | lineEnd {s : State} (hs : s = .start ∨ ∃ kind acc, s = .strGap kind acc true) {v : Bytes}
      (hv : v.head?.all (· == lineFeed)) : Follows .line s v
  | block (d : Nat) {last : Byte} {v : Bytes} (h : pairs last v = false) :
      Follows (.block (d + 1)) (.blockComment d last) v
  | openMark {s : State} (hs : marked slash s) (w : Bytes) : Follows (.blockPair 1) s (star :: w)
  | nestMark (d : Nat) (w : Bytes) : Follows (.blockPair (d + 2)) (.blockComment d slash)
      (star :: w)
  | closeMark (d : Nat) (w : Bytes) : Follows (.blockPair d) (.blockComment d star) (slash :: w)
  | quoted {s : State} {k : Nat} {u : Bytes} (hlen : u.length = k + 1)
      (hem : Tok.self semicolon ∉ lexer.emitted s u) (haf : lexer.after s u = .start) (w : Bytes) :
      Follows (.copy k) s (u ++ w)
  | unclosed {s : State} {k : Nat} {v : Bytes} (hlen : v.length ≤ k)
      (hem : Tok.self semicolon ∉ lexer.emitted s v) : Follows (.copy k) s v

theorem follows_start (v : Bytes) : Follows .code .start v := .top rfl rfl

variable {c : Byte} {w : Bytes} {s : State}

theorem nextMode_code (h : parseDollarTag (c :: w) = none) :
    nextMode .code c w =
      if c = minus ∧ w.head? = some minus then .line
      else if c = slash ∧ w.head? = some star then .blockPair 1
      else if c = quote then .single
      else if c = dquote then .double
      else .code := by
  simp [nextMode, h]

theorem parseDollarTag_of_ne (h : c ≠ dollar) : parseDollarTag (c :: w) = none := by
  simp [parseDollarTag, h]

theorem Follows.inCode {v : Bytes} (h : Follows .code s v) :
    PgLexer.inCode s ∧ opensComment s v = false := by
  cases h with
  | top hs ho => exact ⟨by cases s <;> first | rfl | exact hs, ho⟩
  | dollar | dollarTag | param => exact ⟨rfl, rfl⟩

theorem follows_of_lands {ts : List Tok} {r : List Tok × State}
    (h : PgLexer.Lands (PgLexer.enters c) ts c r) (herr : r.2 ≠ .error)
    (hm : ¬ (c = minus ∧ w.head? = some minus)) (hsl : ¬ (c = slash ∧ w.head? = some star))
    (hq : c ≠ quote) (hdq : c ≠ dquote) (hd : c = dollar → r.2 ≠ .dollar) :
    Follows .code r.2 w := by
  rcases h.state with he | ⟨hc, _⟩ | ⟨hc, hr⟩
  · generalize r.2 = t at he herr
    cases t with
    | quotedIdent => exact absurd (by simpa [PgLexer.enters] using he) hdq
    | strGapDash kind acc =>
      have hc : c = minus := by simpa [PgLexer.enters] using he
      exact .top rfl (by simpa [opensComment, hc] using hm)
    | op acc =>
      have hlast : acc.getLast? = some c := by simpa [PgLexer.enters] using he
      refine .top rfl ?_
      simpa [opensComment, hlast] using ⟨fun hw hc => hm ⟨hc, hw⟩, fun hw hc => hsl ⟨hc, hw⟩⟩
    | error => exact absurd rfl herr
    | _ => exact .top he rfl
  · exact absurd hc hq
  · exact absurd (by rw [hr]) (hd hc)

theorem follows_code_step (h : Follows .code s (c :: w)) (hc : c ≠ dollar)
    (herr : (step s c).2 ≠ .error) : Follows (nextMode .code c w) (step s c).2 w := by
  obtain ⟨hs, ho⟩ := h.inCode
  rw [nextMode_code (parseDollarTag_of_ne hc)]
  split_ifs with hm hsl hq hdq
  · obtain ⟨rfl, hw⟩ := hm
    cases w with
    | nil => simp at hw
    | cons d w =>
      obtain rfl : d = minus := by simpa using hw
      exact .lineMark (PgLexer.marked_step hs (.inl rfl) ho) w
  · obtain ⟨rfl, hw⟩ := hsl
    cases w with
    | nil => simp at hw
    | cons d w =>
      obtain rfl : d = star := by simpa using hw
      exact .openMark (PgLexer.marked_step hs (.inr rfl) ho) w
  · subst hq
    rcases PgLexer.step_quote hs with hstr | hfail
    · obtain ⟨kind, acc, hk⟩ := PgLexer.eq_str_of_inString hstr
      rw [hk]
      exact .str kind acc w
    · exact absurd (by simp [hfail, PgLexer.fail]) herr
  · subst hdq
    rcases PgLexer.step_dquote hs with ⟨uni, acc, hid⟩ | hfail
    · rw [hid]
      exact .quotedIdent uni acc w
    · exact absurd (by simp [hfail, PgLexer.fail]) herr
  · have land {ts : List Tok} {r : List Tok × State} (hl : PgLexer.Lands (PgLexer.enters c) ts c r)
        (hr : r.2 ≠ .error) : Follows .code r.2 w :=
      follows_of_lands hl hr hm hsl hq hdq fun hd => absurd hd hc
    cases h with
    | top hs _ => exact land (PgLexer.lands_step hs ho) herr
    | dollar ht =>
      simp only [step, hc, ↓reduceIte] at herr ⊢
      split_ifs at herr ⊢ with hdig hi
      · exact .param [c] w
      · refine .dollarTag [c] fun hend => ?_
        have htag : isTagChar c := PgLexer.isTagChar_of_isIdentStart hi
        simp [openingTag, hc, hi, htag, hend] at ht
      · exact land (PgLexer.lands_emit_first c (PgLexer.quiet_mark c (.inl rfl))) herr
    | dollarTag acc ht =>
      simp only [step, hc, ↓reduceIte] at herr ⊢
      split_ifs at herr ⊢ with hi
      · exact .dollarTag _ (by simpa [hi] using ht)
      · exact land ((PgLexer.lands_identStep acc c).emit (PgLexer.quiet_mark c (.inl rfl))) herr
    | param ds =>
      simp only [step] at herr ⊢
      split_ifs at herr ⊢
      · exact .param _ w
      · exact absurd rfl herr
      · simpa using land (PgLexer.lands_first c) (by simpa using herr)

theorem nextMode_dollar (h : parseDollarTag (dollar :: w) = none) :
    nextMode .code dollar w = .code := by
  rw [nextMode_code h]
  have hm : dollar ≠ minus := by decide
  have hs : dollar ≠ slash := by decide
  have hdq : dollar ≠ dquote := by decide
  simp [hm, hs, hdq]

theorem drop_closingTag (t v : Bytes) :
    (t ++ dollar :: v).drop ((closingTag t).length - 1) = v := by
  have hlen : (closingTag t).length - 1 = (t ++ [dollar]).length := by simp [closingTag]
  have hsplit : t ++ dollar :: v = (t ++ [dollar]) ++ v := by simp
  rw [hlen, hsplit, List.drop_left]

theorem follows_dollarQuote {t : Bytes} (ht : openingTag w = some t) (hh : highTag w = false) :
    Follows (nextMode .code dollar w) .dollar w := by
  have hp := parseDollarTag_eq_some ht hh
  obtain ⟨htag, v, rfl⟩ := PgLexer.openingTag_iff.mp ht
  obtain ⟨hem, haf⟩ := PgLexer.openingTag_run htag
  have hlen : (closingTag t).length = t.length + 2 := by simp [closingTag]
  have hsplit : t ++ dollar :: v = (t ++ [dollar]) ++ v := by simp
  have hdrop := drop_closingTag t v
  cases hk : index (closingTag t) v with
  | none =>
    obtain ⟨hbody, _⟩ := PgLexer.dollarBody_open htag [] PgLexer.pending_none v (by simpa using hk)
    simp only [nextMode, hp, hdrop, hk]
    refine .unclosed le_rfl ?_
    rw [hsplit, Transducer.emitted_append, hem, haf, hbody]
    simp
  | some k =>
    obtain ⟨u, v', body, rfl, hu, hbody, hstart⟩ :=
      PgLexer.dollarBody_closed htag [] PgLexer.pending_none v (by simpa using hk)
    simp only [nextMode, hp, hdrop, hk]
    rw [hsplit, ← List.append_assoc]
    refine .quoted ?_ ?_ ?_ v'
    · simp [hlen] at hu ⊢
      omega
    · rw [Transducer.emitted_append, hem, haf, hbody]
      simp
    · rw [Transducer.after_append, haf, hstart]

theorem dollar_cases (h : Follows .code s (dollar :: w)) (hclear : readsAlike s dollar w) :
    (step s dollar).2 = .dollar ∧ highTag w = false ∨ (step s dollar).2 ≠ .dollar ∧
    parseDollarTag (dollar :: w) = none := by
  cases h with
  | dollar ht => simp [openingTag] at ht
  | dollarTag acc ht => simp [PgLexer.isTagChar_dollar] at ht
  | top hs _ =>
    by_cases hd : (step s dollar).2 = .dollar
    · exact .inl ⟨hd, by cases s <;> simp_all [readsAlike, topLevel, PgLexer.outside]⟩
    · exact .inr ⟨hd, by cases s <;> simp_all [readsAlike, topLevel, PgLexer.outside]⟩
  | param ds =>
    have hd : (step (.param ds) dollar).2 = .dollar := rfl
    exact .inl ⟨hd, by simpa [readsAlike, hd] using hclear⟩

theorem follows_dollar_step (h : Follows .code s (dollar :: w)) (hclear : readsAlike s dollar w)
    (herr : (step s dollar).2 ≠ .error) :
    Follows (nextMode .code dollar w) (step s dollar).2 w := by
  rcases dollar_cases h hclear with ⟨hopen, hh⟩ | ⟨hopen, hp⟩
  · rw [hopen]
    cases ht : openingTag w with
    | some t => exact follows_dollarQuote ht hh
    | none =>
      rw [nextMode_dollar (parseDollarTag_eq_none ht)]
      exact .dollar ht
  · cases h with
    | dollar ht => simp [openingTag] at ht
    | dollarTag acc ht => simp [PgLexer.isTagChar_dollar] at ht
    | param ds => exact absurd rfl hopen
    | top hs ho =>
      rw [nextMode_dollar hp]
      exact follows_of_lands (PgLexer.lands_step hs ho) herr (fun h => absurd h.1 (by decide))
        (fun h => absurd h.1 (by decide)) dollar_ne_quote (by decide) fun _ => hopen

theorem follows_single_step (h : Follows .single s (c :: w)) (hclear : readsAlike s c w) :
    Follows (nextMode .single c w) (step s c).2 w := by
  cases h with
  | str kind acc =>
    simp only [nextMode, step]
    split_ifs with hc hw
    · obtain ⟨w, rfl⟩ : ∃ w', w = quote :: w' := by
        cases w with
        | nil => simp at hw
        | cons d w => exact ⟨w, by simpa using hw⟩
      exact .strPair kind acc w
    · exact .top rfl rfl
    · exact .strBackslash acc w
    · exact .str kind _ w
  | strBackslash acc =>
    have hc : c ≠ quote := by simpa [readsAlike] using hclear
    simp only [nextMode, hc, ↓reduceIte]
    exact .str _ _ w

theorem step_lineComment (hs : inLineComment s) (c : Byte) :
    if PgLexer.isNewline c then (step s c).2 = .start ∨ ∃ kind acc,
    (step s c).2 = .strGap kind acc true
    else inLineComment (step s c).2 := by
  cases s with
  | lineComment
  | strGapComment kind acc => cases h : PgLexer.isNewline c <;> simp [step, h, inLineComment]
  | _ => simp [inLineComment] at hs

theorem follows_line_step (h : Follows .line s (c :: w)) (hclear : readsAlike s c w)
    (herr : (step s c).2 ≠ .error) : Follows (nextMode .line c w) (step s c).2 w := by
  cases h with
  | line hs =>
    have hstep := step_lineComment hs c
    by_cases hlf : c = lineFeed
    · rw [if_pos (by simp [PgLexer.isNewline, hlf])] at hstep
      rw [nextMode, if_pos hlf]
      rcases hstep with h | ⟨kind, acc, h⟩ <;> rw [h] <;> exact .top rfl rfl
    · rw [nextMode, if_neg hlf]
      by_cases hcr : c = carriageReturn
      · rw [if_pos (by simp [PgLexer.isNewline, hcr])] at hstep
        refine .lineEnd hstep ?_
        cases s <;> simp_all [inLineComment, readsAlike]
      · rw [if_neg (by simp [PgLexer.isNewline, hlf, hcr])] at hstep
        exact .line hstep w
  | lineMark hs =>
    exact .line ((PgLexer.step_marked_minus hs).resolve_right herr) w
  | lineEnd hs hv =>
    obtain rfl : c = lineFeed := by simpa using hv
    rcases hs with rfl | ⟨kind, acc, rfl⟩ <;> exact .top rfl rfl

theorem step_blockComment (d : Nat) {last : Byte} (h : pairs last (c :: w) = false) :
    step (.blockComment d last) c = ([], .blockComment d c) := by
  obtain ⟨hnest, hclose⟩ : ¬ (last = slash ∧ c = star) ∧ ¬ (last = star ∧ c = slash) := by
    simpa [pairs] using h
  simp only [step, PgLexer.commentStep]
  rw [if_neg (fun h => hclose h.symm), if_neg (fun h => hnest h.symm)]

theorem follows_block_step {d : Nat} (h : Follows (.block d) s (c :: w)) :
    Follows (nextMode (.block d) c w) (step s c).2 w := by
  have exists_tail {b : Byte} (hw : w.head? = some b) : ∃ w', w = b :: w' := by
    cases w with
    | nil => simp at hw
    | cons d w => exact ⟨w, by simpa using hw⟩
  cases h with
  | block d hp =>
    rw [step_blockComment d hp]
    simp only [nextMode]
    split_ifs with hopen hclose
    · obtain ⟨rfl, hw⟩ := hopen
      obtain ⟨w, rfl⟩ := exists_tail hw
      exact .nestMark d w
    · obtain ⟨rfl, hw⟩ := hclose
      obtain ⟨w, rfl⟩ := exists_tail hw
      exact .closeMark d w
    · refine .block d ?_
      simpa [pairs] using ⟨fun h hw => hopen ⟨h, hw⟩, fun h hw => hclose ⟨h, hw⟩⟩

theorem follows_blockPair_step {d : Nat} (h : Follows (.blockPair d) s (c :: w))
    (herr : (step s c).2 ≠ .error) : Follows (nextMode (.blockPair d) c w) (step s c).2 w := by
  have fresh (d : Nat) : Follows (.block (d + 1)) (.blockComment d 0) w := .block d rfl
  cases h with
  | openMark hs =>
    rw [(PgLexer.step_marked_slash hs).resolve_right herr]
    exact fresh 0
  | nestMark d => exact fresh (d + 1)
  | closeMark d =>
    cases d with
    | zero => exact follows_start w
    | succ d => exact fresh d

theorem follows_copy_step {k : Nat} (h : Follows (.copy k) s (c :: w)) :
    Follows (nextMode (.copy k) c w) (step s c).2 w := by
  generalize hv : c :: w = v at h
  cases h with
  | @quoted _ _ u hlen hem haf w' =>
    cases u with
    | nil => simp at hlen
    | cons d u =>
      obtain ⟨rfl, rfl⟩ := by simpa using hv
      have haf' : lexer.after (step s c).2 u = .start := haf
      cases u with
      | nil =>
        obtain rfl : k = 0 := by simpa using hlen.symm
        have hstart : (step s c).2 = .start := haf'
        rw [hstart]
        exact follows_start w'
      | cons d u =>
        have hk : k ≠ 0 := by rintro rfl; simp at hlen
        rw [nextMode, if_neg hk]
        refine .quoted (by simp at hlen ⊢; omega) (fun h => hem ?_) haf' w'
        simpa using Or.inr (by simpa using h)
  | unclosed hlen hem =>
    subst hv
    have hk : k ≠ 0 := by rintro rfl; simp at hlen
    rw [nextMode, if_neg hk]
    refine .unclosed (by simp at hlen; omega) fun h => hem ?_
    simpa using Or.inr h

theorem follows_step {m : Mode} (h : Follows m s (c :: w)) (hclear : readsAlike s c w)
    (herr : (step s c).2 ≠ .error) : Follows (nextMode m c w) (step s c).2 w := by
  cases m with
  | code =>
    by_cases hc : c = dollar
    · subst hc
      exact follows_dollar_step h hclear herr
    · exact follows_code_step h hc herr
  | single => exact follows_single_step h hclear
  | singlePair =>
    cases h with
    | strPair kind acc =>
      obtain ⟨kind', acc', hk⟩ := PgLexer.eq_str_of_inString
        ((PgLexer.step_quote (s := .strQuote kind acc) rfl).resolve_right fun hf =>
          herr (by rw [hf]; rfl))
      rw [hk]
      exact .str kind' acc' w
  | double =>
    cases h with
    | quotedIdent uni acc =>
      simp only [nextMode, step]
      split_ifs
      · exact .top rfl rfl
      · exact .quotedIdent uni _ w
  | line => exact follows_line_step h hclear herr
  | block d => exact follows_block_step h
  | blockPair d => exact follows_blockPair_step h herr
  | copy k => exact follows_copy_step h

theorem cuts_iff {m : Mode} (h : Follows m s (c :: w)) (herr : Tok.error ∉ (step s c).1) :
    Tok.self semicolon ∈ (step s c).1 ↔ m = .code ∧ c = semicolon := by
  constructor
  · intro hm
    obtain rfl : c = semicolon := by
      by_contra hc
      exact PgLexer.semicolon_notMem_step hc s hm
    refine ⟨?_, rfl⟩
    have hin : inCode s := by
      by_contra hs
      exact PgLexer.semicolon_notMem_of_not_inCode (by simpa using hs) _ hm
    generalize hv : semicolon :: w = v at h
    cases h with
    | top | dollar | dollarTag | param => rfl
    | str | strBackslash | quotedIdent | block | nestMark | closeMark => cases hin
    | strPair | lineMark | openMark => exact absurd (List.cons.inj hv).1 (by decide)
    | line hs => cases s <;> simp [inLineComment, inCode, topLevel] at hs hin
    | lineEnd _ hl =>
      have hlf : semicolon = lineFeed := by simpa [← hv] using hl
      exact absurd hlf (by decide)
    | @quoted _ _ u hlen hem _ w' =>
      cases u with
      | nil => simp at hlen
      | cons d u =>
        obtain ⟨rfl, _⟩ := List.cons.inj hv
        exact absurd (by simp [hm]) hem
    | unclosed _ hem =>
      subst hv
      exact absurd (by simp [hm]) hem
  · rintro ⟨rfl, rfl⟩
    rcases PgLexer.step_semicolon h.inCode.1 with hf | hf
    · simp [hf]
    · simp [hf, PgLexer.fail] at herr

theorem nextMode_semicolon (w : Bytes) : nextMode .code semicolon w = .code := by
  rw [nextMode_code (parseDollarTag_of_ne (by decide))]
  have hm : semicolon ≠ minus := by decide
  have hs : semicolon ≠ slash := by decide
  have hq : semicolon ≠ quote := by decide
  have hdq : semicolon ≠ dquote := by decide
  simp [hm, hs, hq, hdq]

theorem splitFrom_eq {m : Mode} (v cur : Bytes) (h : Follows m s v) (hs : s ≠ .error)
    (herr : Tok.error ∉ lexer.emitted s v) (hclear : splitClear s v) :
    splitFrom m cur v = lexSplitFrom s cur v := by
  induction v generalizing m s cur with
  | nil => cases m <;> rfl
  | cons c w ih =>
    obtain ⟨hstep, hrest⟩ : Tok.error ∉ (step s c).1 ∧
        Tok.error ∉ lexer.emitted (step s c).2 w := by
      simpa using herr
    obtain ⟨hc, hw⟩ : readsAlike s c w ∧
      splitClear (step s c).2 w := by simpa [splitClear] using hclear
    have hne : (step s c).2 ≠ .error := fun he => hstep (PgLexer.step_eq_error he hs)
    have hnext := follows_step h hc hne
    have hcut := cuts_iff h hstep
    rw [splitFrom, lexSplitFrom]
    by_cases hsemi : m = .code ∧ c = semicolon
    · rw [if_pos hsemi, if_pos (hcut.mpr hsemi)]
      obtain ⟨rfl, rfl⟩ := hsemi
      rw [nextMode_semicolon] at hnext
      rw [ih [] hnext hne hrest hw]
    · rw [if_neg hsemi, if_neg fun h => hsemi (hcut.mp h)]
      exact ih (cur ++ [c]) hnext hne hrest hw

end PgMux.SplitAgreement
