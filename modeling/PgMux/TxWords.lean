import PgMux.PgCuts
import PgMux.PgDollar
import PgMux.Router

/-!
# The words that begin a statement

PostgreSQL reads the transaction control off the first tokens, the router off the letters of the
trimmed text. `textEffect` stands between them; a plain statement writes its control words so that
both readings agree with it.
-/

namespace PgMux.TxWords

open GoStrings (isSolid trimSpace toUpper)
open PgLexer (Tok lex lexer step isIdentCont)
open PgStatements (isWord staysOpen txEffect)
open Router (startsTx endsTx trackStatement upperTrimmed)

def closers : List Bytes := [ascii "COMMIT", ascii "END", ascii "ROLLBACK"]

def controlWords : List Bytes := ascii "BEGIN" :: closers

def startTransaction : Bytes := ascii "START TRANSACTION"

def lead (r : Bytes) : Bytes := r.dropWhile PgLexer.isSpace

def headWord (text : Bytes) : Bytes := (text.takeWhile isIdentCont).map upperByte

/-- The effect of a statement by the first word of its text. -/
def textEffect (text : Bytes) : Option Bool :=
  if headWord text = ascii "BEGIN" then some true
  else if headWord text ∈ closers then some false
  else if startTransaction <+: text.map upperByte then some true
  else none

def plainStatement (r : Bytes) : Bool :=
  match lex r with
  | .ident w :: rest =>
    let word := w.map upperByte
    w.all (· < 0x80) &&
      if word ∈ controlWords then
        w.isPrefixOf (lead r) && !(word ∈ closers && staysOpen (word == ascii "ROLLBACK") rest)
      else if word = ascii "START" then
        ((lead r).take 17).all (· < 0x80) &&
          (rest.head?.any (isWord "TRANSACTION") == startTransaction.isPrefixOf
            ((lead r).map upperByte))
      else
        word != ascii "ABORT" && !(word == ascii "PREPARE" &&
          rest.head?.any (isWord "TRANSACTION")) && !controlWords.any (·.isPrefixOf word)
  | _ => true

theorem outputFrom_space {sp : Bytes} (h : ∀ c ∈ sp, PgLexer.isSpace c) (v : Bytes) :
    lexer.outputFrom .start (sp ++ v) = lexer.outputFrom .start v := by
  induction sp with
  | nil => rfl
  | cons c sp ih =>
    have hc : step .start c = ([], .start) := PgLexer.first_of_isSpace (h c (by simp))
    simpa [Transducer.outputFrom_cons, hc] using ih fun d hd => h d (by simp [hd])

theorem lex_dropWhile {p : Byte → Bool} (hp : ∀ c, p c → PgLexer.isSpace c) (r : Bytes) :
    lex r = lex (r.dropWhile p) := by
  have hsp : ∀ c ∈ r.takeWhile p, PgLexer.isSpace c := fun c hc => hp c (List.mem_takeWhile_imp hc)
  have h := outputFrom_space hsp (r.dropWhile p)
  rwa [List.takeWhile_append_dropWhile] at h

theorem lex_lead (r : Bytes) : lex r = lex (lead r) := lex_dropWhile (fun _ h => h) r

theorem after_ident (acc : Bytes) {u : Bytes} (h : ∀ c ∈ u, isIdentCont c) :
    lexer.emitted (.ident acc) u = [] ∧ lexer.after (.ident acc) u = .ident (acc ++ u) := by
  induction u generalizing acc with
  | nil => simp
  | cons c u ih =>
    have hc : isIdentCont c := h c (by simp)
    obtain ⟨he, ha⟩ := ih (acc ++ [c]) fun d hd => h d (by simp [hd])
    simp [step, PgLexer.identStep, hc, he, ha]

variable {c : Byte} {text r k : Bytes}

theorem first_of_isIdentStart (h : PgLexer.isIdentStart c) :
    PgLexer.first c = ([], .ident [c]) := by
  grind [PgLexer.isIdentStart, PgLexer.first, PgLexer.isSpace, isLetter, isUpper, isLower,
    isHighBit]

theorem lex_word {u y : Bytes} (hc : PgLexer.isIdentStart c) (hu : ∀ d ∈ u, isIdentCont d)
    (hy : y.head?.all fun d => !isIdentCont d) (hmark : PgLexer.isStringMark (c :: u) = false)
    (hamp : c :: u ≠ [117] ∧ c :: u ≠ [85]) : lex (c :: u ++ y) = .ident (c :: u) :: lex y := by
  obtain ⟨he, ha⟩ := after_ident [c] hu
  have hsep : lexer.Separated (.ident (c :: u)) y := by
    cases y with
    | nil => exact lexer.separated_nil _
    | cons d y =>
      refine lexer.separated_cons y (PgLexer.flushes_ident (by simpa using hy)
        (fun _ => hmark) fun _ h => ?_)
      exact h.elim hamp.1 hamp.2
  have hrest : lexer.outputFrom (.ident (c :: u)) y = .ident (c :: u) :: lex y := hsep
  have hfirst : step .start c = ([], .ident [c]) := first_of_isIdentStart hc
  rw [← hrest, lex, Transducer.output, lexer.outputFrom_append]
  simp [hfirst, he, ha]

theorem isIdentCont_of_isIdentStart (h : PgLexer.isIdentStart c) : isIdentCont c := by
  simp [isIdentCont, PgLexer.isTagChar_of_isIdentStart h]

theorem head_dropWhile (p : Byte → Bool) (v : Bytes) : (v.dropWhile p).head?.all fun d => !p d := by
  have h := List.head?_dropWhile_not p v
  cases hv : (v.dropWhile p).head? with
  | none => rfl
  | some d => simpa [hv] using h

theorem lex_headWord (hc : text.head?.any PgLexer.isIdentStart)
    (hlen : 2 ≤ (text.takeWhile isIdentCont).length ∨ text.head?.any isHighBit) :
    lex text = .ident (text.takeWhile isIdentCont) :: lex (text.dropWhile isIdentCont) := by
  cases text with
  | nil => simp at hc
  | cons c v =>
    have htake : (c :: v).takeWhile isIdentCont = c :: v.takeWhile isIdentCont := by
      simp [isIdentCont_of_isIdentStart hc]
    have hsingle {x : Byte} (hx : isHighBit x = false) : c :: v.takeWhile isIdentCont ≠ [x] := by
      intro h
      obtain ⟨rfl, hnil⟩ := List.cons.inj h
      rcases hlen with hl | hl
      · simp [htake, hnil] at hl
      · simp [hx] at hl
    have hmark : PgLexer.isStringMark (c :: v.takeWhile isIdentCont) = false := by
      rw [PgLexer.isStringMark, decide_eq_false_iff_not]
      intro hm
      simp only [List.mem_cons, List.not_mem_nil, or_false] at hm
      rcases hm with h | h | h | h | h | h | h | h <;> exact hsingle (by decide) h
    have hlex := lex_word hc (fun d hd => List.mem_takeWhile_imp hd)
      (head_dropWhile isIdentCont v) hmark
      ⟨hsingle (by decide), hsingle (by decide)⟩
    rw [List.cons_append, List.takeWhile_append_dropWhile] at hlex
    rw [htake, hlex, List.dropWhile_cons_of_pos (isIdentCont_of_isIdentStart hc)]

theorem isIdentCont_upperByte (c : Byte) : isIdentCont (upperByte c) = isIdentCont c := by
  grind [upperByte, isIdentCont, PgLexer.isTagChar, PgLexer.isIdentStart, isLetter, isUpper,
    isLower, isDigit, isHighBit]

theorem headWord_eq (text : Bytes) :
    headWord text = (text.map upperByte).takeWhile isIdentCont := by
  rw [headWord, List.takeWhile_map]
  congr 2
  funext c
  exact (isIdentCont_upperByte c).symm

theorem isIdentStart_of_upper (h : isUpper (upperByte c)) : PgLexer.isIdentStart c := by
  grind [PgLexer.isIdentStart, upperByte, isLetter, isUpper, isLower]

theorem isIdentStart_of_headWord (h : (headWord text).head?.any isUpper) :
    text.head?.any PgLexer.isIdentStart := by
  cases text with
  | nil => simp [headWord] at h
  | cons c v =>
    rw [headWord, List.takeWhile_cons] at h
    split_ifs at h
    · exact isIdentStart_of_upper (by simpa using h)
    · simp at h

theorem lex_of_headWord (hhead : (headWord (lead r)).head?.any isUpper)
    (hlen : 2 ≤ (headWord (lead r)).length) :
    ∃ w rest, lex r = .ident w :: rest ∧ w = (lead r).takeWhile isIdentCont := by
  have hlex := lex_headWord (isIdentStart_of_headWord hhead) (.inl (by simpa [headWord] using hlen))
  exact ⟨_, _, by rw [lex_lead, hlex], rfl⟩

theorem headWord_of_isPrefix (h : startTransaction <+: text.map upperByte) :
    headWord text = ascii "START" := by
  obtain ⟨y, hy⟩ := h
  have hsplit : startTransaction = ascii "START" ++ ascii " TRANSACTION" := by decide
  have hblank : (ascii " TRANSACTION" ++ y).takeWhile isIdentCont = [] := rfl
  have hcont : ∀ c ∈ ascii "START", isIdentCont c := List.all_eq_true.mp (by decide)
  rw [headWord_eq, ← hy, hsplit, List.append_assoc, List.takeWhile_append_of_pos hcont, hblank,
    List.append_nil]

theorem headWord_of_textEffect (h : textEffect text ≠ none) :
    headWord text ∈ ascii "START" :: controlWords := by
  unfold textEffect at h
  split_ifs at h with hb hc hs
  · simp [hb, controlWords]
  · simp [controlWords, hc]
  · simp [headWord_of_isPrefix hs]
  · exact absurd rfl h

theorem controlWords_capital : ∀ k ∈ ascii "START" :: controlWords, k.head?.any isUpper ∧
    2 ≤ k.length := by decide

theorem lex_of_textEffect (h : textEffect (lead r) ≠ none) :
    ∃ w rest, lex r = .ident w :: rest ∧ w.map upperByte = headWord (lead r) := by
  have key := controlWords_capital _ (headWord_of_textEffect h)
  obtain ⟨w, rest, hlex, rfl⟩ := lex_of_headWord key.1 key.2
  exact ⟨_, rest, hlex, rfl⟩

theorem headWord_of_leads {w : Bytes} {rest : List Tok} (hlex : lex r = .ident w :: rest)
    (hw : w.map upperByte ∈ controlWords) (hlead : w <+: lead r) :
    headWord (lead r) = w.map upperByte := by
  have hcont : ∀ k ∈ controlWords, k.all isIdentCont := by decide
  have hpre : w.map upperByte <+: headWord (lead r) := by
    obtain ⟨y, hy⟩ := hlead
    rw [headWord_eq, ← hy, List.map_append,
      List.takeWhile_append_of_pos (List.all_eq_true.mp (hcont _ hw))]
    exact List.prefix_append _ _
  obtain ⟨hcap, hlen⟩ := controlWords_capital _ (List.mem_cons_of_mem _ hw)
  have hhead : (headWord (lead r)).head? = (w.map upperByte).head? := by
    obtain ⟨y, hy⟩ := hpre
    cases hw' : w.map upperByte with
    | nil => simp [hw'] at hlen
    | cons c k => simp [← hy, hw']
  obtain ⟨w', rest', hlex', rfl⟩ := lex_of_headWord (by rwa [hhead]) (hlen.trans hpre.length_le)
  rw [hlex] at hlex'
  obtain ⟨hw', _⟩ := List.cons.inj hlex'
  cases hw'
  rfl

theorem txEffect_closer {w : Bytes} (rest : List Tok) (h : w.map upperByte ∈ closers) :
    txEffect (.ident w :: rest) =
      if staysOpen (w.map upperByte == ascii "ROLLBACK") rest then none else some false := by
  simp only [closers, List.mem_cons, List.not_mem_nil, or_false] at h
  rcases h with h | h | h <;> simp +decide [txEffect, isWord, h]

theorem txEffect_of_ne_ident {ts : List Tok} (h : ∀ w rest, ts ≠ .ident w :: rest) :
    txEffect ts = none := by
  match ts with
  | [] => rfl
  | .ident w :: rest => exact absurd rfl (h w rest)
  | .quotedIdent .. :: _ | .str .. :: _ | .nchar :: _ | .param _ :: _ | .integer _ :: _
  | .number _ :: _ | .op _ :: _ | .typecast :: _ | .dotDot :: _ | .colonEquals :: _ | .self _ :: _
  | .error :: _ =>
    simp [txEffect, isWord]

theorem txEffect_lex (h : plainStatement r) : txEffect (lex r) = textEffect (lead r) := by
  by_cases hid : ∃ w rest, lex r = .ident w :: rest
  · obtain ⟨w, rest, hlex⟩ := hid
    simp only [plainStatement, hlex, Bool.and_eq_true] at h
    obtain ⟨hascii, h⟩ := h
    have hword (ht : textEffect (lead r) ≠ none) : w.map upperByte = headWord (lead r) := by
      obtain ⟨w', rest', hlex', hw'⟩ := lex_of_textEffect ht
      rw [hlex] at hlex'
      obtain ⟨hw, _⟩ := List.cons.inj hlex'
      cases hw
      exact hw'
    split_ifs at h with hctl hstart
    · obtain ⟨hlead, hopen⟩ := by simpa using h
      have hhead := headWord_of_leads hlex hctl hlead
      by_cases hb : w.map upperByte = ascii "BEGIN"
      · simp [hlex, txEffect, isWord, textEffect, hhead, hb]
      · have hcl : w.map upperByte ∈ closers := (List.mem_cons.mp hctl).resolve_left hb
        have hstay := hopen.resolve_left (not_not.mpr hcl)
        rw [hlex, txEffect_closer rest hcl, hstay, textEffect, hhead, if_neg hb, if_pos hcl]
        rfl
    · obtain ⟨_, hnext⟩ := Bool.and_eq_true_iff.mp h
      have hctl' : headWord (lead r) ∉ controlWords := by
        intro hm
        have ht : textEffect (lead r) ≠ none := by
          simp only [controlWords, List.mem_cons] at hm
          rcases hm with hb | hb <;> simp [textEffect, hb]
          split_ifs <;> simp
        rw [hword ht] at hctl
        exact hctl hm
      obtain ⟨hb, hcl⟩ : headWord (lead r) ≠ ascii "BEGIN" ∧ headWord (lead r) ∉ closers := by
        simpa [controlWords] using hctl'
      have hstart' : w.map upperByte = ascii "START" := by simpa using hstart
      have htx : txEffect (.ident w :: rest) =
          if rest.head?.any (isWord "TRANSACTION") then some true else none := by
        simp +decide [txEffect, isWord, hstart']
      have hiff : startTransaction <+: (lead r).map upperByte ↔
          rest.head?.any (isWord "TRANSACTION") := by
        rw [← List.isPrefixOf_iff_prefix, ← beq_iff_eq.mp hnext]
      rw [hlex, htx, textEffect, if_neg hb, if_neg hcl]
      simp only [hiff]
    · obtain ⟨⟨hab, hprep⟩, _⟩ := by simpa using h
      obtain ⟨hb, hc, he, hr⟩ : w.map upperByte ≠ ascii "BEGIN" ∧ w.map upperByte ≠ ascii "COMMIT" ∧
          w.map upperByte ≠ ascii "END" ∧ w.map upperByte ≠ ascii "ROLLBACK" := by
        simpa [controlWords, closers] using hctl
      have htx : txEffect (.ident w :: rest) = none := by
        simpa [txEffect, isWord, hb, hc, he, hr, hab, hstart] using
          fun hp : w.map upperByte = ascii "PREPARE" => hprep.resolve_left (not_not.mpr hp)
      rw [hlex, htx]
      by_contra ht
      have ht' : textEffect (lead r) ≠ none := fun h => ht h.symm
      have hmem := headWord_of_textEffect ht'
      rw [← hword ht'] at hmem
      exact (List.mem_cons.mp hmem).elim hstart hctl
  · have hne : ∀ w rest, lex r ≠ .ident w :: rest := fun w rest hw => hid ⟨w, rest, hw⟩
    rw [txEffect_of_ne_ident hne]
    by_contra ht
    obtain ⟨w, rest, hlex, _⟩ := lex_of_textEffect fun h => ht h.symm
    exact hne w rest hlex

theorem isSolid_iff : isSolid c ↔ isHighBit c = false ∧ PgLexer.isSpace c = false := by
  grind [isSolid, isHighBit, PgLexer.isSpace, GoStrings.isAsciiSpace]

theorem lead_isSolid (h : plainStatement r) : (lead r).head?.all isSolid := by
  have hspace := head_dropWhile PgLexer.isSpace r
  cases hl : lead r with
  | nil => rfl
  | cons c v =>
    have hsp : PgLexer.isSpace c = false := by
      have hc : (c :: v).head?.all fun d => !PgLexer.isSpace d := by rw [← hl]; exact hspace
      simpa using hc
    by_contra hsolid
    have hhigh : isHighBit c := by
      by_contra hh
      exact hsolid (by simpa using isSolid_iff.mpr ⟨by simpa using hh, hsp⟩)
    have hstart : PgLexer.isIdentStart c := by simp [PgLexer.isIdentStart, hhigh]
    have hlex := lex_headWord (show (c :: v).head?.any PgLexer.isIdentStart by simpa using hstart)
      (.inr (by simpa using hhigh))
    have hcont := isIdentCont_of_isIdentStart hstart
    rw [plainStatement, lex_lead, hl, hlex] at h
    have hall := (Bool.and_eq_true_iff.mp h).1
    simp only [List.takeWhile_cons, hcont, ↓reduceIte, List.all_cons, Bool.and_eq_true,
      decide_eq_true_eq] at hall
    exact absurd hall.1 (UInt8.not_lt.mpr (by simpa [isHighBit] using hhigh))

theorem lead_split (r : Bytes) : ∃ sp, r = sp ++ lead r ∧ ∀ c ∈ sp, GoStrings.isAsciiSpace c :=
  ⟨_, (List.takeWhile_append_dropWhile).symm, fun _ hc => List.mem_takeWhile_imp hc⟩

theorem trimmed_isPrefix (hl : (lead r).head?.all isSolid) : trimSpace (trimSpace r) <+: lead r ∧
      ∀ {x : Bytes} {a : Byte}, isSolid a → x ++ [a] <+: lead r →
      x ++ [a] <+: trimSpace (trimSpace r) := by
  obtain ⟨sp, hr, hsp⟩ := lead_split r
  have hpre : trimSpace r <+: lead r := by
    have h := GoStrings.trimSpace_isPrefix hsp hl
    rwa [← hr] at h
  have hl' : (trimSpace r).head?.all isSolid := by
    obtain ⟨y, hy⟩ := hpre
    cases ht : trimSpace r with
    | nil => rfl
    | cons c t => simpa [← hy, ht] using hl
  have hnil : ∀ c ∈ ([] : Bytes), GoStrings.isAsciiSpace c := by simp
  refine ⟨(GoStrings.trimSpace_isPrefix hnil hl').trans hpre, fun ha hx => ?_⟩
  refine GoStrings.isPrefix_trimSpace hnil hl' ha ?_
  have h := GoStrings.isPrefix_trimSpace hsp hl ha hx
  rwa [← hr] at h

variable (env : Router.Env)

theorem isPrefix_upperTrimmed {x : Bytes} {a : Byte} (hl : (lead r).head?.all isSolid)
    (hx : x ++ [a] <+: lead r) (hascii : ∀ c ∈ x ++ [a], c < 0x80) (ha : isSolid a) :
    (x ++ [a]).map upperByte <+: upperTrimmed env (trimSpace r) := by
  obtain ⟨y, hy⟩ := (trimmed_isPrefix hl).2 ha hx
  rw [upperTrimmed, ← hy, GoStrings.toUpper_append _ _ hascii]
  exact List.prefix_append _ _

theorem isPrefix_of_append {p : Byte → Bool} {a z : Bytes} (hk : ∀ c ∈ k, p c)
    (hz : z.head?.all fun c => !p c) (h : k <+: a ++ z) : k <+: a := by
  rcases Nat.le_total k.length a.length with hle | hle
  · exact List.prefix_of_prefix_length_le h (List.prefix_append a z) hle
  · obtain ⟨y, rfl⟩ := List.prefix_of_prefix_length_le (List.prefix_append a z) h hle
    cases y with
    | nil => simp
    | cons c y =>
      obtain ⟨z, rfl⟩ := (List.prefix_append_right_inj a).mp h
      have hc : p c := hk c (by simp)
      simp [hc] at hz

theorem isSolid_of_isIdentCont (h : isIdentCont c) (hlt : c < 0x80) : isSolid c := by
  grind [isIdentCont, PgLexer.isTagChar, PgLexer.isIdentStart, isLetter, isUpper, isLower, isDigit,
    isHighBit, isSolid, GoStrings.isAsciiSpace]

theorem of_not_isIdentCont (h : isIdentCont c = false) :
    c < 0x80 ∧ isUpper (upperByte c) = false := by
  grind [upperByte, isIdentCont, PgLexer.isTagChar, PgLexer.isIdentStart, isLetter, isUpper,
    isLower, isHighBit]

theorem headWord_ascii (h : plainStatement r) (hstart : (lead r).head?.any PgLexer.isIdentStart) :
    ∀ c ∈ (lead r).takeWhile isIdentCont, c < 0x80 := by
  by_cases hlen : 2 ≤ ((lead r).takeWhile isIdentCont).length
  · have hlex := lex_headWord hstart (.inl hlen)
    rw [plainStatement, lex_lead, hlex] at h
    simpa using (Bool.and_eq_true_iff.mp h).1
  · have hsolid := lead_isSolid h
    cases hl : lead r with
    | nil => simp
    | cons c v =>
      have hc : isIdentCont c := isIdentCont_of_isIdentStart (by simpa [hl] using hstart)
      have hnil : v.takeWhile isIdentCont = [] := by
        rw [hl, List.takeWhile_cons_of_pos hc, List.length_cons] at hlen
        exact List.eq_nil_of_length_eq_zero (by omega)
      rw [List.takeWhile_cons_of_pos hc, hnil]
      have hlt : c < 0x80 := (GoStrings.of_isSolid (by simpa [hl] using hsolid)).1
      simpa using hlt

theorem upperTrimmed_split (h : plainStatement r)
    (hstart : (lead r).head?.any PgLexer.isIdentStart) :
    ∃ z, upperTrimmed env (trimSpace r) = headWord (lead r) ++ z ∧ z.head?.all fun c =>
    !isUpper c := by
  have hascii := headWord_ascii h hstart
  have hne : (lead r).takeWhile isIdentCont ≠ [] := by
    cases hl : lead r with
    | nil => simp [hl] at hstart
    | cons c v =>
        simp [isIdentCont_of_isIdentStart (show PgLexer.isIdentStart c by simpa [hl] using hstart)]
  have hlead := List.takeWhile_append_dropWhile (p := isIdentCont) (l := lead r)
  have hsplit := List.dropLast_append_getLast hne
  have hlast := List.getLast_mem hne
  have hsolid := isSolid_of_isIdentCont (List.mem_takeWhile_imp hlast) (hascii _ hlast)
  obtain ⟨htrim, hkeep⟩ := trimmed_isPrefix (lead_isSolid h)
  obtain ⟨y, hy⟩ := hkeep hsolid (by rw [hsplit]; exact List.takeWhile_prefix _)
  rw [hsplit] at hy
  refine ⟨toUpper env.upperRune
    y, by rw [upperTrimmed, ← hy, GoStrings.toUpper_append _ _ hascii]; rfl, ?_⟩
  have hrest : y <+: (lead r).dropWhile isIdentCont := by
    rw [← List.prefix_append_right_inj ((lead r).takeWhile isIdentCont), hy, hlead]
    exact htrim
  cases y with
  | nil => rfl
  | cons d y =>
    have hd : isIdentCont d = false := by
      have := head_dropWhile isIdentCont (lead r)
      obtain ⟨y', hy'⟩ := hrest
      simpa [← hy'] using this
    obtain ⟨hlt, hup⟩ := of_not_isIdentCont hd
    have hcons := GoStrings.toUpper_append env.upperRune (u := [d]) y (by simpa using hlt)
    rw [List.singleton_append] at hcons
    simp [hcons, hup]

theorem toUpper_cons (w : Bytes) (h : c < 0x80) :
    toUpper env.upperRune (c :: w) = upperByte c :: toUpper env.upperRune w :=
  GoStrings.toUpper_append env.upperRune (u := [c]) w (by simpa using h)

theorem isPrefix_headWord (h : plainStatement r) (hk : ∀ c ∈ k, isUpper c) (hne : k ≠ [])
    (hpre : k <+: upperTrimmed env (trimSpace r)) :
    (lead r).head?.any PgLexer.isIdentStart ∧ k <+: headWord (lead r) := by
  have hsolid := lead_isSolid h
  have hstart : (lead r).head?.any PgLexer.isIdentStart := by
    obtain ⟨⟨y, hy⟩, _⟩ := trimmed_isPrefix hsolid
    cases k with
    | nil => exact absurd rfl hne
    | cons d k =>
      cases ht : trimSpace (trimSpace r) with
      | nil => simp [upperTrimmed, ht, toUpper] at hpre
      | cons c t =>
        rw [← hy, ht] at hsolid ⊢
        have hlt : c < 0x80 := (GoStrings.of_isSolid (by simpa using hsolid)).1
        rw [upperTrimmed, ht, toUpper_cons env t hlt, List.cons_prefix_cons] at hpre
        simpa using isIdentStart_of_upper (by rw [← hpre.1]; exact hk d (by simp))
  refine ⟨hstart, ?_⟩
  obtain ⟨z, hz, hhead⟩ := upperTrimmed_split env h hstart
  rw [hz] at hpre
  exact isPrefix_of_append hk hhead hpre

theorem lex_of_isPrefix (hk : k ∈ ascii "START" :: controlWords) (hpre : k <+: headWord (lead r)) :
    ∃ w rest, lex r = .ident w :: rest ∧ w.map upperByte = headWord (lead r) := by
  obtain ⟨hcap, hlen⟩ := controlWords_capital k hk
  have hhead : (headWord (lead r)).head?.any isUpper := by
    obtain ⟨y, hy⟩ := hpre
    cases k with
    | nil => simp at hlen
    | cons c k => simpa [← hy] using hcap
  obtain ⟨w, rest, hlex, rfl⟩ := lex_of_headWord hhead (hlen.trans hpre.length_le)
  exact ⟨_, rest, hlex, rfl⟩

theorem headWord_of_control (h : plainStatement r) (hk : k ∈ controlWords)
    (hpre : k <+: headWord (lead r)) : headWord (lead r) = k := by
  obtain ⟨w, rest, hlex, hw⟩ := lex_of_isPrefix (List.mem_cons_of_mem _ hk) hpre
  have hdiff : ∀ k ∈ controlWords, ¬ k <+: ascii "START" ∧ ∀ k' ∈ controlWords, k <+: k' →
    k' = k := by decide
  rw [← hw] at hpre ⊢
  simp only [plainStatement, hlex, Bool.and_eq_true] at h
  obtain ⟨_, h⟩ := h
  split_ifs at h with hctl hstart
  · exact (hdiff k hk).2 _ hctl hpre
  · exact absurd (hstart ▸ hpre) (hdiff k hk).1
  · obtain ⟨_, hnot⟩ := by simpa using h
    exact absurd hpre (hnot k hk)

theorem textEffect_of_closer (h : headWord text ∈ closers) : textEffect text = some false := by
  have hb : headWord text ≠ ascii "BEGIN" := by
    intro hb
    rw [hb] at h
    revert h
    decide
  rw [textEffect, if_neg hb, if_pos h]

theorem endsTx_iff_isPrefix (upper : Bytes) : endsTx upper ↔ ∃ k ∈ closers, k <+: upper := by
  simp [endsTx, closers, or_comm, or_left_comm]

theorem headWord_isPrefix (h : plainStatement r) (hw : headWord (lead r) ∈ controlWords) :
    headWord (lead r) <+: upperTrimmed env (trimSpace r) := by
  have hcap := (controlWords_capital _ (List.mem_cons_of_mem _ hw)).1
  obtain ⟨z, hz, _⟩ := upperTrimmed_split env h (isIdentStart_of_headWord hcap)
  exact ⟨z, hz.symm⟩

theorem endsTx_iff (h : plainStatement r) :
    endsTx (upperTrimmed env (trimSpace r)) ↔ textEffect (lead r) = some false := by
  have hcap : ∀ k ∈ closers, k.all isUpper ∧ k ≠ [] := by decide
  rw [endsTx_iff_isPrefix]
  constructor
  · rintro ⟨k, hk, hpre⟩
    have hctl : k ∈ controlWords := List.mem_cons_of_mem _ hk
    have hup := List.all_eq_true.mp (hcap k hk).1
    have hw := headWord_of_control h hctl (isPrefix_headWord env h hup (hcap k hk).2 hpre).2
    exact textEffect_of_closer (by rwa [hw])
  · intro ht
    have hcl : headWord (lead r) ∈ closers := by
      unfold textEffect at ht
      split_ifs at ht with hb hcl
      · cases ht
      · exact hcl
      · cases ht
    exact ⟨_, hcl, headWord_isPrefix env h (List.mem_cons_of_mem _ hcl)⟩

theorem headWord_isIdentCont (text : Bytes) : ∀ c ∈ headWord text, isIdentCont c := by
  rw [headWord_eq]
  exact fun c hc => List.mem_takeWhile_imp hc

theorem startTransaction_eq :
    startTransaction = ascii "START" ++ blank :: ascii "TRANSACTION" := by decide

theorem startTransaction_isPrefix (h : plainStatement r)
    (hpre : startTransaction <+: upperTrimmed env (trimSpace r)) :
    startTransaction <+: (lead r).map upperByte := by
  have hst : ascii "START" <+:
    startTransaction := by rw [startTransaction_eq]; exact List.prefix_append _ _
  obtain ⟨hstart, hword⟩ := isPrefix_headWord env h (List.all_eq_true.mp (by decide)) (by decide)
    (hst.trans hpre)
  obtain ⟨z, hz, _⟩ := upperTrimmed_split env h hstart
  have hhead : headWord (lead r) = ascii "START" := by
    refine (hword.eq_of_length_le ?_).symm
    by_contra hlt
    -- a longer first word would take in the blank
    have hb : ascii "START" ++ [blank] <+: headWord (lead r) := by
      refine List.prefix_of_prefix_length_le ?_ (List.prefix_append _ z)
        (by simp [ascii] at hlt ⊢; omega)
      rw [← hz]
      refine List.IsPrefix.trans ?_ hpre
      rw [startTransaction_eq]
      exact ⟨ascii "TRANSACTION", by simp⟩
    have := headWord_isIdentCont (lead r) blank (hb.subset (by simp))
    exact absurd this (by decide)
  obtain ⟨w, rest, hlex, hw⟩ := lex_of_isPrefix (List.mem_cons_self ..) hword
  obtain ⟨htrim, _⟩ := trimmed_isPrefix (lead_isSolid h)
  have hascii : ∀ c ∈ (trimSpace (trimSpace r)).take 17, c < 0x80 := by
    simp only [plainStatement, hlex, hw, hhead, Bool.and_eq_true] at h
    obtain ⟨_, h⟩ := h
    rw [if_neg (by decide), if_pos trivial, Bool.and_eq_true, List.all_eq_true] at h
    intro c hc
    obtain ⟨y, hy⟩ := htrim
    simpa using h.1 c (by rw [← hy, List.take_append]; exact List.mem_append_left _ hc)
  have htake : ((trimSpace (trimSpace r)).take 17).map upperByte <+: (lead r).map upperByte :=
    ((List.take_prefix 17 _).trans htrim).map upperByte
  rw [upperTrimmed, ← List.take_append_drop 17 (trimSpace (trimSpace r)),
    GoStrings.toUpper_append _ _ hascii] at hpre
  refine List.IsPrefix.trans ?_ htake
  rcases Nat.le_total (trimSpace (trimSpace r)).length 17 with hle | hle
  · rwa [List.drop_eq_nil_of_le hle, show toUpper env.upperRune [] = [] from rfl,
      List.append_nil] at hpre
  · exact List.prefix_of_prefix_length_le hpre (List.prefix_append _ _)
      (by simp [startTransaction, ascii, hle])

theorem of_isUpper_upperByte (h : isUpper (upperByte c)) : isSolid c := by
  grind [upperByte, isLower, isUpper, isSolid, GoStrings.isAsciiSpace]

theorem lt_of_upperByte_lt (h : upperByte c < 0x80) : c < 0x80 := by
  grind [upperByte, isLower]

theorem startsTx_iff (h : plainStatement r) :
    startsTx (upperTrimmed env (trimSpace r)) ↔ textEffect (lead r) = some true := by
  have hiff : startsTx (upperTrimmed env (trimSpace r)) ↔
      ascii "BEGIN" <+: upperTrimmed env (trimSpace r) ∨
      startTransaction <+: upperTrimmed env (trimSpace r) := by simp [startsTx, startTransaction]
  rw [hiff]
  constructor
  · rintro (hpre | hpre)
    · have hw := headWord_of_control h (k := ascii "BEGIN") (by decide)
        (isPrefix_headWord env h (List.all_eq_true.mp (by decide)) (by decide) hpre).2
      rw [textEffect, if_pos hw]
    · have ht := startTransaction_isPrefix env h hpre
      have hw := headWord_of_isPrefix ht
      rw [textEffect, hw, if_neg (by decide), if_neg (by decide), if_pos ht]
  · intro ht
    unfold textEffect at ht
    split_ifs at ht with hb hcl hs
    · left
      have hp := headWord_isPrefix env h (by rw [hb]; decide)
      rwa [hb] at hp
    · cases ht
    · right
      have hx : ((lead r).take 17).map upperByte = startTransaction := by
        rw [List.map_take]
        exact (List.prefix_iff_eq_take.mp hs).symm
      have hne : (lead r).take 17 ≠ [] := by
        intro hnil
        rw [hnil] at hx
        exact absurd hx (by decide)
      have hascii : ∀ c ∈ (lead r).take 17, c < 0x80 := by
        intro c hc
        have hall : startTransaction.all (· < 0x80) := by decide
        have hlt := List.all_eq_true.mp hall (upperByte c)
          (by rw [← hx]; exact List.mem_map_of_mem hc)
        exact lt_of_upperByte_lt (of_decide_eq_true hlt)
      have hlast : isSolid (((lead r).take 17).getLast hne) := by
        have hn : (((lead r).take 17).map upperByte).getLast? = some 78 := by rw [hx]; decide
        rw [List.getLast?_map, List.getLast?_eq_some_getLast hne, Option.map_some,
          Option.some.injEq] at hn
        exact of_isUpper_upperByte (by rw [hn]; decide)
      have hsplit := List.dropLast_append_getLast hne
      rw [← hx, ← hsplit]
      exact isPrefix_upperTrimmed env (lead_isSolid h) (by rw [hsplit]; exact List.take_prefix 17 _)
        (by rwa [hsplit]) hlast

theorem trackStatement_trimSpace (h : plainStatement r) (b : Bool) :
    trackStatement env b (trimSpace r) = (textEffect (lead r)).getD b := by
  have hs := startsTx_iff env h
  have he := endsTx_iff env h
  rw [trackStatement]
  cases ht : textEffect (lead r) with
  | none => simp_all
  | some v => cases v <;> simp_all

end PgMux.TxWords
