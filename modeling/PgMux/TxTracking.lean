import PgMux.Splitting
import PgMux.TxWords

/-!
# The transaction flag of a session

`RouteWithTxState` keeps a flag from the texts of the queries. A query is tracked when its
statements are plain and the path the router takes for it reads it as PostgreSQL does; in a run of
tracked queries the flag is PostgreSQL's.
-/

namespace PgMux.TxTracking

open GoStrings (trimSpace)
open PgLexer (Tok lex isIdentCont lexSplitFrom)
open PgStatements (splitSemicolons topStatements trackStatements trackQuery txEffect)
open Router (Env Session isSingleStatement hasTxPrefix keywordAt routeWithTxState)
open SplitAgreement (splitClear)
open TxWords

def controlLength (text : Bytes) : Option Nat :=
  if headWord text ∈ controlWords then some (headWord text).length
  else if startTransaction <+: text.map upperByte then some startTransaction.length
  else none

def fastPlain (q : Bytes) : Bool :=
  match controlLength (lead q) with
  | some n => q.dropWhile Router.isSpace == lead q &&
    ((lead q).drop n).head?.all fun c => Router.isSpace c || c == semicolon
  | none => true

/-- The router and PostgreSQL see the same transaction control. -/
def tracked (q : Bytes) : Bool :=
  !(lex q).contains .error && !q.contains 0 && topStatements (lex q) == splitSemicolons (lex q) &&
    (lexSplitFrom .start [] q).all plainStatement &&
    if isSingleStatement q then fastPlain q else splitClear .start q

variable (env : Env)

def routeAll (s : Session) (qs : List (Int × Bytes)) : Session :=
  qs.foldl (fun s q => (routeWithTxState env s q.1 q.2).2) s

section slow

theorem foldl_statements {rs : List Bytes} (h : ∀ r ∈ rs, plainStatement r) (b : Bool) :
    ((rs.map trimSpace).filter (· ≠ [])).foldl (Router.trackStatement env) b =
      trackStatements b (rs.map lex) := by
  induction rs generalizing b with
  | nil => rfl
  | cons r rs ih =>
    have hr := h r (by simp)
    have hrs := fun x hx => h x (List.mem_cons_of_mem r hx)
    have heff : (txEffect (lex r)).getD b = Router.trackStatement env b (trimSpace r) := by
      rw [trackStatement_trimSpace env hr, txEffect_lex hr]
    have hcons : trackStatements b ((r :: rs).map lex) =
        trackStatements (Router.trackStatement env b (trimSpace r)) (rs.map lex) := by
      rw [← heff]
      rfl
    rw [hcons, ← ih hrs]
    by_cases hnil : trimSpace r = []
    · have hb : Router.trackStatement env b [] = b := rfl
      simp [hnil, hb]
    · simp [hnil]

end slow

variable {q : Bytes}

section fast

theorem toNat_or_bit (a : Byte) :
    (a ||| 0x20).toNat = if a.toNat / 32 % 2 = 1 then a.toNat else a.toNat + 32 := by
  revert a
  apply forall_byte
  decide +kernel

theorem toNat_upperByte (a : Byte) :
    (upperByte a).toNat = if 97 ≤ a.toNat ∧ a.toNat ≤ 122 then a.toNat - 32 else a.toNat := by
  simp only [upperByte, isLower, Bool.and_eq_true, decide_eq_true_eq, UInt8.le_iff_toNat_le,
    UInt8.reduceToNat]
  split_ifs with h
  · rw [UInt8.toNat_sub_of_le _ _ (by rw [UInt8.le_iff_toNat_le]; simp; omega)]
    rfl
  · rfl

theorem or_bit_eq {a b : Byte} (h : isUpper b ∨ b = blank ∧ a ≠ 0) :
    (a ||| 0x20 == b ||| 0x20) = (upperByte a == b) := by
  have h : (65 ≤ b.toNat ∧ b.toNat ≤ 90) ∨ b.toNat = 32 ∧ a.toNat ≠ 0 := by
    rcases h with hb | ⟨rfl, ha⟩
    · exact .inl (by simpa [isUpper, UInt8.le_iff_toNat_le] using hb)
    · exact .inr ⟨rfl, by simpa [← UInt8.toNat_inj] using ha⟩
  rw [Bool.eq_iff_iff, beq_iff_eq, beq_iff_eq, ← UInt8.toNat_inj, ← UInt8.toNat_inj, toNat_or_bit,
    toNat_or_bit, toNat_upperByte]
  split_ifs <;> omega

theorem eqFoldN_cons (a b : Byte) (text k : Bytes) :
    Router.eqFoldN (a :: text) (b :: k) = ((a ||| 0x20 == b ||| 0x20) &&
      Router.eqFoldN text k) := by
  simp [Router.eqFoldN, Bool.and_left_comm]

variable {k text : Bytes} {c : Byte}

theorem eqFoldN_map {f : Byte → Byte}
    (h : ∀ a ∈ text, ∀ b ∈ k, (a ||| 0x20 == b ||| 0x20) = (f a == b)) :
    Router.eqFoldN text k = k.isPrefixOf (text.map f) := by
  induction k generalizing text with
  | nil => simp [Router.eqFoldN]
  | cons b k ih =>
    cases text with
    | nil => simp [Router.eqFoldN]
    | cons a text =>
      rw [eqFoldN_cons, h a (by simp) b (by simp),
        ih fun a ha b hb => h a (by simp [ha]) b (by simp [hb]), Bool.beq_comm]
      rfl

theorem eqFoldN_eq (hk : ∀ b ∈ k, isUpper b ∨ b = blank) (h0 : (0 : Byte) ∉ text) :
    Router.eqFoldN text k = k.isPrefixOf (text.map upperByte) :=
  eqFoldN_map fun _ ha b hb =>
    or_bit_eq ((hk b hb).imp_right fun hb => ⟨hb, ne_of_mem_of_not_mem ha h0⟩)

def delimited (text : Bytes) (n : Nat) : Bool :=
  (text.drop n).head?.all fun c => Router.isSpace c || c == semicolon

theorem keywordAt_iff (hk : ∀ b ∈ k, isUpper b ∨ b = blank) (h0 : (0 : Byte) ∉ text) :
    keywordAt k text ↔ k <+: text.map upperByte ∧ delimited text k.length := by
  rw [keywordAt, eqFoldN_eq hk h0, Bool.and_eq_true, List.isPrefixOf_iff_prefix]
  rfl

theorem isIdentCont_of_delimiter (h : Router.isSpace c || c == semicolon) :
    isIdentCont c = false := by
  grind [Router.isSpace, isIdentCont, PgLexer.isTagChar, PgLexer.isIdentStart, isDigit, isLetter,
    isUpper, isLower, isHighBit]

theorem headWord_of_delimited (hk : ∀ c ∈ k, isIdentCont c) (hpre : k <+: text.map upperByte)
    (hd : delimited text k.length) : headWord text = k := by
  obtain ⟨z, hz⟩ := hpre
  have hdrop : z = (text.drop k.length).map upperByte := by
    rw [List.map_drop, ← hz, List.drop_left]
  rw [headWord_eq, ← hz, List.takeWhile_append_of_pos hk]
  cases ht : text.drop k.length with
  | nil => simp [hdrop, ht]
  | cons c v =>
    have hc : isIdentCont c = false := isIdentCont_of_delimiter (by simpa [delimited, ht] using hd)
    simp [hdrop, ht, isIdentCont_upperByte, hc]

def flagOf : Router.TxPrefix → Option Bool
  | .start => some true
  | .finish => some false
  | .other => none

@[simp] theorem flagOf_start : flagOf .start = some true := rfl
@[simp] theorem flagOf_finish : flagOf .finish = some false := rfl
@[simp] theorem flagOf_other : flagOf .other = none := rfl

theorem keywordAt_cons {b : Byte} {v : Bytes} (h : c ||| 0x20 ≠ b ||| 0x20) :
    keywordAt (b :: k) (c :: v) = false := by
  simp [keywordAt, eqFoldN_cons, h]

theorem flagOf_hasTxPrefix (q : Bytes) :
    flagOf (hasTxPrefix q) =
      if keywordAt (ascii "BEGIN") (q.dropWhile Router.isSpace) ||
        keywordAt startTransaction (q.dropWhile Router.isSpace)
      then some true
      else if closers.any fun k => keywordAt k (q.dropWhile Router.isSpace) then some false
      else none := by
  simp only [hasTxPrefix, closers, List.any_cons, List.any_nil, Bool.or_false]
  generalize q.dropWhile Router.isSpace = text
  cases text with
  | nil => rfl
  | cons c v =>
    have hb (h : c ||| 0x20 ≠ 98) : keywordAt (ascii "BEGIN") (c :: v) = false := keywordAt_cons h
    have hs (h : c ||| 0x20 ≠ 115) : keywordAt startTransaction (c :: v) = false := keywordAt_cons h
    have hc (h : c ||| 0x20 ≠ 99) : keywordAt (ascii "COMMIT") (c :: v) = false := keywordAt_cons h
    have hr (h : c ||| 0x20 ≠ 114) : keywordAt (ascii "ROLLBACK") (c :: v) = false :=
      keywordAt_cons h
    have he (h : c ||| 0x20 ≠ 101) : keywordAt (ascii "END") (c :: v) = false := keywordAt_cons h
    simp only [List.head?_cons, Option.map_some]
    generalize c ||| (0x20 : Byte) = x at hb hs hc hr he
    split
    · rename_i hx
      obtain rfl : x = 98 := by simpa using hx
      simp [apply_ite flagOf, hs (by decide), hc (by decide), hr (by decide), he (by decide)]
    · rename_i hx
      obtain rfl : x = 115 := by simpa using hx
      simp [apply_ite flagOf, startTransaction, hb (by decide), hc (by decide), hr (by decide),
        he (by decide)]
    · rename_i hx
      obtain rfl : x = 99 := by simpa using hx
      simp [apply_ite flagOf, hb (by decide), hs (by decide), hr (by decide), he (by decide)]
    · rename_i hx
      obtain rfl : x = 114 := by simpa using hx
      simp [apply_ite flagOf, hb (by decide), hs (by decide), hc (by decide), he (by decide)]
    · rename_i hx
      obtain rfl : x = 101 := by simpa using hx
      simp [apply_ite flagOf, hb (by decide), hs (by decide), hc (by decide), hr (by decide)]
    · rename_i h98 h115 h99 h114 h101
      simp [hb fun h => h98 (by rw [h]), hs fun h => h115 (by rw [h]), hc fun h => h99 (by rw [h]),
        hr fun h => h114 (by rw [h]), he fun h => h101 (by rw [h])]

theorem isSpace_of_routerSpace (h : Router.isSpace c) : PgLexer.isSpace c := by
  grind [Router.isSpace, PgLexer.isSpace]

theorem lead_eq_dropWhile (q : Bytes) :
    lead q = (q.dropWhile Router.isSpace).dropWhile PgLexer.isSpace := by
  have hsp : ∀ c ∈ q.takeWhile Router.isSpace, PgLexer.isSpace c := fun c hc =>
    isSpace_of_routerSpace (List.mem_takeWhile_imp hc)
  conv_lhs => rw [lead, ← List.takeWhile_append_dropWhile (p := Router.isSpace) (l := q)]
  rw [List.dropWhile_append_of_pos hsp]

theorem lead_of_keywordAt (hk : k.head?.any isUpper)
    (hpre : k <+: (q.dropWhile Router.isSpace).map upperByte) :
    q.dropWhile Router.isSpace = lead q := by
  rw [lead_eq_dropWhile]
  cases hq : q.dropWhile Router.isSpace with
  | nil => rfl
  | cons c v =>
    cases k with
    | nil => simp at hk
    | cons b k =>
      rw [hq, List.map_cons, List.cons_prefix_cons] at hpre
      have hc : isUpper (upperByte c) := by
        rw [← hpre.1]
        simpa using hk
      have hsp := (isSolid_iff.mp (of_isUpper_upperByte hc)).2
      rw [List.dropWhile_cons_of_neg (by simp [hsp])]

theorem fastPlain_layout (h : fastPlain q) {n : Nat} (hn : controlLength (lead q) = some n) :
    q.dropWhile Router.isSpace = lead q ∧ delimited (lead q) n := by
  simpa [fastPlain, hn, delimited] using h

section keywords

variable {q : Bytes} (h : fastPlain q) (h0 : (0 : Byte) ∉ q)

include h h0

theorem keywordAt_control (hk : k ∈ controlWords) :
    keywordAt k (q.dropWhile Router.isSpace) ↔ headWord (lead q) = k := by
  have hcap : ∀ k ∈ controlWords, k.all isUpper ∧ k.all isIdentCont ∧
    k.head?.any isUpper := by decide
  obtain ⟨hup, hcont, hhead⟩ := hcap k hk
  replace hup : ∀ c ∈ k, isUpper c ∨ c = blank := fun c hc => .inl (List.all_eq_true.mp hup c hc)
  rw [List.all_eq_true] at hcont
  rw [keywordAt_iff hup fun h => h0 (List.dropWhile_sublist _ |>.subset h)]
  constructor
  · rintro ⟨hpre, hd⟩
    have hl := lead_of_keywordAt hhead hpre
    rw [hl] at hpre hd
    exact headWord_of_delimited hcont hpre hd
  · rintro rfl
    obtain ⟨hl, hd⟩ := fastPlain_layout h (n := (headWord (lead q)).length)
      (by rw [controlLength, if_pos hk])
    rw [hl]
    refine ⟨?_, hd⟩
    rw [headWord_eq]
    exact List.takeWhile_prefix _

theorem keywordAt_startTransaction :
    keywordAt startTransaction (q.dropWhile Router.isSpace) ↔
    startTransaction <+: (lead q).map upperByte := by
  have hup : ∀ c ∈ startTransaction, isUpper c ∨ c = blank := by
    have hall : startTransaction.all (fun c => isUpper c || c == blank) := by decide
    simpa using List.all_eq_true.mp hall
  rw [keywordAt_iff hup fun h => h0 (List.dropWhile_sublist _ |>.subset h)]
  constructor
  · rintro ⟨hpre, _⟩
    rwa [lead_of_keywordAt (by decide) hpre] at hpre
  · intro hpre
    have hctl : headWord (lead q) ∉ controlWords := by
      rw [headWord_of_isPrefix hpre]
      decide
    obtain ⟨hl, hd⟩ := fastPlain_layout h (n := startTransaction.length)
      (by rw [controlLength, if_neg hctl, if_pos hpre])
    rw [hl]
    exact ⟨hpre, hd⟩

theorem flagOf_eq_textEffect : flagOf (hasTxPrefix q) = textEffect (lead q) := by
  have hb := keywordAt_control h h0 (k := ascii "BEGIN") (by decide)
  have hcl : (closers.any fun k => keywordAt k (q.dropWhile Router.isSpace)) ↔
      headWord (lead q) ∈ closers := by
    rw [List.any_eq_true]
    constructor
    · rintro ⟨k, hk, hat⟩
      rwa [(keywordAt_control h h0 (List.mem_cons_of_mem _ hk)).mp hat]
    · exact fun hk => ⟨_, hk, (keywordAt_control h h0 (List.mem_cons_of_mem _ hk)).mpr rfl⟩
  have hst := keywordAt_startTransaction h h0
  rw [flagOf_hasTxPrefix, textEffect]
  simp only [Bool.or_eq_true, hb, hcl, hst]
  by_cases hs : startTransaction <+: (lead q).map upperByte
  · have hw := headWord_of_isPrefix hs
    have hno : ascii "START" ∉ closers := by decide
    simp [hs, hw, hno]
  · simp [hs]

end keywords

theorem lexSplitFrom_append {u : Bytes} (hu : semicolon ∉ u) (s : PgLexer.State) (cur v : Bytes) :
    ∃ s', lexSplitFrom s cur (u ++ v) = lexSplitFrom s' (cur ++ u) v := by
  induction u generalizing s cur with
  | nil => exact ⟨s, by simp⟩
  | cons c u ih =>
    obtain ⟨hc, hu⟩ := by simpa using hu
    obtain ⟨s', hs'⟩ := ih hu (PgLexer.step s c).2 (cur ++ [c])
    refine ⟨s', ?_⟩
    rw [List.cons_append, lexSplitFrom, if_neg (PgLexer.semicolon_notMem_step (Ne.symm hc) s), hs']
    simp

theorem lexSplitFrom_of_notMem {v : Bytes} (hv : semicolon ∉ v) (s : PgLexer.State) (cur : Bytes) :
    lexSplitFrom s cur v = [cur ++ v] := by
  obtain ⟨s', hs'⟩ := lexSplitFrom_append hv s cur []
  rw [List.append_nil] at hs'
  rw [hs', lexSplitFrom]

theorem lexSplitFrom_single (h : isSingleStatement q) : lexSplitFrom .start [] q = [q] ∨
      ∃ a sp, q = a ++ semicolon :: sp ∧ trimSpace sp = [] ∧
      lexSplitFrom .start [] q = [a, sp] := by
  rcases Splitting.cases_of_isSingleStatement h with hq | ⟨a, sp, rfl, ha, hsp, htrim⟩
  · exact .inl (lexSplitFrom_of_notMem hq _ _)
  · obtain ⟨s', hs'⟩ := lexSplitFrom_append ha .start [] (semicolon :: sp)
    rw [List.nil_append, lexSplitFrom] at hs'
    split_ifs at hs' with hcut
    · exact .inr ⟨a, sp, rfl, htrim, by rw [hs', lexSplitFrom_of_notMem hsp, List.nil_append]⟩
    · rw [lexSplitFrom_of_notMem hsp, List.append_assoc, List.singleton_append] at hs'
      exact .inl hs'

theorem textEffect_append (a sp : Bytes) :
    textEffect (lead (a ++ semicolon :: sp)) = textEffect (lead a) := by
  have hlead : lead (a ++ semicolon :: sp) = lead a ++ semicolon :: sp := by
    have hsemi : PgLexer.isSpace semicolon = false := by decide
    simp only [lead, List.dropWhile_append, List.isEmpty_iff]
    split_ifs with ha
    · rw [ha, List.dropWhile_cons_of_neg (by simp [hsemi]), List.nil_append]
    · rfl
  have hword : headWord (lead a ++ semicolon :: sp) = headWord (lead a) := by
    have hsemi : isIdentCont semicolon = false := by decide
    simp only [headWord, List.takeWhile_append]
    split_ifs with hlen
    · rw [List.takeWhile_cons_of_neg (by simp [hsemi]), List.append_nil]
      have hall := (List.takeWhile_prefix isIdentCont).eq_of_length hlen
      rw [hall]
    · rfl
  have hstart : startTransaction <+: (lead a ++ semicolon :: sp).map upperByte ↔
      startTransaction <+: (lead a).map upperByte := by
    rw [List.map_append]
    constructor
    · intro h
      refine isPrefix_of_append (p := (· != semicolon)) (List.all_eq_true.mp (by decide)) ?_ h
      rfl
    · exact fun h => h.trans (List.prefix_append _ _)
  simp only [textEffect, hlead, hword, hstart]

theorem textEffect_of_trimSpace {sp : Bytes} (h : plainStatement sp) (hsp : trimSpace sp = []) :
    textEffect (lead sp) = none := by
  have hsolid := lead_isSolid h
  cases hl : lead sp with
  | nil => decide
  | cons c v =>
    have hc : c ∈ sp := (List.dropWhile_sublist _).subset (show c ∈ lead sp by simp [hl])
    have hm := GoStrings.mem_trimSpace (by simpa [hl] using hsolid) hc
    simp [hsp] at hm

theorem trackStatements_single (hsingle : isSingleStatement q)
    (hplain : ∀ r ∈ lexSplitFrom .start [] q, plainStatement r) (b : Bool) :
    trackStatements b ((lexSplitFrom .start [] q).map lex) = (textEffect (lead q)).getD b := by
  rcases lexSplitFrom_single hsingle with hp | ⟨a, sp, rfl, hsp, hp⟩
  · rw [hp] at hplain ⊢
    simp [trackStatements, txEffect_lex (hplain q (by simp))]
  · rw [hp] at hplain ⊢
    have hs := hplain sp (by simp)
    simp [trackStatements, txEffect_lex (hplain a (by simp)), txEffect_lex hs,
      textEffect_of_trimSpace hs hsp, textEffect_append]

end fast

theorem routeByType_inTransaction (s : Session) (now : Int) (q : Bytes) :
    (Router.routeByType env s now q).2.inTransaction = s.inTransaction := by
  unfold Router.routeByType
  split
  · split_ifs <;> rfl
  · split_ifs <;> rfl

theorem routeQueryLocked_inTransaction (s : Session) (now : Int) (q : Bytes) :
    (Router.routeQueryLocked env s now q).2.inTransaction =
      if isSingleStatement q then (flagOf (hasTxPrefix q)).getD s.inTransaction
      else (Router.splitStatements q).foldl (Router.trackStatement env) s.inTransaction := by
  unfold Router.routeQueryLocked
  by_cases hsingle : isSingleStatement q
  · simp only [hsingle, ↓reduceIte]
    cases hasTxPrefix q with
    | start | finish => rfl
    | other =>
      split_ifs
      · rfl
      · exact routeByType_inTransaction env s now q
  · simp only [hsingle, Bool.false_eq_true, ↓reduceIte]
    split_ifs
    · rfl
    · rfl
    · exact routeByType_inTransaction env _ now q

theorem routeWithTxState_inTransaction (h : tracked q) (s : Session) (now : Int) :
    (routeWithTxState env s now q).2.inTransaction = trackQuery s.inTransaction q := by
  simp only [tracked, Bool.and_eq_true, Bool.not_eq_true', beq_iff_eq, List.all_eq_true] at h
  obtain ⟨⟨⟨⟨herr, h0⟩, htop⟩, hplain⟩, hpath⟩ := h
  have herr : Tok.error ∉ lex q := by simpa using herr
  rw [trackQuery, htop, PgLexer.splitSemicolons_lex]
  refine (routeQueryLocked_inTransaction env s now q).trans ?_
  split_ifs at hpath ⊢ with hsingle
  · rw [flagOf_eq_textEffect hpath (by simpa using h0), trackStatements_single hsingle hplain]
  · have hsplit := SplitAgreement.splitFrom_eq q [] (SplitAgreement.follows_start q) (by simp)
      (fun he => herr (List.mem_append_left _ he)) hpath
    rw [Router.splitStatements, hsplit, foldl_statements env hplain]

/-- In every run of tracked queries the session's flag is PostgreSQL's transaction state. -/
theorem routeAll_inTransaction (s : Session) (qs : List (Int × Bytes)) (h : ∀ q ∈ qs, tracked q.2) :
    (routeAll env s qs).inTransaction = qs.foldl (fun b q => trackQuery b q.2) s.inTransaction := by
  induction qs generalizing s with
  | nil => rfl
  | cons q qs ih =>
    have hq := routeWithTxState_inTransaction env (h q (by simp)) s q.1
    rw [List.foldl_cons, ← hq]
    exact ih _ fun q' hq' => h q' (by simp [hq'])

def plainEnv : Env := ⟨id, fun _ => .write, fun _ => .write⟩

def script : List (Int × Bytes) :=
  [(0, ascii "begin"), (1, ascii "INSERT INTO t VALUES (';'); SELECT 1"),
    (2, ascii "COMMIT; -- done;")]

theorem routeAll_inTransaction_script :
    (∀ q ∈ script, tracked q.2) ∧
      (routeAll plainEnv (Session.new 0 false false) script).inTransaction =
        script.foldl (fun b q => trackQuery b q.2) false :=
  ⟨by decide +kernel, routeAll_inTransaction plainEnv _ script (by decide +kernel)⟩

theorem routeAll_rollbackToSavepoint :
    (routeAll plainEnv (Session.new 0 false false) [(0, ascii "BEGIN"), (1, ascii "SAVEPOINT a"),
        (2, ascii "ROLLBACK TO SAVEPOINT a")]).inTransaction = false ∧
      [ascii "BEGIN", ascii "SAVEPOINT a", ascii "ROLLBACK TO SAVEPOINT a"].foldl trackQuery false =
        true := by
  decide +kernel

end PgMux.TxTracking
