import PgMux.PgStatements
import PgMux.Relay
import PgMux.TxTracking

/-!
# Statements that modify the session

A connection goes back to its pool without a reset unless `isSessionModifying` has seen a statement
that changes the session. The function matches bytes at the start of the query text. `Recognised` is
the layout it knows, word for word and blank for blank; the statements that it has to recognise are
those of PostgreSQL's lexer, in any layout and at any place of the text.
-/

namespace PgMux.SessionWords

open PgLexer (Tok lex)
open PgStatements (isWord topStatements)
open Relay (isBlank isSessionModifying wordAt)
open Router (eqFoldN isSpace)

def plainWords : List Bytes := ["DECLARE", "DEALLOCATE", "LISTEN", "UNLISTEN", "LOAD"].map ascii

/-- A statement that changes the session, by its first tokens. -/
def modifies : List Tok → Bool
  | .ident w :: rest =>
    let word := w.map upperByte
    word ∈ plainWords ||
      (word == ascii "SET" && !rest.head?.any fun t => isWord "LOCAL" t ||
        isWord "TRANSACTION" t) ||
      (word == ascii "PREPARE" && !rest.head?.any (isWord "TRANSACTION")) ||
      (word == ascii "CREATE" && rest.head?.any fun t => isWord "TEMP" t || isWord "TEMPORARY" t)
  | _ => false

/-- The text starts with the word, in any letter case, and goes on with `rest`. -/
def Spells (word rest text : Bytes) : Prop := ∃ w, text = w ++ rest ∧ w.map upperByte = word

/-- A layout that is recognised: only blanks, tabs and line ends in front; behind the first word a
blank, a tab or, except for SET, the end; TEMP behind CREATE and blanks and tabs only; behind SET
neither LOCAL and a blank or tab nor TRANSACTION and any byte. -/
inductive Recognised : Bytes → Prop where
  | space {c : Byte} {text : Bytes} (hc : isSpace c) (h : Recognised text) : Recognised (c :: text)
  | word {k rest text : Bytes} (hk : k ∈ ascii "PREPARE" :: plainWords) (h : Spells k rest text)
      (hrest : rest.head?.all isBlank) : Recognised text
  | create {sp rest next text : Bytes} (h : Spells (ascii "CREATE") (sp ++ next) text)
      (hsp : ∀ c ∈ sp, isBlank c) (hnext : Spells (ascii "TEMP") rest next) : Recognised text
  | set {d : Byte} {sp next text : Bytes} (h : Spells (ascii "SET") (d :: (sp ++ next)) text)
      (hd : isBlank d) (hsp : ∀ c ∈ sp, isBlank c) (hnext : next.head?.any isBlank = false)
      (hlocal : ∀ c rest, Spells (ascii "LOCAL") (c :: rest) next → isBlank c = false)
      (htransaction : ∀ c rest, ¬ Spells (ascii "TRANSACTION") (c :: rest) next) : Recognised text

variable {k text : Bytes}

theorem eqFoldN_iff (hk : ∀ b ∈ k, isUpper b) :
    eqFoldN text k ↔ Spells k (text.drop k.length) text := by
  have hstart : eqFoldN text k = k.isPrefixOf (text.map upperByte) :=
    TxTracking.eqFoldN_map fun _ _ b hb => TxTracking.or_bit_eq (.inl (hk b hb))
  rw [hstart, List.isPrefixOf_iff_prefix]
  constructor
  · intro h
    refine ⟨text.take k.length, (List.take_append_drop _ _).symm, ?_⟩
    rw [List.map_take]
    exact (List.prefix_iff_eq_take.mp h).symm
  · rintro ⟨w, hw, rfl⟩
    rw [hw, List.map_append]
    exact List.prefix_append _ _

theorem Spells.drop_eq {rest : Bytes} (h : Spells k rest text) : text.drop k.length = rest := by
  obtain ⟨w, rfl, rfl⟩ := h
  exact List.drop_left' (by simp)

theorem Spells.eqFoldN {rest : Bytes} (hk : ∀ b ∈ k, isUpper b) (h : Spells k rest text) :
    eqFoldN text k := (eqFoldN_iff hk).mpr (by rwa [h.drop_eq])

theorem branch_of_eqFoldN {x : Byte} (h : eqFoldN text (x :: k)) :
    text.head?.map (fun c => c ||| (0x20 : Byte)) = some (x ||| 0x20) := by
  cases text with
  | nil => simp [Router.eqFoldN] at h
  | cons c text =>
    rw [TxTracking.eqFoldN_cons, Bool.and_eq_true, beq_iff_eq] at h
    exact congrArg some h.1

/-! ## The branches of the matcher -/

def setAt (rest : Bytes) : Bool :=
  eqFoldN rest (ascii "SET") && (rest.drop 3).head?.any isBlank &&
    let word := (rest.drop 4).dropWhile isBlank
    !(eqFoldN word (ascii "LOCAL") && (word.drop 5).head?.any isBlank) &&
      !(eqFoldN word (ascii "TRANSACTION") && 11 < word.length)

def createAt (rest : Bytes) : Bool :=
  eqFoldN rest (ascii "CREATE") && eqFoldN ((rest.drop 6).dropWhile isBlank) (ascii "TEMP")

theorem isSessionModifying_iff_branch {query : Bytes} : isSessionModifying query ↔
    (∃ k ∈ ascii "PREPARE" :: plainWords, wordAt k (query.dropWhile isSpace)) ∨
      createAt (query.dropWhile isSpace) ∨ setAt (query.dropWhile isSpace) := by
  unfold isSessionModifying
  generalize query.dropWhile isSpace = rest
  dsimp only
  constructor
  · intro h
    split at h
    · exact .inr (.inr h)
    · exact .inl ⟨_, List.mem_cons_self, h⟩
    · rcases Bool.or_eq_true_iff.mp h with h | h
      · exact .inl ⟨_, by decide, h⟩
      · exact .inl ⟨_, by decide, h⟩
    · rcases Bool.or_eq_true_iff.mp h with h | h
      · exact .inl ⟨_, by decide, h⟩
      · exact .inl ⟨_, by decide, h⟩
    · exact .inl ⟨_, by decide, h⟩
    · exact .inr (.inl h)
    · cases h
  · -- the first byte of the word selects its branch
    have hword {x : Byte} {k : Bytes} (h : wordAt (x :: k) rest) :
        rest.head?.map (fun c => c ||| (0x20 : Byte)) = some (x ||| 0x20) :=
      branch_of_eqFoldN (Bool.and_eq_true_iff.mp h).1
    rintro (⟨k, hk, h⟩ | h | h)
    · simp only [plainWords, List.map_cons, List.map_nil, List.mem_cons, List.not_mem_nil,
        or_false] at hk
      rcases hk with rfl | rfl | rfl | rfl | rfl | rfl
      all_goals rw [hword h]
      · exact h
      · exact Bool.or_eq_true_iff.mpr (.inl h)
      · exact Bool.or_eq_true_iff.mpr (.inr h)
      · exact Bool.or_eq_true_iff.mpr (.inl h)
      · exact h
      · exact Bool.or_eq_true_iff.mpr (.inr h)
    · rw [branch_of_eqFoldN (Bool.and_eq_true_iff.mp h).1]
      exact h
    · rw [branch_of_eqFoldN (Bool.and_eq_true_iff.mp (Bool.and_eq_true_iff.mp h).1).1]
      exact h

theorem wordAt_iff (hk : ∀ b ∈ k, isUpper b) :
    wordAt k text ↔ ∃ rest, Spells k rest text ∧ rest.head?.all isBlank := by
  rw [wordAt, Bool.and_eq_true, eqFoldN_iff hk]
  constructor
  · exact fun h => ⟨_, h⟩
  · rintro ⟨rest, h, hrest⟩
    rw [h.drop_eq]
    exact ⟨h, hrest⟩

theorem dropWhile_blanks {sp next : Bytes} (hsp : ∀ c ∈ sp, isBlank c)
    (hnext : next.head?.any isBlank = false) : (sp ++ next).dropWhile isBlank = next := by
  rw [List.dropWhile_append_of_pos hsp]
  cases next with
  | nil => rfl
  | cons c next => exact List.dropWhile_cons_of_neg (by simpa using hnext)

theorem exists_blanks (text : Bytes) : ∃ sp next, text = sp ++ next ∧ (∀ c ∈ sp, isBlank c) ∧
    next.head?.any isBlank = false := by
  refine ⟨text.takeWhile isBlank, text.dropWhile isBlank, List.takeWhile_append_dropWhile.symm,
    fun c hc => List.mem_takeWhile_imp hc, ?_⟩
  have hhead := List.head?_dropWhile_not isBlank text
  cases hd : (text.dropWhile isBlank).head? with
  | none => rfl
  | some c => simpa [hd] using hhead

theorem createAt_iff : createAt text ↔ ∃ sp next rest,
    Spells (ascii "CREATE") (sp ++ next) text ∧ (∀ c ∈ sp, isBlank c) ∧
      Spells (ascii "TEMP") rest next := by
  rw [createAt, Bool.and_eq_true, eqFoldN_iff (by decide), eqFoldN_iff (by decide)]
  obtain ⟨sp, next, htext, hsp, hnext⟩ := exists_blanks (text.drop 6)
  constructor
  · rintro ⟨hcreate, htemp⟩
    rw [htext, dropWhile_blanks hsp hnext] at htemp
    exact ⟨sp, next, _, htext ▸ hcreate, hsp, htemp⟩
  · rintro ⟨sp, next, rest, hcreate, hsp, htemp⟩
    have hnext : next.head?.any isBlank = false := by
      obtain ⟨w, rfl, hw⟩ := htemp
      cases w with
      | nil => cases hw
      | cons c w =>
        have hbyte : ∀ c : Byte, upperByte c = 84 → isBlank c = false := by
          grind [upperByte, isLower, isBlank]
        exact hbyte c (List.cons.inj hw).1
    have hdrop : text.drop 6 = sp ++ next := hcreate.drop_eq
    rw [show (ascii "CREATE").length = 6 from rfl, hdrop, dropWhile_blanks hsp hnext,
      htemp.drop_eq]
    exact ⟨hcreate, htemp⟩

theorem spells_iff {rest : Bytes} (hk : ∀ b ∈ k, isUpper b) :
    Spells k rest text ↔ eqFoldN text k ∧ text.drop k.length = rest := by
  constructor
  · exact fun h => ⟨h.eqFoldN hk, h.drop_eq⟩
  · rintro ⟨h, rfl⟩
    exact (eqFoldN_iff hk).mp h

theorem setAt_iff : setAt text ↔ ∃ d sp next, Spells (ascii "SET") (d :: (sp ++ next)) text ∧
    isBlank d ∧ (∀ c ∈ sp, isBlank c) ∧ next.head?.any isBlank = false ∧
    (∀ c rest, Spells (ascii "LOCAL") (c :: rest) next → isBlank c = false) ∧
    ∀ c rest, ¬ Spells (ascii "TRANSACTION") (c :: rest) next := by
  have hlocal (next : Bytes) :
      (!(eqFoldN next (ascii "LOCAL") && (next.drop 5).head?.any isBlank)) = true ↔
        ∀ c rest, Spells (ascii "LOCAL") (c :: rest) next → isBlank c = false := by
    simp only [spells_iff (show ∀ b ∈ ascii "LOCAL", isUpper b by decide),
      show (ascii "LOCAL").length = 5 from rfl]
    cases eqFoldN next (ascii "LOCAL") <;> cases next.drop 5 <;> simp
  have htransaction (next : Bytes) :
      (!(eqFoldN next (ascii "TRANSACTION") && 11 < next.length)) = true ↔
        ∀ c rest, ¬ Spells (ascii "TRANSACTION") (c :: rest) next := by
    simp only [spells_iff (show ∀ b ∈ ascii "TRANSACTION", isUpper b by decide),
      show (ascii "TRANSACTION").length = 11 from rfl]
    have hlong : 11 < next.length ↔ ∃ c rest, next.drop 11 = c :: rest := by
      rw [← List.ne_nil_iff_exists_cons, ne_eq, List.drop_eq_nil_iff, Nat.not_le]
    cases eqFoldN next (ascii "TRANSACTION") <;> simp [hlong]
  rw [setAt, Bool.and_eq_true, Bool.and_eq_true, eqFoldN_iff (by decide)]
  dsimp only
  rw [Bool.and_eq_true, hlocal, htransaction]
  constructor
  · rintro ⟨⟨hset, hblank⟩, hnext⟩
    obtain ⟨d, more, hmore⟩ : ∃ d more, text.drop 3 = d :: more := by
      cases h3 : text.drop 3 with
      | nil => simp [h3] at hblank
      | cons d more => exact ⟨d, more, rfl⟩
    obtain ⟨sp, next, rfl, hsp, hhead⟩ := exists_blanks more
    have hdrop4 : text.drop 4 = sp ++ next := by
      rw [show 4 = 3 + 1 from rfl, ← List.drop_drop, hmore]
      rfl
    rw [hdrop4, dropWhile_blanks hsp hhead] at hnext
    rw [show (ascii "SET").length = 3 from rfl, hmore] at hset
    exact ⟨d, sp, next, hset, by simpa [hmore] using hblank, hsp, hhead, hnext⟩
  · rintro ⟨d, sp, next, hset, hd, hsp, hhead, hnext⟩
    have hdrop3 : text.drop 3 = d :: (sp ++ next) := hset.drop_eq
    have hdrop4 : text.drop 4 = sp ++ next := by
      rw [show 4 = 3 + 1 from rfl, ← List.drop_drop, hdrop3]
      rfl
    rw [hdrop4, dropWhile_blanks hsp hhead, show (ascii "SET").length = 3 from rfl, hdrop3]
    exact ⟨⟨hset, by simpa using hd⟩, hnext⟩

/-! ## The layouts -/

theorem Spells.dropWhile_isSpace {rest : Bytes} (hk : k.head?.any isUpper)
    (h : Spells k rest text) : text.dropWhile isSpace = text := by
  have hbyte : ∀ c : Byte, isUpper (upperByte c) → isSpace c = false := by
    grind [isUpper, isLower, isSpace, upperByte]
  obtain ⟨w, rfl, rfl⟩ := h
  cases w with
  | nil => cases hk
  | cons c w => exact List.dropWhile_cons_of_neg (by simpa using hbyte c (by simpa using hk))

theorem isSessionModifying_iff {query : Bytes} : isSessionModifying query ↔ Recognised query := by
  have hupper : ∀ k ∈ ascii "PREPARE" :: plainWords, ∀ b ∈ k, isUpper b := by decide
  rw [isSessionModifying_iff_branch, createAt_iff, setAt_iff]
  constructor
  · intro h
    have hrest : Recognised (query.dropWhile isSpace) := by
      rcases h with ⟨k, hk, h⟩ | ⟨sp, next, rest, h, hsp, hnext⟩ |
        ⟨d, sp, next, h, hd, hsp, hhead, hlocal, htransaction⟩
      · obtain ⟨rest, h, hrest⟩ := (wordAt_iff (hupper k hk)).mp h
        exact .word hk h hrest
      · exact .create h hsp hnext
      · exact .set h hd hsp hhead hlocal htransaction
    induction query with
    | nil => exact hrest
    | cons c query ih =>
      by_cases hc : isSpace c
      · rw [List.dropWhile_cons_of_pos hc] at h hrest
        exact .space hc (ih h hrest)
      · rwa [List.dropWhile_cons_of_neg hc] at hrest
  · intro h
    induction h with
    | space hc _ ih => rwa [List.dropWhile_cons_of_pos hc]
    | word hk h hrest =>
      have hhead : ∀ k ∈ ascii "PREPARE" :: plainWords, k.head?.any isUpper := by decide
      rw [h.dropWhile_isSpace (hhead _ hk)]
      exact .inl ⟨_, hk, (wordAt_iff (hupper _ hk)).mpr ⟨_, h, hrest⟩⟩
    | create h hsp hnext =>
      rw [h.dropWhile_isSpace (by decide)]
      exact .inr (.inl ⟨_, _, _, h, hsp, hnext⟩)
    | set h hd hsp hhead hlocal htransaction =>
      rw [h.dropWhile_isSpace (by decide)]
      exact .inr (.inr ⟨_, _, _, h, hd, hsp, hhead, hlocal, htransaction⟩)

/-- A text with a statement that changes the session is seen just if it has a layout that is
recognised. -/
theorem modifying_seen_iff (query : Bytes) :
    ((topStatements (lex query)).any modifies → isSessionModifying query) ↔
      ((topStatements (lex query)).any modifies → Recognised query) :=
  imp_congr_right fun _ => isSessionModifying_iff

theorem modifying_seen_temporary :
    (topStatements (lex (ascii "\r\n\tcreate  TempOrary table t (a int); select 1"))).any modifies ∧
      isSessionModifying (ascii "\r\n\tcreate  TempOrary table t (a int); select 1") := by
  have hmodifies : (topStatements (lex
      (ascii "\r\n\tcreate  TempOrary table t (a int); select 1"))).any modifies := by
    decide +kernel
  refine ⟨hmodifies, (modifying_seen_iff _).mpr (fun _ => ?_) hmodifies⟩
  refine .space (by decide) (.space (by decide) (.space (by decide) ?_))
  exact @Recognised.create [blank, blank] (ascii "Orary table t (a int); select 1")
    (ascii "TempOrary table t (a int); select 1") _ ⟨ascii "create", rfl, by decide⟩ (by decide)
    ⟨ascii "Temp", rfl, by decide⟩

theorem isSessionModifying_misses :
    [ascii "/**/SET a = 1", ascii "SET\na = 1", ascii "LISTEN\na", ascii "SELECT 1; SET a = 1",
        ascii "CREATE\nTEMP TABLE t ()", ascii "SET transaction_read_only = on"].map
        (fun query => ((topStatements (lex query)).any modifies, isSessionModifying query)) =
      List.replicate 6 (true, false) := by
  decide +kernel

end PgMux.SessionWords
