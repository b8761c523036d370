import PgMux.Classifier
import PgMux.Splitting

/-!
# The passes over a query text

What the passes of `Classify` leave: a text without comment marks keeps its bytes, and no pass makes
a comment mark.
-/

namespace PgMux.Stripping

open Classifier
open DollarTag (parseDollarTag isTagChar)

/-! ## Comment marks -/

theorem contains_iff {sub text : Bytes} : contains sub text ↔ sub <:+: text := by
  induction text with
  | nil =>
    rw [contains, index, List.infix_nil]
    split_ifs with h <;> simp [h]
  | cons c w ih =>
    rw [List.infix_cons_iff, ← ih, contains, contains]
    by_cases hp : sub <+: c :: w
    · simp [index, List.isPrefixOf_iff_prefix.mpr hp, hp]
    · simp [index_cons_of_not_isPrefix hp, hp]

variable {c z : Byte} {w : Bytes}

theorem pair_isPrefix {a b : Byte} : [a, b] <+: c :: w ↔ c = a ∧ w.head? = some b := by
  cases w with
  | nil => simp
  | cons d w => simp [eq_comm]

theorem stripComments_of_no_marks (hblock : ¬ [slash, star] <:+: w)
    (hline : ¬ [minus, minus] <:+: w) : stripComments w = w := by
  unfold stripComments
  induction w with
  | nil => rfl
  | cons c w ih =>
    rw [List.infix_cons_iff, pair_isPrefix, not_or] at hblock hline
    rw [stripCommentsFrom, if_neg hblock.1, if_neg hline.1, ih hblock.2 hline.2]

theorem blockComments_of_no_mark (h : ¬ [slash, star] <:+: w) :
    blockComments 0 false [] w = [] := by
  induction w with
  | nil => rfl
  | cons c w ih =>
    rw [List.infix_cons_iff, pair_isPrefix, not_or] at h
    rw [blockComments, if_neg h.1, ih h.2]

/-! ## What is left of literals -/

theorem of_parseDollarTag {tag : Bytes} (h : parseDollarTag (c :: w) = some tag) :
    c = dollar ∧ tag.head? = some dollar ∧ ∀ b ∈ tag, isTagChar b ∨ b = dollar := by
  obtain ⟨t, v, ⟨-, hall⟩, hw, rfl⟩ := DollarTag.parseDollarTag_iff.mp h
  refine ⟨(List.cons.inj hw).1, rfl, fun b hb => ?_⟩
  obtain rfl | hb | rfl : b = dollar ∨ b ∈ t ∨ b = dollar := by simpa using hb
  · exact .inr rfl
  · exact .inl (hall b hb)
  · exact .inr rfl

theorem head?_stripFrom (w : Bytes) : (stripFrom .code w).head? = w.head? := by
  cases w with
  | nil => rfl
  | cons c w =>
    rw [stripFrom]
    split
    · rename_i tag ht
      obtain ⟨rfl, hhead, -⟩ := of_parseDollarTag ht
      rw [List.append_assoc, List.head?_append, hhead]
      rfl
    · rfl

theorem head?_stripFrom_single (w : Bytes) : (stripFrom .single w).head?.all (· == quote) := by
  induction w with
  | nil => rfl
  | cons c w ih =>
    by_cases hc : c = quote
    · rw [stripFrom, if_pos hc, hc]
      rfl
    · rw [stripFrom, if_neg hc]
      exact ih

theorem slash_notMem_tag {tag : Bytes} (h : parseDollarTag (c :: w) = some tag) : slash ∉ tag := by
  intro hm
  rcases (of_parseDollarTag h).2.2 slash hm with h | h
  · exact absurd h (by decide)
  · exact absurd h (by decide)

theorem infix_of_notMem {a b : Byte} {u x : Bytes} (hu : a ∉ u) (h : [a, b] <:+: u ++ x) :
    [a, b] <:+: x := by
  induction u with
  | nil => exact h
  | cons c u ih =>
    obtain ⟨hc, hu⟩ := by simpa using hu
    rw [List.cons_append, List.infix_cons_iff, pair_isPrefix] at h
    exact ih hu (h.resolve_left fun hpre => hc hpre.1.symm)

theorem mark_of_stripFrom {m : QuoteMode} (h : [slash, star] <:+: stripFrom m w) :
    [slash, star] <:+: w := by
  induction w generalizing m with
  | nil => cases m <;> exact h
  | cons c w ih =>
    have hrest {m' : QuoteMode} (h : [slash, star] <:+: stripFrom m' w) :
        [slash, star] <:+: c :: w :=
      List.infix_cons (ih h)
    have hquoted {m' : QuoteMode} (hc : c ≠ slash) (h : [slash, star] <:+: c :: stripFrom m' w) :
        [slash, star] <:+: c :: w := by
      rw [List.infix_cons_iff, pair_isPrefix] at h
      exact hrest (h.resolve_left fun hpre => hc hpre.1)
    cases m with
    | code =>
      rw [stripFrom] at h
      split at h
      · rename_i tag ht
        have hnot : slash ∉ tag ++ tag := by simp [slash_notMem_tag ht]
        have hbody := infix_of_notMem hnot h
        split at hbody
        · exact hrest hbody
        · simp at hbody
      · by_cases hc : c = slash
        · subst hc
          rw [if_neg (by decide), if_neg (by decide), List.infix_cons_iff, pair_isPrefix,
            head?_stripFrom] at h
          rw [List.infix_cons_iff, pair_isPrefix]
          exact h.imp_right ih
        · exact hquoted hc h
    | single =>
      rw [stripFrom] at h
      split_ifs at h with hc
      · exact hquoted (by rw [hc]; decide) h
      · exact hquoted (by rw [hc]; decide) h
      · exact hrest h
    | singlePair =>
      rw [stripFrom, List.infix_cons_iff, pair_isPrefix] at h
      rcases h with ⟨-, hhead⟩ | h
      · have hquote := head?_stripFrom_single w
        rw [hhead] at hquote
        exact absurd hquote (by decide)
      · exact hrest h
    | double =>
      rw [stripFrom] at h
      split_ifs at h with hc
      · exact hquoted (by rw [hc]; decide) h
      · exact hrest h
    | skip k =>
      cases k <;> exact hrest h

theorem extractHint_of_no_mark (h : ¬ [slash, star] <:+: w) : extractHint w = none := by
  rw [extractHint, stripStringLiterals, blockComments_of_no_mark fun hm => h (mark_of_stripFrom hm)]
  rfl

/-! ## Stripping twice -/

theorem stripFrom_code (h : parseDollarTag (c :: w) = none) :
    stripFrom .code (c :: w) =
      c :: stripFrom (if c = quote then .single else if c = dquote then .double else .code) w := by
  rw [stripFrom, h]

/-- No tag is formed where contents are taken out. -/
theorem tag_of_stripFrom {t v : Bytes} (ht : ∀ b ∈ t, isTagChar b)
    (h : stripFrom .code w = t ++ dollar :: v) : ∃ v', w = t ++ dollar :: v' := by
  induction t generalizing w with
  | nil =>
    have hhead : w.head? = some dollar := by rw [← head?_stripFrom, h]; rfl
    exact List.head?_eq_some_iff.mp hhead
  | cons b t ih =>
    have hhead : w.head? = some b := by rw [← head?_stripFrom, h]; rfl
    obtain ⟨w, rfl⟩ := List.head?_eq_some_iff.mp hhead
    have hmarks : ∀ d ∈ [quote, dquote, dollar], isTagChar d = false := by decide
    have hne : ∀ d ∈ [quote, dquote, dollar], b ≠ d := by
      rintro d hd rfl
      simpa [hmarks b hd] using ht b List.mem_cons_self
    have hnone : parseDollarTag (b :: w) =
      none := by simp [DollarTag.parseDollarTag, hne dollar (by simp)]
    rw [stripFrom_code hnone, if_neg (hne quote (by simp)), if_neg (hne dquote (by simp))] at h
    obtain ⟨v', rfl⟩ := ih (fun d hd => ht d (List.mem_cons_of_mem b hd)) (List.cons.inj h).2
    exact ⟨v', rfl⟩

theorem parseDollarTag_stripped (h : parseDollarTag (dollar :: w) = none) :
    parseDollarTag (dollar :: stripFrom .code w) = none := by
  rw [Option.eq_none_iff_forall_ne_some] at h ⊢
  intro tag htag
  obtain ⟨t, v, ht, hw, rfl⟩ := DollarTag.parseDollarTag_iff.mp htag
  obtain ⟨v', rfl⟩ := tag_of_stripFrom ht.2 (List.cons.inj hw).2
  exact h _ (DollarTag.parseDollarTag_iff.mpr ⟨t, v', ht, rfl, rfl⟩)

theorem stripFrom_tags {tag : Bytes} (h : parseDollarTag (c :: w) = some tag) (v : Bytes) :
    stripFrom .code (tag ++ tag ++ v) = tag ++ tag ++ stripFrom .code v := by
  obtain ⟨t, -, ht, -, rfl⟩ := DollarTag.parseDollarTag_iff.mp h
  generalize htag : dollar :: t ++ [dollar] = tag
  have hparse : parseDollarTag (dollar :: (t ++ dollar :: (tag ++ v))) = some tag :=
    DollarTag.parseDollarTag_iff.mpr ⟨t, _, ht, rfl, htag.symm⟩
  have hlength : tag.length = t.length + 1 + 1 := by simp [← htag]
  have hindex : index tag (tag ++ v) = some 0 :=
    index_of_isPrefix (by simp [← htag]) (List.prefix_append tag v)
  have hbehind : (t ++ dollar :: (tag ++ v)).drop (tag.length - 1) = tag ++ v := by simp [hlength]
  have hskip : (t ++ dollar :: (tag ++ v)).drop (2 * tag.length + 0 - 2 + 1) = v := by
    rw [show 2 * tag.length + 0 - 2 + 1 =
      tag.length - 1 + tag.length by omega, ← List.drop_drop, hbehind, List.drop_left]
  have htext : tag ++ tag ++ v = dollar :: (t ++ dollar :: (tag ++ v)) := by
    rw [List.append_assoc, ← htag]
    simp
  rw [htext, stripFrom, hparse]
  simp only [hbehind, hindex, stripFrom_skip, hskip]

/-- The mode in which the rest is read again. -/
def again : QuoteMode → QuoteMode
  | .skip _ => .code
  | m => m

theorem stripFrom_stripFrom (m : QuoteMode) (w : Bytes) :
    stripFrom (again m) (stripFrom m w) = stripFrom m w := by
  induction w generalizing m with
  | nil => simp
  | cons c w ih =>
    cases m with
    | code =>
      cases ht : parseDollarTag (c :: w) with
      | some tag =>
        simp only [stripFrom, ht, again, stripFrom_tags ht]
        cases index tag (w.drop (tag.length - 1)) with
        | some k => rw [show stripFrom .code _ = _ from ih (.skip _)]
        | none => simp
      | none =>
        have hnone : parseDollarTag
            (c :: stripFrom (if c = quote then .single else if c = dquote then .double
              else .code) w) = none := by
          by_cases hc : c = dollar
          · subst hc
            exact parseDollarTag_stripped ht
          · simp [DollarTag.parseDollarTag, hc]
        simp only [again, stripFrom_code ht, stripFrom_code hnone]
        split_ifs
        · exact congrArg _ (ih .single)
        · exact congrArg _ (ih .double)
        · exact congrArg _ (ih .code)
    | single =>
      by_cases hc : c = quote
      · simp only [again, stripFrom, if_pos hc]
        by_cases hpair : w.head? = some quote
        · obtain ⟨v, rfl⟩ := List.head?_eq_some_iff.mp hpair
          exact congrArg _ (ih .singlePair)
        · rw [if_neg hpair, if_neg (by rwa [head?_stripFrom])]
          exact congrArg _ (ih .code)
      · rw [stripFrom, if_neg hc]
        exact ih .single
    | singlePair => exact congrArg (c :: ·) (ih .single)
    | double =>
      by_cases hc : c = dquote
      · simp only [again, stripFrom, if_pos hc]
        exact congrArg _ (ih .code)
      · rw [stripFrom, if_neg hc]
        exact ih .double
    | skip k =>
      cases k with
      | zero => exact ih .code
      | succ k => exact ih (.skip k)

/-- A second pass finds nothing left to strip. -/
theorem stripStringLiterals_idempotent (query : Bytes) :
    stripStringLiterals (stripStringLiterals query) = stripStringLiterals query :=
  stripFrom_stripFrom .code query

end PgMux.Stripping
