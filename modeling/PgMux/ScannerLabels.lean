import PgMux.Classifier
import PgMux.Placeholders

/-!
# Labels of the two literal scanners

Byte by byte: the mode behind a byte, what is written for it, and whether it is part of a literal.
-/

namespace PgMux.Classifier

open DollarTag

def QuoteMode.after : QuoteMode → Byte → Bytes → QuoteMode
  | .code, c, w =>
    match parseDollarTag (c :: w) with
    | some tag =>
      match index tag (w.drop (tag.length - 1)) with
      | some k => .skip (2 * tag.length + k - 2)
      | none => .skip w.length
    | none => if c = quote then .single else if c = dquote then .double else .code
  | .single, c, w => if c = quote then if w.head? = some quote then .singlePair else .code
      else .single
  | .singlePair, _, _ => .single
  | .double, c, _ => if c = dquote then .code else .double
  | .skip 0, _, _ => .code
  | .skip (k + 1), _, _ => .skip k

def QuoteMode.written : QuoteMode → Byte → Bytes → Bytes
  | .code, c, w =>
    match parseDollarTag (c :: w) with
    | some tag => tag ++ tag
    | none => [c]
  | .single, c, _ => if c = quote then [c] else []
  | .singlePair, c, _ => [c]
  | .double, c, _ => if c = dquote then [c] else []
  | .skip _, _, _ => []

theorem stripFrom_cons (m : QuoteMode) (c : Byte) (w : Bytes) :
    stripFrom m (c :: w) = m.written c w ++ stripFrom (m.after c w) w := by
  cases m with
  | code =>
    simp only [stripFrom, QuoteMode.written, QuoteMode.after]
    cases parseDollarTag (c :: w) with
    | none => rfl
    | some tag =>
      cases hk : index tag (w.drop (tag.length - 1)) with
      | some k => simp only [hk]
      | none => simp [hk, stripFrom_skip, List.drop_of_length_le]
  | single | double =>
    simp only [stripFrom, QuoteMode.written, QuoteMode.after]
    split <;> rfl
  | singlePair => rfl
  | skip k => cases k <;> rfl

/-- Whether a byte between two modes is within a single-quoted or a dollar-quoted literal. -/
def QuoteMode.literal : QuoteMode → QuoteMode → Bool
  | .code, .single | .code, .skip _ => true
  | .single, _ | .singlePair, _ | .skip _, _ => true
  | _, _ => false

def labels : QuoteMode → Bytes → List Bool
  | _, [] => []
  | m, c :: w => m.literal (m.after c w) :: labels (m.after c w) w

/-- The mode in front of `rest` in the text `p ++ rest`. -/
def QuoteMode.behind : QuoteMode → Bytes → Bytes → QuoteMode
  | m, [], _ => m
  | m, c :: p, rest => (m.after c (p ++ rest)).behind p rest

def EndsOpening (m : QuoteMode) (query : Bytes) : Prop :=
  ∃ p tag, query = p ++ tag ∧ m.behind p tag = .code ∧ parseDollarTag tag = some tag

end PgMux.Classifier

namespace PgMux.Synthesizer

open Classifier (EndsOpening QuoteMode)
open DollarTag

def Mode.after (n : Nat) : Mode → Byte → Bytes → Mode
  | .code, c, w =>
    if c = quote then .quoted
    else if c = dollar ∧ w ≠ [] then
      match parseDollarTag (c :: w) with
      | some tag =>
        let body := w.drop (tag.length - 1)
        if body = [] then .code
        else
          match index tag body with
          | none => .copy w.length
          | some k => .copy (2 * tag.length + k - 2)
      | none =>
        match placeholder n w with
        | some ds => .skip (ds.length - 1)
        | none => .code
    else .code
  | .quoted, c, w => if c = quote then if w.head? = some quote then .quotedPair else .code
      else .quoted
  | .quotedPair, _, _ => .quoted
  | .copy 0, _, _ | .skip 0, _, _ => .code
  | .copy (k + 1), _, _ => .copy k
  | .skip (k + 1), _, _ => .skip k

def Mode.written (n i : Nat) : Mode → Byte → Bytes → List Piece
  | .code, c, w =>
    match parseDollarTag (c :: w) with
    | some tag => if w.drop (tag.length - 1) = [] then tag.map .byte ++ [.byte c] else [.byte c]
    | none =>
      if c = dollar then
        match placeholder n w with
        | some ds => [.lit i (decimal ds - 1)]
        | none => [.byte c]
      else [.byte c]
  | .skip _, _, _ => []
  | .quoted, c, _ | .quotedPair, c, _ | .copy _, c, _ => [.byte c]

variable {n i : Nat} {m : Mode} {c : Byte} {w tag : Bytes}

theorem scan_copy_all {k : Nat} (h : w.length ≤ k) : scan n (.copy k) i w = w.map .byte := by
  induction w generalizing i k with
  | nil => exact scan_nil n i _
  | cons c w ih =>
    cases k with
    | zero => simp at h
    | succ k => exact congrArg _ (ih (by simpa using h))

theorem tag_eq (h : parseDollarTag (c :: w) = some tag) :
    c = dollar ∧ (w.drop (tag.length - 1) = [] ↔ tag = c :: w) := by
  obtain ⟨t, v, -, hw, rfl⟩ := parseDollarTag_iff.mp h
  obtain ⟨rfl, rfl⟩ := List.cons.inj hw
  exact ⟨rfl, by simp⟩

theorem scan_cons (m : Mode) :
    scan n m i (c :: w) = m.written n i c w ++ scan n (m.after n c w) (i + 1) w := by
  cases m with
  | code =>
    rw [scan_code_cons]
    simp only [Mode.written, Mode.after]
    cases ht : parseDollarTag (c :: w) with
    | some tag =>
      obtain ⟨rfl, htag⟩ := tag_eq ht
      have hw : w ≠ [] := by
        rintro rfl
        simp [parseDollarTag] at ht
      simp only [hw, ne_eq, not_false_eq_true, and_self, if_true, dollar, quote]
      by_cases hbody : w.drop (tag.length - 1) = []
      · simp [hbody]
      · cases hk : index tag (w.drop (tag.length - 1)) with
        | none => simp [hbody, scan_copy_all]
        | some k => simp [hbody]
    | none =>
      by_cases hq : c = quote
      · simp [hq, show quote ≠ dollar by decide]
      · by_cases hd : c = dollar
        · cases hp : placeholder n w with
          | none => simp [hd]
          | some ds =>
            have hw : w ≠ [] := by
              rintro rfl
              simp [placeholder] at hp
            simp [hd, hw]
        · simp [hq, hd]
  | quoted =>
    rw [Mode.written, Mode.after]
    change (if c = quote then _ else _) = _
    split <;> rfl
  | quotedPair => rfl
  | copy k | skip k => cases k <;> rfl

def Mode.literal : Mode → Mode → Bool
  | .code, .quoted | .code, .copy _ => true
  | .quoted, _ | .quotedPair, _ | .copy _, _ => true
  | _, _ => false

def labels (n : Nat) : Mode → Bytes → List Bool
  | _, [] => []
  | m, c :: w => m.literal (m.after n c w) :: labels n (m.after n c w) w

def Mode.quoteMode : Mode → QuoteMode
  | .code | .skip _ => .code
  | .quoted => .single
  | .quotedPair => .singlePair
  | .copy k => .skip k

/-- The rest of a placeholder is digits. -/
def Mode.Fits (w : Bytes) : Mode → Prop
  | .skip k => ∀ c ∈ w.take (k + 1), isDigit c
  | _ => True

theorem digits_of_placeholder {ds : Bytes} (h : placeholder n w = some ds) :
    Mode.Fits w (.skip (ds.length - 1)) := by
  obtain ⟨rfl, -, -, hhead⟩ := Placeholders.placeholder_eq_some h
  cases w with
  | nil => simp at hhead
  | cons d w =>
    have hd : isDigit d := by simpa using hhead
    intro c hc
    simp only [List.takeWhile_cons, hd, if_true, List.length_cons, Nat.add_sub_cancel,
      List.take_succ_cons, List.mem_cons] at hc
    rcases hc with rfl | hc
    · exact hd
    · rw [← List.prefix_iff_eq_take.mp (List.takeWhile_prefix isDigit)] at hc
      exact List.mem_takeWhile_imp hc

theorem after_plain (hc : c ≠ dollar) (hq : c ≠ quote) (hdq : c ≠ dquote) :
    QuoteMode.code.after c w = .code := by
  simp [QuoteMode.after, parseDollarTag, hc, hq, hdq]

theorem Mode.after_sim (hdq : c ≠ dquote) (hends : ¬ EndsOpening m.quoteMode (c :: w))
    (hfits : m.Fits (c :: w)) :
    (m.after n c w).quoteMode = m.quoteMode.after c w ∧ (m.after n c w).Fits w ∧
      m.literal (m.after n c w) = m.quoteMode.literal (m.quoteMode.after c w) := by
  cases m with
  | code =>
    cases ht : parseDollarTag (c :: w) with
    | some tag =>
      obtain ⟨rfl, hwhole⟩ := tag_eq ht
      have hbody : w.drop (tag.length - 1) ≠ [] := fun hbody =>
        hends ⟨[], _, rfl, rfl, hwhole.mp hbody ▸ ht⟩
      have hw : w ≠ [] := by
        rintro rfl
        simp at hbody
      have hafter : Mode.code.after n dollar w = match index tag (w.drop (tag.length - 1)) with
          | none => .copy w.length
          | some k => .copy (2 * tag.length + k - 2) := by
        rw [Mode.after, if_neg (by decide), if_pos ⟨rfl, hw⟩]
        simp only [ht, hbody, if_false]
      simp only [hafter, Mode.quoteMode, QuoteMode.after, ht]
      cases index tag (w.drop (tag.length - 1)) <;> exact ⟨rfl, trivial, rfl⟩
    | none =>
      by_cases hq : c = quote
      · subst hq
        exact ⟨rfl, trivial, rfl⟩
      · have hplain : QuoteMode.code.after c w = .code := by simp [QuoteMode.after, ht, hq, hdq]
        rw [Mode.quoteMode, hplain, Mode.after, if_neg hq]
        split
        · simp only [ht]
          cases hp : placeholder n w with
          | none => exact ⟨rfl, trivial, rfl⟩
          | some ds => exact ⟨rfl, digits_of_placeholder hp, rfl⟩
        · exact ⟨rfl, trivial, rfl⟩
  | quoted =>
    by_cases hq : c = quote
    · by_cases hpair : w.head? = some quote <;> simp [Mode.after, QuoteMode.after, Mode.quoteMode,
        hq, hpair, Mode.Fits] <;> rfl
    · simp [Mode.after, QuoteMode.after, Mode.quoteMode, hq, Mode.Fits]
      rfl
  | quotedPair => exact ⟨rfl, trivial, rfl⟩
  | copy k => cases k <;> exact ⟨rfl, trivial, rfl⟩
  | skip k =>
    have hdigit : isDigit c := hfits c (by simp)
    have hplain : QuoteMode.code.after c w = .code :=
      after_plain (by rintro rfl; exact absurd hdigit (by decide))
        (by rintro rfl; exact absurd hdigit (by decide)) hdq
    simp only [Mode.quoteMode, hplain]
    cases k with
    | zero => exact ⟨rfl, trivial, rfl⟩
    | succ k => exact ⟨rfl, fun d hd => hfits d (by simp [hd]), rfl⟩

theorem labels_sim (hdq : dquote ∉ w) (hends : ¬ EndsOpening m.quoteMode w) (hfits : m.Fits w) :
    labels n m w = Classifier.labels m.quoteMode w := by
  induction w generalizing m with
  | nil => rfl
  | cons c w ih =>
    simp only [List.mem_cons, not_or] at hdq
    obtain ⟨hmode, hfits', hliteral⟩ := Mode.after_sim (n := n) (Ne.symm hdq.1) hends hfits
    have hends' : ¬ EndsOpening (m.after n c w).quoteMode w := by
      rw [hmode]
      rintro ⟨p, tag, rfl, hbehind, htag⟩
      exact hends ⟨c :: p, tag, rfl, hbehind, htag⟩
    rw [labels, Classifier.labels, ih hdq.2 hends' hfits', hliteral, hmode]

/-- The two scanners label alike. -/
theorem labels_agree (literals : List Bytes) (query : Bytes) (hdq : dquote ∉ query)
    (hends : ¬ EndsOpening .code query) :
    labels literals.length .code query = Classifier.labels .code query :=
  labels_sim hdq hends trivial

theorem labels_agree_placeholder : labels 1 .code (ascii "'$1'$1$$$1$$;") =
    Classifier.labels .code (ascii "'$1'$1$$$1$$;") := by
  refine labels_agree [ascii "0"] _ (by decide) ?_
  rintro ⟨p, tag, hquery, -, htag⟩
  obtain ⟨t, v, -, -, rfl⟩ := parseDollarTag_iff.mp htag
  have hlast : (ascii "'$1'$1$$$1$$;").getLast? = some dollar := by
    rw [hquery, ← List.append_assoc, List.getLast?_concat]
  exact absurd hlast (by decide)

end PgMux.Synthesizer
