import PgMux.PgSeams
import PgMux.Placeholders

/-!
# Token structure of synthesized SQL

A statement text is cut at its placeholders into a template. Where scanner and lexer see the same
placeholders, the tokens of the synthesized text are those of the template with the tokens of each
literal in place of its parameter.
-/

namespace PgMux.Substitution

open PgLexer (State Tok lexer step finish lex inRange params paramsFrom touches ParamFree
  isIdentStart)
open DollarTag (isTagStart isTagChar parseDollarTag parseDollarTag_iff)
open Synthesizer (Piece Mode scan replaced placeholder replacePlaceholders)
open Placeholders (replacedOf)

structure Template where
  head : Bytes
  slots : List (Bytes × Bytes)
  deriving DecidableEq, Repr

namespace Template

def text (t : Template) : Bytes := t.head ++ t.slots.flatMap fun x => dollar :: x.1 ++ x.2

def filled (lit : Bytes → Bytes) (t : Template) : Bytes :=
  t.head ++ t.slots.flatMap fun x => lit x.1 ++ x.2

def chunks (lit : Bytes → Bytes) (t : Template) : List Bytes :=
  t.head :: t.slots.flatMap fun x => [lit x.1, x.2]

def positionsFrom (i : Nat) (head : Bytes) : List (Bytes × Bytes) → List (Nat × Nat)
  | [] => []
  | (ds, u) :: slots =>
    (i + head.length, decimal ds) :: positionsFrom (i + head.length + 1 + ds.length) u slots

def positions (i : Nat) (t : Template) : List (Nat × Nat) := positionsFrom i t.head t.slots

def plain (u : Bytes) : Template := ⟨u, []⟩

def prepend (u : Bytes) (t : Template) : Template := ⟨u ++ t.head, t.slots⟩

def slot (ds : Bytes) (t : Template) : Template := ⟨[], (ds, t.head) :: t.slots⟩

def Tight : List (Bytes × Bytes) → Prop
  | [] => True
  | (ds, u) :: slots =>
    ds ≠ [] ∧ (∀ c ∈ ds, isDigit c) ∧ (text ⟨u, slots⟩).head?.any isDigit = false ∧ Tight slots

@[simp] theorem text_plain (u : Bytes) : (plain u).text = u := by simp [plain, text]
@[simp] theorem text_prepend (u : Bytes) (t : Template) : (prepend u t).text = u ++ t.text := by
  simp [prepend, text]
@[simp] theorem text_slot (ds : Bytes) (t : Template) :
    (slot ds t).text = dollar :: ds ++ t.text := by
  simp [slot, text]

@[simp] theorem positions_plain (i : Nat) (u : Bytes) : (plain u).positions i = [] := rfl
@[simp] theorem positions_prepend (i : Nat) (u : Bytes) (t : Template) :
    (prepend u t).positions i = t.positions (i + u.length) := by
  cases t with
  | mk head slots => cases slots <;> simp [prepend, positions, positionsFrom, Nat.add_assoc]
@[simp] theorem positions_slot (i : Nat) (ds : Bytes) (t : Template) :
    (slot ds t).positions i = (i, decimal ds) :: t.positions (i + 1 + ds.length) := rfl

@[simp] theorem filled_plain (lit : Bytes → Bytes) (u : Bytes) : (plain u).filled lit = u := by
  simp [plain, filled]
@[simp] theorem filled_prepend (lit : Bytes → Bytes) (u : Bytes) (t : Template) :
    (prepend u t).filled lit = u ++ t.filled lit := by
  simp [prepend, filled]
@[simp] theorem filled_slot (lit : Bytes → Bytes) (ds : Bytes) (t : Template) :
    (slot ds t).filled lit = lit ds ++ t.filled lit := by
  simp [slot, filled]

theorem flatten_chunks (lit : Bytes → Bytes) (t : Template) :
    (t.chunks lit).flatten = t.filled lit := by
  simp only [chunks, filled, List.flatten_cons]
  congr 1
  induction t.slots with
  | nil => rfl
  | cons x slots ih => simp [ih]

def cut : List (Nat × Nat) → Nat → Bytes → Template
  | [], _, text => plain text
  | (p, _) :: ps, i, text =>
    let rest := text.drop (p - i + 1)
    let ds := rest.takeWhile isDigit
    prepend (text.take (p - i)) (slot ds (cut ps (p + 1 + ds.length) (rest.dropWhile isDigit)))

theorem cut_positions (slots : List (Bytes × Bytes)) (i : Nat) (head : Bytes) (h : Tight slots) :
    cut (positionsFrom i head slots) i (text ⟨head, slots⟩) = ⟨head, slots⟩ := by
  induction slots generalizing i head with
  | nil => simp [positionsFrom, cut, plain, text]
  | cons x slots ih =>
    obtain ⟨ds, u⟩ := x
    obtain ⟨hne, hds, hnext, htight⟩ := h
    have htext : text ⟨head, (ds, u) :: slots⟩ = head ++ (dollar :: ds ++ text ⟨u, slots⟩) := by
      simp [text]
    have hdrop : (text ⟨head, (ds, u) :: slots⟩).drop (head.length + 1) = ds ++ text ⟨u,
        slots⟩ := by
      rw [htext, show head ++ (dollar :: ds ++ text ⟨u, slots⟩) =
        (head ++ [dollar]) ++ (ds ++ text ⟨u, slots⟩) by simp]
      exact List.drop_left' (by simp)
    obtain ⟨htake, hrest⟩ := takeWhile_isDigit_append hds hnext
    simp only [positionsFrom, cut, Nat.add_sub_cancel_left, hdrop, htake, hrest, ih _ u htight]
    rw [htext, List.take_left]
    simp [prepend, slot]

end Template

open Template

def literalOf (literals : List Bytes) (ds : Bytes) : Bytes := literals.getD (decimal ds - 1) []

structure ScanCut (literals : List Bytes) (m : Mode) (i : Nat) (v : Bytes) (t : Template) :
    Prop where
  tight : Tight t.slots
  text : t.text = v
  replaced : replacedOf (scan literals.length m i v) = t.positions i
  rendered : (scan literals.length m i v).flatMap (Piece.render literals) =
    t.filled (literalOf literals)
  bound : ∀ x ∈ t.slots, inRange literals.length x.1

def TagName (x : Bytes) : Prop := x.head?.all isTagStart ∧ ∀ c ∈ x, isTagChar c

/-- The texts that end right behind an opening dollar tag. What stands before the tag is single
bytes, quoted strings, dollars that open no tag, and dollar-quoted strings up to the first closing
tag. -/
inductive Opens : Bytes → Prop where
  | tag {x : Bytes} (hx : TagName x) : Opens (dollar :: (x ++ [dollar]))
  | byte {c : Byte} {w : Bytes} (hq : c ≠ quote) (hd : c ≠ dollar) (h : Opens w) : Opens (c :: w)
  | quoted {x w : Bytes} (hx : quote ∉ x) (h : Opens w) : Opens (quote :: (x ++ quote :: w))
  | single {w : Bytes} (hno : ∀ x v, TagName x → w ≠ x ++ dollar :: v) (h : Opens w) :
      Opens (dollar :: w)
  | dollarQuoted {x y z : Bytes} {k : Nat} (hx : TagName x)
      (hk : index (dollar :: x ++ [dollar]) (y ++ z) = some k)
      (hy : y.length = k + (x.length + 2)) (h : Opens z) : Opens (dollar :: (x ++ dollar :: y) ++ z)

variable {v ds w : Bytes} {n : Nat} {ts : List Tok}

theorem tagName_of_parseDollarTag {tag : Bytes} (h : parseDollarTag (dollar :: w) = some tag) :
    ∃ x v, TagName x ∧ w = x ++ dollar :: v ∧ tag = dollar :: x ++ [dollar] := by
  obtain ⟨x, v, hx, hw, rfl⟩ := parseDollarTag_iff.mp h
  exact ⟨x, v, hx, (List.cons.inj hw).2, rfl⟩

theorem parseDollarTag_eq_none_iff :
    parseDollarTag (dollar :: w) = none ↔ ∀ x v, TagName x → w ≠ x ++ dollar :: v := by
  constructor
  · rintro h x v hx rfl
    rw [parseDollarTag_iff.mpr ⟨x, v, hx, rfl, rfl⟩] at h
    simp at h
  · intro h
    refine Option.eq_none_iff_forall_ne_some.mpr fun tag htag => ?_
    obtain ⟨x, v, hx, hw, _⟩ := tagName_of_parseDollarTag htag
    exact h x v hx hw

theorem Opens.digits (hds : ∀ c ∈ ds, isDigit c) (h : Opens v) : Opens (ds ++ v) := by
  induction ds with
  | nil => exact h
  | cons c ds ih =>
    have hc : isDigit c := hds c (by simp)
    refine .byte ?_ ?_ (ih fun d hd => hds d (by simp [hd]))
    · rintro rfl
      simp [isDigit, quote] at hc
    · rintro rfl
      simp [isDigit, dollar] at hc

theorem Opens.getLast (h : Opens v) : v.getLast? = some dollar := by
  induction h with
  | tag hx => simp [List.getLast?_cons]
  | byte _ _ _ ih => simp [List.getLast?_cons, ih]
  | quoted _ _ ih => simp [List.getLast?_cons, ih]
  | single _ _ ih => simp [List.getLast?_cons, ih]
  | dollarQuoted _ _ _ _ ih => rw [List.getLast?_append, ih, Option.some_or]

section scan

variable {literals : List Bytes} {m : Mode} {i : Nat} {u v : Bytes} {t : Template}

@[simp] theorem flatMap_render_map_byte (u : Bytes) :
    (u.map Piece.byte).flatMap (Piece.render literals) = u := by
  induction u with
  | nil => rfl
  | cons c u ih => simpa [Piece.render] using ih

theorem ScanCut.prepend {m' : Mode} (h : ScanCut literals m (i + u.length) v t)
    (hscan : scan literals.length m' i (u ++ v) =
      u.map .byte ++ scan literals.length m (i + u.length) v) :
    ScanCut literals m' i (u ++ v) (t.prepend u) where
  tight := h.tight
  text := by simp [h.text]
  replaced := by simp [hscan, h.replaced]
  rendered := by simp [hscan, h.rendered]
  bound := h.bound

theorem ScanCut.cons {m' : Mode} {c : Byte} (h : ScanCut literals m (i + 1) v t)
    (hscan : scan literals.length m' i (c :: v) = .byte c :: scan literals.length m (i + 1) v) :
    ScanCut literals m' i (c :: v) (t.prepend [c]) :=
  ScanCut.prepend (u := [c]) h hscan

theorem scanCut_plain (hscan : scan literals.length m i v = v.map .byte) :
    ScanCut literals m i v (.plain v) where
  tight := trivial
  text := by simp
  replaced := by simp [hscan]
  rendered := by simp [hscan]
  bound := by simp [Template.plain]

theorem ScanCut.slot (h : ScanCut literals .code (i + 1 + ds.length) v t) (hne : ds ≠ [])
    (hds : ∀ c ∈ ds, isDigit c) (hv : v.head?.any isDigit = false) (hr : inRange literals.length ds)
    (hscan : scan literals.length .code i (dollar :: (ds ++ v)) =
      .lit i (decimal ds - 1) :: scan literals.length .code (i + 1 + ds.length) v) :
    ScanCut literals .code i (dollar :: (ds ++ v)) (t.slot ds) where
  tight := ⟨hne, hds, by rw [← h.text] at hv; exact hv, h.tight⟩
  text := by simp [h.text]
  replaced := by
    have hone : 1 ≤ decimal ds := by simpa using (Bool.and_eq_true_iff.mp hr).1
    simp [hscan, h.replaced, Nat.sub_add_cancel hone]
  rendered := by simp [hscan, h.rendered, Piece.render, literalOf]
  bound := by simpa [Template.slot, hr] using h.bound

end scan

variable {literals : List Bytes}

theorem drop_tag (x v : Bytes) :
    (x ++ dollar :: v).drop ((dollar :: x ++ [dollar]).length - 1) = v := by
  rw [show x ++ dollar :: v = (x ++ [dollar]) ++ v by simp]
  exact List.drop_left' (by simp)

theorem scan_dollarQuoted {x y z : Bytes} {k : Nat} (hx : TagName x)
    (hk : index (dollar :: x ++ [dollar]) (y ++ z) = some k) (hy : y.length = k + (x.length + 2))
    (i : Nat) :
    scan n .code i (dollar :: (x ++ dollar :: y) ++ z) =
      (dollar :: (x ++ dollar :: y)).map .byte ++
        scan n .code (i + (dollar :: (x ++ dollar :: y)).length) z := by
  have htag : parseDollarTag (dollar :: (x ++ dollar :: (y ++ z))) =
      some (dollar :: x ++ [dollar]) :=
    parseDollarTag_iff.mpr ⟨x, y ++ z, hx, rfl, rfl⟩
  have hscan := Synthesizer.scan_code_tag n i htag
  have hne : y ++ z ≠ [] :=
    List.append_ne_nil_of_left_ne_nil (List.ne_nil_of_length_pos (by omega)) z
  rw [drop_tag, if_neg hne, hk] at hscan
  have hcopy := Synthesizer.scan_copy n (i + 1)
    (k := 2 * (dollar :: x ++ [dollar]).length + k - 2) z
    (u := x ++ dollar :: y) (by simp [hy]; omega)
  have hpos : i + 1 + (x ++ dollar :: y).length = i + (dollar :: (x ++ dollar :: y)).length := by
    simp; omega
  rw [hpos] at hcopy
  rw [show dollar :: (x ++ dollar :: y) ++ z = dollar :: (x ++ dollar :: (y ++ z)) by simp, hscan]
  rw [show x ++ dollar :: (y ++ z) = x ++ dollar :: y ++ z by simp]
  exact congrArg _ hcopy

theorem exists_scanCut_dollar {i : Nat}
    (ih : ∀ v j, v.length ≤ w.length → ¬ Opens v → ∃ t, ScanCut literals .code j v t)
    (hend : ¬ Opens (dollar :: w)) : ∃ t, ScanCut literals .code i (dollar :: w) t := by
  cases htag : parseDollarTag (dollar :: w) with
  | none =>
    have hno := parseDollarTag_eq_none_iff.mp htag
    cases hp : placeholder literals.length w with
    | none =>
      obtain ⟨t, ht⟩ := ih w (i + 1) le_rfl fun h => hend (.single hno h)
      exact ⟨_, ht.cons (Synthesizer.scan_code_dollar _ i htag hp)⟩
    | some ds =>
      obtain ⟨hds, hr, _, hw⟩ := Placeholders.placeholder_eq_some hp
      obtain ⟨v, hv⟩ : ∃ v, v = w.dropWhile isDigit := ⟨_, rfl⟩
      have hsplit : w = ds ++ v := by rw [hds, hv, List.takeWhile_append_dropWhile]
      have hdigits : ∀ c ∈ ds, isDigit c := fun c hc => List.mem_takeWhile_imp (hds ▸ hc)
      have hne : ds ≠ [] := by
        rintro rfl
        simp [inRange, decimal] at hr
      have hlen : 0 < ds.length := List.length_pos_iff.mpr hne
      have hskip := Synthesizer.scan_skip literals.length (i + 1) (k := ds.length - 1) v (u := ds)
        (by omega)
      have hscan := Synthesizer.scan_code_placeholder _ i htag hp
      obtain ⟨t, ht⟩ := ih v (i + 1 + ds.length) (by simp [hsplit])
        fun h => hend (.single hno (hsplit ▸ h.digits hdigits))
      rw [hsplit] at hscan ⊢
      refine ⟨_, ht.slot hne hdigits ?_ hr (hscan.trans (by rw [hskip]))⟩
      exact hv ▸ Placeholders.head_dropWhile_isDigit w
  | some tag =>
    obtain ⟨x, v, hx, rfl, rfl⟩ := tagName_of_parseDollarTag htag
    have hscan := Synthesizer.scan_code_tag literals.length i htag
    rw [drop_tag] at hscan
    have hv : v ≠ [] := by
      rintro rfl
      exact hend (.tag hx)
    rw [if_neg hv] at hscan
    cases hk : index (dollar :: x ++ [dollar]) v with
    | none => exact ⟨_, scanCut_plain (by rw [hscan, hk])⟩
    | some k =>
      obtain ⟨y, z, rfl, hy⟩ : ∃ y z, v = y ++ z ∧ y.length = k + (x.length + 2) := by
        have hle := index_le hk
        refine ⟨v.take (k + (x.length + 2)), v.drop (k + (x.length + 2)), by simp, ?_⟩
        simp at hle ⊢
        omega
      have hfull : dollar :: (x ++ dollar :: (y ++ z)) = dollar :: (x ++ dollar :: y) ++ z := by
        simp
      obtain ⟨t, ht⟩ := ih z (i + (dollar :: (x ++ dollar :: y)).length) (by simp; omega)
        fun h => hend (hfull ▸ .dollarQuoted hx hk hy h)
      rw [hfull]
      exact ⟨_, ht.prepend (scan_dollarQuoted hx hk hy i)⟩

theorem exists_scanCut (literals : List Bytes) (len : Nat) : ∀ v i, v.length < len →
    (¬ Opens v → ∃ t, ScanCut literals .code i v t) ∧
      ((∀ x w, quote ∉ x → v = x ++ quote :: w → ¬ Opens w) → ∃ t,
        ScanCut literals .quoted i v t) := by
  induction len with
  | zero => simp
  | succ len ih =>
    intro v i hlen
    cases v with
    | nil => exact ⟨fun _ => ⟨_, scanCut_plain (by simp)⟩, fun _ => ⟨_, scanCut_plain (by simp)⟩⟩
    | cons c w =>
      obtain ⟨hcode, hquoted⟩ := ih w (i + 1) (by simp at hlen; omega)
      constructor
      · intro hend
        by_cases hq : c = quote
        · subst hq
          obtain ⟨t, ht⟩ := hquoted fun x w' hx hw h => hend (hw ▸ .quoted hx h)
          exact ⟨_, ht.cons (Synthesizer.scan_code_quote _ i w)⟩
        by_cases hd : c = dollar
        · subst hd
          exact exists_scanCut_dollar (fun v j hv he => (ih v j (by simp at hlen; omega)).1 he) hend
        · obtain ⟨t, ht⟩ := hcode fun h => hend (.byte hq hd h)
          exact ⟨_, ht.cons (Synthesizer.scan_code_other _ i w hq hd)⟩
      · intro hend
        by_cases hq : c = quote
        · subst hq
          obtain ⟨t, ht⟩ := hcode (hend [] w (by simp) rfl)
          exact ⟨_, ht.cons (Synthesizer.scan_quoted_quote _ i w)⟩
        · obtain ⟨t, ht⟩ := hquoted fun x w' hx hw =>
            hend (c :: x) w' (by simp [hx, Ne.symm hq]) (by simp [hw])
          exact ⟨_, ht.cons (Synthesizer.scan_quoted_other _ i w hq)⟩

/-! ## What is copied -/

/-- The result is the query with literals in place of disjoint `$N`, and every other byte copied
once and in order. -/
def Copies (query : Bytes) (literals : List Bytes) : Prop :=
  ∃ t : Template, t.text = query ∧ Tight t.slots ∧ (∀ x ∈ t.slots, inRange literals.length x.1) ∧
    replacePlaceholders query literals = t.filled (literalOf literals)

theorem copies_of_not_opens {query : Bytes} (h : ¬ Opens query) (literals : List Bytes) :
    Copies query literals := by
  obtain ⟨t, hscan⟩ := (exists_scanCut literals _ query 0 (Nat.lt_succ_self _)).1 h
  exact ⟨t, hscan.text, hscan.tight, hscan.bound, hscan.rendered⟩

theorem replacePlaceholders_nil {query : Bytes} (h : Copies query []) :
    replacePlaceholders query [] = query := by
  obtain ⟨t, rfl, _, hbound, hres⟩ := h
  have hslots : t.slots = [] := by
    refine List.eq_nil_iff_forall_not_mem.mpr fun x hx => ?_
    have hx' := hbound x hx
    simp [inRange] at hx'
    omega
  rw [hres]
  simp [filled, text, hslots]

theorem placeholder_zero (w : Bytes) : placeholder 0 w = none := by
  unfold placeholder
  split
  · rw [if_neg (by omega)]
  · rfl

/-- What is written behind position `i` without literals. -/
def written (m : Mode) (i : Nat) (v : Bytes) : Bytes := (scan 0 m i v).flatMap (Piece.render [])

theorem written_append {m m' : Mode} {i j : Nat} {u v w : Bytes}
    (h : scan 0 m i v = u.map .byte ++ scan 0 m' j w) : written m i v = u ++ written m' j w := by
  simp [written, h]

theorem written_quoted {x : Bytes} (hx : quote ∉ x) (i : Nat) (w : Bytes) :
    ∃ j, written .quoted i (x ++ quote :: w) = x ++ quote :: written .code j w := by
  induction x generalizing i with
  | nil => exact ⟨i + 1, written_append (u := [quote]) (Synthesizer.scan_quoted_quote _ i w)⟩
  | cons c x ih =>
    have hc : c ≠ quote := fun h => hx (h ▸ List.mem_cons_self)
    obtain ⟨j, hj⟩ := ih (fun h => hx (List.mem_cons_of_mem c h)) (i + 1)
    refine ⟨j, ?_⟩
    rw [List.cons_append, written_append (u := [c]) (Synthesizer.scan_quoted_other _ i _ hc), hj]
    rfl

/-- A tag that ends the text is written twice, so that the result is longer than the text. -/
theorem Opens.lt_length (h : Opens v) (i : Nat) : v.length < (written .code i v).length := by
  induction h generalizing i with
  | @tag x hx =>
    have hscan := Synthesizer.scan_code_tag 0 i (parseDollarTag_iff.mpr ⟨x, [], hx, rfl, rfl⟩)
    rw [if_pos (by simp)] at hscan
    rw [@written_append _ .code i (i + 1) (dollar :: (x ++ [dollar]) ++ [dollar]) _ (x ++ [dollar])
      (hscan.trans (by simp))]
    simp
  | @byte c w hq hd _ ih =>
    rw [written_append (u := [c]) (Synthesizer.scan_code_other _ i w hq hd)]
    simpa using ih (i + 1)
  | @quoted x w hx _ ih =>
    obtain ⟨j, hj⟩ := written_quoted hx (i + 1) w
    rw [written_append (u := [quote]) (Synthesizer.scan_code_quote _ i _), hj]
    simpa using ih j
  | @single w hno _ ih =>
    have hscan := Synthesizer.scan_code_dollar _ i (parseDollarTag_eq_none_iff.mpr hno)
      (placeholder_zero w)
    rw [written_append (u := [dollar]) hscan]
    simpa using ih (i + 1)
  | @dollarQuoted x y z k hx hk hy _ ih =>
    rw [written_append (scan_dollarQuoted (n := 0) hx hk hy i), List.length_append,
      List.length_append]
    exact Nat.add_lt_add_left (ih _) _

/-- Everything but the placeholders is copied once unless the text ends behind an opening tag. -/
theorem replacePlaceholders_copies_iff (query : Bytes) :
    (∀ literals, Copies query literals) ∧ replacePlaceholders query [] = query ↔ ¬ Opens query := by
  constructor
  · intro h hopens
    have hlt := hopens.lt_length 0
    exact absurd (congrArg List.length h.2) (Nat.ne_of_gt hlt)
  · intro h
    exact ⟨copies_of_not_opens h, replacePlaceholders_nil (copies_of_not_opens h [])⟩

theorem replacePlaceholders_tag_twice : replacePlaceholders (ascii "SELECT $$")
    [] = ascii "SELECT $$$$" := by decide +kernel

def NoneInRange (n : Nat) (ts : List Tok) : Prop := ∀ ds, .param ds ∈ ts → inRange n ds = false

theorem NoneInRange.append {us : List Tok} (ht : NoneInRange n ts) (hu : NoneInRange n us) :
    NoneInRange n (ts ++ us) := by
  intro ds hm
  rcases List.mem_append.mp hm with hm | hm
  · exact ht ds hm
  · exact hu ds hm

theorem noneInRange_of_paramFree (h : ParamFree ts) : NoneInRange n ts :=
  fun ds hm => absurd hm (h ds)

theorem noneInRange_of_paramsFrom {i : Nat} {s : State} (h : paramsFrom n i s v = []) :
    NoneInRange n (lexer.outputFrom s v) := by
  intro ds hm
  rw [← lexer.emittedAt_snd i, List.mem_map] at hm
  obtain ⟨⟨j, t⟩, hx, rfl⟩ := hm
  have hnone := List.filterMap_eq_nil_iff.mp h _ hx
  simpa [PgLexer.paramOf] using hnone

structure LexCut (n : Nat) (s : State) (i : Nat) (v : Bytes) (t : Template) : Prop where
  tight : Tight t.slots
  text : t.text = v
  params : paramsFrom n i s v = t.positions i
  tokens : lexer.outputFrom s v =
    lexer.outputFrom s t.head ++ t.slots.flatMap fun x => .param x.1 :: lex x.2
  head : NoneInRange n (lexer.outputFrom s t.head)
  slots : ∀ x ∈ t.slots, inRange n x.1 ∧ NoneInRange n (lex x.2)

section lex

variable {n i : Nat} {s : State} {v : Bytes} {t : Template}

theorem lexCut_plain (h : paramsFrom n i s v = []) : LexCut n s i v (.plain v) where
  tight := trivial
  text := by simp
  params := by simp [h]
  tokens := by simp [plain]
  head := noneInRange_of_paramsFrom h
  slots := by simp [plain]

theorem LexCut.cons {c : Byte} (h : LexCut n (step s c).2 (i + 1) v t) (hs : ∀ ds, s ≠ .param ds) :
    LexCut n s i (c :: v) (t.prepend [c]) where
  tight := h.tight
  text := by simp [h.text]
  params := by
    rw [PgLexer.paramsFrom_cons n i v (PgLexer.paramFree_step hs c), h.params]
    simp
  tokens := by simp [Template.prepend, Transducer.outputFrom_cons, h.tokens]
  head := by
    simp only [Template.prepend, List.cons_append, List.nil_append, Transducer.outputFrom_cons]
    exact (noneInRange_of_paramFree (PgLexer.paramFree_step hs c)).append h.head
  slots := h.slots

theorem separated_param (hd : w.head?.any isDigit = false) (hi : w.head?.any isIdentStart = false) :
    lexer.Separated (.param ds) w := by
  cases w with
  | nil => exact lexer.separated_nil _
  | cons c w =>
    exact lexer.separated_cons w (PgLexer.flushes_param (by simpa using hd) (by simpa using hi))

theorem outputFrom_number (hs : step s dollar = (finish s, .dollar)) (hne : ds ≠ [])
    (hds : ∀ c ∈ ds, isDigit c) (hd : w.head?.any isDigit = false)
    (hi : w.head?.any isIdentStart = false) :
    lexer.outputFrom s (dollar :: (ds ++ w)) = finish s ++ .param ds :: lex w := by
  obtain ⟨hem, haf⟩ := PgLexer.dollar_digits hs hne (List.all_eq_true.mpr hds)
  have hsep : lexer.outputFrom (.param ds) w = [.param ds] ++ lex w := separated_param hd hi
  rw [← List.cons_append, Transducer.outputFrom_append, hem, haf, hsep]
  rfl

variable {ds : Bytes} (h : LexCut n .start (i + 1 + ds.length) v t)
  (hs : step s dollar = (finish s, .dollar)) (hp : ∀ ds, s ≠ .param ds) (hne : ds ≠ [])
  (hds : ∀ c ∈ ds, isDigit c) (hd : v.head?.any isDigit = false)
    (hi : v.head?.any isIdentStart = false)

include h hs hp hne hds hd hi

theorem paramsFrom_number : paramsFrom n i s (dollar :: (ds ++ v)) =
    (if inRange n ds then [(i, decimal ds)] else []) ++ t.positions (i + 1 + ds.length) := by
  obtain ⟨hem, haf⟩ := PgLexer.dollar_digits hs hne (List.all_eq_true.mpr hds)
  have hlex := PgLexer.paramsFrom_append n i v (hem ▸ PgLexer.paramFree_finish hp)
  have hlen : i + (dollar :: ds).length = i + 1 + ds.length := by simp; omega
  rw [List.cons_append] at hlex
  rw [hlex, haf, PgLexer.paramsFrom_param n _ ds hd hi, hlen, ← h.params,
    show i + 1 + ds.length - (ds.length + 1) = i by omega]

theorem LexCut.slot (hr : inRange n ds) : LexCut n s i (dollar :: (ds ++ v)) (t.slot ds) where
  tight := ⟨hne, hds, by rw [← h.text] at hd; exact hd, h.tight⟩
  text := by simp [h.text]
  params := by rw [paramsFrom_number h hs hp hne hds hd hi]; simp [hr]
  tokens := by
    rw [outputFrom_number hs hne hds hd hi]
    simp [Template.slot, lex, Transducer.output, h.tokens]
  head := by
    exact noneInRange_of_paramFree (PgLexer.paramFree_finish hp)
  slots := by
    intro x hx
    rcases List.mem_cons.mp hx with rfl | hx
    · exact ⟨hr, h.head⟩
    · exact h.slots x hx

theorem LexCut.skip (hr : inRange n ds = false) :
    LexCut n s i (dollar :: (ds ++ v)) (t.prepend (dollar :: ds)) := by
  have hhead : ∀ p : Byte → Bool, v.head?.any p = false → t.head.head?.any p = false := by
    intro p hv
    cases ht : t.head with
    | nil => rfl
    | cons c u => simpa [← h.text, Template.text, ht] using hv
  have htokens := outputFrom_number hs hne hds (hhead _ hd) (hhead _ hi)
  refine ⟨h.tight, by simp [h.text], ?_, ?_, ?_, h.slots⟩
  · rw [paramsFrom_number h hs hp hne hds hd hi]
    simp [hr, Nat.add_comm, Nat.add_left_comm]
  · rw [outputFrom_number hs hne hds hd hi]
    simp only [Template.prepend, List.cons_append, htokens]
    simp [lex, Transducer.output, h.tokens]
  · simp only [Template.prepend, List.cons_append, htokens]
    refine (noneInRange_of_paramFree (PgLexer.paramFree_finish hp)).append ?_
    intro ds' hm
    rcases List.mem_cons.mp hm with heq | hm
    · obtain rfl : ds' = ds := by simpa using heq
      exact hr
    · exact h.head ds' hm

end lex

theorem exists_lexCut (n len : Nat) :
    ∀ v i s, v.length < len → (∀ ds, s ≠ .param ds) → (s = .dollar → v.head?.any isDigit = false) →
    ∃ t, LexCut n s i v t := by
  induction len with
  | zero => simp
  | succ len ih =>
    intro v i s hlen hp hdollar
    cases v with
    | nil => exact ⟨_, lexCut_plain (PgLexer.paramsFrom_nil n i hp)⟩
    | cons c w =>
      by_cases hnum : (step s c).2 = .dollar ∧ w.head?.any isDigit
      · obtain ⟨hopen, hw⟩ := hnum
        obtain ⟨rfl, hs⟩ := PgLexer.step_eq_dollar hopen
        obtain ⟨ds, v, hds, hv⟩ : ∃ ds v, ds = w.takeWhile isDigit ∧ v = w.dropWhile isDigit :=
          ⟨_, _, rfl, rfl⟩
        have hsplit : w = ds ++ v := by rw [hds, hv, List.takeWhile_append_dropWhile]
        have hdig : ∀ c ∈ ds, isDigit c := fun c hc => List.mem_takeWhile_imp (hds ▸ hc)
        have hne : ds ≠ [] := by
          cases w with
          | nil => simp at hw
          | cons c w => simp [hds, show isDigit c by simpa using hw]
        have hvd : v.head?.any isDigit = false := hv ▸ Placeholders.head_dropWhile_isDigit w
        rw [hsplit]
        by_cases hi : v.head?.any isIdentStart
        · refine ⟨_, lexCut_plain ?_⟩
          obtain ⟨hem, haf⟩ := PgLexer.dollar_digits hs hne (List.all_eq_true.mpr hdig)
          have hlex := PgLexer.paramsFrom_append n i v (hem ▸ PgLexer.paramFree_finish hp)
          rw [haf, PgLexer.paramsFrom_param_junk n _ ds hvd hi] at hlex
          simpa using hlex
        · have hi : v.head?.any isIdentStart = false := by simpa using hi
          obtain ⟨t, ht⟩ := ih v (i + 1 + ds.length) .start
            (by simp only [hsplit, List.length_cons, List.length_append] at hlen; omega) (by simp)
              (by simp)
          cases hr : inRange n ds with
          | true => exact ⟨_, ht.slot hs hp hne hdig hvd hi hr⟩
          | false => exact ⟨_, ht.skip hs hp hne hdig hvd hi hr⟩
      · have hp' : ∀ ds, (step s c).2 ≠ .param ds := by
          intro ds hstep
          obtain ⟨hd, rfl | ⟨ds', rfl⟩⟩ := PgLexer.step_eq_param hstep
          · simp [hd] at hdollar
          · exact hp ds' rfl
        obtain ⟨t, ht⟩ := ih w (i + 1) _ (by simp at hlen; omega) hp' fun hopen => by
          simpa [hopen] using hnum
        exact ⟨_, ht.cons hp⟩

/-- A token of a template, with the tokens of a literal in place of a parameter in range. -/
def substitute (literals : List Bytes) : Tok → List Tok
  | .param ds => if inRange literals.length ds then lex (literalOf literals ds) else [.param ds]
  | t => [t]

theorem flatMap_substitute (h : NoneInRange literals.length ts) :
    ts.flatMap (substitute literals) = ts := by
  induction ts with
  | nil => rfl
  | cons t ts ih =>
    have ht : substitute literals t = [t] := by
      cases t with
      | param ds => simp [substitute, h ds (by simp)]
      | _ => rfl
    rw [List.flatMap_cons, ht, ih fun ds hm => h ds (List.mem_cons_of_mem t hm)]
    rfl

theorem LexCut.substituted {t : Template} (h : LexCut literals.length .start 0 v t) :
    (lex v).flatMap (substitute literals) = (t.chunks (literalOf literals)).flatMap lex := by
  have htokens : lex v = _ := h.tokens
  have hhead : (lex t.head).flatMap (substitute literals) = lex t.head := flatMap_substitute h.head
  have hslots : ∀ slots : List (Bytes × Bytes),
      (∀ x ∈ slots, inRange literals.length x.1 ∧ NoneInRange literals.length (lex x.2)) →
      (slots.flatMap fun x => Tok.param x.1 :: lex x.2).flatMap (substitute literals) =
        (slots.flatMap fun x => [literalOf literals x.1, x.2]).flatMap lex := by
    intro slots hs
    induction slots with
    | nil => rfl
    | cons x slots ih =>
      obtain ⟨hr, hx⟩ := hs x (by simp)
      have hparam : substitute literals (.param x.1) = lex (literalOf literals x.1) := by
        simp [substitute, hr]
      simp [hparam, flatMap_substitute hx, ih fun y hy => hs y (by simp [hy])]
  rw [htokens, List.flatMap_append, hslots t.slots h.slots]
  exact congrArg (· ++ _) hhead

/-- No chunk runs into the text behind it. -/
def seamsClear : List Bytes → Bool
  | [] => true
  | u :: us => !touches (lexer.after .start u) us.flatten && seamsClear us

theorem seamsSeparated_of_seamsClear {us : List Bytes} (h : seamsClear us) :
    lexer.SeamsSeparated us := by
  induction us with
  | nil => trivial
  | cons u us ih =>
    obtain ⟨hu, hus⟩ := by simpa [seamsClear] using h
    exact ⟨PgLexer.separated_of_not_touches hu, ih hus⟩

def spliced (query : Bytes) (literals : List Bytes) : List Bytes :=
  (cut (params literals.length query) 0 query).chunks (literalOf literals)

theorem lex_replacePlaceholders {query : Bytes}
    (hsame : replaced literals.length query = params literals.length query) (hend : ¬ Opens query)
    (hseams : seamsClear (spliced query literals)) :
    lex (replacePlaceholders query literals) = (lex query).flatMap (substitute literals) := by
  obtain ⟨t, hscan⟩ := (exists_scanCut literals (query.length + 1) query 0 (by simp)).1 hend
  obtain ⟨t', hlex⟩ := exists_lexCut literals.length (query.length + 1) query 0 .start (by simp)
    (by simp) (by simp)
  have hpos : t.positions 0 = t'.positions 0 := by
    rw [← hscan.replaced, ← hlex.params]
    exact hsame
  have ht : cut (t.positions 0) 0 query = t := by
    rw [← hscan.text]
    exact cut_positions t.slots 0 t.head hscan.tight
  have ht' : cut (t'.positions 0) 0 query = t' := by
    rw [← hlex.text]
    exact cut_positions t'.slots 0 t'.head hlex.tight
  obtain rfl : t = t' := by rw [← ht, hpos, ht']
  have hchunks : spliced query literals = t.chunks (literalOf literals) := by
    rw [spliced, show params literals.length query = t.positions 0 from hlex.params, ht]
  have hfill : replacePlaceholders query literals = (spliced query literals).flatten := by
    rw [hchunks, flatten_chunks]
    exact hscan.rendered
  rw [hlex.substituted, ← hchunks, hfill]
  exact lexer.output_flatten _ (seamsSeparated_of_seamsClear hseams)

open Synthesizer (Registry PreparedStmt paramLiterals)

/-- Synthesized SQL keeps the token structure of its statement when no literal runs into its
neighbours. -/
theorem lex_synthesize (r : Registry) (name : Bytes) (stmt : PreparedStmt)
    (values : List (Option Bytes)) (formatCodes : List Int) (literals : List Bytes) (text : Bytes)
    (hstmt : r.statements name = some stmt)
    (hliterals : paramLiterals stmt.paramOIDs formatCodes 0 values = .ok literals)
    (htext : r.synthesize name values formatCodes = .ok text)
    (hsame : replaced literals.length stmt.query = params literals.length stmt.query)
    (hend : ¬ Opens stmt.query) (hseams : seamsClear (spliced stmt.query literals)) :
    lex text = (lex stmt.query).flatMap (substitute literals) := by
  obtain rfl : replacePlaceholders stmt.query literals = text := by
    simpa [Registry.synthesize, hstmt, PreparedStmt.synthesize, hliterals, Except.map] using htext
  exact lex_replacePlaceholders hsame hend hseams

def differenceStmt : PreparedStmt := ⟨ascii "SELECT 5-$1", [Literal.oidInt4]⟩

def differenceRegistry : Registry :=
  Registry.new.registerStatement [] differenceStmt.query differenceStmt.paramOIDs

theorem lex_synthesize_comment :
    differenceRegistry.synthesize [] [some (ascii "-3")] [] = .ok (ascii "SELECT 5--3") ∧
      replaced 1 differenceStmt.query = params 1 differenceStmt.query ∧
      lex (ascii "SELECT 5--3") ≠ (lex differenceStmt.query).flatMap (substitute [ascii "-3"]) := by
  decide +kernel

def searchStmt : PreparedStmt :=
  ⟨ascii "SELECT a FROM t WHERE b=$1 AND c IN ($2, $1)", [Literal.oidInt4, Literal.oidText]⟩

theorem lex_synthesize_search :
    let r := Registry.new.registerStatement [] searchStmt.query searchStmt.paramOIDs
    let literals := [ascii "-3", ascii "'it''s'"]
    r.synthesize [] [some (ascii "-3"), some (ascii "it's")] [] =
        .ok (ascii "SELECT a FROM t WHERE b=-3 AND c IN ('it''s', -3)") ∧
      lex (ascii "SELECT a FROM t WHERE b=-3 AND c IN ('it''s', -3)") =
        (lex searchStmt.query).flatMap (substitute literals) := by
  refine ⟨by decide +kernel, ?_⟩
  exact lex_synthesize (Registry.new.registerStatement [] searchStmt.query searchStmt.paramOIDs) []
    searchStmt [some (ascii "-3"), some (ascii "it's")] [] [ascii "-3", ascii "'it''s'"] _
    (by decide +kernel) (by decide +kernel) (by decide +kernel) (by decide +kernel)
    (fun h => absurd h.getLast (by decide +kernel)) (by decide +kernel)

end PgMux.Substitution
