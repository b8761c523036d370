import PgMux.Protocol

/-!
# Prepared statements of a connection

A connection maps names to texts, and a batch runs on it until its first error. It finds only
statements of its own session if that session keeps to names of its own.
-/

namespace PgMux.Statements

open Protocol

/-! ## Batches on one connection -/

inductive Verb where
  | parse (name query : Bytes)
  | bind (name : Bytes)
  | close (name : Bytes)
  | other
  deriving DecidableEq, Repr

def verb (msg : Message) : Verb :=
  if msg.type = msgParse then .parse (parseParseMessage msg.payload).1
    (parseParseMessage msg.payload).2
  else if msg.type = msgBind then .bind (parseBindMessage msg.payload).2
  else if msg.type = msgClose ∧ (parseCloseMessage msg.payload).1 = kindStatement then
    .close (parseCloseMessage msg.payload).2
  else .other

abbrev Stmts := Bytes → Option Bytes

def Stmts.empty : Stmts := fun _ => none

def takes (m : Stmts) : Verb → Option Stmts
  | .parse name query => if name ≠ [] ∧ (m name).isSome then none
      else some (Function.update m name query)
  | .bind name => if (m name).isSome then some m else none
  | .close name => some (Function.update m name none)
  | .other => some m

/-- The backend skips what follows an error, up to the Sync. -/
def run : List Verb → Stmts → Stmts
  | [], m => m
  | a :: rest, m =>
    match takes m a with
    | none => m
    | some m' => run rest m'

def tell (told : Stmts) : Verb → Stmts
  | .parse name query => Function.update told name query
  | _ => told

def Mine (told m : Stmts) : Verb → Prop
  | .parse name query => told name = none → (takes m (.parse name query)).isSome
  | .bind name => ∀ text ∈ m name, told name = some text
  | _ => True

def Private : List Verb → Stmts → Stmts → Prop
  | [], _, _ => True
  | a :: rest, told, m => Mine told m a ∧ ∀ m' ∈ takes m a, Private rest (tell told a) m'

/-! ## Sessions that keep to their names -/

structure Names where
  own : Bytes → Bool
  text : Bytes → Option Bytes

def Fair (names : Names) (parsed : List Bytes) : Verb → Prop
  | .parse name query => (name ≠ [] → names.own name = true) ∧ ∀ text ∈ names.text name,
      query = text
  | .bind name => name ∈ parsed ∨ name ≠ [] ∧ names.own name = true ∧ (names.text name).isSome
  | _ => True

def note (parsed : List Bytes) : Verb → List Bytes
  | .parse name _ => name :: parsed
  | _ => parsed

def Tidy (names : Names) : List Bytes → List Verb → Prop
  | _, [] => True
  | parsed, a :: rest => Fair names parsed a ∧ Tidy names (note parsed a) rest

instance (names : Names) (parsed : List Bytes) : (a : Verb) → Decidable (Fair names parsed a)
  | .parse name query =>
    inferInstanceAs (Decidable ((name ≠ [] → names.own name = true) ∧ ∀ text ∈ names.text name,
      query = text))
  | .bind name =>
    inferInstanceAs (Decidable (name ∈ parsed ∨ name ≠ [] ∧ names.own name = true ∧
      (names.text name).isSome))
  | .close _ | .other => .isTrue trivial

instance decidableTidy (names : Names) :
    (parsed : List Bytes) → (l : List Verb) → Decidable (Tidy names parsed l)
  | _, [] => .isTrue trivial
  | parsed, a :: l =>
    have := decidableTidy names (note parsed a) l
    inferInstanceAs (Decidable (Fair names parsed a ∧ Tidy names (note parsed a) l))

def Faithful (names : Names) (told : Stmts) : Prop :=
  ∀ name, ∀ query ∈ told name, ∀ text ∈ names.text name, query = text

section

variable {names : Names} {parsed : List Bytes} {told m m' : Stmts} {a : Verb} {l : List Verb}
  {name text : Bytes}

theorem tell_parse (told : Stmts) (name query : Bytes) :
    tell told (.parse name query) name = some query := by
  simp [tell]

theorem tell_of_ne (h : ∀ query, a ≠ .parse name query) : tell told a name = told name := by
  cases a with
  | parse name' query =>
    apply Function.update_of_ne
    rintro rfl
    exact h query rfl
  | _ => rfl

theorem mem_note (h : name ∈ note parsed a) : (∃ query, a = .parse name query) ∨ name ∈ parsed := by
  cases a with
  | parse name' query =>
    rcases List.mem_cons.mp h with rfl | h
    · exact .inl ⟨query, rfl⟩
    · exact .inr h
  | _ => exact .inr h

theorem mem_of_takes (hm : takes m a = some m') (h : text ∈ m' name) :
    a = .parse name text ∨ text ∈ m name ∧ ∀ query, a ≠ .parse name query := by
  cases a with
  | parse name' query =>
    obtain ⟨-, hm⟩ := Option.ite_none_left_eq_some.mp hm
    obtain rfl := Option.some.inj hm
    by_cases hname : name = name'
    · subst hname
      obtain rfl : query = text := by simpa using h
      exact .inl rfl
    · rw [Function.update_of_ne hname] at h
      exact .inr ⟨h, fun _ hparse => hname (Verb.parse.inj hparse).1.symm⟩
  | bind name' =>
    obtain ⟨-, hm⟩ := Option.ite_none_right_eq_some.mp hm
    exact .inr ⟨Option.some.inj hm ▸ h, by simp⟩
  | close name' =>
    obtain rfl := Option.some.inj hm
    by_cases hname : name = name'
    · simp [hname] at h
    · rw [Function.update_of_ne hname] at h
      exact .inr ⟨h, by simp⟩
  | other => exact .inr ⟨Option.some.inj hm ▸ h, by simp⟩

theorem mem_of_run (h : text ∈ run l m name) : text ∈ m name ∨ .parse name text ∈ l := by
  induction l generalizing m with
  | nil => exact .inl h
  | cons a l ih =>
    rw [run] at h
    cases hm : takes m a with
    | none =>
      rw [hm] at h
      exact .inl h
    | some m' =>
      rw [hm] at h
      rcases ih h with h | h
      · rcases mem_of_takes hm h with rfl | h
        · exact .inr List.mem_cons_self
        · exact .inl h.1
      · exact .inr (List.mem_cons_of_mem a h)

theorem isSome_foldl_tell (h : (told name).isSome ∨ ∃ query, .parse name query ∈ l) :
    (l.foldl tell told name).isSome := by
  induction l generalizing told with
  | nil => simpa using h
  | cons a l ih =>
    apply ih
    by_cases ha : ∃ query, a = .parse name query
    · obtain ⟨query, rfl⟩ := ha
      exact .inl (by simp [tell_parse])
    · rw [not_exists] at ha
      rw [tell_of_ne ha]
      refine h.imp_right fun ⟨query, hquery⟩ => ⟨query, ?_⟩
      exact (List.mem_cons.mp hquery).resolve_left fun h => ha query h.symm

theorem Faithful.tell (h : Faithful names told) (ha : Fair names parsed a) :
    Faithful names (tell told a) := by
  intro name query hquery text htext
  by_cases hname : ∃ query, a = .parse name query
  · obtain ⟨query', rfl⟩ := hname
    obtain rfl : query' = query := by simpa [tell_parse] using hquery
    exact ha.2 text htext
  · rw [tell_of_ne (not_exists.mp hname)] at hquery
    exact h name query hquery text htext

theorem Tidy.faithful (hl : Tidy names parsed l) (h : Faithful names told) :
    Faithful names (l.foldl Statements.tell told) := by
  induction l generalizing parsed told with
  | nil => exact h
  | cons a l ih => exact ih hl.2 (h.tell hl.1)

theorem Tidy.fair (hl : Tidy names parsed l) {query : Bytes} (h : .parse name query ∈ l) :
    Fair names [] (.parse name query) := by
  induction l generalizing parsed with
  | nil => simp at h
  | cons a l ih =>
    rcases List.mem_cons.mp h with rfl | h
    · exact hl.1
    · exact ih hl.2 h

structure Known (names : Names) (parsed : List Bytes) (told m : Stmts) : Prop where
  fresh : ∀ name ∈ parsed, ∀ text ∈ m name, told name = some text
  own : ∀ name, ∀ text ∈ m name, name ≠ [] → names.own name = true →
    (told name).isSome ∧ ∀ text' ∈ names.text name, text = text'
  faithful : Faithful names told

theorem Known.step (h : Known names parsed told m) (ha : Fair names parsed a)
    (hm : takes m a = some m') : Known names (note parsed a) (tell told a) m' := by
  refine ⟨fun name hname text htext => ?_, fun name text htext hne hown => ?_, h.faithful.tell ha⟩
  · rcases mem_of_takes hm htext with rfl | ⟨htext, hother⟩
    · exact tell_parse told name text
    · rw [tell_of_ne hother]
      exact h.fresh name ((mem_note hname).resolve_left (not_exists.mpr hother)) text htext
  · rcases mem_of_takes hm htext with rfl | ⟨htext, hother⟩
    · exact ⟨by simp [tell_parse], ha.2⟩
    · rw [tell_of_ne hother]
      exact h.own name text htext hne hown

theorem Known.mine (h : Known names parsed told m) (ha : Fair names parsed a) : Mine told m a := by
  cases a with
  | parse name query =>
    intro hnone
    have hfree : ¬ (name ≠ [] ∧ (m name).isSome) := by
      rintro ⟨hne, hsome⟩
      obtain ⟨text, htext⟩ := Option.isSome_iff_exists.mp hsome
      have htold := (h.own name text htext hne (ha.1 hne)).1
      simp [hnone] at htold
    rw [takes, if_neg hfree]
    rfl
  | bind name =>
    intro text htext
    rcases ha with hparsed | ⟨hne, hown, hfixed⟩
    · exact h.fresh name hparsed text htext
    · obtain ⟨htold, htexts⟩ := h.own name text htext hne hown
      obtain ⟨query, hquery⟩ := Option.isSome_iff_exists.mp htold
      obtain ⟨text', htext'⟩ := Option.isSome_iff_exists.mp hfixed
      rw [hquery, h.faithful name query hquery text' htext', htexts text' htext']
  | _ => trivial

theorem Known.isPrivate (h : Known names parsed told m) (hl : Tidy names parsed l) :
    Private l told m := by
  induction l generalizing parsed told m with
  | nil => trivial
  | cons a l ih => exact ⟨h.mine hl.1, fun m' hm => ih (h.step hl.1 hm) hl.2⟩

end

end PgMux.Statements
