import Mathlib.Data.List.TakeWhile
import LogicAsm.Text.Token

/-!
# Tokens and their lines

The tokens of a text are fields and closed strings, but for the last one, which may be a string
that is not closed (`wellFormed_tokens`). Such tokens, put on a line with a space between any two,
are the tokens of that line (`tokens_intercalate`).
-/

namespace LogicAsm.Text

/-- A text that is one field: it is not empty, and has no blanks and no double quotes. -/
def IsFieldText (s : String) : Prop := s ≠ "" ∧ ∀ c ∈ s.toList, isFieldChar c = true

instance (s : String) : Decidable (IsFieldText s) :=
  decidable_of_iff (s ≠ "" ∧ s.toList.all isFieldChar = true) (by simp [IsFieldText])

theorem isFieldChar_of_isDigit {c : Char} (h : c.isDigit = true) : isFieldChar c = true := by
  have hrange : 48 ≤ c.toNat ∧ c.toNat ≤ 57 := by
    simpa [Char.isDigit, UInt32.le_iff_toNat_le] using h
  have hblank : isBlank c = false := by
    rw [Bool.eq_false_iff]
    intro hb
    obtain ⟨r, hr, hlo, hhi⟩ := CharSet.has_iff.mp hb
    have hfar : ∀ r ∈ blanks.ranges, r.2 < 48 ∨ 57 < r.1 := by decide
    have := hfar r hr
    omega
  have hquote : c ≠ '"' := by
    rintro rfl
    simp at hrange
  simp [isFieldChar, hblank, hquote]

namespace Token

/-- A token that ends by itself, or by a blank: a field, or a string with both quotes. -/
inductive Closed : Token → Prop where
  | field (h : IsFieldText s) : Closed (field s)
  | quoted (inner : List Char) (h : ∀ c ∈ inner, isInnerChar c = true) :
      Closed (quoted (String.ofList ('"' :: inner ++ ['"'])))

/-- A string that runs to the end of the text. -/
inductive Open : Token → Prop where
  | quoted (inner : List Char) (h : ∀ c ∈ inner, isInnerChar c = true) :
      Open (quoted (String.ofList ('"' :: inner)))

end Token

/-- Tokens that can stand on one line: all of them are closed, but for the last. -/
inductive WellFormed : List Token → Prop where
  | nil : WellFormed []
  | last {t : Token} (h : t.Open) : WellFormed [t]
  | cons {t : Token} {ts : List Token} (h : t.Closed) (h' : WellFormed ts) : WellFormed (t :: ts)

theorem wellFormed_map_field {fields : List String} (h : ∀ s ∈ fields, IsFieldText s) :
    WellFormed (fields.map .field) := by
  induction fields with
  | nil => exact .nil
  | cons s fields ih =>
    rw [List.forall_mem_cons] at h
    exact .cons (.field h.1) (ih h.2)

theorem wellFormed_cons_field {s : String} {ts : List Token} :
    WellFormed (.field s :: ts) ↔ IsFieldText s ∧ WellFormed ts := by
  constructor
  · intro h
    obtain _ | ⟨⟨⟩⟩ | ⟨⟨hs⟩, hts⟩ := h
    exact ⟨hs, hts⟩
  · rintro ⟨hs, hts⟩
    exact .cons (.field hs) hts

/-! ## Tokens at the beginning of a text -/

/-- A field ends where the text ends, or with a character that no field holds. -/
theorem tokens_field_append {s : String} (hs : IsFieldText s) {cs : List Char}
    (hcs : ∀ c ∈ cs.head?, isFieldChar c = false) :
    tokens (s.toList ++ cs) = .field s :: tokens cs := by
  obtain ⟨c, s', hc⟩ : ∃ c s', s.toList = c :: s' :=
    List.exists_cons_of_ne_nil (by simpa using hs.1)
  have hs' : s = String.ofList (c :: s') := by rw [← hc, String.ofList_toList]
  have hfield := hs.2
  rw [hc, List.forall_mem_cons] at hfield
  have hstop : cs.takeWhile isFieldChar = [] ∧ cs.dropWhile isFieldChar = cs := by
    cases cs with
    | nil => simp
    | cons d cs =>
      have hd : isFieldChar d = false := hcs d rfl
      simp [hd]
  rw [hc, List.cons_append, tokens_field hfield.1, List.takeWhile_append_of_pos hfield.2,
    List.dropWhile_append_of_pos hfield.2, hstop.1, hstop.2, List.append_nil, hs']

/-- A string ends with its second quote. -/
theorem tokens_closed_append {inner : List Char} (h : ∀ c ∈ inner, isInnerChar c = true)
    (cs : List Char) :
    tokens ('"' :: (inner ++ '"' :: cs)) =
      .quoted (String.ofList ('"' :: inner ++ ['"'])) :: tokens cs := by
  have hq : isInnerChar '"' = false := by decide
  have htake : (inner ++ '"' :: cs).takeWhile isInnerChar = inner := by
    rw [List.takeWhile_append_of_pos h, List.takeWhile_cons_of_neg (by simp [hq]),
      List.append_nil]
  have hdrop : (inner ++ '"' :: cs).dropWhile isInnerChar = '"' :: cs := by
    rw [List.dropWhile_append_of_pos h, List.dropWhile_cons_of_neg (by simp [hq])]
  simp [tokens_quote, htake, hdrop]

/-- A string without a second quote takes the rest of the text. -/
theorem tokens_unclosed {inner : List Char} (h : ∀ c ∈ inner, isInnerChar c = true) :
    tokens ('"' :: inner) = [.quoted (String.ofList ('"' :: inner))] := by
  have htake : inner.takeWhile isInnerChar = inner := List.takeWhile_eq_self_iff.mpr h
  have hdrop : inner.dropWhile isInnerChar = [] := List.dropWhile_eq_nil_iff.mpr h
  simp [tokens_quote, htake, hdrop]

/-- Induction on a text, by what its next token is. -/
@[elab_as_elim]
theorem tokens_induction {motive : List Char → Prop} (cs : List Char) (nil : motive [])
    (blank : ∀ c cs, isBlank c = true → motive cs → motive (c :: cs))
    (field : ∀ s cs, IsFieldText s → (∀ c ∈ cs.head?, isFieldChar c = false) → motive cs →
      motive (s.toList ++ cs))
    (closed : ∀ inner cs, (∀ c ∈ inner, isInnerChar c = true) → motive cs →
      motive ('"' :: (inner ++ '"' :: cs)))
    (unclosed : ∀ inner, (∀ c ∈ inner, isInnerChar c = true) → motive ('"' :: inner)) :
    motive cs := by
  induction cs using tokens.induct with
  | case1 => exact nil
  | case2 c cs hc ih => exact blank c cs hc ih
  | case3 cs rest _ ih =>
    have hinner : ∀ c ∈ cs.takeWhile isInnerChar, isInnerChar c = true :=
      fun c hm => List.mem_takeWhile_imp hm
    rw [← List.takeWhile_append_dropWhile (p := isInnerChar) (l := cs)]
    cases hrest : cs.dropWhile isInnerChar with
    | nil => simpa using unclosed _ hinner
    | cons q cs' =>
      have hq : q = '"' := by
        have := List.head?_dropWhile_not isInnerChar cs
        rw [hrest] at this
        simpa [isInnerChar] using this
      subst hq
      simp only [rest, hrest] at ih
      exact closed _ cs' hinner ih
  | case4 c cs hb hq ih =>
    have hrun : IsFieldText (String.ofList (c :: cs.takeWhile isFieldChar)) := by
      refine ⟨by simp, ?_⟩
      rw [String.toList_ofList, List.forall_mem_cons]
      exact ⟨by simp [isFieldChar, hb, hq], fun d hd => List.mem_takeWhile_imp hd⟩
    have hstop : ∀ d ∈ (cs.dropWhile isFieldChar).head?, isFieldChar d = false := by
      intro d hd
      have := List.head?_dropWhile_not isFieldChar cs
      rw [Option.mem_def.mp hd] at this
      simpa using this
    have h := field _ _ hrun hstop ih
    rwa [String.toList_ofList, List.cons_append, List.takeWhile_append_dropWhile] at h

/-- The tokens of any text can stand on one line. -/
theorem wellFormed_tokens (cs : List Char) : WellFormed (tokens cs) := by
  induction cs using tokens_induction with
  | nil => simpa using WellFormed.nil
  | blank c cs hc ih =>
    rw [tokens_blank hc]
    exact ih
  | field s cs hs hcs ih =>
    rw [tokens_field_append hs hcs]
    exact .cons (.field hs) ih
  | closed inner cs h ih =>
    rw [tokens_closed_append h]
    exact .cons (.quoted inner h) ih
  | unclosed inner h =>
    rw [tokens_unclosed h]
    exact .last (.quoted inner h)

/-! ## Tokens on a line -/

/-- A closed token is read as it stands, unless it is a field that goes on. -/
theorem tokens_append_of_closed {t : Token} (h : t.Closed) {cs : List Char}
    (hcs : t.field?.isSome → ∀ c ∈ cs.head?, isFieldChar c = false) :
    tokens (t.text.toList ++ cs) = t :: tokens cs := by
  cases h with
  | field h => exact tokens_field_append h (hcs rfl)
  | quoted inner h => simpa [Token.text] using tokens_closed_append h cs

/-- An open string takes the rest of the text. -/
theorem tokens_of_open {t : Token} (h : t.Open) : tokens t.text.toList = [t] := by
  obtain ⟨inner, h⟩ := h
  simpa [Token.text] using tokens_unclosed h

/-- Well-formed tokens, with a space between any two, are the tokens of their line. -/
theorem tokens_intercalate {ts : List Token} (h : WellFormed ts) :
    tokens (" ".intercalate (ts.map Token.text)).toList = ts := by
  induction h with
  | nil => simp
  | last h => simpa using tokens_of_open h
  | @cons t ts h _ ih =>
    cases ts with
    | nil =>
      have hend : tokens (t.text.toList ++ []) = [t] := by
        rw [tokens_append_of_closed h (by simp), tokens_nil]
      simpa using hend
    | cons t' ts =>
      have hspace : " ".toList = [' '] := rfl
      rw [List.map_cons, String.intercalate_cons_of_ne_nil (by simp), String.toList_append,
        String.toList_append, hspace, List.append_assoc, List.singleton_append,
        tokens_append_of_closed h (by simp [isFieldChar]), tokens_blank isBlank_space, ih]

end LogicAsm.Text
