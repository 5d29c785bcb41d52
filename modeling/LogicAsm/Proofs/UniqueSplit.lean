import Mathlib.Data.List.Chain
import LogicAsm.Proofs.LineGrammar
import LogicAsm.Proofs.Trimming

/-!
# Texts split into tokens

A text can be split into tokens that stand in it one behind the other, with nothing but blanks
around them (`Split`). If fields are not cut in two, and only a string that reaches the end of the
text lacks its second quote, there is one way to do this: the tokens of a split are those of its
text (`Split.tokens_text`), and every text has a split (`exists_split`). The tokens of a text are
determined by this, and they can be set apart by other blanks (`tokens_only_split`).
-/

namespace LogicAsm.Text

/-- A token in a text, with the blanks behind it. -/
structure Placed where
  token : Token
  gap : List Char
  blank : IsBlankRun gap

namespace Placed

/-- The characters that the token takes in the text, up to the next one. -/
def chars (p : Placed) : List Char := p.token.text.toList ++ p.gap

/-- The token does not touch the next one, if both are fields. -/
def Apart (p q : Placed) : Prop :=
  p.token.field?.isSome → q.token.field?.isSome → p.gap ≠ []

end Placed

/-- A text that is split into tokens. -/
structure Split where
  /-- The blanks before the first token. -/
  lead : List Char
  placed : List Placed
  blank_lead : IsBlankRun lead
  /-- Each token is a field or a closed string, but for the last, which may be an open string. -/
  wellFormed : WellFormed (placed.map Placed.token)
  /-- An open string reaches the end of the text. -/
  gap_of_open : ∀ p ∈ placed, p.token.Open → p.gap = []
  apart : placed.IsChain Placed.Apart

namespace Split

/-- The tokens, in order. -/
protected def tokens (split : Split) : List Token := split.placed.map Placed.token

/-- The text that is split. -/
def text (split : Split) : List Char := split.lead ++ split.placed.flatMap Placed.chars

end Split

/-! ## Tokens before other tokens -/

section Tokens

variable {t : Token} {ts : List Token} {cs gap : List Char} {placed : List Placed}

/-- The second quote of a string is what an open one lacks. -/
theorem Token.Open.not_closed (h : t.Open) : ¬t.Closed := by
  intro hclosed
  obtain ⟨inner, hinner⟩ := h
  generalize ht : Token.quoted (String.ofList ('"' :: inner)) = t at hclosed
  cases hclosed with
  | field => cases ht
  | quoted inner' =>
    simp only [Token.quoted.injEq, String.ofList_inj, List.cons_append, List.cons.injEq] at ht
    have hquote : isInnerChar '"' = true := hinner '"' (by simp [ht.2])
    cases hquote

theorem wellFormed_cons :
    WellFormed (t :: ts) ↔ t.Open ∧ ts = [] ∨ t.Closed ∧ WellFormed ts := by
  constructor
  · intro h
    cases h with
    | last h => exact .inl ⟨h, rfl⟩
    | cons h hts => exact .inr ⟨h, hts⟩
  · rintro (⟨h, rfl⟩ | ⟨h, hts⟩)
    · exact .last h
    · exact .cons h hts

/-- A field before a token ends there, just if the token is a string. -/
theorem WellFormed.isBreak_append_iff (h : WellFormed (t :: ts)) :
    IsBreak (t.text.toList ++ cs) ↔ ¬t.field?.isSome := by
  obtain _ | ⟨⟨inner, _⟩⟩ | ⟨⟨hs⟩ | ⟨inner, _⟩, _⟩ := h
  · simpa [Token.text, Token.field?] using IsBreak.quote
  · simpa [Token.text, Token.field?] using hs.not_isBreak_append cs
  · simpa [Token.text, Token.field?] using IsBreak.quote

/-- A field before a gap ends there, just if the gap keeps it from another field. -/
theorem IsBlankRun.isBreak_append_iff (hgap : IsBlankRun gap)
    (hwf : WellFormed (placed.map Placed.token)) :
    IsBreak (gap ++ placed.flatMap Placed.chars) ↔
      ∀ q ∈ placed.head?, q.token.field?.isSome → gap ≠ [] := by
  by_cases hnil : gap = []
  · subst hnil
    cases placed with
    | nil => simpa using IsBreak.nil
    | cons q placed =>
      rw [List.nil_append, List.flatMap_cons, Placed.chars, List.append_assoc,
        hwf.isBreak_append_iff]
      simp
  · exact iff_of_true (IsGap.isBreak_append ⟨hnil, hgap⟩ _) fun _ _ _ => hnil

end Tokens

/-! ## The tokens of a split -/

theorem tokens_flatMap_chars {placed : List Placed} (hwf : WellFormed (placed.map Placed.token))
    (hopen : ∀ p ∈ placed, p.token.Open → p.gap = []) (hapart : placed.IsChain Placed.Apart) :
    tokens (placed.flatMap Placed.chars) = placed.map Placed.token := by
  induction placed with
  | nil => exact tokens_nil
  | cons p placed ih =>
    rw [List.forall_mem_cons] at hopen
    rw [List.isChain_cons] at hapart
    rw [List.flatMap_cons, Placed.chars, List.append_assoc, List.map_cons]
    obtain ⟨ht, hnil⟩ | ⟨ht, hwf⟩ := wellFormed_cons.mp hwf
    · obtain rfl := List.map_eq_nil_iff.mp hnil
      simpa [hopen.1 ht] using tokens_of_open ht
    · have hbreak (hp : p.token.field?.isSome) :
          IsBreak (p.gap ++ placed.flatMap Placed.chars) :=
        (p.blank.isBreak_append_iff hwf).mpr fun q hq => hapart.1 q hq hp
      rw [tokens_append_of_closed ht fun hp => isBreak_iff.mp (hbreak hp), p.blank.tokens_append,
        ih hwf hopen.2 hapart.2]

/-- The tokens of a split are those of its text. -/
theorem Split.tokens_text (split : Split) : tokens split.text = split.tokens := by
  rw [text, split.blank_lead.tokens_append, Split.tokens]
  exact tokens_flatMap_chars split.wellFormed split.gap_of_open split.apart

/-! ## A split for each text -/

theorem isBlankRun_nil : IsBlankRun [] := fun _ hc => nomatch hc

namespace Split

/-- A blank before the text. -/
def pad (c : Char) (hc : isBlank c = true) (split : Split) : Split where
  __ := split
  lead := c :: split.lead
  blank_lead := List.forall_mem_cons.mpr ⟨hc, split.blank_lead⟩

/-- A closed token before the text, in which a field must not go on. -/
def push (t : Token) (ht : t.Closed) (split : Split)
    (hbreak : t.field?.isSome → IsBreak split.text) : Split where
  lead := []
  placed := ⟨t, split.lead, split.blank_lead⟩ :: split.placed
  blank_lead := isBlankRun_nil
  wellFormed := .cons ht split.wellFormed
  gap_of_open :=
    List.forall_mem_cons.mpr ⟨fun hopen => (hopen.not_closed ht).elim, split.gap_of_open⟩
  apart := split.apart.cons fun q hq hfield =>
    (split.blank_lead.isBreak_append_iff split.wellFormed).mp (hbreak hfield) q hq

/-- An open string alone. -/
def single (t : Token) (ht : t.Open) : Split where
  lead := []
  placed := [⟨t, [], isBlankRun_nil⟩]
  blank_lead := isBlankRun_nil
  wellFormed := .last ht
  gap_of_open := by simp
  apart := .singleton _

theorem text_push {t : Token} (ht : t.Closed) (split : Split)
    (hbreak : t.field?.isSome → IsBreak split.text) :
    (push t ht split hbreak).text = t.text.toList ++ split.text := by
  simp [push, text, Placed.chars]

end Split

/-- Every text can be split, token by token. -/
theorem exists_split (cs : List Char) : ∃ split : Split, split.text = cs := by
  induction cs using tokens_induction with
  | nil => exact ⟨⟨[], [], isBlankRun_nil, .nil, by simp, .nil⟩, rfl⟩
  | blank c cs hc ih =>
    obtain ⟨split, rfl⟩ := ih
    exact ⟨split.pad c hc, rfl⟩
  | field s cs hs hcs ih =>
    obtain ⟨split, rfl⟩ := ih
    exact ⟨.push _ (.field hs) split fun _ => isBreak_iff.mpr hcs, Split.text_push ..⟩
  | closed inner cs hinner ih =>
    obtain ⟨split, rfl⟩ := ih
    refine ⟨.push _ (.quoted inner hinner) split nofun, ?_⟩
    rw [Split.text_push, Token.text, String.toList_ofList]
    simp
  | unclosed inner hinner =>
    refine ⟨.single _ (.quoted inner hinner), ?_⟩
    simp [Split.single, Split.text, Placed.chars, Token.text]

/-! ## Trimmed tokens -/

/-- Only an open string, which is the last token, can be trimmed. -/
theorem WellFormed.map_trimEnd {ts : List Token} (h : WellFormed ts) :
    ts.map Token.trimEnd = ts ∨
      ∃ init t, t.Open ∧ ts = init ++ [t] ∧ ts.map Token.trimEnd = init ++ [t.trimEnd] := by
  induction h with
  | nil => exact .inl rfl
  | @last t h => exact .inr ⟨[], t, h, rfl, rfl⟩
  | @cons t ts h _ ih =>
    rw [List.map_cons, h.trimEnd_eq]
    obtain hts | ⟨init, t', ht', rfl, hmap⟩ := ih
    · exact .inl (by rw [hts])
    · exact .inr ⟨t :: init, t', ht', rfl, by rw [hmap]; rfl⟩

/-- The tokens of a text are the one sequence of tokens into which it can be split: they stand in it
in order, with runs of blanks, which may be empty, before, between and after them; fields have no
blanks and no quotes and do not touch each other; strings have two quotes, or one if they are last
and reach the end of the text. So the same tokens are read if they are put on a line with a space
between any two. If blanks are removed at the ends of the text, an open string may lose blanks at
its end, and no other token is changed. -/
theorem tokens_only_split (cs : List Char) :
    (∀ ts, (∃ split : Split, split.text = cs ∧ split.tokens = ts) ↔ ts = tokens cs) ∧
    tokens (" ".intercalate ((tokens cs).map Token.text)).toList = tokens cs ∧
    (tokens (trim cs) = tokens cs ∨
      ∃ init t, t.Open ∧ tokens cs = init ++ [t] ∧ tokens (trim cs) = init ++ [t.trimEnd]) := by
  refine ⟨fun ts => ⟨?_, ?_⟩, tokens_intercalate (wellFormed_tokens cs), ?_⟩
  · rintro ⟨split, rfl, rfl⟩
    exact split.tokens_text.symm
  · rintro rfl
    obtain ⟨split, rfl⟩ := exists_split cs
    exact ⟨split, rfl, split.tokens_text.symm⟩
  · rw [tokens_trim]
    exact (wellFormed_tokens cs).map_trimEnd

/-- Strings beside fields, and an open string over blanks and a line break. -/
example :
    tokens " a\"b c\"d \"\" \"e\n ".toList =
      [.field "a", .quoted "\"b c\"", .field "d", .quoted "\"\"", .quoted "\"e\n "] := by
  decide +kernel

end LogicAsm.Text
