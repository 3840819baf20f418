import Mathlib.Data.List.Infix

/-!
# Words in a text

A text of words with gaps around them, over any alphabet. Splitting at the gaps
gives the words back, however wide the gaps are, and a pattern without spaces
occurs in the text exactly if it occurs in one of the words.
-/

namespace SpacedText

variable {α : Type*}

/-! ### Patterns that a separator cannot be part of -/

theorem infix_append_cons {p a b : List α} {c : α} (hc : c ∉ p) :
    p <:+: a ++ c :: b ↔ p <:+: a ∨ p <:+: b := by
  constructor
  · rintro ⟨s, t, heq⟩
    rw [List.append_assoc] at heq
    rcases List.append_eq_append_iff.mp heq with ⟨a', rfl, hrest⟩ | ⟨s', rfl, hrest⟩
    · -- the pattern starts before the separator, so it ends there as well
      rcases List.append_eq_append_iff.mp hrest with ⟨a'', rfl, -⟩ | ⟨p', rfl, hp⟩
      · exact .inl ⟨s, a'', by rw [List.append_assoc]⟩
      · cases p' with
        | nil => exact .inl ⟨s, [], by simp⟩
        | cons d p' =>
          obtain rfl : c = d := (List.cons.inj hp).1
          simp at hc
    · cases s' with
      | nil =>
        cases p with
        | nil => exact .inl (List.nil_infix)
        | cons d p =>
          obtain rfl : c = d := (List.cons.inj hrest).1
          simp at hc
      | cons d s' =>
        have hb : b = s' ++ (p ++ t) := (List.cons.inj hrest).2
        exact .inr ⟨s', t, by rw [hb, List.append_assoc]⟩
  · rintro (h | h)
    · exact h.trans (List.prefix_append _ _).isInfix
    · exact h.trans ((List.suffix_cons c b).trans (List.suffix_append a _)).isInfix

theorem infix_cons {p s : List α} {c : α} (hp : p ≠ []) (hc : c ∉ p) :
    p <:+: c :: s ↔ p <:+: s := by
  have h := infix_append_cons (a := []) (b := s) hc
  rwa [List.nil_append, List.infix_nil, or_iff_right hp] at h

/-- A pattern without the separator occurs in one of the parts. -/
theorem infix_intercalate {p : List α} {c : α} (hp : p ≠ []) (hc : c ∉ p) (parts : List (List α)) :
    p <:+: [c].intercalate parts ↔ ∃ part ∈ parts, p <:+: part := by
  induction parts with
  | nil => simp [hp]
  | cons part rest ih =>
    cases rest with
    | nil => simp
    | cons next rest =>
      rw [List.intercalate_cons_cons, List.append_assoc, List.singleton_append, infix_append_cons hc,
        ih]
      simp only [List.mem_cons, exists_eq_or_imp]

variable (space : α → Bool)

/-! ### Texts -/

/-- The words, each after its gap, and the last gap. -/
def spread : List (List α × List α) → List α → List α
  | [], trail => trail
  | w :: rest, trail => w.1 ++ (w.2 ++ spread rest trail)

/-- A text of words: gaps are spaces, words are not, and two words have a gap between them. -/
structure Spaced where
  words : List (List α × List α)
  trail : List α
  gaps : ∀ w ∈ words, ∀ c ∈ w.1, space c = true
  solid : ∀ w ∈ words, w.2 ≠ [] ∧ ∀ c ∈ w.2, space c = false
  apart : ∀ w ∈ words.tail, w.1 ≠ []
  blank : ∀ c ∈ trail, space c = true

variable {space}

def Spaced.text (s : Spaced space) : List α := spread s.words s.trail

def Spaced.content (s : Spaced space) : List (List α) := s.words.map Prod.snd

/-- The parts between runs of spaces. -/
def fields (space : α → Bool) (s : List α) : List (List α) :=
  (s.splitOnP space).filter fun part => !part.isEmpty

theorem fields_space_cons {c : α} (hc : space c = true) (s : List α) :
    fields space (c :: s) = fields space s := by
  simp [fields, List.splitOnP_cons_eq_if_modifyHead, hc]

theorem fields_gap {gap : List α} (h : ∀ c ∈ gap, space c = true) (s : List α) :
    fields space (gap ++ s) = fields space s := by
  induction gap with
  | nil => rfl
  | cons c gap ih =>
    rw [List.cons_append, fields_space_cons (h c List.mem_cons_self),
      ih fun d hd => h d (List.mem_cons_of_mem c hd)]

/-- A word ends at the first space. -/
theorem fields_word {word s : List α} (hne : word ≠ []) (hw : ∀ c ∈ word, space c = false)
    (hs : ∀ c ∈ s.head?, space c = true) : fields space (word ++ s) = word :: fields space s := by
  have hempty : word.isEmpty = false := by simpa using hne
  cases s with
  | nil =>
    rw [List.append_nil, fields, List.splitOnP_eq_singleton hw]
    simp [fields, hempty]
  | cons c s =>
    have hc : space c = true := hs c rfl
    rw [fields_space_cons hc, fields, List.splitOnP_append_cons_of_forall_mem hw c hc]
    simp [fields, hempty]

/-! ### What a text of words contains -/

section Spread

variable {words : List (List α × List α)} {trail : List α}

/-- Behind a word comes a space, if anything. -/
theorem spread_head (hgap : ∀ w ∈ words, ∀ c ∈ w.1, space c = true)
    (hapart : ∀ w ∈ words, w.1 ≠ []) (htrail : ∀ c ∈ trail, space c = true) :
    ∀ c ∈ (spread words trail).head?, space c = true := by
  cases words with
  | nil => exact fun c hc => htrail c (List.mem_of_mem_head? hc)
  | cons w rest =>
    intro c hc
    have hne := hapart w List.mem_cons_self
    rw [spread, List.head?_append_of_ne_nil _ hne] at hc
    exact hgap w List.mem_cons_self c (List.mem_of_mem_head? hc)

theorem fields_spread (hgap : ∀ w ∈ words, ∀ c ∈ w.1, space c = true)
    (hsolid : ∀ w ∈ words, w.2 ≠ [] ∧ ∀ c ∈ w.2, space c = false)
    (hapart : ∀ w ∈ words.tail, w.1 ≠ []) (htrail : ∀ c ∈ trail, space c = true) :
    fields space (spread words trail) = words.map Prod.snd := by
  induction words with
  | nil =>
    have h := fields_gap htrail ([] : List α)
    rw [List.append_nil] at h
    rw [spread, h]
    rfl
  | cons w rest ih =>
    rw [List.forall_mem_cons] at hgap hsolid
    have hrest := ih hgap.2 hsolid.2 fun v hv => hapart v (List.mem_of_mem_tail hv)
    rw [spread, fields_gap hgap.1, fields_word hsolid.1.1 hsolid.1.2
      (spread_head hgap.2 hapart htrail), hrest, List.map_cons]

theorem infix_gap {p gap : List α} (hp : p ≠ []) (hsp : ∀ c ∈ p, space c = false)
    (hgap : ∀ c ∈ gap, space c = true) (s : List α) : p <:+: gap ++ s ↔ p <:+: s := by
  induction gap with
  | nil => rfl
  | cons c gap ih =>
    rw [List.forall_mem_cons] at hgap
    have hc : c ∉ p := fun hmem => by
      have hno := hsp c hmem
      rw [hgap.1] at hno
      cases hno
    rw [List.cons_append, infix_cons hp hc, ih hgap.2]

theorem infix_word {p word s : List α} (hp : p ≠ []) (hsp : ∀ c ∈ p, space c = false)
    (hs : ∀ c ∈ s.head?, space c = true) : p <:+: word ++ s ↔ p <:+: word ∨ p <:+: s := by
  cases s with
  | nil => simp [hp]
  | cons c s =>
    have hc : c ∉ p := fun hmem => by
      have hno := hsp c hmem
      rw [hs c rfl] at hno
      cases hno
    rw [infix_append_cons hc, infix_cons hp hc]

theorem infix_spread {p : List α} (hp : p ≠ []) (hsp : ∀ c ∈ p, space c = false)
    (hgap : ∀ w ∈ words, ∀ c ∈ w.1, space c = true) (hapart : ∀ w ∈ words.tail, w.1 ≠ [])
    (htrail : ∀ c ∈ trail, space c = true) :
    p <:+: spread words trail ↔ ∃ w ∈ words, p <:+: w.2 := by
  induction words with
  | nil =>
    have h := infix_gap hp hsp htrail []
    rw [List.append_nil, List.infix_nil] at h
    simp [spread, h, hp]
  | cons w rest ih =>
    rw [List.forall_mem_cons] at hgap
    have hrest := ih hgap.2 fun v hv => hapart v (List.mem_of_mem_tail hv)
    rw [spread, infix_gap hp hsp hgap.1, infix_word hp hsp (spread_head hgap.2 hapart htrail), hrest]
    simp only [List.mem_cons, exists_eq_or_imp]

/-- A character that is no space stands in a word. -/
theorem mem_spread {c : α} (hc : space c = false) (hgap : ∀ w ∈ words, ∀ c ∈ w.1, space c = true)
    (htrail : ∀ c ∈ trail, space c = true) (h : c ∈ spread words trail) :
    ∃ w ∈ words, c ∈ w.2 := by
  induction words with
  | nil =>
    rw [htrail c h] at hc
    cases hc
  | cons w rest ih =>
    rw [List.forall_mem_cons] at hgap
    rw [spread, List.mem_append, List.mem_append] at h
    rcases h with h | h | h
    · rw [hgap.1 c h] at hc
      cases hc
    · exact ⟨w, List.mem_cons_self, h⟩
    · obtain ⟨v, hv, hcv⟩ := ih hgap.2 h
      exact ⟨v, List.mem_cons_of_mem w hv, hcv⟩

end Spread

theorem Spaced.fields_text (s : Spaced space) : fields space s.text = s.content :=
  fields_spread s.gaps s.solid s.apart s.blank

theorem Spaced.infix_text (s : Spaced space) {p : List α} (hp : p ≠ [])
    (hsp : ∀ c ∈ p, space c = false) : p <:+: s.text ↔ ∃ word ∈ s.content, p <:+: word := by
  rw [Spaced.text, infix_spread hp hsp s.gaps s.apart s.blank, Spaced.content]
  simp only [List.mem_map, exists_exists_and_eq_and]

theorem Spaced.mem_text (s : Spaced space) {c : α} (hc : space c = false) (h : c ∈ s.text) :
    ∃ word ∈ s.content, c ∈ word := by
  obtain ⟨w, hw, hmem⟩ := mem_spread hc s.gaps s.blank h
  exact ⟨w.2, List.mem_map_of_mem hw, hmem⟩

end SpacedText
