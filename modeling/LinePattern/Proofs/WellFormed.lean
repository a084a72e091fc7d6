import LinePattern.Pattern.Language
import LinePattern.Pattern.WellFormed
import LinePattern.Proofs.Grammar

/-!
# What compiling gives is well-formed

An anchored list of tokens is a list without anchors, with the start of the line put in front of it
or not and the end of the line put behind it or not (`withAnchors`). The tokens of a layout have
that form, and the tokens that its items write are well-formed and no anchors. So each pattern that
compiles is well-formed.

Main statements:

* `anchored_iff_exists_withAnchors`: the form of an anchored list.
* `wellFormed_of_compile`: what compiling gives is well-formed.
-/

namespace LinePattern

namespace Token

/-- What an item writes is well-formed: the grammar asks the same of the text as well-formedness of
the token. -/
theorem wellFormed_of_writes {w : List Char} {t : Token} (h : Writes w t) : t.WellFormed := by
  cases h with
  | atom => trivial
  | positive ne_nil head closer => exact ⟨ne_nil, closer, fun _ => head⟩
  | negative ne_nil closer => exact ⟨ne_nil, closer, fun h => by contradiction⟩
  | group ne_nil option => exact ⟨ne_nil, option⟩

/-- No item writes an anchor. Anchors are written by signs, which are no items. -/
theorem not_isAnchor_of_writes {w : List Char} {t : Token} (h : Writes w t) : ¬ t.IsAnchor := by
  rintro (rfl | rfl) <;> nomatch h

end Token

namespace Pattern

/-- The tokens `ts` between the anchors that are asked for. -/
def withAnchors (start stop : Bool) (ts : Pattern) : Pattern :=
  (if start then [.lineStart] else []) ++ ts ++ (if stop then [.lineEnd] else [])

/-! ### Anchored lists -/

/-- The start of the line is met in front or not at all. -/
theorem exists_eq_lineStart_append {p : Pattern} (h : .lineStart ∉ p.tail) :
    ∃ (start : Bool) (q : Pattern), p = (if start then [.lineStart] else []) ++ q ∧
      .lineStart ∉ q := by
  by_cases h_head : p.head? = some .lineStart
  · obtain ⟨q, rfl⟩ := List.head?_eq_some_iff.mp h_head
    exact ⟨true, q, rfl, h⟩
  · -- The first token is no start of the line, and none of the others is.
    refine ⟨false, p, rfl, fun h_mem => ?_⟩
    cases p with
    | nil => exact absurd h_mem List.not_mem_nil
    | cons t q =>
      rcases List.mem_cons.mp h_mem with rfl | h_mem
      · exact h_head rfl
      · exact h h_mem

/-- The end of the line is met at the end or not at all. -/
theorem exists_eq_append_lineEnd {p : Pattern} (h : .lineEnd ∉ p.dropLast) :
    ∃ (stop : Bool) (q : Pattern), p = q ++ (if stop then [.lineEnd] else []) ∧ .lineEnd ∉ q := by
  obtain rfl | ⟨q, t, rfl⟩ := List.eq_nil_or_concat' p
  · exact ⟨false, [], rfl, List.not_mem_nil⟩
  · rw [List.dropLast_concat] at h
    by_cases h_last : t = .lineEnd
    · subst h_last
      exact ⟨true, q, rfl, h⟩
    · -- The last token is no end of the line, and none of the others is.
      refine ⟨false, q ++ [t], (List.append_nil _).symm, fun h_mem => ?_⟩
      rcases List.mem_append.mp h_mem with h_mem | h_mem
      · exact h h_mem
      · exact h_last (List.mem_singleton.mp h_mem).symm

/-- Between anchors there may be anything but anchors. -/
theorem anchored_withAnchors (start stop : Bool) {ts : Pattern} (h : ∀ t ∈ ts, ¬ t.IsAnchor) :
    (withAnchors start stop ts).Anchored := by
  have h_start : Token.lineStart ∉ ts := fun h_mem => h _ h_mem (.inl rfl)
  have h_end : Token.lineEnd ∉ ts := fun h_mem => h _ h_mem (.inr rfl)
  refine ⟨fun h_mem => ?_, fun h_mem => ?_⟩
  · -- Behind the first token there are tokens of `ts`, and the end of the line.
    have h_mem' : Token.lineStart ∈ ts ++ if stop then [Token.lineEnd] else [] := by
      cases start with
      | true => exact h_mem
      | false => exact List.mem_of_mem_tail h_mem
    rcases List.mem_append.mp h_mem' with h_mem' | h_mem'
    · exact h_start h_mem'
    · cases stop <;> simp at h_mem'
  · -- In front of the last token there are the start of the line, and tokens of `ts`.
    have h_mem' : Token.lineEnd ∈ (if start then [Token.lineStart] else []) ++ ts := by
      cases stop with
      | true =>
        rw [withAnchors, if_pos rfl, List.dropLast_concat] at h_mem
        exact h_mem
      | false =>
        rw [withAnchors, if_neg Bool.false_ne_true, List.append_nil] at h_mem
        exact List.mem_of_mem_dropLast h_mem
    rcases List.mem_append.mp h_mem' with h_mem' | h_mem'
    · cases start <;> simp at h_mem'
    · exact h_end h_mem'

/-- **The form of an anchored list.** -/
theorem anchored_iff_exists_withAnchors {p : Pattern} :
    p.Anchored ↔ ∃ start stop ts, p = withAnchors start stop ts ∧ ∀ t ∈ ts, ¬ t.IsAnchor := by
  refine ⟨fun h => ?_, ?_⟩
  · -- First the start of the line is split off, and then the end of the line off what is left.
    obtain ⟨start, q, rfl, h_start⟩ := exists_eq_lineStart_append h.lineStart_notMem_tail
    have h_front : Token.lineEnd ∉ q.dropLast := by
      intro h_mem
      refine h.lineEnd_notMem_dropLast ?_
      have h_ne : q ≠ [] := by
        rintro rfl
        exact List.not_mem_nil h_mem
      rw [List.dropLast_append_of_ne_nil h_ne]
      exact List.mem_append_right _ h_mem
    obtain ⟨stop, ts, rfl, h_end⟩ := exists_eq_append_lineEnd h_front
    refine ⟨start, stop, ts, (List.append_assoc ..).symm, fun t ht => ?_⟩
    rintro (rfl | rfl)
    · exact h_start (List.mem_append_left _ ht)
    · exact h_end ht
  · rintro ⟨start, stop, ts, rfl, h⟩
    exact anchored_withAnchors start stop h

/-! ### Compiled patterns -/

/-- The tokens of a layout are those of its items between the anchors of its signs. -/
theorem Layout.tokens_eq_withAnchors (l : Layout) :
    l.tokens = withAnchors l.start l.stop (l.items.map Prod.snd) := rfl

/-- What a layout writes is well-formed. -/
theorem Layout.wellFormed_tokens {l : Layout} (h : l.Valid) (h_ne : l.text ≠ []) :
    l.tokens.WellFormed where
  ne_nil h_nil := by
    -- Without anchors and items there is no text.
    obtain ⟨start, items, stop⟩ := l
    cases start <;> cases items <;> cases stop <;> first | exact h_ne rfl | contradiction
  anchored := by
    rw [tokens_eq_withAnchors]
    refine anchored_withAnchors _ _ fun t ht => ?_
    obtain ⟨i, hi, rfl⟩ := List.mem_map.mp ht
    exact Token.not_isAnchor_of_writes (h.writes i hi)
  wellFormed t ht := by
    rw [tokens_eq_withAnchors, withAnchors, List.mem_append, List.mem_append] at ht
    -- The token is an anchor in front, or of an item, or an anchor at the end.
    obtain (ht | ht) | ht := ht
    · obtain rfl : t = .lineStart := by cases hs : l.start <;> simp_all
      trivial
    · obtain ⟨i, hi, rfl⟩ := List.mem_map.mp ht
      exact Token.wellFormed_of_writes (h.writes i hi)
    · obtain rfl : t = .lineEnd := by cases hs : l.stop <;> simp_all
      trivial

/-- **Compiled patterns are well-formed.** They are what a layout writes. -/
theorem wellFormed_of_compile {s : List Char} {p : Pattern} (h : compile s = .ok p) :
    p.WellFormed := by
  obtain ⟨h_ne, l, h_valid, rfl, rfl⟩ := exists_layout_of_compile h
  exact Layout.wellFormed_tokens h_valid h_ne

end Pattern

end LinePattern
