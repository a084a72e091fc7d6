import LinePattern.Proofs.Occurrence

/-!
# The four anchorings

Tokens without anchors can be looked for anywhere in a line, at its front, at its end, or as the
whole of it: there are four ways to put anchors around them (`withAnchors`). The last one is the
plainest, for it asks whether the line is a text of the tokens. The others ask the same of slices of
the line: of all slices, of those that start where the line starts, and of those that end where it
ends.

A text that compiles to such tokens is anchored by the signs that are written around it. Neither
sign can be taken for something else there. Behind the text an item would have to start, for no
escape, class or group is left open, so that a dollar sign is the anchor; and a caret in front is
the anchor whatever follows it.

Main statements:

* `compile_withAnchors`: anchor signs around a text are anchors around its tokens.
* `search_withAnchors_iff_full`: the four searches, by full matches of slices.
-/

namespace LinePattern.Pattern

variable {start stop : Bool} {ts p : Pattern} {s line : List Char}

/-! ### Compiling -/

/-- Where no token is an anchor there are none around the tokens. -/
theorem eq_false_of_not_isAnchor (h : ∀ t ∈ withAnchors start stop ts, ¬ t.IsAnchor) :
    start = false ∧ stop = false := by
  refine ⟨?_, ?_⟩
  · cases start with
    | false => rfl
    | true => exact absurd (.inl rfl) (h .lineStart List.mem_cons_self)
  · cases stop with
    | false => rfl
    | true => exact absurd (.inr rfl) (h .lineEnd List.mem_concat_self)

namespace Layout

variable {items : List (List Char × Token)}

/-- Without signs the text is that of the items. -/
theorem text_of_no_signs : text ⟨false, items, false⟩ = items.flatMap Prod.fst := List.append_nil _

/-- Without signs the tokens are those of the items. -/
theorem tokens_of_no_signs : tokens ⟨false, items, false⟩ = items.map Prod.snd := List.append_nil _

/-- Anchor signs can be put around items that are laid out without any. -/
theorem Valid.withSigns (h : Valid ⟨false, items, false⟩) (h_ne : items.flatMap Prod.fst ≠ [])
    (start stop : Bool) : Valid ⟨start, items, stop⟩ where
  writes := h.writes
  start_of_head h_head := by
    cases start with
    | true => rfl
    | false =>
      -- With no caret in front, the first char is that of the first item, and that is no caret.
      change (items.flatMap Prod.fst ++ if stop then ['$'] else []).head? = some '^' at h_head
      rw [List.head?_append_of_ne_nil _ h_ne, ← text_of_no_signs] at h_head
      exact absurd (h.start_of_head h_head) Bool.false_ne_true
  stop_of_getLast h_last := absurd (h.stop_of_getLast h_last) Bool.false_ne_true

end Layout

/-- **Anchor signs are anchors.** Put around a text that compiles to tokens without anchors, they
put the anchors around these tokens. -/
theorem compile_withAnchors (h : compile s = .ok p) (h_anchor : ∀ t ∈ p, ¬ t.IsAnchor)
    (start stop : Bool) :
    compile ((if start then ['^'] else []) ++ s ++ (if stop then ['$'] else [])) =
      .ok (withAnchors start stop p) := by
  obtain ⟨h_ne, ⟨start', items, stop'⟩, h_valid, rfl, rfl⟩ := exists_layout_of_compile h
  -- The text has no signs of its own, so the new ones are put around all that it has: its items.
  rw [Layout.tokens_eq_withAnchors] at h_anchor
  obtain ⟨rfl, rfl⟩ := eq_false_of_not_isAnchor h_anchor
  rw [Layout.text_of_no_signs] at h_ne ⊢
  rw [Layout.tokens_of_no_signs]
  apply Layout.compile_text (h_valid.withSigns h_ne start stop)
  exact List.append_ne_nil_of_left_ne_nil (List.append_ne_nil_of_right_ne_nil _ h_ne) _

/-! ### Searching -/

/-- Tokens between anchors are found where one of their texts stands, at the ends of the line that
they are anchored to. -/
theorem search_withAnchors_iff_exists (h : ∀ t ∈ ts, ¬ t.IsAnchor) :
    search (withAnchors start stop ts) line = true ↔
      ∃ before found after, line = before ++ found ++ after ∧ found ∈ language ts ∧
        (start = true → before = []) ∧ (stop = true → after = []) := by
  rw [search_iff_occursIn (anchored_withAnchors start stop h), OccursIn, language_withAnchors,
    head?_withAnchors_iff h, getLast?_withAnchors_iff h]

/-- **Full matches.** Between both anchors, tokens are found in their texts and in no other line. -/
theorem search_withAnchors_true_iff (h : ∀ t ∈ ts, ¬ t.IsAnchor) :
    search (withAnchors true true ts) line = true ↔ line ∈ language ts := by
  refine ⟨?_, ?_⟩
  · -- Nothing may stand in front of what is found or behind it, so it is the whole line.
    intro h_found
    obtain ⟨before, found, after, rfl, h_mem, h_before, h_after⟩ :=
      (search_withAnchors_iff_exists h).mp h_found
    rwa [h_before rfl, h_after rfl, List.nil_append, List.append_nil]
  · intro h_mem
    apply (anchored_withAnchors true true h).search_of_mem_language
    rwa [language_withAnchors]

/-- **The four anchorings.** Whatever anchors are around the tokens, they are found in a line
exactly if they match a slice of it in full. With the start of the line in front, that slice starts
where the line starts, and with the end of the line behind them it ends where the line ends. -/
theorem search_withAnchors_iff_full (h : ∀ t ∈ ts, ¬ t.IsAnchor) (start stop : Bool)
    (line : List Char) :
    search (withAnchors start stop ts) line = true ↔
      ∃ i j, i ≤ j ∧ j ≤ line.length ∧
        search (withAnchors true true ts) ((line.take j).drop i) = true ∧
        (start = true → i = 0) ∧ (stop = true → j = line.length) := by
  simp only [search_withAnchors_true_iff h]
  rw [search_withAnchors_iff_exists h]
  exact exists_append_iff_exists_slice

/-- **Anchor signs and full matches.** A text that compiles to tokens without anchors compiles
behind a caret, in front of a dollar sign and between the two as well, and only anchors are added
to the tokens. As it stands it is found in the lines that have a slice which it matches in full.
Behind the caret that slice is at the front of the line, and in front of the dollar sign it is at
the end. -/
theorem search_iff_full_of_compile (h : compile s = .ok p) (h_anchor : ∀ t ∈ p, ¬ t.IsAnchor) :
    compile ('^' :: s) = .ok (.lineStart :: p) ∧
      compile (s ++ ['$']) = .ok (p ++ [.lineEnd]) ∧
      compile ('^' :: (s ++ ['$'])) = .ok (.lineStart :: (p ++ [.lineEnd])) ∧
      ∀ line : List Char,
        (p.search line = true ↔ ∃ i j, i ≤ j ∧ j ≤ line.length ∧
          search (.lineStart :: (p ++ [.lineEnd])) ((line.take j).drop i) = true) ∧
        (search (.lineStart :: p) line = true ↔ ∃ j ≤ line.length,
          search (.lineStart :: (p ++ [.lineEnd])) (line.take j) = true) ∧
        (search (p ++ [.lineEnd]) line = true ↔ ∃ i ≤ line.length,
          search (.lineStart :: (p ++ [.lineEnd])) (line.drop i) = true) := by
  have h_compile := compile_withAnchors h h_anchor
  have h_search := search_withAnchors_iff_full h_anchor
  -- Where there is no anchor the condition on its position is void, and the slice reaches to the
  -- end of the line on the side of an anchor.
  refine ⟨?_, ?_, ?_, fun line => ⟨?_, ?_, ?_⟩⟩
  · simpa [withAnchors] using h_compile true false
  · simpa [withAnchors] using h_compile false true
  · simpa [withAnchors] using h_compile true true
  · simpa [withAnchors] using h_search false false line
  · simpa [withAnchors] using h_search true false line
  · simpa [withAnchors] using h_search false true line

/-- The text starts with a literal caret and ends with a literal backslash, and still both signs
around it are anchors. The run leaves the last `a` to the literal behind it. -/
theorem search_iff_full_of_signs :
    compile "\\^a+a\\\\".toList =
        .ok
          [.atom (.literal '^') .one, .atom (.literal 'a') .oneOrMore, .atom (.literal 'a') .one,
            .atom (.literal '\\') .one] ∧
      compile "^\\^a+a\\\\$".toList =
        .ok
          [.lineStart, .atom (.literal '^') .one, .atom (.literal 'a') .oneOrMore,
            .atom (.literal 'a') .one, .atom (.literal '\\') .one, .lineEnd] ∧
      ∃ i j, i ≤ j ∧ j ≤ "x^aaa\\y".toList.length ∧
        search
          [.lineStart, .atom (.literal '^') .one, .atom (.literal 'a') .oneOrMore,
            .atom (.literal 'a') .one, .atom (.literal '\\') .one, .lineEnd]
          (("x^aaa\\y".toList.take j).drop i) = true := by
  have h : compile "\\^a+a\\\\".toList =
      .ok
        [.atom (.literal '^') .one, .atom (.literal 'a') .oneOrMore, .atom (.literal 'a') .one,
          .atom (.literal '\\') .one] := by
    decide +kernel
  obtain ⟨-, -, h_both, h_search⟩ := search_iff_full_of_compile h (by decide)
  exact ⟨h, h_both, (h_search "x^aaa\\y".toList).1.mp (by decide +kernel)⟩

end LinePattern.Pattern
