import LinePattern.Proofs.Occurrence
import LinePattern.Proofs.RoundTrip

/-!
# Patterns that are a text

The pattern of a text has a literal for each char, and the text is the only one in its language
(`language_ofText`). So searching for it is looking for the text: anywhere in the line, or at the
ends of the line that the pattern is anchored to.

A text becomes such a pattern in two ways. Escaped it is what is printed for the pattern, and so it
compiles to the pattern, whatever its chars. As it stands it does so if none of its chars means
something else where it stands.

Main statement:

* `search_text_iff`: containment, prefix, suffix and equality as patterns.
-/

namespace LinePattern.Pattern

variable {start stop : Bool} {s line : List Char}

/-! ### The pattern of a text -/

/-- A literal is no anchor, whatever its char. -/
theorem not_isAnchor_of_mem_ofText : ∀ t ∈ ofText s, ¬ t.IsAnchor := by
  intro t ht
  obtain ⟨c, -, rfl⟩ := List.mem_map.mp ht
  rintro (h | h) <;> contradiction

/-- **The language of a text** has the text and no other: each literal takes its char, one behind
the other. -/
theorem language_ofText (s : List Char) : language (ofText s) = {s} := by
  induction s with
  | nil => rfl
  | cons c s ih =>
    -- The one text of the first literal, in front of the one text of the others.
    have h_literal : (Token.atom (.literal c) .one).language = {[c]} := by
      ext w
      rw [Token.mem_language_one]
      simp only [Atom.chars, Set.mem_singleton_iff, exists_eq_left]
      exact Iff.rfl
    calc language (ofText (c :: s))
        = (Token.atom (.literal c) .one).language * language (ofText s) := language_cons _ _
      _ = {[c]} * {s} := by rw [h_literal, ih]
      _ = {c :: s} := Set.image2_singleton

/-- The text is found where it occurs, at the ends of the line that it is anchored to. -/
theorem search_withAnchors_ofText_iff :
    search (withAnchors start stop (ofText s)) line = true ↔
      ∃ before after, line = before ++ s ++ after ∧ (start = true → before = []) ∧
        (stop = true → after = []) := by
  have h_anchor : ∀ t ∈ ofText s, ¬ t.IsAnchor := not_isAnchor_of_mem_ofText
  have h_anchored := anchored_withAnchors start stop h_anchor
  -- The part of the line that is found is a text of the pattern, and there is only one.
  rw [search_iff_occursIn h_anchored, OccursIn, language_withAnchors, language_ofText,
    head?_withAnchors_iff h_anchor, getLast?_withAnchors_iff h_anchor]
  refine ⟨?_, ?_⟩
  · rintro ⟨before, _, after, rfl, rfl, h_before, h_after⟩
    exact ⟨before, after, rfl, h_before, h_after⟩
  · rintro ⟨before, after, rfl, h_before, h_after⟩
    exact ⟨before, s, after, rfl, rfl, h_before, h_after⟩

/-! ### Texts that compile to it -/

/-- **Escaped texts compile.** An escaped text is what is printed for the pattern of the text, so
with signs around it compiles to that pattern between anchors. There has to be a text or a sign, for
the empty text does not compile. -/
theorem compile_escape (start stop : Bool) (h : withAnchors start stop (ofText s) ≠ []) :
    compile ((if start then ['^'] else []) ++ escape s ++ (if stop then ['$'] else [])) =
      .ok (withAnchors start stop (ofText s)) := by
  have h_render : render (withAnchors start stop (ofText s)) =
      (if start then ['^'] else []) ++ escape s ++ (if stop then ['$'] else []) := by
    rw [← render_ofText, withAnchors, render, List.flatMap_append, List.flatMap_append]
    cases start <;> cases stop <;> rfl
  have h_wellFormed : (withAnchors start stop (ofText s)).WellFormed := by
    refine ⟨h, anchored_withAnchors start stop not_isAnchor_of_mem_ofText, fun t ht => ?_⟩
    -- Neither the anchors nor the literals have anything to keep to.
    rw [withAnchors, List.mem_append, List.mem_append] at ht
    obtain (ht | ht) | ht := ht
    · cases start <;> simp_all [Token.WellFormed]
    · obtain ⟨c, -, rfl⟩ := List.mem_map.mp ht
      trivial
    · cases stop <;> simp_all [Token.WellFormed]
  rw [← h_render, compile_render_of_wellFormed h_wellFormed]

/-- The layout of a text in which each char is an item. -/
def Layout.ofText (s : List Char) : Layout where
  start := false
  items := s.map fun c => ([c], .atom (.literal c) .one)
  stop := false

/-- The chars that are laid out make up the text. -/
theorem Layout.text_ofText (s : List Char) : (ofText s).text = s := by
  change [] ++ (s.map _).flatMap Prod.fst ++ [] = s
  rw [List.nil_append, List.append_nil, List.flatMap_map]
  exact List.flatMap_singleton' s

/-- Each char writes its literal. -/
theorem Layout.tokens_ofText (s : List Char) : (ofText s).tokens = Pattern.ofText s := by
  change [] ++ (s.map _).map Prod.snd ++ [] = _
  rw [List.nil_append, List.append_nil, List.map_map]
  rfl

/-- **Plain texts compile.** Without reserved chars each char is an item that writes its literal. A
caret in front and a dollar sign at the end would be anchor signs; anywhere else they are chars like
the others. -/
theorem compile_plain (h_ne : s ≠ []) (h_plain : ∀ c ∈ s, c ∉ reserved)
    (h_head : s.head? ≠ some '^') (h_last : s.getLast? ≠ some '$') :
    compile s = .ok (ofText s) := by
  have h_valid : (Layout.ofText s).Valid := by
    refine ⟨?_, ?_, ?_⟩
    · intro i hi
      obtain ⟨c, hc, rfl⟩ := List.mem_map.mp hi
      exact .atom (.plain c (h_plain c hc)) .one
    · -- No caret is in front that would have to be split off.
      intro h
      rw [Layout.text_ofText] at h
      exact absurd h h_head
    · -- The last item is the last char, which is no dollar sign.
      intro h
      change ((s.map _).getLast?.map Prod.fst) = _ at h
      rw [List.getLast?_map, Option.map_map, Option.map_eq_some_iff] at h
      obtain ⟨c, hc, h_text⟩ := h
      obtain rfl : c = '$' := (List.cons.inj h_text).1
      exact absurd hc h_last
  have h_compile := Layout.compile_text h_valid (by rwa [Layout.text_ofText])
  rwa [Layout.text_ofText, Layout.tokens_ofText] at h_compile

/-! ### Containment, prefix, suffix and equality -/

/-- Without anchors the text is found in the lines that contain it. -/
theorem search_ofText_iff_isInfix :
    search (withAnchors false false (ofText s)) line = true ↔ s <:+: line := by
  rw [search_withAnchors_ofText_iff]
  refine ⟨?_, ?_⟩
  · rintro ⟨before, after, rfl, -, -⟩
    exact ⟨before, after, rfl⟩
  · rintro ⟨before, after, rfl⟩
    exact ⟨before, after, rfl, by simp, by simp⟩

/-- Anchored to the start of the line it is found in the lines that start with it. -/
theorem search_ofText_iff_isPrefix :
    search (withAnchors true false (ofText s)) line = true ↔ s <+: line := by
  rw [search_withAnchors_ofText_iff]
  refine ⟨?_, ?_⟩
  · rintro ⟨before, after, rfl, h_before, -⟩
    rw [h_before rfl, List.nil_append]
    exact List.prefix_append s after
  · rintro ⟨after, rfl⟩
    exact ⟨[], after, rfl, fun _ => rfl, by simp⟩

/-- Anchored to the end of the line it is found in the lines that end with it. -/
theorem search_ofText_iff_isSuffix :
    search (withAnchors false true (ofText s)) line = true ↔ s <:+ line := by
  rw [search_withAnchors_ofText_iff]
  refine ⟨?_, ?_⟩
  · rintro ⟨before, after, rfl, -, h_after⟩
    rw [h_after rfl, List.append_nil]
    exact List.suffix_append before s
  · rintro ⟨before, rfl⟩
    exact ⟨before, [], (List.append_nil _).symm, by simp, fun _ => rfl⟩

/-- Anchored to both it is found in the line that it is. -/
theorem search_ofText_iff_eq :
    search (withAnchors true true (ofText s)) line = true ↔ line = s := by
  rw [search_withAnchors_ofText_iff]
  refine ⟨?_, ?_⟩
  · rintro ⟨before, after, rfl, h_before, h_after⟩
    rw [h_before rfl, h_after rfl, List.nil_append, List.append_nil]
  · rintro rfl
    exact ⟨[], [], (List.append_nil _).symm, fun _ => rfl, fun _ => rfl⟩

/-- **Patterns that are a text.** Escaped, a text is found in the lines that contain it. Behind a
caret, in front of a dollar sign and between the two it is found in the lines that start with it,
that end with it, and that it is. The text itself is as good as the escaped one if no char in it is
reserved and neither its first char nor its last is an anchor sign. -/
theorem search_text_iff (s : List Char) :
    (s ≠ [] → ∃ p, compile (escape s) = .ok p ∧ ∀ line, p.search line = true ↔ s <:+: line) ∧
      (∃ p, compile ('^' :: escape s) = .ok p ∧ ∀ line, p.search line = true ↔ s <+: line) ∧
      (∃ p, compile (escape s ++ ['$']) = .ok p ∧ ∀ line, p.search line = true ↔ s <:+ line) ∧
      (∃ p, compile ('^' :: (escape s ++ ['$'])) = .ok p ∧
        ∀ line, p.search line = true ↔ line = s) ∧
      (s ≠ [] → (∀ c ∈ s, c ∉ reserved) → s.head? ≠ some '^' → s.getLast? ≠ some '$' →
        ∃ p, compile s = .ok p ∧ ∀ line, p.search line = true ↔ s <:+: line) := by
  refine ⟨?_, ?_, ?_, ?_, ?_⟩
  · -- Without a sign around it the text must have chars itself.
    intro h_ne
    have h_tokens : withAnchors false false (ofText s) ≠ [] := by
      simpa [withAnchors, ofText] using h_ne
    have h_compile := compile_escape false false h_tokens
    rw [if_neg Bool.false_ne_true, if_neg Bool.false_ne_true, List.nil_append,
      List.append_nil] at h_compile
    exact ⟨_, h_compile, fun line => search_ofText_iff_isInfix⟩
  · -- In the next three a sign is there, so the text may be empty.
    have h_tokens : withAnchors true false (ofText s) ≠ [] := by simp [withAnchors]
    have h_compile := compile_escape true false h_tokens
    rw [if_pos rfl, if_neg Bool.false_ne_true, List.append_nil] at h_compile
    exact ⟨_, h_compile, fun line => search_ofText_iff_isPrefix⟩
  · have h_tokens : withAnchors false true (ofText s) ≠ [] := by simp [withAnchors]
    have h_compile := compile_escape false true h_tokens
    rw [if_neg Bool.false_ne_true, if_pos rfl, List.nil_append] at h_compile
    exact ⟨_, h_compile, fun line => search_ofText_iff_isSuffix⟩
  · have h_tokens : withAnchors true true (ofText s) ≠ [] := by simp [withAnchors]
    have h_compile := compile_escape true true h_tokens
    rw [if_pos rfl, if_pos rfl, List.append_assoc] at h_compile
    exact ⟨_, h_compile, fun line => search_ofText_iff_eq⟩
  · -- The unescaped text compiles to the same tokens, so it is found in the same lines.
    intro h_ne h_plain h_head h_last
    refine ⟨_, compile_plain h_ne h_plain h_head h_last, fun line => ?_⟩
    rw [← search_ofText_iff_isInfix, withAnchors, if_neg Bool.false_ne_true,
      if_neg Bool.false_ne_true, List.nil_append, List.append_nil]

/-- One text has signs only, but for a `d` that an escape would make a class. The other has signs
where they mean nothing. -/
theorem search_text_of_signs :
    ['^', '+', '\\', 'd', '$'] ≠ [] ∧
      escape ['^', '+', '\\', 'd', '$'] = "\\^\\+\\\\d\\$".toList ∧
      (∃ p, compile "\\^\\+\\\\d\\$".toList = .ok p ∧
        ∀ line, p.search line = true ↔ ['^', '+', '\\', 'd', '$'] <:+: line) ∧
      (∃ p, compile "^\\^\\+\\\\d\\$$".toList = .ok p ∧
        ∀ line, p.search line = true ↔ line = ['^', '+', '\\', 'd', '$']) ∧
      ∃ p, compile ['$', '^', ']'] = .ok p ∧
        ∀ line, p.search line = true ↔ ['$', '^', ']'] <:+: line := by
  have h_ne : ['^', '+', '\\', 'd', '$'] ≠ [] := List.cons_ne_nil _ _
  obtain ⟨h_contains, -, -, h_eq, -⟩ := search_text_iff ['^', '+', '\\', 'd', '$']
  obtain ⟨-, -, -, -, h_plain⟩ := search_text_iff ['$', '^', ']']
  refine ⟨h_ne, by decide, h_contains h_ne, h_eq, ?_⟩
  exact h_plain (by decide) (by simp [reserved]) (by decide) (by decide)

end LinePattern.Pattern
