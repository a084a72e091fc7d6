import LinePattern.Proofs.WellFormed

/-!
# Printing and compiling

The text that `Pattern.render` writes for a well-formed pattern is laid out token by token: what a
token is written as is an item that writes this token, and no such item is an anchor sign or starts
with a caret, since a literal of that kind is escaped. So what is printed is read back, whatever
stands side by side in it.

Main statements:

* `Token.writes_render`: a token is written as an item that writes it.
* `Layout.valid_ofTokens`: the text of a pattern is laid out by the texts of its tokens.
* `compile_render_eq`: printing is undone by compiling.
-/

namespace LinePattern

/-! ### The text of a token -/

/-- An atom is written as a text that writes it. A literal is escaped, unless escaping it would make
it a class of chars, and then it is not reserved. -/
theorem Atom.writes_render (a : Atom) : Writes a.render a := by
  cases a with
  | digit => exact .escape 'd'
  | word => exact .escape 'w'
  | wildcard => exact .wildcard
  | literal c =>
    rw [render]
    split
    · next h =>
      have h_plain : c ∉ reserved := by rcases h with rfl | rfl <;> decide
      exact .plain c h_plain
    · next h =>
      -- An escaped char that names no class stands for itself.
      have h_escape : ofEscape c = literal c := by
        unfold ofEscape
        split <;> simp_all
      exact h_escape ▸ .escape c

namespace Token

/-- **A token is written as an item that writes it.** -/
theorem writes_render {t : Token} (h : t.WellFormed) (h_anchor : ¬ t.IsAnchor) :
    Writes t.render t := by
  cases t with
  | lineStart => exact absurd (.inl rfl) h_anchor
  | lineEnd => exact absurd (.inr rfl) h_anchor
  | atom a q => exact .atom a.writes_render q
  | charClass polarity members =>
    obtain ⟨ne_nil, closer, head⟩ := h
    exact writes_charClass ne_nil head closer
  | group options =>
    obtain ⟨ne_nil, option⟩ := h
    exact .group ne_nil option

/-- What a token other than an anchor is written as starts with no anchor sign. -/
theorem exists_cons_render {t : Token} (h : ¬ t.IsAnchor) :
    ∃ c w, t.render = c :: w ∧ c ≠ '^' ∧ c ≠ '$' := by
  cases t with
  | lineStart => exact absurd (.inl rfl) h
  | lineEnd => exact absurd (.inr rfl) h
  | charClass polarity members => exact ⟨'[', _, rfl, by decide, by decide⟩
  | group options => exact ⟨'(', _, rfl, by decide, by decide⟩
  | atom a q =>
    cases a with
    | digit => exact ⟨'\\', _, rfl, by decide, by decide⟩
    | word => exact ⟨'\\', _, rfl, by decide, by decide⟩
    | wildcard => exact ⟨'.', _, rfl, by decide, by decide⟩
    | literal c =>
      rw [render, Atom.render]
      split
      · next hc => exact ⟨c, _, rfl, by rcases hc with rfl | rfl <;> decide⟩
      · exact ⟨'\\', _, rfl, by decide, by decide⟩

end Token

namespace Pattern

/-! ### The layout of a printed pattern -/

/-- The layout of the text that is printed for the tokens `ts` between the anchors that are asked
for. -/
def Layout.ofTokens (start stop : Bool) (ts : Pattern) : Layout where
  start := start
  items := ts.map fun t => (t.render, t)
  stop := stop

variable {start stop : Bool} {ts : Pattern}

/-- The tokens that are laid out are the ones that are printed. -/
theorem Layout.tokens_ofTokens : (ofTokens start stop ts).tokens = withAnchors start stop ts := by
  rw [tokens_eq_withAnchors, ofTokens, List.map_map]
  congr 1
  exact List.map_id ts

/-- The text that is laid out is the one that is printed. -/
theorem Layout.text_ofTokens :
    (ofTokens start stop ts).text = render (withAnchors start stop ts) := by
  rw [text, ofTokens, List.flatMap_map, withAnchors, render, List.flatMap_append,
    List.flatMap_append]
  cases start <;> cases stop <;> rfl

/-- **What is printed is laid out.** Each token has an item of its own, and neither end of the text
can be taken for an anchor sign that is not one. -/
theorem Layout.valid_ofTokens (h : ∀ t ∈ ts, t.WellFormed) (h_anchor : ∀ t ∈ ts, ¬ t.IsAnchor) :
    (ofTokens start stop ts).Valid where
  writes i hi := by
    obtain ⟨t, ht, rfl⟩ := List.mem_map.mp hi
    exact Token.writes_render (h t ht) (h_anchor t ht)
  start_of_head h_head := by
    cases start with
    | true => rfl
    | false =>
      -- The first char is one of the first token's text, or the dollar sign, and so no caret.
      rw [text_ofTokens] at h_head
      cases ts with
      | nil => cases stop <;> exact absurd h_head (by decide)
      | cons t ts =>
        have h_t := h_anchor t List.mem_cons_self
        obtain ⟨c, w, h_cons, h_caret, -⟩ := Token.exists_cons_render h_t
        rw [withAnchors, if_neg Bool.false_ne_true, List.nil_append, List.cons_append, render_cons,
          h_cons, List.cons_append, List.head?_cons, Option.some.injEq] at h_head
        exact absurd h_head h_caret
  stop_of_getLast h_last := by
    -- No token is written as a dollar sign on its own.
    obtain ⟨i, h_mem, h_text⟩ := Option.map_eq_some_iff.mp h_last
    obtain ⟨t, ht, rfl⟩ := List.mem_map.mp (List.mem_of_getLast? h_mem)
    obtain ⟨c, w, h_cons, -, h_dollar⟩ := Token.exists_cons_render (h_anchor t ht)
    rw [h_cons] at h_text
    exact absurd (List.cons.inj h_text).1 h_dollar

/-! ### Reading back what is printed -/

/-- Only the empty pattern is printed as no text. -/
theorem render_ne_nil {p : Pattern} (h : p ≠ []) : p.render ≠ [] := by
  obtain ⟨t, ts, rfl⟩ := List.exists_cons_of_ne_nil h
  -- The first token is enough. It is an anchor sign, or starts with a char that is none.
  have h_token : t.render ≠ [] := by
    by_cases h_anchor : t.IsAnchor
    · rcases h_anchor with rfl | rfl <;> exact List.cons_ne_nil _ _
    · obtain ⟨c, w, h_cons, -⟩ := Token.exists_cons_render h_anchor
      rw [h_cons]
      exact List.cons_ne_nil c w
  exact List.append_ne_nil_of_left_ne_nil h_token _

/-- What is printed for a well-formed pattern compiles to it. -/
theorem compile_render_of_wellFormed {p : Pattern} (h : p.WellFormed) :
    compile p.render = .ok p := by
  obtain ⟨start, stop, ts, rfl, h_anchor⟩ := anchored_iff_exists_withAnchors.mp h.anchored
  -- The text is laid out by the texts of the tokens, so compiling gives the tokens.
  have h_tokens : ∀ t ∈ ts, t.WellFormed := fun t ht =>
    h.wellFormed t (List.mem_append_left _ (List.mem_append_right _ ht))
  have h_valid : (Layout.ofTokens start stop ts).Valid := Layout.valid_ofTokens h_tokens h_anchor
  have h_ne := render_ne_nil h.ne_nil
  rw [← Layout.text_ofTokens] at h_ne ⊢
  rw [Layout.compile_text h_valid h_ne, Layout.tokens_ofTokens]

/-- **Printing is undone by compiling.** The text of a well-formed pattern compiles to the pattern.
What compiling gives is well-formed, so it is printed in a form that compiles to the same. -/
theorem compile_render_eq :
    (∀ p : Pattern, p.WellFormed → compile p.render = .ok p) ∧
      ∀ (s : List Char) (p : Pattern), compile s = .ok p → compile p.render = .ok p :=
  ⟨fun _ h => compile_render_of_wellFormed h,
    fun _ _ h => compile_render_of_wellFormed (wellFormed_of_compile h)⟩

/-- A caret and a dollar sign that are literals stand where the anchor signs stand, and a backslash
that is a literal stands in front of the anchor. -/
theorem compile_render_anchor_signs :
    WellFormed
        [.atom (.literal '^') .one, .atom (.literal '$') .oneOrMore,
          .charClass .negative ['^', '$'], .group [['\\'], ['$', '^']],
          .atom (.literal '\\') .one, .lineEnd] ∧
      compile "\\^\\$+[^^$](\\|$^)\\\\$".toList =
        .ok
          [.atom (.literal '^') .one, .atom (.literal '$') .oneOrMore,
            .charClass .negative ['^', '$'], .group [['\\'], ['$', '^']],
            .atom (.literal '\\') .one, .lineEnd] := by
  have h : WellFormed
      [.atom (.literal '^') .one, .atom (.literal '$') .oneOrMore, .charClass .negative ['^', '$'],
        .group [['\\'], ['$', '^']], .atom (.literal '\\') .one, .lineEnd] := by decide
  exact ⟨h, compile_render_eq.1 _ h⟩

end Pattern

end LinePattern
