import LinePattern.Proofs.Occurrence
import LinePattern.Proofs.RoundTrip

/-!
# Reading from the other end

A line can be read from its end to its front, and so can a pattern: its tokens are taken in reverse
order, the anchors change places, and the options of groups are read backwards. All other tokens
take single chars, or runs of chars that are tested one by one, and stay what they are.

A search does not go both ways. It moves its start along the line and lets chars be left over at the
end, it meets the start of the line before all else and the end of the line after all else, and what
it tries first it tries from the left. What it finds shows none of this: a text of the pattern and
what is in front of it and behind it can be read from either end (`OccursIn.mirror`).

Main statements:

* `language_mirror`: the texts of the mirror image of a pattern are its texts, read backwards.
* `search_mirror_reverse`: searching the reversed line for the mirror image.
-/

namespace LinePattern

/-! ### Mirror images -/

/-- The token, read from the other end. -/
def Token.mirror : Token → Token
  | lineStart => lineEnd
  | lineEnd => lineStart
  | group options => group (options.map List.reverse)
  | t => t

/-- The pattern, read from the other end. -/
def Pattern.mirror (p : Pattern) : Pattern := (p.map Token.mirror).reverse

namespace Token

variable {t u : Token}

@[simp] theorem mirror_mirror (t : Token) : t.mirror.mirror = t := by
  cases t with
  | group options => simp [mirror, List.map_map]
  | _ => rfl

/-- A token is the mirror image of another if the other is the mirror image of the one. -/
theorem mirror_eq_iff : t.mirror = u ↔ t = u.mirror := by
  refine ⟨?_, ?_⟩
  · rintro rfl
    exact t.mirror_mirror.symm
  · rintro rfl
    exact u.mirror_mirror

/-- **The texts of a token, read backwards.** -/
theorem language_mirror (t : Token) : t.mirror.language = t.language.reverse := by
  ext w
  rw [Language.mem_reverse]
  cases t with
  | lineStart => simp [mirror, language]
  | lineEnd => simp [mirror, language]
  | group options => simp [mirror, mem_language_group, List.reverse_eq_iff]
  | charClass polarity members =>
    -- A text of one char is the same from both ends.
    cases polarity with
    | positive => simp [mirror, mem_language_positive, List.reverse_eq_iff]
    | negative => simp [mirror, mem_language_negative, List.reverse_eq_iff]
  | atom a q =>
    cases q with
    | one => simp [mirror, mem_language_one, List.reverse_eq_iff]
    | optional => simp [mirror, mem_language_optional, List.reverse_eq_iff]
    | oneOrMore => simp [mirror, mem_language_oneOrMore]

/-- What makes an option well-formed does not depend on the end from which it is read. -/
theorem WellFormed.mirror (h : t.WellFormed) : t.mirror.WellFormed := by
  cases t with
  | group options =>
    obtain ⟨h_ne, h_option⟩ := h
    refine ⟨mt List.map_eq_nil_iff.mp h_ne, ?_⟩
    intro o ho
    obtain ⟨o', ho', rfl⟩ := List.mem_map.mp ho
    simpa using h_option o' ho'
  | lineStart => trivial
  | lineEnd => trivial
  | atom a q => trivial
  | charClass polarity members => exact h

end Token

namespace Pattern

variable {p : Pattern} {line : List Char}

@[simp] theorem mirror_mirror (p : Pattern) : p.mirror.mirror = p := by
  simp [mirror, List.map_reverse, Function.comp_def]

/-- The first token comes last. -/
theorem mirror_cons (t : Token) (ts : Pattern) : mirror (t :: ts) = mirror ts ++ [t.mirror] := by
  rw [mirror, List.map_cons, List.reverse_cons, mirror]

/-- **The texts of a pattern, read backwards.** -/
theorem language_mirror (p : Pattern) : language p.mirror = (language p).reverse := by
  induction p with
  | nil => exact Language.reverse_one.symm
  | cons t ts ih =>
    calc language (mirror (t :: ts))
        = language (mirror ts) * language [t.mirror] := by rw [mirror_cons, language_append]
      _ = (language ts).reverse * t.language.reverse := by
          rw [ih, language_cons, language_nil, mul_one, Token.language_mirror]
      _ = (language (t :: ts)).reverse := by rw [← Language.reverse_mul, language_cons]

/-! ### Anchors -/

/-- The tokens of the mirror image are the mirror images of the tokens. -/
theorem mem_mirror_iff {t : Token} : t ∈ p.mirror ↔ t.mirror ∈ p := by
  simp [mirror, Token.mirror_eq_iff]

/-- What is in front of the mirror image is behind the pattern. -/
theorem head?_mirror_iff {t : Token} : p.mirror.head? = some t ↔ p.getLast? = some t.mirror := by
  simp [mirror, Token.mirror_eq_iff]

/-- What is behind the mirror image is in front of the pattern. -/
theorem getLast?_mirror_iff {t : Token} : p.mirror.getLast? = some t ↔ p.head? = some t.mirror := by
  simp [mirror, Token.mirror_eq_iff]

/-- Anchors at the ends stay there, for both the ends and the anchors change places. -/
theorem Anchored.mirror (h : p.Anchored) : p.mirror.Anchored := by
  refine ⟨?_, ?_⟩
  · -- The tokens behind the first are the mirror images of those in front of the last.
    have h_tail : p.mirror.tail = Pattern.mirror p.dropLast := by
      rw [Pattern.mirror, List.tail_reverse, Pattern.mirror, List.map_dropLast]
    rw [h_tail, mem_mirror_iff]
    exact h.lineEnd_notMem_dropLast
  · -- From the other end it is the other way round.
    have h_dropLast : p.mirror.dropLast = Pattern.mirror p.tail := by
      rw [Pattern.mirror, List.dropLast_reverse, Pattern.mirror, List.map_tail]
    rw [h_dropLast, mem_mirror_iff]
    exact h.lineStart_notMem_tail

/-- The mirror image of a well-formed pattern is well-formed. -/
theorem WellFormed.mirror (h : p.WellFormed) : p.mirror.WellFormed := by
  refine ⟨?_, h.anchored.mirror, ?_⟩
  · simpa [Pattern.mirror] using h.ne_nil
  · intro t ht
    have h_t := h.wellFormed t.mirror (mem_mirror_iff.mp ht)
    simpa using h_t.mirror

/-! ### Searching -/

/-- What is found, read from the other end. -/
theorem OccursIn.mirror (h : p.OccursIn line) : p.mirror.OccursIn line.reverse := by
  obtain ⟨before, found, after, rfl, h_found, h_start, h_stop⟩ := h
  -- The line is cut at the same places, and what was in front of the match is behind it.
  refine ⟨after.reverse, found.reverse, before.reverse, by simp, ?_, ?_, ?_⟩
  · rw [language_mirror, Language.reverse_mem_reverse]
    exact h_found
  · intro h_head
    rw [h_stop (head?_mirror_iff.mp h_head), List.reverse_nil]
  · intro h_last
    rw [h_start (getLast?_mirror_iff.mp h_last), List.reverse_nil]

/-- **Searching from the other end.** An anchored pattern is found in a line exactly if its mirror
image is found in the line read backwards. -/
theorem Anchored.search_mirror (h : p.Anchored) (line : List Char) :
    p.mirror.search line.reverse = p.search line := by
  rw [Bool.eq_iff_iff, search_iff_occursIn h.mirror, search_iff_occursIn h]
  refine ⟨?_, OccursIn.mirror⟩
  intro h_occurs
  -- The mirror image of the mirror image is the pattern.
  simpa using h_occurs.mirror

/-- **Symmetry.** A search for a pattern whose anchors stand at its ends gives the same answer from
either end of the line. All patterns that compile are such patterns, and so are their mirror
images. -/
theorem search_mirror_reverse :
    (∀ p : Pattern, p.Anchored → ∀ line, p.mirror.search line.reverse = p.search line) ∧
      ∀ (s : List Char) (p : Pattern), compile s = .ok p →
        compile p.mirror.render = .ok p.mirror ∧
          ∀ line, p.mirror.search line.reverse = p.search line := by
  refine ⟨fun p h line => h.search_mirror line, ?_⟩
  intro s p h
  have h_wellFormed : p.WellFormed := wellFormed_of_compile h
  exact ⟨compile_render_of_wellFormed h_wellFormed.mirror, h_wellFormed.anchored.search_mirror⟩

/-- What is left over behind the match is in front of it from the other end. Read from there, the
run comes last and has to reach the end of the line. The second list is written by no text, for one
of its options is empty. -/
theorem search_mirror_of_two_choices :
    compile "^a+(ab|b)".toList =
        .ok [.lineStart, .atom (.literal 'a') .oneOrMore, .group [['a', 'b'], ['b']]] ∧
      mirror [.lineStart, .atom (.literal 'a') .oneOrMore, .group [['a', 'b'], ['b']]] =
        [.group [['b', 'a'], ['b']], .atom (.literal 'a') .oneOrMore, .lineEnd] ∧
      search [.group [['b', 'a'], ['b']], .atom (.literal 'a') .oneOrMore, .lineEnd]
        ['x', 'b', 'a', 'a'] = true ∧
      Anchored [.group [['a', 'b'], []], .lineEnd] ∧
      search [.lineStart, .group [['b', 'a'], []]] ['b', 'a', 'x'] = true := by
  have h_compile : compile "^a+(ab|b)".toList =
      .ok [.lineStart, .atom (.literal 'a') .oneOrMore, .group [['a', 'b'], ['b']]] := by
    decide +kernel
  have h_anchored : Anchored [.group [['a', 'b'], []], .lineEnd] := by decide
  obtain ⟨-, h_search⟩ := search_mirror_reverse.2 _ _ h_compile
  refine ⟨h_compile, by decide, ?_, h_anchored, ?_⟩
  · exact (h_search ['a', 'a', 'b', 'x']).trans (by decide)
  · exact (search_mirror_reverse.1 _ h_anchored ['x', 'a', 'b']).trans (by decide)

end Pattern

end LinePattern
