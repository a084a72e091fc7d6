import LinePattern.Proofs.WellFormed

/-!
# What a search finds

`Pattern.search` tries the tokens from left to right and takes back what it tried. What it finds in
the end does not show this: it is a part of the line that is put together from texts of the tokens,
one of each, at the ends of the line that the pattern is anchored to.

The induction is on the tokens, with the line kept general, and does not look into a token:
`Token.thenMatches_iff` says what each takes. Anchors are no part of it. A list of tokens is
searched for as tokens without anchors between two anchors (`withAnchors`), and the anchors say what
may stand in front of the part of the line that is found, and behind it.

Main statements:

* `matchesHere_append_iff`: tokens without anchors take the texts of their language.
* `search_iff_occursIn`: an anchored pattern is found in a line exactly if it occurs there.
* `search_iff_exists_spans`: the same for compiled patterns, by positions in the line and a text for
  each token.
-/

namespace LinePattern.Pattern

/-! ### The language of a list -/

/-- No tokens take no chars. -/
theorem language_nil : language [] = 1 := rfl

/-- The first token comes first in the text as well. -/
theorem language_cons (t : Token) (ts : Pattern) :
    language (t :: ts) = t.language * language ts := by
  rw [language, List.map_cons, List.prod_cons, language]

/-- Lists of tokens one behind the other take texts one behind the other. -/
theorem language_append (ts us : Pattern) : language (ts ++ us) = language ts * language us := by
  rw [language, List.map_append, List.prod_append, language, language]

/-- The texts of a list are made of a text of each token. -/
theorem mem_language_iff {ts : Pattern} {w : List Char} :
    w ∈ language ts ↔ ∃ ws, w = ws.flatten ∧ List.Forall₂ (fun w t => w ∈ t.language) ws ts := by
  -- One token at a time, with its text cut off the front of the text.
  induction ts generalizing w with
  | nil =>
    rw [language_nil, Language.mem_one]
    refine ⟨fun h => ⟨[], h, .nil⟩, ?_⟩
    rintro ⟨ws, rfl, h⟩
    rw [List.forall₂_nil_right_iff.mp h, List.flatten_nil]
  | cons t ts ih =>
    rw [language_cons, Language.mem_mul]
    refine ⟨?_, ?_⟩
    · rintro ⟨v, hv, u, hu, rfl⟩
      obtain ⟨ws, rfl, h⟩ := ih.mp hu
      exact ⟨v :: ws, List.flatten_cons.symm, .cons hv h⟩
    · rintro ⟨ws, rfl, h⟩
      obtain ⟨v, ws, hv, h_tail, rfl⟩ := List.forall₂_cons_right_iff.mp h
      exact ⟨v, hv, ws.flatten, ih.mpr ⟨ws, rfl, h_tail⟩, List.flatten_cons.symm⟩

/-! ### Tokens without anchors -/

/-- **Tokens take the texts of their language.** What they hand on is what is left of the line
behind such a text. -/
theorem matchesHere_append_iff {ts us : Pattern} (h : ∀ t ∈ ts, ¬ t.IsAnchor) {line : List Char} :
    matchesHere (ts ++ us) line = true ↔
      ∃ w ∈ language ts, ∃ rest, line = w ++ rest ∧ matchesHere us rest = true := by
  induction ts generalizing line with
  | nil =>
    rw [List.nil_append]
    refine ⟨fun h_us => ⟨[], Language.nil_mem_one, line, rfl, h_us⟩, ?_⟩
    rintro ⟨w, hw, rest, rfl, h_us⟩
    rw [language_nil, Language.mem_one] at hw
    rwa [hw, List.nil_append]
  | cons t ts ih =>
    obtain ⟨h_t, h_ts⟩ := List.forall_mem_cons.mp h
    rw [List.cons_append, matchesHere_cons, Token.thenMatches_iff h_t, language_cons]
    refine ⟨?_, ?_⟩
    · -- What the first token takes and what the others take behind it make up one text.
      rintro ⟨v, hv, rest, rfl, h_rest⟩
      obtain ⟨u, hu, rest', rfl, h_us⟩ := (ih h_ts).mp h_rest
      have h_mem : v ++ u ∈ t.language * language ts := Language.append_mem_mul hv hu
      exact ⟨v ++ u, h_mem, rest', (List.append_assoc ..).symm, h_us⟩
    · -- A text of all of them is cut behind the part of the first.
      rintro ⟨w, hw, rest, rfl, h_us⟩
      obtain ⟨v, hv, u, hu, rfl⟩ := Language.mem_mul.mp hw
      have h_rest : matchesHere (ts ++ us) (u ++ rest) = true :=
        (ih h_ts).mpr ⟨u, hu, rest, rfl, h_us⟩
      exact ⟨v, hv, u ++ rest, List.append_assoc .., h_rest⟩

/-- The end of the line lets nothing stand behind it, and the end of the tokens anything. -/
theorem matchesHere_lineEnd_iff {stop : Bool} {line : List Char} :
    matchesHere (if stop then [.lineEnd] else []) line = true ↔ (stop = true → line = []) := by
  cases stop with
  | false => exact iff_of_true rfl fun h => absurd h Bool.false_ne_true
  | true =>
    rw [if_pos rfl, matchesHere_cons, Token.thenMatches, List.isEmpty_iff]
    exact ⟨fun h _ => h, fun h => h rfl⟩

/-! ### The anchors -/

section WithAnchors

variable {start stop : Bool} {ts : Pattern} (h : ∀ t ∈ ts, ¬ t.IsAnchor)

include h

/-- No start of the line is in front of tokens without anchors, whether or not the end of the line is
behind them. This holds without tokens too, where the end of the line is in front. -/
theorem head?_append_ne_lineStart (stop : Bool) :
    (ts ++ if stop then [Token.lineEnd] else []).head? ≠ some .lineStart := by
  cases ts with
  | nil =>
    -- The end of the line is in front, or nothing is.
    cases stop <;> simp
  | cons t ts =>
    intro h_head
    exact h t List.mem_cons_self (.inl (Option.some.inj h_head))

/-- The start of the line is in front where it was put there. -/
theorem head?_withAnchors_iff :
    (withAnchors start stop ts).head? = some .lineStart ↔ start = true := by
  cases start with
  | true => exact iff_of_true rfl rfl
  | false => exact iff_of_false (head?_append_ne_lineStart h stop) Bool.false_ne_true

/-- The end of the line is behind the others where it was put there. -/
theorem getLast?_withAnchors_iff :
    (withAnchors start stop ts).getLast? = some .lineEnd ↔ stop = true := by
  cases stop with
  | true => exact iff_of_true List.getLast?_concat rfl
  | false =>
    refine iff_of_false (fun h_last => ?_) Bool.false_ne_true
    -- The last token is the start of the line, or one of `ts`.
    have h_mem := List.mem_of_getLast? h_last
    rw [withAnchors, if_neg Bool.false_ne_true, List.append_nil, List.mem_append] at h_mem
    rcases h_mem with h_mem | h_mem
    · cases start <;> simp at h_mem
    · exact h _ h_mem (.inr rfl)

/-- Without the anchors the tokens between them are left. -/
theorem filter_withAnchors : (withAnchors start stop ts).filter (fun t => ¬ t.IsAnchor) = ts := by
  have h_ts : ts.filter (fun t => ¬ t.IsAnchor) = ts :=
    List.filter_eq_self.mpr fun t ht => decide_eq_true (h t ht)
  rw [withAnchors, List.filter_append, List.filter_append, h_ts]
  cases start <;> cases stop <;> simp [Token.IsAnchor]

omit h in
/-- Anchors take no chars, so they change nothing about the texts. -/
theorem language_withAnchors : language (withAnchors start stop ts) = language ts := by
  have h_start : language (if start then [.lineStart] else []) = 1 := by
    cases start <;> simp [language, Token.language]
  have h_stop : language (if stop then [.lineEnd] else []) = 1 := by
    cases stop <;> simp [language, Token.language]
  rw [withAnchors, language_append, language_append, h_start, h_stop, one_mul, mul_one]

/-- What is behind the start of the line is tried at the front of the line or, without the start of
the line, at every place. -/
theorem search_withAnchors_iff {line : List Char} :
    search (withAnchors start stop ts) line = true ↔
      ∃ before rest, line = before ++ rest ∧ (start = true → before = []) ∧
        matchesHere (ts ++ if stop then [.lineEnd] else []) rest = true := by
  cases start with
  | true =>
    change matchesHere (ts ++ if stop then [.lineEnd] else []) line = true ↔ _
    refine ⟨fun h_here => ⟨[], line, rfl, fun _ => rfl, h_here⟩, ?_⟩
    -- Nothing may stand in front, so the place is the front of the line.
    rintro ⟨before, rest, rfl, h_before, h_here⟩
    rwa [h_before rfl, List.nil_append]
  | false =>
    -- The first token is no start of the line, be it one of `ts` or the end of the line.
    have h_search : search (withAnchors false stop ts) line =
        anySuffix (matchesHere (ts ++ if stop then [.lineEnd] else [])) line :=
      search_eq_anySuffix (head?_append_ne_lineStart h stop) line
    rw [h_search, anySuffix_iff]
    refine ⟨?_, ?_⟩
    · rintro ⟨before, rest, h_line, h_here⟩
      exact ⟨before, rest, h_line, fun h => absurd h Bool.false_ne_true, h_here⟩
    · rintro ⟨before, rest, h_line, -, h_here⟩
      exact ⟨before, rest, h_line, h_here⟩

end WithAnchors

/-- **A search finds what occurs.** -/
theorem search_iff_occursIn {p : Pattern} (hp : p.Anchored) {line : List Char} :
    p.search line = true ↔ p.OccursIn line := by
  obtain ⟨start, stop, ts, rfl, h⟩ := anchored_iff_exists_withAnchors.mp hp
  -- On both sides the anchors become conditions on what is in front and behind.
  rw [search_withAnchors_iff h, OccursIn, language_withAnchors, head?_withAnchors_iff h,
    getLast?_withAnchors_iff h]
  refine ⟨?_, ?_⟩
  · rintro ⟨before, rest, rfl, h_before, h_here⟩
    obtain ⟨found, h_found, after, rfl, h_after⟩ := (matchesHere_append_iff h).mp h_here
    exact ⟨before, found, after, (List.append_assoc ..).symm, h_found, h_before,
      matchesHere_lineEnd_iff.mp h_after⟩
  · rintro ⟨before, found, after, rfl, h_found, h_before, h_after⟩
    have h_here : matchesHere (ts ++ if stop then [.lineEnd] else []) (found ++ after) = true :=
      (matchesHere_append_iff h).mpr
        ⟨found, h_found, after, rfl, matchesHere_lineEnd_iff.mpr h_after⟩
    exact ⟨before, found ++ after, List.append_assoc .., h_before, h_here⟩

/-- A text of the pattern is a line in which the pattern is found, whatever its anchors. -/
theorem Anchored.search_of_mem_language {p : Pattern} (hp : p.Anchored) {w : List Char}
    (h : w ∈ p.language) : p.search w = true := by
  rw [search_iff_occursIn hp]
  exact ⟨[], w, [], (List.append_nil w).symm, h, fun _ => rfl, fun _ => rfl⟩

/-! ### Positions -/

/-- To cut a line in three is to choose two positions in it. -/
theorem exists_append_iff_exists_slice {line : List Char} {P : List Char → Prop}
    {atStart atEnd : Prop} :
    (∃ before found after, line = before ++ found ++ after ∧ P found ∧
        (atStart → before = []) ∧ (atEnd → after = [])) ↔
      ∃ i j, i ≤ j ∧ j ≤ line.length ∧ P ((line.take j).drop i) ∧
        (atStart → i = 0) ∧ (atEnd → j = line.length) := by
  refine ⟨?_, ?_⟩
  · intro h
    obtain ⟨before, found, after, rfl, h_found, h_start, h_stop⟩ := h
    refine ⟨before.length, (before ++ found).length, by simp, by simp, ?_, ?_, ?_⟩
    · rwa [List.take_left, List.drop_left]
    · intro h
      rw [h_start h, List.length_nil]
    · intro h
      rw [h_stop h, List.append_nil]
  · intro h
    obtain ⟨i, j, h_le, h_length, h_slice, h_start, h_stop⟩ := h
    refine ⟨line.take i, (line.take j).drop i, line.drop j, ?_, h_slice, ?_, ?_⟩
    · -- The line is cut at `j`, and what is in front of that at `i`.
      have h_take : line.take i = (line.take j).take i := by rw [List.take_take, min_eq_left h_le]
      rw [h_take, List.take_append_drop, List.take_append_drop]
    · intro h
      rw [h_start h, List.take_zero]
    · intro h
      rw [h_stop h, List.drop_length]

/-- The part of the line from position `i` to position `j` is made of a text of each token that is
no anchor. -/
def Spans (p : Pattern) (line : List Char) (i j : Nat) : Prop :=
  ∃ ws, (line.take j).drop i = ws.flatten ∧
    List.Forall₂ (fun w t => w ∈ t.language) ws (p.filter fun t => ¬ t.IsAnchor)

/-- For a pattern whose anchors are at its ends, a part of the line is spanned if it is a text of the
pattern. -/
theorem spans_iff_of_anchored {p : Pattern} (hp : p.Anchored) {line : List Char} {i j : Nat} :
    p.Spans line i j ↔ (line.take j).drop i ∈ p.language := by
  obtain ⟨start, stop, ts, rfl, h⟩ := anchored_iff_exists_withAnchors.mp hp
  rw [Spans, language_withAnchors, filter_withAnchors h, mem_language_iff]

/-- **Search by positions.** A compiled pattern is found in a line exactly if the line has positions
`i ≤ j` between which there is a text of each token that is no anchor, one behind the other. There
`i` is the start of the line for a pattern that starts with the start of the line, and `j` the end
of the line for one that ends with the end of the line. -/
theorem search_iff_exists_spans {s : List Char} {p : Pattern} (h : compile s = .ok p)
    (line : List Char) :
    p.search line = true ↔
      ∃ i j, i ≤ j ∧ j ≤ line.length ∧ p.Spans line i j ∧
        (p.head? = some .lineStart → i = 0) ∧
        (p.getLast? = some .lineEnd → j = line.length) := by
  have hp : p.Anchored := (wellFormed_of_compile h).anchored
  simp only [search_iff_occursIn hp, OccursIn, spans_iff_of_anchored hp]
  exact exists_append_iff_exists_slice

/-- Of the four tokens between the anchors three can take more than one text, and only one choice
reaches the end of the line. -/
theorem exists_spans_of_ambiguous_tokens :
    compile "^a?a+(a|ab)b?$".toList =
        .ok
          [.lineStart, .atom (.literal 'a') .optional, .atom (.literal 'a') .oneOrMore,
            .group [['a'], ['a', 'b']], .atom (.literal 'b') .optional, .lineEnd] ∧
      ∃ i j, i ≤ j ∧ j ≤ "aaabb".toList.length ∧
        Spans
          [.lineStart, .atom (.literal 'a') .optional, .atom (.literal 'a') .oneOrMore,
            .group [['a'], ['a', 'b']], .atom (.literal 'b') .optional, .lineEnd]
          "aaabb".toList i j := by
  have h_compile : compile "^a?a+(a|ab)b?$".toList =
      .ok
        [.lineStart, .atom (.literal 'a') .optional, .atom (.literal 'a') .oneOrMore,
          .group [['a'], ['a', 'b']], .atom (.literal 'b') .optional, .lineEnd] := by decide +kernel
  have h_search := search_iff_exists_spans h_compile "aaabb".toList
  obtain ⟨i, j, h_le, h_length, h_spans, -, -⟩ := h_search.mp (by decide)
  exact ⟨h_compile, i, j, h_le, h_length, h_spans⟩

end LinePattern.Pattern
