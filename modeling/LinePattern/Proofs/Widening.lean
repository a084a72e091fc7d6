import LinePattern.Pattern.Language

/-!
# Wider patterns

A token can be made wider: an atom can be given more chars and, if it takes exactly one, any other
quantifier; a positive class can be given more members and a negative one fewer; and a group can be
given more options. A pattern that is made wider in any number of places at once loses no match,
though a search for it goes another way: it stops at other options, at longer or shorter runs, or at
another place of the line.

What a search tries first does not matter for whether it finds something. A wider token takes all
texts that the token takes (`Token.WidensTo.mem_language`), so behind each of them it still reaches
the remainder of the line that the tokens behind it went on with. That is the step; the run is an
induction on the two lists side by side.

Main statements:

* `Token.WidensTo.thenMatches`, `matchesHere_of_forall₂`: the step and the run.
* `search_of_forall₂`: wider patterns are found wherever narrower ones are, and the order and the
  repeats of members and options do not matter.
-/

namespace LinePattern

/-- Each digit is a word char. -/
theorem Atom.chars_digit_subset_word : Atom.digit.chars ⊆ Atom.word.chars := by
  intro c hc
  rw [mem_chars_iff] at hc ⊢
  exact accepts_word_of_accepts_digit hc

namespace Token

/-- The second token is the first one, made wider. Anchors cannot be. -/
inductive WidensTo : Token → Token → Prop where
  /-- The start of the line stays what it is. -/
  | lineStart : WidensTo lineStart lineStart
  /-- The end of the line stays what it is. -/
  | lineEnd : WidensTo lineEnd lineEnd
  /-- An atom is given more chars. Its quantifier stays, or is any in the place of exactly one. -/
  | atom {a b : Atom} {q r : Quantifier} (chars : a.chars ⊆ b.chars)
    (quantifier : r = q ∨ q = .one) : WidensTo (atom a q) (atom b r)
  /-- A positive class takes more members. -/
  | positive {members members' : List Char} (h : members ⊆ members') :
    WidensTo (charClass .positive members) (charClass .positive members')
  /-- A negative class refuses fewer members. -/
  | negative {members members' : List Char} (h : members' ⊆ members) :
    WidensTo (charClass .negative members) (charClass .negative members')
  /-- A group takes more options. -/
  | group {options options' : List (List Char)} (h : options ⊆ options') :
    WidensTo (group options) (group options')

/-- The two tokens are the same up to the order and the repeats of members or options. -/
inductive SameChoices : Token → Token → Prop where
  /-- The same token. -/
  | refl (t : Token) : SameChoices t t
  /-- Classes of one polarity with the same members. -/
  | charClass (polarity : Polarity) {members members' : List Char}
    (h : ∀ c, c ∈ members ↔ c ∈ members') :
    SameChoices (charClass polarity members) (charClass polarity members')
  /-- Groups with the same options. -/
  | group {options options' : List (List Char)} (h : ∀ o, o ∈ options ↔ o ∈ options') :
    SameChoices (group options) (group options')

variable {t u : Token} {k k' : List Char → Bool} {line : List Char}

/-! ### The texts of a wider token -/

namespace WidensTo

/-- Nothing has to be added. -/
theorem refl (t : Token) : t.WidensTo t := by
  cases t with
  | lineStart => exact .lineStart
  | lineEnd => exact .lineEnd
  | atom a q => exact .atom subset_rfl (.inl rfl)
  | charClass polarity members =>
    cases polarity with
    | positive => exact .positive (List.Subset.refl members)
    | negative => exact .negative (List.Subset.refl members)
  | group options => exact .group (List.Subset.refl options)

/-- **A wider token takes more texts.** -/
theorem mem_language {w : List Char} (h : t.WidensTo u) (hw : w ∈ t.language) :
    w ∈ u.language := by
  cases h with
  | lineStart => exact hw
  | lineEnd => exact hw
  | @atom a b q r chars quantifier =>
    -- A single char that `a` takes is a text of `b` under each quantifier.
    have h_one : ∀ c ∈ a.chars, [c] ∈ (Token.atom b r).language := by
      intro c hc
      cases r with
      | one => exact ⟨c, chars hc, rfl⟩
      | optional => exact .inr ⟨c, chars hc, rfl⟩
      | oneOrMore => exact ⟨List.cons_ne_nil c [], List.forall_mem_singleton.mpr (chars hc)⟩
    cases q with
    | one =>
      obtain ⟨c, hc, rfl⟩ := hw
      exact h_one c hc
    -- The other two quantifiers stay what they are, and only the chars become more.
    | optional =>
      obtain rfl : r = .optional := quantifier.resolve_right nofun
      obtain rfl | ⟨c, hc, rfl⟩ := hw
      · exact .inl rfl
      · exact h_one c hc
    | oneOrMore =>
      obtain rfl : r = .oneOrMore := quantifier.resolve_right nofun
      obtain ⟨h_ne, h_chars⟩ := hw
      exact ⟨h_ne, fun c hc => chars (h_chars c hc)⟩
  | positive h =>
    obtain ⟨c, hc, rfl⟩ := hw
    exact ⟨c, h hc, rfl⟩
  | negative h =>
    obtain ⟨c, hc, rfl⟩ := hw
    exact ⟨c, mt (@h c) hc, rfl⟩
  | group h => exact h hw

/-- A token that is made wider is no anchor and does not become one, or it stays what it is. -/
theorem eq_or_not_isAnchor (h : t.WidensTo u) : t = u ∨ ¬ t.IsAnchor ∧ ¬ u.IsAnchor := by
  cases h <;> simp [IsAnchor]

/-- The start of the line is not made wider, and nothing else is made the start of the line. -/
theorem eq_lineStart_iff (h : t.WidensTo u) : t = Token.lineStart ↔ u = Token.lineStart := by
  cases h <;> simp

end WidensTo

namespace SameChoices

/-- Which of the two tokens comes first does not matter. -/
theorem symm (h : t.SameChoices u) : u.SameChoices t := by
  cases h with
  | refl => exact .refl t
  | charClass polarity h => exact .charClass polarity fun c => (h c).symm
  | group h => exact .group fun o => (h o).symm

/-- Either token has all that the other has, so each is as wide as the other. -/
theorem widensTo (h : t.SameChoices u) : t.WidensTo u := by
  cases h with
  | refl => exact .refl t
  | charClass polarity h =>
    cases polarity with
    | positive => exact .positive fun c => (h c).mp
    | negative => exact .negative fun c => (h c).mpr
  | group h => exact .group fun o => (h o).mp

end SameChoices

/-! ### Searching -/

/-- What a token hands on, another one that takes the same texts hands on as well, and what is done
with it may be done more often. -/
theorem thenMatches_of_forall_mem (ht : ¬ t.IsAnchor) (hu : ¬ u.IsAnchor)
    (h_mem : ∀ w ∈ t.language, w ∈ u.language) (hk : ∀ rest, k rest = true → k' rest = true)
    (h : t.thenMatches k line = true) : u.thenMatches k' line = true := by
  obtain ⟨w, hw, rest, rfl, h_rest⟩ := (thenMatches_iff ht).mp h
  exact (thenMatches_iff hu).mpr ⟨w, h_mem w hw, rest, rfl, hk rest h_rest⟩

/-- What goes on from more remainders goes through more often: a token says no more of a remainder
than that it hands it on. -/
theorem thenMatches_mono (t : Token) (hk : ∀ rest, k rest = true → k' rest = true)
    (h : t.thenMatches k line = true) : t.thenMatches k' line = true := by
  by_cases ht : t.IsAnchor
  · -- An anchor hands nothing on.
    obtain rfl | rfl := ht
    · exact h
    · exact h
  · exact thenMatches_of_forall_mem ht ht (fun _ hw => hw) hk h

/-- **The step.** A wider token goes through where the token does, if what is behind it does. -/
theorem WidensTo.thenMatches (h : t.WidensTo u) (hk : ∀ rest, k rest = true → k' rest = true)
    (h_t : t.thenMatches k line = true) : u.thenMatches k' line = true := by
  obtain rfl | ⟨ht, hu⟩ := h.eq_or_not_isAnchor
  · exact t.thenMatches_mono hk h_t
  · exact thenMatches_of_forall_mem ht hu (fun _ => h.mem_language) hk h_t

end Token

namespace Pattern

variable {ts us : Pattern} {line : List Char}

/-- **The run.** Each token of the second list is that of the first one, made wider. -/
theorem matchesHere_of_forall₂ (h : List.Forall₂ Token.WidensTo ts us)
    (h_here : matchesHere ts line = true) : matchesHere us line = true := by
  -- The induction is on the pairs of tokens, for any line: the remainders that a wider token hands
  -- on are those of the token, and others.
  induction h generalizing line with
  | nil => exact h_here
  | cons h_t _ ih =>
    rw [matchesHere_cons] at h_here ⊢
    exact h_t.thenMatches (fun rest => ih) h_here

/-- What is made wider is found where it was found before. -/
theorem search_of_forall₂_widensTo (h : List.Forall₂ Token.WidensTo ts us)
    (h_search : search ts line = true) : search us line = true := by
  cases h with
  | nil => exact h_search
  | @cons t u ts us h_t h_ts =>
    by_cases ht : t = .lineStart
    · -- Both are tried at the front of the line only.
      obtain rfl := h_t.eq_lineStart_iff.mp ht
      subst ht
      exact matchesHere_of_forall₂ h_ts h_search
    · -- Neither starts with the start of the line, so the place where the first is found will do.
      have hu : u ≠ .lineStart := mt h_t.eq_lineStart_iff.mpr ht
      rw [search_cons ht, anySuffix_iff] at h_search
      rw [search_cons hu, anySuffix_iff]
      obtain ⟨before, rest, rfl, h_here⟩ := h_search
      exact ⟨before, rest, rfl, matchesHere_of_forall₂ (.cons h_t h_ts) h_here⟩

/-- **Widening loses no match.** If each token of a list is replaced by itself, made wider, the list
is still found in each line in which it was found. So lists that differ in the order or the repeats
of class members and group options are found in the same lines. Neither needs anchors to stand at
the ends. -/
theorem search_of_forall₂ (ts us : Pattern) (line : List Char) :
    (List.Forall₂ Token.WidensTo ts us → search ts line = true → search us line = true) ∧
      (List.Forall₂ Token.SameChoices ts us → search ts line = search us line) := by
  refine ⟨search_of_forall₂_widensTo, ?_⟩
  intro h
  have h_wider : List.Forall₂ Token.WidensTo ts us := h.imp fun _ _ => Token.SameChoices.widensTo
  have h_wider' : List.Forall₂ Token.WidensTo us ts :=
    (h.imp fun _ _ => Token.SameChoices.symm).flip.imp fun _ _ => Token.SameChoices.widensTo
  -- Each list is the other one made wider, so each is found where the other is.
  rw [Bool.eq_iff_iff]
  exact ⟨search_of_forall₂_widensTo h_wider, search_of_forall₂_widensTo h_wider'⟩

/-- Five tokens are made wider at once, and the search for them has to come back to the group, whose
first option takes the char that the class behind it needs. In the second pair the options are tried
in another order. -/
theorem search_of_wider_tokens :
    List.Forall₂ Token.WidensTo
        [.lineStart, .atom .digit .one, .charClass .negative ['-', 'b'], .group [['x']],
          .charClass .positive ['c'], .atom .digit .one]
        [.lineStart, .atom .word .oneOrMore, .charClass .negative ['b'], .group [['x', 'c'], ['x']],
          .charClass .positive ['d', 'c'], .atom .digit .optional] ∧
      search
        [.lineStart, .atom .digit .one, .charClass .negative ['-', 'b'], .group [['x']],
          .charClass .positive ['c'], .atom .digit .one]
        ['1', '+', 'x', 'c', '2'] = true ∧
      search
        [.lineStart, .atom .word .oneOrMore, .charClass .negative ['b'], .group [['x', 'c'], ['x']],
          .charClass .positive ['d', 'c'], .atom .digit .optional]
        ['1', '+', 'x', 'c', '2'] = true ∧
      List.Forall₂ Token.SameChoices
        [.group [['a'], ['a', 'b']], .charClass .negative ['x', 'y', 'x'], .lineEnd]
        [.group [['a', 'b'], ['a']], .charClass .negative ['y', 'x'], .lineEnd] ∧
      search [.group [['a'], ['a', 'b']], .charClass .negative ['x', 'y', 'x'], .lineEnd]
          ['a', 'b', 'z'] =
        search [.group [['a', 'b'], ['a']], .charClass .negative ['y', 'x'], .lineEnd]
          ['a', 'b', 'z'] := by
  have h_wider : List.Forall₂ Token.WidensTo
      [.lineStart, .atom .digit .one, .charClass .negative ['-', 'b'], .group [['x']],
        .charClass .positive ['c'], .atom .digit .one]
      [.lineStart, .atom .word .oneOrMore, .charClass .negative ['b'], .group [['x', 'c'], ['x']],
        .charClass .positive ['d', 'c'], .atom .digit .optional] := by
    refine .cons .lineStart (.cons (.atom Atom.chars_digit_subset_word (.inr rfl)) ?_)
    refine .cons (.negative (by simp)) (.cons (.group (by simp)) ?_)
    exact .cons (.positive (by simp)) (.cons (.atom subset_rfl (.inr rfl)) .nil)
  have h_same : List.Forall₂ Token.SameChoices
      [.group [['a'], ['a', 'b']], .charClass .negative ['x', 'y', 'x'], .lineEnd]
      [.group [['a', 'b'], ['a']], .charClass .negative ['y', 'x'], .lineEnd] := by
    refine .cons (.group ?_) (.cons (.charClass .negative ?_) (.cons (.refl .lineEnd) .nil))
    · intro o
      simp [or_comm]
    · intro c
      simp [or_comm]
  have h_search : search
      [.lineStart, .atom .digit .one, .charClass .negative ['-', 'b'], .group [['x']],
        .charClass .positive ['c'], .atom .digit .one] ['1', '+', 'x', 'c', '2'] = true := by decide
  exact ⟨h_wider, h_search, (search_of_forall₂ _ _ _).1 h_wider h_search, h_same,
    (search_of_forall₂ _ _ _).2 h_same⟩

end Pattern

end LinePattern
