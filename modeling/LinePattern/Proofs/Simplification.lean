import LinePattern.Proofs.Expansion
import LinePattern.Proofs.Widening

/-!
# Simpler patterns

Some quantifiers can be dropped, or moved to another atom, without changing what is found.

* Next to a run of an atom: two runs are one char and a run, a run takes in an optional char beside
  it, and an atom can change places with the run or the optional char of the same atom. These are
  the identities of regular expressions, and they are proved as such: a run is `l * l∗`, where `l`
  are the single chars of the atom.
* At an end of a pattern that is not anchored: a run is as good as one char there, and an optional
  char as good as none. In front this is so because a search moves along the line, and behind
  because it leaves over what is not needed.

Both hold in any pattern. All that counts of some tokens is what they do with a part of the line
(`search_append_congr`), but for the first token of all, which says whether a search moves along the
line.

Main statements:

* `RunLaw.language_eq`: the identities, by Kleene algebra.
* `search_eq_of_runLaw`: quantified atoms next to each other.
* `search_unanchored_edge`: quantified atoms at the ends.
-/

namespace LinePattern

open Computability

/-! ### Replacing tokens in a pattern -/

namespace Pattern

variable {pre post ts us : Pattern} {line : List Char}

/-- Lists that do the same with each line do so behind other tokens as well. -/
theorem matchesHere_append_congr (pre : Pattern) (h : matchesHere ts = matchesHere us) :
    matchesHere (pre ++ ts) = matchesHere (pre ++ us) := by
  rw [matchesHere, matchesHere, List.foldr_append, List.foldr_append]
  change pre.foldr Token.thenMatches (matchesHere ts) = pre.foldr Token.thenMatches (matchesHere us)
  rw [h]

/-- **Replacing the last tokens.** Neither list may start with the start of the line, for at the
front of a pattern that would keep the search from moving along the line. -/
theorem search_append_congr (pre : Pattern) (h : matchesHere ts = matchesHere us)
    (h_ts : ts.head? ≠ some .lineStart) (h_us : us.head? ≠ some .lineStart) (line : List Char) :
    search (pre ++ ts) line = search (pre ++ us) line := by
  cases pre with
  | nil =>
    rw [List.nil_append, List.nil_append, search_eq_anySuffix h_ts, search_eq_anySuffix h_us, h]
  | cons t pre =>
    by_cases ht : t = .lineStart
    · -- What stands behind the start of the line is tried at the front only.
      rw [ht]
      exact congrFun (matchesHere_append_congr pre h) line
    · -- Both are tried at every place, and do the same there.
      rw [List.cons_append, List.cons_append, search_cons ht, search_cons ht, ← List.cons_append,
        ← List.cons_append, matchesHere_append_congr (t :: pre) h]

/-- **Replacing tokens between others.** Tokens without anchors can be replaced by others that have
the same texts. There is no condition on what stands in front of them and behind them. -/
theorem search_append_eq_of_language_eq (h_ts : ∀ t ∈ ts, ¬ t.IsAnchor)
    (h_us : ∀ u ∈ us, ¬ u.IsAnchor) (ts_ne : ts ≠ []) (us_ne : us ≠ [])
    (h : language ts = language us) (pre post : Pattern) (line : List Char) :
    search (pre ++ ts ++ post) line = search (pre ++ us ++ post) line := by
  -- With the same texts the lists hand on the same remainders, whatever is done with these.
  have h_here : matchesHere (ts ++ post) = matchesHere (us ++ post) := by
    funext rest
    rw [Bool.eq_iff_iff, matchesHere_append_iff h_ts, matchesHere_append_iff h_us, h]
  -- The first token is one of the list, and so no anchor.
  have h_head : ∀ vs : Pattern, vs ≠ [] → (∀ v ∈ vs, ¬ v.IsAnchor) →
      (vs ++ post).head? ≠ some .lineStart := by
    intro vs h_ne h_vs h_head
    rw [List.head?_append_of_ne_nil vs h_ne] at h_head
    exact h_vs _ (List.mem_of_head? h_head) (.inl rfl)
  rw [List.append_assoc, List.append_assoc]
  exact search_append_congr pre h_here (h_head ts ts_ne h_ts) (h_head us us_ne h_us) line

end Pattern

/-! ### Runs in Kleene algebra -/

section Kleene

/-- A text more behind a run can as well stand in front of it. -/
theorem mul_kstar_mul_self (l : Language Char) : l * l∗ * l = l * (l * l∗) := by
  rw [mul_assoc, Language.mul_self_kstar_comm]

/-- Two runs are a text and a run: all but the first text of the first run goes to the second one.
-/
theorem mul_kstar_mul_mul_kstar (l : Language Char) : l * l∗ * (l * l∗) = l * (l * l∗) :=
  calc l * l∗ * (l * l∗) = l * l∗ * l * l∗ := (mul_assoc (l * l∗) l l∗).symm
    _ = l * (l * (l∗ * l∗)) := by rw [mul_kstar_mul_self, mul_assoc, mul_assoc]
    _ = l * (l * l∗) := by rw [kstar_mul_kstar]

/-- A text and an optional one can change places. -/
theorem mul_one_add_self (l : Language Char) : l * (1 + l) = (1 + l) * l := by
  rw [mul_add, mul_one, add_mul, one_mul]

variable {α : Type} [KleeneAlgebra α] {l m : α}

/-- An optional text behind a run of wider texts is a part of the run, or is not there. -/
theorem mul_kstar_mul_one_add (h : m ≤ l) : l * l∗ * (1 + m) = l * l∗ := by
  -- One char more behind the run is one char more of the run.
  have h_more : l * l∗ * m ≤ l * l∗ :=
    calc l * l∗ * m ≤ l * l∗ * l := by gcongr
      _ = l * (l∗ * l) := mul_assoc l l∗ l
      _ ≤ l * l∗ := by
        gcongr
        exact kstar_mul_le_kstar
  rw [mul_add, mul_one, add_eq_left_iff_le]
  exact h_more

/-- The same with the optional text in front of the run. -/
theorem one_add_mul_mul_kstar (h : m ≤ l) : (1 + m) * (l * l∗) = l * l∗ := by
  -- One char more in front of the run is one char more of the run, too.
  have h_more : m * (l * l∗) ≤ l * l∗ :=
    calc m * (l * l∗) ≤ l * (l * l∗) := by gcongr
      _ ≤ l * l∗ := by
        gcongr
        exact mul_kstar_le_kstar
  rw [add_mul, one_mul, add_eq_left_iff_le]
  exact h_more

end Kleene

/-! ### Runs next to other quantified atoms -/

/-- A run is one char and then any number of them. This solves the equation that says that a run is
one char, or one char and a run. -/
theorem Token.language_oneOrMore_eq_mul_kstar (a : Atom) :
    (atom a .oneOrMore).language = (atom a .one).language * (atom a .one).language∗ := by
  -- The equation has one solution, for a single char is not the empty text.
  have h_nil : [] ∉ (atom a .one).language := by
    rintro ⟨c, -, h⟩
    contradiction
  have h_run := language_oneOrMore a
  rw [add_comm] at h_run
  rw [(Language.self_eq_mul_add_iff h_nil).mp h_run, Language.mul_self_kstar_comm]

namespace Pattern

/-- The two lists are ways to write the same texts with quantified atoms. -/
inductive RunLaw : Pattern → Pattern → Prop where
  /-- Two runs are one char and a run. -/
  | run_run (a : Atom) :
    RunLaw [.atom a .oneOrMore, .atom a .oneOrMore] [.atom a .one, .atom a .oneOrMore]
  /-- One char can stand behind a run or in front of it. -/
  | run_one (a : Atom) :
    RunLaw [.atom a .oneOrMore, .atom a .one] [.atom a .one, .atom a .oneOrMore]
  /-- An optional char can stand behind one char or in front of it. -/
  | one_optional (a : Atom) :
    RunLaw [.atom a .one, .atom a .optional] [.atom a .optional, .atom a .one]
  /-- A run takes in an optional char behind it. -/
  | run_optional {a b : Atom} (h : b.chars ⊆ a.chars) :
    RunLaw [.atom a .oneOrMore, .atom b .optional] [.atom a .oneOrMore]
  /-- A run takes in an optional char in front of it. -/
  | optional_run {a b : Atom} (h : b.chars ⊆ a.chars) :
    RunLaw [.atom b .optional, .atom a .oneOrMore] [.atom a .oneOrMore]

/-- A text of two tokens is one of each. -/
theorem language_pair (t u : Token) : language [t, u] = t.language * u.language := by
  rw [language_cons, language_singleton]

namespace RunLaw

variable {ts us : Pattern}

/-- **The identities.** Both lists have the same texts. -/
theorem language_eq (h : RunLaw ts us) : language ts = language us := by
  cases h with
  | run_run a =>
    rw [language_pair, language_pair, Token.language_oneOrMore_eq_mul_kstar]
    exact mul_kstar_mul_mul_kstar _
  | run_one a =>
    rw [language_pair, language_pair, Token.language_oneOrMore_eq_mul_kstar]
    exact mul_kstar_mul_self _
  | one_optional a =>
    rw [language_pair, language_pair, Token.language_optional]
    exact mul_one_add_self _
  | run_optional h =>
    rw [language_pair, language_singleton, Token.language_oneOrMore_eq_mul_kstar,
      Token.language_optional]
    exact mul_kstar_mul_one_add fun w => (Token.WidensTo.atom h (.inl rfl)).mem_language
  | optional_run h =>
    rw [language_pair, language_singleton, Token.language_oneOrMore_eq_mul_kstar,
      Token.language_optional]
    exact one_add_mul_mul_kstar fun w => (Token.WidensTo.atom h (.inl rfl)).mem_language

/-- No law is about anchors. -/
theorem not_isAnchor (h : RunLaw ts us) :
    (∀ t ∈ ts, ¬ t.IsAnchor) ∧ ∀ u ∈ us, ¬ u.IsAnchor := by
  cases h <;> simp [Token.IsAnchor]

/-- No law leaves nothing over, so the first token of a pattern stays an anchor or none. -/
theorem ne_nil (h : RunLaw ts us) : ts ≠ [] ∧ us ≠ [] := by
  cases h <;> exact ⟨List.cons_ne_nil _ _, List.cons_ne_nil _ _⟩

end RunLaw

/-- **Runs next to other quantified atoms.** Lists that one of the laws makes equal can replace each
other anywhere in a pattern. Anchors may stand in front of them and behind them, in any place. -/
theorem search_eq_of_runLaw {ts us : Pattern} (h : RunLaw ts us) (pre post : Pattern)
    (line : List Char) : search (pre ++ ts ++ post) line = search (pre ++ us ++ post) line := by
  obtain ⟨h_ts, h_us⟩ := h.not_isAnchor
  obtain ⟨ts_ne, us_ne⟩ := h.ne_nil
  exact search_append_eq_of_language_eq h_ts h_us ts_ne us_ne h.language_eq pre post line

/-- The word chars take in the digit, and the last char of the line is left to the literal. -/
theorem search_eq_of_digit_in_word_run :
    RunLaw [.atom .word .oneOrMore, .atom .digit .optional] [.atom .word .oneOrMore] ∧
      search
        [.lineStart, .atom .wildcard .optional, .atom .word .oneOrMore, .atom .digit .optional,
          .atom (.literal '1') .one, .lineEnd] ['-', 'b', '1', '1'] = true := by
  have h : RunLaw [.atom .word .oneOrMore, .atom .digit .optional] [.atom .word .oneOrMore] :=
    .run_optional Atom.chars_digit_subset_word
  have h_search := search_eq_of_runLaw h [.lineStart, .atom .wildcard .optional]
    [.atom (.literal '1') .one, .lineEnd] ['-', 'b', '1', '1']
  exact ⟨h, h_search.trans (by decide)⟩

/-! ### The ends of a pattern -/

/-- If a run is found, its last char is found further to the right. -/
theorem anySuffix_oneOrMore (a : Atom) (k : List Char → Bool) (line : List Char) :
    anySuffix ((Token.atom a .oneOrMore).thenMatches k) line =
      anySuffix ((Token.atom a .one).thenMatches k) line := by
  rw [Bool.eq_iff_iff, anySuffix_iff, anySuffix_iff]
  simp only [Token.thenMatches, runThen_iff, oneThen_iff]
  refine ⟨?_, ?_⟩
  · -- All of the run but its last char goes to what is in front of the place.
    rintro ⟨before, _, rfl, run, rest, rfl, h_ne, h_run, h_rest⟩
    obtain ⟨front, c, rfl⟩ := (List.eq_nil_or_concat' run).resolve_left h_ne
    have hc : a.accepts c = true := h_run c (List.mem_append_right _ List.mem_cons_self)
    exact ⟨before ++ front, c :: rest, by simp, c, rest, rfl, hc, h_rest⟩
  · -- One char is a run.
    rintro ⟨before, _, rfl, c, rest, rfl, hc, h_rest⟩
    have h_run : ∀ d ∈ [c], a.accepts d = true := List.forall_mem_singleton.mpr hc
    exact ⟨before, c :: rest, rfl, [c], rest, rfl, List.cons_ne_nil c [], h_run, h_rest⟩

/-- If an optional char and what is behind it are found, what is behind it is found on its own. -/
theorem anySuffix_optional (a : Atom) (k : List Char → Bool) (line : List Char) :
    anySuffix ((Token.atom a .optional).thenMatches k) line = anySuffix k line := by
  rw [Bool.eq_iff_iff, anySuffix_iff, anySuffix_iff]
  simp only [Token.thenMatches, Bool.or_eq_true, oneThen_iff]
  refine ⟨?_, ?_⟩
  · rintro ⟨before, rest, rfl, h_rest | ⟨c, rest, rfl, -, h_rest⟩⟩
    · exact ⟨before, rest, rfl, h_rest⟩
    · -- The char that was taken goes to what is in front of the place.
      exact ⟨before ++ [c], rest, by simp, h_rest⟩
  · rintro ⟨before, rest, rfl, h_rest⟩
    exact ⟨before, rest, rfl, .inl h_rest⟩

/-- With nothing behind it a run goes through as soon as one char does. -/
theorem matchesHere_oneOrMore (a : Atom) :
    matchesHere [.atom a .oneOrMore] = matchesHere [.atom a .one] := by
  funext line
  cases line with
  | nil => rfl
  | cons c line => simp [Token.thenMatches, runThen, oneThen]

/-- With nothing behind it an optional char goes through at once. -/
theorem matchesHere_optional (a : Atom) : matchesHere [.atom a .optional] = matchesHere [] := by
  funext line
  simp [Token.thenMatches]

/-- **Quantifiers at the ends.** At the front of a pattern that does not start with the start of the
line, and at the back of one that does not end with the end of the line, a run can be replaced by
one char, and an optional char can be left out. If nothing is left of the pattern then, it is found
in every line. -/
theorem search_unanchored_edge (a : Atom) (ts : Pattern) (line : List Char) :
    search (.atom a .oneOrMore :: ts) line = search (.atom a .one :: ts) line ∧
      (ts.head? ≠ some .lineStart → search (.atom a .optional :: ts) line = search ts line) ∧
      search (ts ++ [Token.atom a .oneOrMore]) line = search (ts ++ [Token.atom a .one]) line ∧
      search (ts ++ [Token.atom a .optional]) line = search ts line ∧
      search [] line = true := by
  refine ⟨?_, ?_, ?_, ?_, ?_⟩
  · exact anySuffix_oneOrMore a (matchesHere ts) line
  · intro h_ts
    rw [search_eq_anySuffix h_ts]
    exact anySuffix_optional a (matchesHere ts) line
  · exact search_append_congr ts (matchesHere_oneOrMore a) (by simp) (by simp) line
  · have h := search_append_congr ts (matchesHere_optional a) (by simp) (by simp) line
    rwa [List.append_nil] at h
  · exact anySuffix_iff.mpr ⟨[], line, rfl, rfl⟩

/-- Without the optional char the search starts at another place, and has to come back to the
group. -/
theorem search_unanchored_edge_group :
    ([.group [['a'], ['a', 'b']], .lineEnd] : Pattern).head? ≠ some .lineStart ∧
      search [.atom .word .optional, .group [['a'], ['a', 'b']], .lineEnd]
        ['x', 'a', 'a', 'b'] = true := by
  have h : ([.group [['a'], ['a', 'b']], .lineEnd] : Pattern).head? ≠ some .lineStart := by simp
  obtain ⟨-, h_search, -⟩ :=
    search_unanchored_edge .word [.group [['a'], ['a', 'b']], .lineEnd] ['x', 'a', 'a', 'b']
  exact ⟨h, (h_search h).trans (by decide)⟩

-- Behind the start of the line the run counts, as a search for it does not move along the line.
example :
    search [.lineStart, .atom (.literal 'a') .oneOrMore, .atom (.literal 'b') .one]
        ['a', 'a', 'b'] = true ∧
      search [.lineStart, .atom (.literal 'a') .one, .atom (.literal 'b') .one]
        ['a', 'a', 'b'] = false := by
  decide

end Pattern

end LinePattern
