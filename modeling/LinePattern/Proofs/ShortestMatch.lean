import LinePattern.Proofs.Occurrence
import Mathlib.Order.Bounds.Defs

/-!
# The shortest match

How short a line can be in which a pattern is found can be told without searching: each token has a
least number of chars, and these add up (`Pattern.minLength`). For a pattern that compiles the bound
is met. So each such pattern is found somewhere, which could fail in two ways only: a class could
refuse all chars, and a group could have no options. A class that is written has a member or, if it
is negative, does not refuse the bracket that closes it, and a group that is written has an option.

Anchors need no chars and no room. A line that is a shortest text of the pattern has nothing in
front of that text and nothing behind it.

Main statements:

* `Token.minLength_le_length`, `Token.exists_length_eq_minLength`: the shortest texts of a token.
* `isLeast_minLength_of_compile`: the shortest lines in which a pattern is found.
-/

namespace LinePattern

/-! ### Shortest texts -/

/-- The length of the shortest texts of the token. -/
def Token.minLength : Token → Nat
  | lineStart => 0
  | lineEnd => 0
  | atom _ .one => 1
  | atom _ .optional => 0
  | atom _ .oneOrMore => 1
  | charClass _ _ => 1
  | group options => (options.map List.length).min?.getD 0

/-- The length of the shortest texts of the pattern, which is the sum of those of its tokens. -/
def Pattern.minLength : Pattern → Nat
  | [] => 0
  | t :: ts => t.minLength + minLength ts

/-- Every atom stands for some char. -/
theorem Atom.nonempty_chars (a : Atom) : a.chars.Nonempty := by
  cases a with
  | literal c => exact ⟨c, rfl⟩
  | digit => exact ⟨'0', mem_chars_iff.mpr rfl⟩
  | word => exact ⟨'_', mem_chars_iff.mpr rfl⟩
  | wildcard => exact ⟨'_', mem_chars_iff.mpr rfl⟩

namespace Token

variable {t : Token} {w : List Char}

/-- No text of a token is shorter. -/
theorem minLength_le_length (h : w ∈ t.language) : t.minLength ≤ w.length := by
  -- All tokens but groups, runs and optional chars have texts of one length only.
  cases t with
  | lineStart => exact Nat.zero_le _
  | lineEnd => exact Nat.zero_le _
  | group options => exact List.min?_getD_le_of_mem (List.mem_map_of_mem h)
  | charClass polarity members =>
    cases polarity with
    | positive =>
      obtain ⟨c, -, rfl⟩ := h
      exact le_rfl
    | negative =>
      obtain ⟨c, -, rfl⟩ := h
      exact le_rfl
  | atom a q =>
    cases q with
    | optional => exact Nat.zero_le _
    | one =>
      obtain ⟨c, -, rfl⟩ := h
      exact le_rfl
    | oneOrMore => exact List.length_pos_iff.mpr h.1

/-- **Well-formed tokens have shortest texts.** -/
theorem exists_length_eq_minLength (h : t.WellFormed) :
    ∃ w ∈ t.language, w.length = t.minLength := by
  cases t with
  | lineStart => exact ⟨[], Language.nil_mem_one, rfl⟩
  | lineEnd => exact ⟨[], Language.nil_mem_one, rfl⟩
  | group options =>
    -- The length of the shortest option is that of an option.
    obtain ⟨h_ne, -⟩ := h
    have h_some : (options.map List.length).min?.isSome = true := by
      rw [List.isSome_min?_iff, ne_eq, List.map_eq_nil_iff]
      exact h_ne
    obtain ⟨n, h_min⟩ := Option.isSome_iff_exists.mp h_some
    obtain ⟨o, h_o, h_length⟩ := List.mem_map.mp (List.min?_mem h_min)
    refine ⟨o, h_o, ?_⟩
    rw [minLength, h_min, h_length, Option.getD_some]
  | charClass polarity members =>
    obtain ⟨h_ne, h_closer, -⟩ := h
    cases polarity with
    | positive =>
      obtain ⟨c, cs, rfl⟩ := List.exists_cons_of_ne_nil h_ne
      exact ⟨[c], ⟨c, List.mem_cons_self, rfl⟩, rfl⟩
    | negative =>
      -- The bracket that closes the class cannot be a member.
      exact ⟨[']'], ⟨']', h_closer, rfl⟩, rfl⟩
  | atom a q =>
    obtain ⟨c, hc⟩ := a.nonempty_chars
    cases q with
    | optional => exact ⟨[], .inl rfl, rfl⟩
    | one => exact ⟨[c], ⟨c, hc, rfl⟩, rfl⟩
    | oneOrMore => exact ⟨[c], ⟨List.cons_ne_nil c [], List.forall_mem_singleton.mpr hc⟩, rfl⟩

end Token

namespace Pattern

variable {p ts : Pattern} {line w : List Char}

/-- No text of a pattern is shorter, since none of the parts that it is made of is. -/
theorem minLength_le_length (h : w ∈ language ts) : ts.minLength ≤ w.length := by
  induction ts generalizing w with
  | nil => exact Nat.zero_le _
  | cons t ts ih =>
    rw [language_cons] at h
    obtain ⟨v, hv, u, hu, rfl⟩ := Language.mem_mul.mp h
    rw [minLength, List.length_append]
    exact Nat.add_le_add (Token.minLength_le_length hv) (ih hu)

/-- **Well-formed patterns have shortest texts**, made of shortest texts of their tokens. -/
theorem exists_length_eq_minLength (h : ∀ t ∈ ts, t.WellFormed) :
    ∃ w ∈ language ts, w.length = ts.minLength := by
  induction ts with
  | nil => exact ⟨[], Language.nil_mem_one, rfl⟩
  | cons t ts ih =>
    obtain ⟨h_t, h_ts⟩ := List.forall_mem_cons.mp h
    obtain ⟨v, hv, h_v⟩ := Token.exists_length_eq_minLength h_t
    obtain ⟨u, hu, h_u⟩ := ih h_ts
    refine ⟨v ++ u, ?_, ?_⟩
    · rw [language_cons]
      exact Language.append_mem_mul hv hu
    · rw [minLength, List.length_append, h_v, h_u]

/-! ### Shortest lines -/

/-- A line is at least as long as what is found in it. -/
theorem Anchored.minLength_le_length (hp : p.Anchored) (h : p.search line = true) :
    p.minLength ≤ line.length := by
  obtain ⟨before, found, after, rfl, h_found, -, -⟩ := (search_iff_occursIn hp).mp h
  have h_le := Pattern.minLength_le_length h_found
  rw [List.length_append, List.length_append]
  omega

/-- **No pattern is dead.** A pattern that compiles is found in a line of as many chars as its
tokens need together, and in no shorter line. -/
theorem isLeast_minLength_of_compile {s : List Char} (h : compile s = .ok p) :
    IsLeast {n | ∃ line, p.search line = true ∧ line.length = n} p.minLength := by
  have h_wellFormed : p.WellFormed := wellFormed_of_compile h
  refine ⟨?_, ?_⟩
  · -- A shortest text is a line by itself, whatever the anchors.
    obtain ⟨w, hw, h_length⟩ := exists_length_eq_minLength h_wellFormed.wellFormed
    exact ⟨w, h_wellFormed.anchored.search_of_mem_language hw, h_length⟩
  · rintro n ⟨line, h_search, rfl⟩
    exact h_wellFormed.anchored.minLength_le_length h_search

/-- Neither the optional char nor the longer option is needed. One of the lines of four chars is
`a]do`, with the bracket for the negative class. -/
theorem isLeast_minLength_of_two_options :
    compile "^b?a+[^^a](cat|do)$".toList =
        .ok
          [.lineStart, .atom (.literal 'b') .optional, .atom (.literal 'a') .oneOrMore,
            .charClass .negative ['^', 'a'], .group [['c', 'a', 't'], ['d', 'o']], .lineEnd] ∧
      IsLeast
        {n | ∃ line,
          search
            [.lineStart, .atom (.literal 'b') .optional, .atom (.literal 'a') .oneOrMore,
              .charClass .negative ['^', 'a'], .group [['c', 'a', 't'], ['d', 'o']], .lineEnd]
            line = true ∧ line.length = n}
        4 := by
  have h : compile "^b?a+[^^a](cat|do)$".toList =
      .ok
        [.lineStart, .atom (.literal 'b') .optional, .atom (.literal 'a') .oneOrMore,
          .charClass .negative ['^', 'a'], .group [['c', 'a', 't'], ['d', 'o']], .lineEnd] := by
    decide +kernel
  exact ⟨h, isLeast_minLength_of_compile h⟩

end Pattern

end LinePattern
