import LinePattern.Pattern.Attempts
import LinePattern.Proofs.WellFormed

/-!
# What a search meets

The two anchors have a meaning at the ends of a pattern only: an attempt that starts with the start
of the line fails, and one that starts with the end of the line does not look at the tokens behind
it. So a search can be trusted because neither is ever met out of place.

An attempt leads to attempts of the tokens behind its first one. Hence the tokens of each attempt
are the last tokens of the pattern (`tokens_suffix_of_mem_trailHere`), and the anchors of a pattern
whose anchors stand at its ends are not met anywhere else (`Anchored.attempts`). A pattern that
compiles is such a pattern.
-/

namespace LinePattern.Pattern

variable {p ts : Pattern} {line : List Char} {a : Attempt}

/-- **The run.** Every attempt at one place of the line is made with the last tokens of the
pattern. -/
theorem tokens_suffix_of_mem_trailHere (h : a ∈ (trailHere ts line).attempts) :
    a.tokens <:+ ts := by
  induction ts generalizing line with
  | nil =>
    -- The one attempt without tokens is the pattern that is left.
    rw [attempts_trailHere_nil, List.mem_singleton] at h
    rw [h]
  | cons t ts ih =>
    by_cases ht : t = .lineEnd
    · -- No further attempt is made at the end of the line.
      subst ht
      rw [attempts_trailHere_lineEnd, List.mem_singleton] at h
      rw [h]
    · rw [attempts_trailHere_cons ht, List.mem_cons] at h
      rcases h with rfl | h
      · exact List.suffix_refl _
      · -- Every other attempt is made with tokens of `ts`, at one remainder or another.
        obtain ⟨rest, -, h_rest⟩ := List.mem_flatMap.mp h
        exact (ih h_rest).trans (List.suffix_cons t ts)

/-- The attempts of a search are made with the last tokens of the pattern, and the start of the line
in front of the pattern is none of these. -/
theorem tokens_suffix_of_mem_trail (h : a ∈ (p.trail line).attempts) :
    a.tokens <:+ p ∧ (p.head? = some .lineStart → a.tokens <:+ p.tail) := by
  by_cases h_head : p.head? = some .lineStart
  · obtain ⟨ts, rfl⟩ := List.head?_eq_some_iff.mp h_head
    rw [attempts_trail_lineStart] at h
    have h_suffix : a.tokens <:+ ts := tokens_suffix_of_mem_trailHere h
    exact ⟨h_suffix.trans (List.suffix_cons _ ts), fun _ => h_suffix⟩
  · -- The attempts at each place are made with tokens of the whole pattern.
    rw [attempts_trail h_head] at h
    obtain ⟨rest, -, h_rest⟩ := List.mem_flatMap.mp h
    exact ⟨tokens_suffix_of_mem_trailHere h_rest, fun h => absurd h h_head⟩

/-- Where the start of the line is not in front it is nowhere. -/
theorem Anchored.lineStart_notMem (hp : p.Anchored) (h : p.head? ≠ some .lineStart) :
    .lineStart ∉ p := by
  cases p with
  | nil => exact List.not_mem_nil
  | cons t ts =>
    intro h_mem
    rcases List.mem_cons.mp h_mem with rfl | h_mem
    · exact h rfl
    · exact hp.lineStart_notMem_tail h_mem

/-- Where the end of the line is followed by tokens it is not the last token. -/
theorem Anchored.eq_nil_of_lineEnd_cons_suffix (hp : p.Anchored) (h : .lineEnd :: ts <:+ p) :
    ts = [] := by
  obtain ⟨front, rfl⟩ := h
  by_contra h_ne
  apply hp.lineEnd_notMem_dropLast
  rw [List.dropLast_append_of_ne_nil (List.cons_ne_nil _ ts), List.dropLast_cons_of_ne_nil h_ne]
  exact List.mem_append_right front List.mem_cons_self

/-- No attempt meets an anchor out of place. -/
theorem Anchored.attempts (hp : p.Anchored) (h : a ∈ (p.trail line).attempts) :
    a.tokens.head? ≠ some .lineStart ∧
      (a.tokens.head? = some .lineEnd → a.tokens = [.lineEnd]) := by
  obtain ⟨h_suffix, h_tail⟩ := tokens_suffix_of_mem_trail h
  refine ⟨?_, ?_⟩
  · intro h_start
    have h_mem : .lineStart ∈ a.tokens := List.mem_of_head? h_start
    by_cases h_head : p.head? = some .lineStart
    · exact hp.lineStart_notMem_tail ((h_tail h_head).subset h_mem)
    · exact hp.lineStart_notMem h_head (h_suffix.subset h_mem)
  · intro h_end
    obtain ⟨ts, h_tokens⟩ := List.head?_eq_some_iff.mp h_end
    rw [h_tokens] at h_suffix ⊢
    rw [hp.eq_nil_of_lineEnd_cons_suffix h_suffix]

/-- **Compiled patterns and their attempts.** What compiling gives is well-formed, and so no search
for it, in whatever line, tries tokens that start with the start of the line, or tokens that start
with the end of the line and go on behind it. -/
theorem wellFormed_and_attempts_of_compile {s : List Char} (h : compile s = .ok p) :
    p.WellFormed ∧
      ∀ line, (p.trail line).found = p.search line ∧
        ∀ a ∈ (p.trail line).attempts, a.tokens.head? ≠ some .lineStart ∧
          (a.tokens.head? = some .lineEnd → a.tokens = [.lineEnd]) := by
  have h_wellFormed : p.WellFormed := wellFormed_of_compile h
  refine ⟨h_wellFormed, fun line => ⟨found_trail p line, fun a ha => ?_⟩⟩
  exact h_wellFormed.anchored.attempts ha

/-- A search that goes back twice: the run is made longer, and the second option is taken, before
the end of the line is met where the line ends. -/
theorem attempts_of_two_choices :
    compile "^a+(b|bc)$".toList =
        .ok
          [.lineStart, .atom (.literal 'a') .oneOrMore, .group [['b'], ['b', 'c']], .lineEnd] ∧
      (trail
        [.lineStart, .atom (.literal 'a') .oneOrMore, .group [['b'], ['b', 'c']], .lineEnd]
        "aabc".toList).attempts.map Attempt.line =
          ["aabc".toList, "abc".toList, "bc".toList, "c".toList, []] ∧
      ∀ a ∈ (trail
          [.lineStart, .atom (.literal 'a') .oneOrMore, .group [['b'], ['b', 'c']], .lineEnd]
          "aabc".toList).attempts,
        a.tokens.head? = some .lineEnd → a.tokens = [.lineEnd] := by
  have h_compile : compile "^a+(b|bc)$".toList =
      .ok
        [.lineStart, .atom (.literal 'a') .oneOrMore, .group [['b'], ['b', 'c']], .lineEnd] := by
    decide +kernel
  obtain ⟨-, h_attempts⟩ := wellFormed_and_attempts_of_compile h_compile
  refine ⟨h_compile, by decide, ?_⟩
  intro a ha
  exact ((h_attempts "aabc".toList).2 a ha).2

end LinePattern.Pattern
