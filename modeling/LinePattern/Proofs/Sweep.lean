import LinePattern.Proofs.Attempts
import Mathlib.Data.Finset.Sort
import Mathlib.Order.Interval.Finset.Nat

/-!
# Sweeping a line

A search goes after one match at a time and comes back when it fails. A sweep goes through the
tokens once and keeps all positions of the line at which the tokens so far can have stopped. The
next token is tried at each of these, and what comes of it are the positions behind the token. A
pattern of `m` tokens and a line of `n` chars make for `m * (n + 1)` trials at most, whereas a search
can make one attempt many times.

* `Token.step`: the positions that a token leads to from one position.
* `Sweep`: how a sweep ended, and what was tried on the way.
* `Pattern.sweepFrom`, `Pattern.sweep`: the sweep from given positions, and of the whole line.

Sweeping finds what searching finds. A sweep keeps a set of positions, and a search is at one of
them. What ties the two together is said of one token first: a step from a position leads to the
positions behind the texts of the token that stand there (`Token.mem_step_iff`), and a token goes
through exactly if the tokens behind it go through at one of these positions
(`Token.thenMatches_drop_iff`).

The induction is on the tokens with the set kept general: a sweep from some positions has an end if
the tokens go through at one of them (`nonempty_ends_sweepFrom_iff`). The only token that could
break this is the end of the line, which a search does not look behind. In a pattern whose anchors
stand at its ends there is nothing behind it.

That nothing is tried twice is a matter of the tokens alone: the trials of a token come from a set,
and the tokens from a token on are more than those from a later one on (`nodup_trials_sweepFrom`).
-/

namespace LinePattern

/-- The position behind the char at position `i`, if `p` accepts that char. -/
def charStep (p : Char → Bool) (line : List Char) (i : ℕ) : Finset ℕ :=
  if (line.drop i).head?.any p then {i + 1} else ∅

/-- The positions that a token leads to from position `i`. The end of the line leads nowhere else,
and the start of the line leads nowhere, for it is no place to be met on the way. -/
def Token.step (line : List Char) (t : Token) (i : ℕ) : Finset ℕ :=
  match t with
  | lineStart => ∅
  | lineEnd => if i = line.length then {i} else ∅
  | atom a .one => charStep a.accepts line i
  | atom a .optional => insert i (charStep a.accepts line i)
  | atom a .oneOrMore =>
    -- Every position behind `i` up to which the atom takes all chars.
    (Finset.Ioc i line.length).filter fun j => ((line.take j).drop i).all a.accepts
  | charClass polarity members => charStep (polarity.admits members) line i
  | group options =>
    ((options.filter (·.isPrefixOf (line.drop i))).map fun o => i + o.length).toFinset

/-- A sweep that is written down. -/
structure Sweep where
  /-- The positions at which all tokens can have stopped. -/
  ends : Finset ℕ
  /-- What was tried: a token, told by the tokens from it on, and the position of the trial. -/
  trials : List (Pattern × ℕ)

namespace Pattern

/-- The sweep of the tokens where the positions `S` have been come to. -/
def sweepFrom (line : List Char) : Pattern → Finset ℕ → Sweep
  | [], S => { ends := S, trials := [] }
  | t :: ts, S =>
    -- The positions behind `t` are a set, so that no two ways to one of them are told apart.
    let behind := sweepFrom line ts (S.biUnion (t.step line))
    { ends := behind.ends, trials := (S.sort (· ≤ ·)).map (t :: ts, ·) ++ behind.trials }

/-- The sweep of the line for the pattern. It starts at the front of the line for a pattern that
starts with the start of the line, and everywhere, the end included, for any other. -/
def sweep (p : Pattern) (line : List Char) : Sweep :=
  match p with
  | .lineStart :: ts => sweepFrom line ts {0}
  | ts => sweepFrom line ts (Finset.range (line.length + 1))

end Pattern

variable {line : List Char} {i j : ℕ}

/-! ### Texts at a position -/

/-- A text stands at a position if it is the slice of its own length there. -/
theorem prefix_drop_iff {w : List Char} :
    w <+: line.drop i ↔ (line.take (i + w.length)).drop i = w := by
  rw [List.prefix_iff_eq_take, List.drop_take, Nat.add_sub_cancel_left]
  exact eq_comm

/-- A text that stands at a position ends in the line. -/
theorem add_length_le_of_prefix_drop {w : List Char} (hi : i ≤ line.length)
    (h : w <+: line.drop i) : i + w.length ≤ line.length := by
  have h_le := h.length_le
  rw [List.length_drop] at h_le
  omega

/-- **One char.** A step leads behind the char that stands at the position, if it is one of those
that make up the texts of `l`. -/
theorem mem_charStep_iff {p : Char → Bool} {l : Language Char}
    (hl : ∀ w, w ∈ l ↔ ∃ c, p c = true ∧ w = [c]) :
    j ∈ charStep p line i ↔ ∃ w ∈ l, w <+: line.drop i ∧ j = i + w.length := by
  have h_text : (∃ w ∈ l, w <+: line.drop i ∧ j = i + w.length) ↔
      ∃ c, p c = true ∧ (line.drop i).head? = some c ∧ j = i + 1 := by
    simp only [hl, ← List.singleton_prefix_iff_head?_eq_some]
    refine ⟨?_, ?_⟩
    · intro h
      obtain ⟨_, ⟨c, hc, rfl⟩, h_prefix, h_eq⟩ := h
      exact ⟨c, hc, h_prefix, h_eq⟩
    · intro h
      obtain ⟨c, hc, h_prefix, h_eq⟩ := h
      exact ⟨[c], ⟨c, hc, rfl⟩, h_prefix, h_eq⟩
  rw [h_text]
  unfold charStep
  cases (line.drop i).head? with
  | none => simp
  | some c => by_cases hc : p c = true <;> simp [hc]

/-- **A run.** All chars from one position up to another one behind it are accepted exactly if a run
of accepted chars leads from the one to the other. -/
theorem forall_mem_slice_iff {p : Char → Prop} (hi : i ≤ line.length) :
    ((i < j ∧ j ≤ line.length) ∧ ∀ c ∈ (line.take j).drop i, p c) ↔
      ∃ w, (w ≠ [] ∧ ∀ c ∈ w, p c) ∧ w <+: line.drop i ∧ j = i + w.length := by
  refine ⟨?_, ?_⟩
  · -- The slice up to the position is a run.
    intro h
    obtain ⟨⟨h_lt, h_le⟩, h_all⟩ := h
    have h_length : ((line.take j).drop i).length = j - i := by
      rw [List.length_drop, List.length_take, min_eq_left h_le]
    refine ⟨(line.take j).drop i, ⟨?_, h_all⟩, ?_, ?_⟩
    · rw [← List.length_pos_iff, h_length]
      omega
    · rw [List.drop_take]
      exact List.take_prefix _ _
    · omega
  · -- A run is the slice up to the position behind it.
    intro h
    obtain ⟨w, ⟨h_ne, h_all⟩, h_prefix, rfl⟩ := h
    have h_pos := List.length_pos_iff.mpr h_ne
    refine ⟨⟨by omega, add_length_le_of_prefix_drop hi h_prefix⟩, ?_⟩
    rw [prefix_drop_iff.mp h_prefix]
    exact h_all

namespace Token

/-- **One token.** A step leads to the positions behind the texts of the token that stand at the
position. -/
theorem mem_step_iff {t : Token} (ht : ¬ t.IsAnchor) (hi : i ≤ line.length) :
    j ∈ t.step line i ↔ ∃ w ∈ t.language, w <+: line.drop i ∧ j = i + w.length := by
  cases t with
  | lineStart => exact absurd (.inl rfl) ht
  | lineEnd => exact absurd (.inr rfl) ht
  | charClass polarity members =>
    cases polarity with
    | positive => exact mem_charStep_iff fun w => by simp [mem_language_positive]
    | negative => exact mem_charStep_iff fun w => by simp [mem_language_negative]
  | group options =>
    simp only [step, mem_language_group, List.mem_toFinset, List.mem_map, List.mem_filter,
      List.isPrefixOf_iff_prefix]
    refine ⟨?_, ?_⟩
    · intro h
      obtain ⟨w, ⟨hw, h_prefix⟩, rfl⟩ := h
      exact ⟨w, hw, h_prefix, rfl⟩
    · intro h
      obtain ⟨w, hw, h_prefix, rfl⟩ := h
      exact ⟨w, ⟨hw, h_prefix⟩, rfl⟩
  | atom a q =>
    have h_one : j ∈ charStep a.accepts line i ↔
        ∃ w ∈ (atom a .one).language, w <+: line.drop i ∧ j = i + w.length :=
      mem_charStep_iff fun w => by simp only [mem_language_one, Atom.mem_chars_iff]
    cases q with
    | one => exact h_one
    | optional =>
      -- Beside the texts of the atom alone there is the empty one, which leads nowhere else.
      simp only [step, Finset.mem_insert, h_one, mem_language_one, mem_language_optional]
      refine ⟨?_, ?_⟩
      · intro h
        obtain rfl | ⟨w, hw, h_prefix, h_eq⟩ := h
        · exact ⟨[], .inl rfl, List.nil_prefix, rfl⟩
        · exact ⟨w, .inr hw, h_prefix, h_eq⟩
      · intro h
        obtain ⟨w, rfl | hw, h_prefix, h_eq⟩ := h
        · exact .inl h_eq
        · exact .inr ⟨w, hw, h_prefix, h_eq⟩
    | oneOrMore =>
      simp only [step, Finset.mem_filter, Finset.mem_Ioc, List.all_eq_true, mem_language_oneOrMore,
        Atom.mem_chars_iff]
      exact forall_mem_slice_iff hi

/-- The end of the line leads nowhere else, and only from where it is. -/
theorem mem_step_lineEnd_iff : j ∈ lineEnd.step line i ↔ i = line.length ∧ j = i := by
  change j ∈ (if i = line.length then {i} else ∅ : Finset ℕ) ↔ _
  by_cases h : i = line.length <;> simp [h]

/-- A step stays in the line. -/
theorem step_subset {t : Token} (hi : i ≤ line.length) :
    t.step line i ⊆ Finset.range (line.length + 1) := by
  intro j hj
  rw [Finset.mem_range, Nat.lt_succ_iff]
  by_cases ht : t.IsAnchor
  · obtain rfl | rfl := ht
    · exact absurd hj (Finset.notMem_empty j)
    · obtain ⟨h_eq, rfl⟩ := mem_step_lineEnd_iff.mp hj
      exact h_eq.le
  · obtain ⟨w, -, h_prefix, rfl⟩ := (mem_step_iff ht hi).mp hj
    exact add_length_le_of_prefix_drop hi h_prefix

/-- **One token, searched and swept.** It goes through at a position exactly if what is behind it
does so at a position that it leads to. Behind the end of the line everything has to. -/
theorem thenMatches_drop_iff {t : Token} {k : List Char → Bool} (hi : i ≤ line.length)
    (h_end : t = lineEnd → ∀ rest, k rest = true) :
    t.thenMatches k (line.drop i) = true ↔ ∃ j ∈ t.step line i, k (line.drop j) = true := by
  by_cases ht : t.IsAnchor
  · obtain rfl | rfl := ht
    · exact iff_of_false Bool.false_ne_true fun ⟨j, hj, _⟩ => Finset.notMem_empty j hj
    · -- The search asks whether nothing is left, and that is so at the end alone.
      change (line.drop i).isEmpty = true ↔ _
      rw [List.isEmpty_iff, List.drop_eq_nil_iff]
      simp only [mem_step_lineEnd_iff]
      refine ⟨?_, ?_⟩
      · intro h_le
        exact ⟨i, ⟨le_antisymm hi h_le, rfl⟩, h_end rfl _⟩
      · intro h
        obtain ⟨j, ⟨h_eq, -⟩, -⟩ := h
        exact h_eq.ge
  · -- Both sides are about texts of the token at the position.
    rw [thenMatches_iff ht]
    simp only [mem_step_iff ht hi]
    refine ⟨?_, ?_⟩
    · intro h
      obtain ⟨w, hw, rest, h_drop, h_k⟩ := h
      refine ⟨i + w.length, ⟨w, hw, ⟨rest, h_drop.symm⟩, rfl⟩, ?_⟩
      rwa [← List.drop_drop, h_drop, List.drop_left]
    · intro h
      obtain ⟨_, ⟨w, hw, ⟨rest, h_drop⟩, rfl⟩, h_k⟩ := h
      refine ⟨w, hw, rest, h_drop.symm, ?_⟩
      rwa [← List.drop_drop, ← h_drop, List.drop_left] at h_k

end Token

namespace Pattern

variable {ts : Pattern} {S : Finset ℕ}

/-! ### All tokens -/

/-- A sweep tries the first token at each of the positions, and goes on from where these trials
lead. -/
theorem sweepFrom_cons (line : List Char) (t : Token) (ts : Pattern) (S : Finset ℕ) :
    sweepFrom line (t :: ts) S =
      { ends := (sweepFrom line ts (S.biUnion (t.step line))).ends
        trials := (S.sort (· ≤ ·)).map (t :: ts, ·) ++
          (sweepFrom line ts (S.biUnion (t.step line))).trials } := rfl

/-- All positions that one token leads to are in the line. -/
theorem biUnion_step_subset (t : Token) (hS : S ⊆ Finset.range (line.length + 1)) :
    S.biUnion (t.step line) ⊆ Finset.range (line.length + 1) := by
  rw [Finset.biUnion_subset]
  intro i hi
  exact Token.step_subset (Nat.lt_succ_iff.mp (Finset.mem_range.mp (hS hi)))

/-- **The run.** A sweep has an end exactly if the tokens go through at one of the positions that it
starts from. -/
theorem nonempty_ends_sweepFrom_iff {p : Pattern} (hp : p.Anchored) (h_suffix : ts <:+ p)
    (hS : S ⊆ Finset.range (line.length + 1)) :
    (sweepFrom line ts S).ends.Nonempty ↔ ∃ i ∈ S, matchesHere ts (line.drop i) = true := by
  induction ts generalizing S with
  | nil =>
    refine ⟨?_, ?_⟩
    · intro h
      obtain ⟨i, hi⟩ := h
      exact ⟨i, hi, rfl⟩
    · intro h
      obtain ⟨i, hi, -⟩ := h
      exact ⟨i, hi⟩
  | cons t ts ih =>
    have h_tail : ts <:+ p := (List.suffix_cons t ts).trans h_suffix
    -- Behind the end of the line there are no tokens, and so nothing that could fail.
    have h_last : t = .lineEnd → ∀ rest, matchesHere ts rest = true := by
      intro h_eq rest
      rw [h_eq] at h_suffix
      rw [hp.eq_nil_of_lineEnd_cons_suffix h_suffix, matchesHere_nil]
    have h_step : ∀ i ∈ S, (matchesHere (t :: ts) (line.drop i) = true ↔
        ∃ j ∈ t.step line i, matchesHere ts (line.drop j) = true) := by
      intro i hi
      have h_le : i ≤ line.length := Nat.lt_succ_iff.mp (Finset.mem_range.mp (hS hi))
      rw [matchesHere_cons]
      exact Token.thenMatches_drop_iff h_le h_last
    calc (sweepFrom line (t :: ts) S).ends.Nonempty
        ↔ ∃ j ∈ S.biUnion (t.step line), matchesHere ts (line.drop j) = true :=
          ih h_tail (biUnion_step_subset t hS)
      _ ↔ ∃ i ∈ S, ∃ j ∈ t.step line i, matchesHere ts (line.drop j) = true := by
          -- A position behind the token is one that a step from some position of `S` leads to.
          simp only [Finset.mem_biUnion]
          refine ⟨?_, ?_⟩
          · intro h
            obtain ⟨j, ⟨i, hi, hj⟩, h_here⟩ := h
            exact ⟨i, hi, j, hj, h_here⟩
          · intro h
            obtain ⟨i, hi, j, hj, h_here⟩ := h
            exact ⟨j, ⟨i, hi, hj⟩, h_here⟩
      _ ↔ ∃ i ∈ S, matchesHere (t :: ts) (line.drop i) = true :=
          exists_congr fun i => and_congr_right fun hi => (h_step i hi).symm

/-! ### What is tried -/

/-- A sweep tries the tokens of the pattern and the tokens from a later one on. -/
theorem length_le_of_mem_trials {x : Pattern × ℕ} (hx : x ∈ (sweepFrom line ts S).trials) :
    x.1.length ≤ ts.length := by
  induction ts generalizing S with
  | nil => exact absurd hx List.not_mem_nil
  | cons t ts ih =>
    rw [sweepFrom_cons, List.mem_append] at hx
    obtain hx | hx := hx
    · obtain ⟨i, -, rfl⟩ := List.mem_map.mp hx
      exact le_rfl
    · exact (ih hx).trans (Nat.le_succ _)

/-- **Nothing is tried twice.** -/
theorem nodup_trials_sweepFrom (line : List Char) (ts : Pattern) (S : Finset ℕ) :
    (sweepFrom line ts S).trials.Nodup := by
  induction ts generalizing S with
  | nil => exact List.nodup_nil
  | cons t ts ih =>
    -- The trials of one token are at different positions.
    have h_now : ((S.sort (· ≤ ·)).map fun i => (t :: ts, i)).Nodup := by
      apply List.Nodup.map
      · intro i j h_eq
        exact (Prod.mk.inj h_eq).2
      · exact S.sort_nodup (· ≤ ·)
    rw [sweepFrom_cons, List.nodup_append]
    refine ⟨h_now, ih _, ?_⟩
    -- What is tried later has fewer tokens left.
    intro x hx y hy h_eq
    obtain ⟨i, -, rfl⟩ := List.mem_map.mp hx
    have h_le := length_le_of_mem_trials hy
    rw [← h_eq, List.length_cons] at h_le
    omega

/-- Each token is tried at most at each place of the line. -/
theorem length_trials_sweepFrom_le (hS : S ⊆ Finset.range (line.length + 1)) :
    (sweepFrom line ts S).trials.length ≤ ts.length * (line.length + 1) := by
  induction ts generalizing S with
  | nil => exact Nat.zero_le _
  | cons t ts ih =>
    -- The positions of one token are positions of the line, and no more than those.
    have h_card : S.card ≤ line.length + 1 := by
      calc S.card ≤ (Finset.range (line.length + 1)).card := Finset.card_le_card hS
        _ = line.length + 1 := Finset.card_range _
    calc (sweepFrom line (t :: ts) S).trials.length
        = S.card + (sweepFrom line ts (S.biUnion (t.step line))).trials.length := by
          rw [sweepFrom_cons, List.length_append, List.length_map, Finset.length_sort]
      _ ≤ (line.length + 1) + ts.length * (line.length + 1) :=
          Nat.add_le_add h_card (ih (biUnion_step_subset t hS))
      _ = (t :: ts).length * (line.length + 1) := by
          rw [List.length_cons, Nat.succ_mul, Nat.add_comm]

/-! ### The whole line -/

/-- To be somewhere in the line is to be at one of its positions. -/
theorem anySuffix_iff_exists_drop {k : List Char → Bool} :
    anySuffix k line = true ↔ ∃ i ∈ Finset.range (line.length + 1), k (line.drop i) = true := by
  rw [anySuffix_iff]
  refine ⟨?_, ?_⟩
  · intro h
    obtain ⟨before, rest, rfl, h_k⟩ := h
    refine ⟨before.length, ?_, ?_⟩
    · rw [Finset.mem_range, List.length_append]
      omega
    · rwa [List.drop_left]
  · intro h
    obtain ⟨i, -, h_k⟩ := h
    exact ⟨line.take i, line.drop i, (List.take_append_drop i line).symm, h_k⟩

/-- What a sweep tries and where it starts: everywhere in the line, or at its front. -/
theorem exists_sweep_eq (p : Pattern) (line : List Char) :
    ∃ ts S, p.sweep line = sweepFrom line ts S ∧ ts <:+ p ∧
      S ⊆ Finset.range (line.length + 1) ∧
      (p.search line = true ↔ ∃ i ∈ S, matchesHere ts (line.drop i) = true) := by
  by_cases h_head : p.head? = some .lineStart
  · obtain ⟨ts, rfl⟩ := List.head?_eq_some_iff.mp h_head
    -- At the front of the line only, and without the token that says so.
    refine ⟨ts, {0}, rfl, List.suffix_cons _ ts, ?_, ?_⟩
    · rw [Finset.singleton_subset_iff, Finset.mem_range]
      exact Nat.succ_pos _
    · change matchesHere ts line = true ↔ _
      simp
  · refine ⟨p, Finset.range (line.length + 1), ?_, List.suffix_refl p, Finset.Subset.refl _, ?_⟩
    · unfold sweep
      split
      · exact absurd rfl h_head
      · rfl
    · rw [search_eq_anySuffix h_head, anySuffix_iff_exists_drop]

/-- **Searching and sweeping.** A compiled pattern is found in a line exactly if the sweep of the
line has an end. The sweep tries no token twice at one position, and so makes at most as many trials
as there are tokens and places. -/
theorem search_iff_nonempty_ends_sweep {s : List Char} {p : Pattern} (h : compile s = .ok p)
    (line : List Char) :
    (p.search line = true ↔ (p.sweep line).ends.Nonempty) ∧ (p.sweep line).trials.Nodup ∧
      (p.sweep line).trials.length ≤ p.length * (line.length + 1) := by
  have h_anchored : p.Anchored := (wellFormed_of_compile h).anchored
  obtain ⟨ts, S, h_sweep, h_suffix, hS, h_search⟩ := exists_sweep_eq p line
  rw [h_sweep, h_search]
  have h_ends := (nonempty_ends_sweepFrom_iff h_anchored h_suffix hS).symm
  refine ⟨h_ends, nodup_trials_sweepFrom line ts S, ?_⟩
  calc (sweepFrom line ts S).trials.length
      ≤ ts.length * (line.length + 1) := length_trials_sweepFrom_le hS
    _ ≤ p.length * (line.length + 1) := Nat.mul_le_mul_right _ h_suffix.length_le

/-- Two of the tokens can stop at several positions, and one of these positions is the end. -/
theorem search_of_sweep_with_choices :
    compile "a+(b|bc)c?$".toList =
        .ok
          [.atom (.literal 'a') .oneOrMore, .group [['b'], ['b', 'c']],
            .atom (.literal 'c') .optional, .lineEnd] ∧
      (sweep
        [.atom (.literal 'a') .oneOrMore, .group [['b'], ['b', 'c']],
          .atom (.literal 'c') .optional, .lineEnd]
        "aabc".toList).ends = {4} ∧
      search
        [.atom (.literal 'a') .oneOrMore, .group [['b'], ['b', 'c']],
          .atom (.literal 'c') .optional, .lineEnd]
        "aabc".toList = true := by
  have h_compile : compile "a+(b|bc)c?$".toList =
      .ok
        [.atom (.literal 'a') .oneOrMore, .group [['b'], ['b', 'c']],
          .atom (.literal 'c') .optional, .lineEnd] := by
    decide +kernel
  have h_ends : (sweep
      [.atom (.literal 'a') .oneOrMore, .group [['b'], ['b', 'c']],
        .atom (.literal 'c') .optional, .lineEnd]
      "aabc".toList).ends = {4} := by
    decide +kernel
  obtain ⟨h_search, -⟩ := search_iff_nonempty_ends_sweep h_compile "aabc".toList
  refine ⟨h_compile, h_ends, h_search.mpr ?_⟩
  rw [h_ends]
  exact Finset.singleton_nonempty 4

end Pattern

end LinePattern
