import LinePattern.Proofs.LiteralText

/-!
# Tokens in plainer words

Most tokens can be written with plainer ones. A group stands for the texts of its options, and a
positive class for the literals of its members; an optional char is there or is not; and a run is
one char, or one char and a run. `Token.expansions` lists these ways, and wherever the token stands
in a pattern, it is found exactly if one of them is found in its place.

The choice between them is one that a search makes late: behind the choices of the tokens in front,
and with those of the tokens behind it still to come. But all of this can be told apart from it.
What stands around some tokens leaves room in a line for some texts and not for others (`HasRoom`),
and of the tokens themselves nothing matters but their texts (`search_append_iff`).

Main statements:

* `Token.mem_language_iff_expansions`: the texts of a token are those of its expansions.
* `search_iff_exists_expansion`: a token can be replaced by its expansions wherever it stands.
-/

namespace LinePattern

namespace Pattern

variable {pre post ts : Pattern} {line : List Char}

/-! ### What stands around tokens -/

/-- The two lists can stand around tokens without anchors. -/
structure Surrounds (pre post : Pattern) : Prop where
  /-- In front, the start of the line is at most the first token. -/
  lineStart_notMem_tail : .lineStart ∉ pre.tail
  /-- In front, there is no end of the line. -/
  lineEnd_notMem : .lineEnd ∉ pre
  /-- Behind, there is no start of the line. -/
  lineStart_notMem : .lineStart ∉ post
  /-- Behind, the end of the line is at most the last token. -/
  lineEnd_notMem_dropLast : .lineEnd ∉ post.dropLast

/-- What stands around tokens in an anchored list can stand around others. -/
theorem Anchored.surrounds (h : Anchored (pre ++ ts ++ post)) (h_ne : ts ≠ []) :
    Surrounds pre post := by
  have h_front : pre ++ ts ≠ [] := List.append_ne_nil_of_right_ne_nil pre h_ne
  have h_back : ts ++ post ≠ [] := List.append_ne_nil_of_left_ne_nil h_ne post
  have h_start := h.lineStart_notMem_tail
  have h_end := h.lineEnd_notMem_dropLast
  -- As there are tokens in between, all of `post` is behind the first token of the list, and all of
  -- `pre` in front of the last one.
  refine ⟨?_, ?_, ?_, ?_⟩
  · intro h_mem
    apply h_start
    have h_pre := List.ne_nil_of_mem (List.mem_of_mem_tail h_mem)
    rw [List.append_assoc, List.tail_append_of_ne_nil h_pre]
    exact List.mem_append_left _ h_mem
  · intro h_mem
    apply h_end
    rw [List.append_assoc, List.dropLast_append_of_ne_nil h_back]
    exact List.mem_append_left _ h_mem
  · intro h_mem
    apply h_start
    rw [List.tail_append_of_ne_nil h_front]
    exact List.mem_append_right _ h_mem
  · intro h_mem
    apply h_end
    have h_post := List.ne_nil_of_mem (List.mem_of_mem_dropLast h_mem)
    rw [List.dropLast_append_of_ne_nil h_post]
    exact List.mem_append_right _ h_mem

namespace Surrounds

variable (h : Surrounds pre post) (h_ts : ∀ t ∈ ts, ¬ t.IsAnchor)

include h h_ts

/-- In front of the last token there is no end of the line, and behind the first one no start. -/
theorem anchored : Anchored (pre ++ ts ++ post) := by
  have h_start : .lineStart ∉ ts ++ post := by
    refine List.not_mem_append ?_ h.lineStart_notMem
    intro h_mem
    exact h_ts _ h_mem (.inl rfl)
  have h_end : .lineEnd ∉ pre ++ ts := by
    refine List.not_mem_append h.lineEnd_notMem ?_
    intro h_mem
    exact h_ts _ h_mem (.inr rfl)
  refine ⟨?_, ?_⟩
  · -- The first token, which may be the start of the line, is that of `pre` if there is one.
    rw [List.append_assoc]
    cases pre with
    | nil => exact fun h_mem => h_start (List.mem_of_mem_tail h_mem)
    | cons t pre => exact List.not_mem_append h.lineStart_notMem_tail h_start
  · -- From the other end the same holds of the last token and `post`.
    obtain rfl | ⟨post, t, rfl⟩ := List.eq_nil_or_concat' post
    · rw [List.append_nil]
      exact fun h_mem => h_end (List.mem_of_mem_dropLast h_mem)
    · have h_post := h.lineEnd_notMem_dropLast
      rw [List.dropLast_concat] at h_post
      rw [← List.append_assoc, List.dropLast_concat]
      exact List.not_mem_append h_end h_post

/-- With something around them that can be there, tokens without anchors do not change what is in
front. -/
theorem head?_append_iff :
    (pre ++ ts ++ post).head? = some .lineStart ↔ pre.head? = some .lineStart := by
  cases pre with
  | cons t pre => exact Iff.rfl
  | nil =>
    -- Without tokens in front the first one is one of `ts` or of `post`, and no start of the line.
    refine iff_of_false ?_ nofun
    intro h_head
    obtain h_mem | h_mem := List.mem_append.mp (List.mem_of_head? h_head)
    · exact h_ts _ h_mem (.inl rfl)
    · exact h.lineStart_notMem h_mem

/-- They do not change what is behind them either. -/
theorem getLast?_append_iff :
    (pre ++ ts ++ post).getLast? = some .lineEnd ↔ post.getLast? = some .lineEnd := by
  obtain rfl | ⟨post, t, rfl⟩ := List.eq_nil_or_concat' post
  · refine iff_of_false ?_ nofun
    intro h_last
    rw [List.append_nil] at h_last
    obtain h_mem | h_mem := List.mem_append.mp (List.mem_of_getLast? h_last)
    · exact h.lineEnd_notMem h_mem
    · exact h_ts _ h_mem (.inr rfl)
  · rw [← List.append_assoc, List.getLast?_concat, List.getLast?_concat]

end Surrounds

/-- What stands around tokens leaves room in the line for the text `w`: there is a text of `pre` in
front of it and one of `post` behind it, at the ends of the line that these are anchored to. -/
def HasRoom (pre post : Pattern) (line w : List Char) : Prop :=
  ∃ before u v after, line = before ++ (u ++ w ++ v) ++ after ∧ u ∈ language pre ∧
    v ∈ language post ∧ (pre.head? = some .lineStart → before = []) ∧
    (post.getLast? = some .lineEnd → after = [])

/-- **Only the texts matter.** Tokens are found between others exactly if there is room for one of
their texts. -/
theorem search_append_iff (h : Surrounds pre post) (h_ts : ∀ t ∈ ts, ¬ t.IsAnchor) :
    search (pre ++ ts ++ post) line = true ↔ ∃ w ∈ language ts, HasRoom pre post line w := by
  rw [search_iff_occursIn (h.anchored h_ts), OccursIn, h.head?_append_iff h_ts,
    h.getLast?_append_iff h_ts, language_append, language_append]
  refine ⟨?_, ?_⟩
  · intro h_occurs
    obtain ⟨before, found, after, rfl, h_found, h_before, h_after⟩ := h_occurs
    -- A text of the whole list is a text `w` of the tokens with one of each side around it.
    obtain ⟨uw, h_uw, v, h_v, rfl⟩ := Language.mem_mul.mp h_found
    obtain ⟨u, h_u, w, h_w, rfl⟩ := Language.mem_mul.mp h_uw
    exact ⟨w, h_w, before, u, v, after, rfl, h_u, h_v, h_before, h_after⟩
  · intro h_room
    obtain ⟨w, h_w, before, u, v, after, rfl, h_u, h_v, h_before, h_after⟩ := h_room
    have h_found : u ++ w ++ v ∈ language pre * language ts * language post :=
      Language.append_mem_mul (Language.append_mem_mul h_u h_w) h_v
    exact ⟨before, u ++ w ++ v, after, rfl, h_found, h_before, h_after⟩

/-- **Choices.** Where the texts of some tokens are those of several lists of tokens, the tokens are
found exactly if one of the lists is found in their place. -/
theorem search_append_iff_exists (h : Surrounds pre post) (h_ts : ∀ t ∈ ts, ¬ t.IsAnchor)
    {choices : List Pattern} (h_choices : ∀ us ∈ choices, ∀ t ∈ us, ¬ t.IsAnchor)
    (h_language : ∀ w, w ∈ language ts ↔ ∃ us ∈ choices, w ∈ language us) :
    search (pre ++ ts ++ post) line = true ↔
      ∃ us ∈ choices, search (pre ++ us ++ post) line = true := by
  rw [search_append_iff h h_ts]
  refine ⟨?_, ?_⟩
  · -- The room does not know which tokens the text is of.
    intro h_room
    obtain ⟨w, h_w, h_room⟩ := h_room
    obtain ⟨us, h_us, h_w⟩ := (h_language w).mp h_w
    exact ⟨us, h_us, (search_append_iff h (h_choices us h_us)).mpr ⟨w, h_w, h_room⟩⟩
  · intro h_choice
    obtain ⟨us, h_us, h_search⟩ := h_choice
    obtain ⟨w, h_w, h_room⟩ := (search_append_iff h (h_choices us h_us)).mp h_search
    exact ⟨w, (h_language w).mpr ⟨us, h_us, h_w⟩, h_room⟩

end Pattern

/-! ### Expansions -/

/-- The ways to write a token with plainer ones. A single char of an atom, a negative class and an
anchor are as plain as can be. -/
def Token.expansions : Token → List Pattern
  | group options => options.map Pattern.ofText
  | charClass .positive members => members.map fun c => Pattern.ofText [c]
  | atom a .optional => [[], [atom a .one]]
  | atom a .oneOrMore => [[atom a .one], [atom a .one, atom a .oneOrMore]]
  | t => [[t]]

/-- The texts of a list of one token are those of the token. -/
theorem Pattern.language_singleton (t : Token) : language [t] = t.language := by
  rw [language_cons, language_nil, mul_one]

/-- The pattern of a text takes the text and no other. -/
theorem Pattern.mem_language_ofText {s w : List Char} : w ∈ language (ofText s) ↔ w = s := by
  rw [language_ofText]
  exact Iff.rfl

namespace Token

/-- A run is one char, or one char and a run. -/
theorem language_oneOrMore (a : Atom) :
    (atom a .oneOrMore).language =
      (atom a .one).language + (atom a .one).language * (atom a .oneOrMore).language := by
  ext w
  rw [Language.mem_add, Language.mem_mul, mem_language_oneOrMore]
  refine ⟨?_, ?_⟩
  · intro h
    obtain ⟨h_ne, h_chars⟩ := h
    obtain ⟨c, run, rfl⟩ := List.exists_cons_of_ne_nil h_ne
    obtain ⟨h_c, h_run⟩ := List.forall_mem_cons.mp h_chars
    -- What is behind the first char is a run of its own, or nothing.
    by_cases h_nil : run = []
    · exact .inl ⟨c, h_c, by rw [h_nil]⟩
    · exact .inr ⟨[c], ⟨c, h_c, rfl⟩, run, ⟨h_nil, h_run⟩, rfl⟩
  · intro h
    obtain ⟨c, h_c, rfl⟩ | ⟨_, ⟨c, h_c, rfl⟩, run, ⟨h_ne, h_run⟩, rfl⟩ := h
    · exact ⟨List.cons_ne_nil c [], List.forall_mem_singleton.mpr h_c⟩
    · exact ⟨List.cons_ne_nil c run, List.forall_mem_cons.mpr ⟨h_c, h_run⟩⟩

/-- An optional char is none or one. -/
theorem language_optional (a : Atom) :
    (atom a .optional).language = 1 + (atom a .one).language := rfl

variable {t : Token} {w : List Char}

/-- **Expansions keep the texts.** A text of the token is one of an expansion, and the other way
round. -/
theorem mem_language_iff_expansions :
    w ∈ t.language ↔ ∃ us ∈ t.expansions, w ∈ Pattern.language us := by
  -- A token that is plain already is the only list of its own.
  have h_plain : w ∈ t.language ↔ ∃ us ∈ [[t]], w ∈ Pattern.language us := by
    simp [Pattern.language_singleton]
  cases t with
  | lineStart => exact h_plain
  | lineEnd => exact h_plain
  | group options => simp [expansions, mem_language_group, Pattern.mem_language_ofText]
  | charClass polarity members =>
    cases polarity with
    | negative => exact h_plain
    | positive =>
      simp [expansions, mem_language_positive, Pattern.mem_language_ofText]
  | atom a q =>
    cases q with
    | one => exact h_plain
    | optional =>
      simp [expansions, language_optional, Language.mem_add, Pattern.language_nil,
        Pattern.language_singleton]
    | oneOrMore =>
      rw [language_oneOrMore]
      simp [expansions, Language.mem_add, Pattern.language_cons, Pattern.language_nil]

/-- An expansion brings in no anchor. -/
theorem not_isAnchor_of_mem_expansions (ht : ¬ t.IsAnchor) :
    ∀ us ∈ t.expansions, ∀ u ∈ us, ¬ u.IsAnchor := by
  cases t with
  | lineStart => exact absurd (.inl rfl) ht
  | lineEnd => exact absurd (.inr rfl) ht
  | group options =>
    intro us h_us
    obtain ⟨o, -, rfl⟩ := List.mem_map.mp h_us
    exact Pattern.not_isAnchor_of_mem_ofText
  | charClass polarity members =>
    cases polarity with
    | negative => simpa [expansions] using ht
    | positive =>
      intro us h_us
      obtain ⟨c, -, rfl⟩ := List.mem_map.mp h_us
      exact Pattern.not_isAnchor_of_mem_ofText
  | atom a q => cases q <;> simp [expansions, IsAnchor]

end Token

namespace Pattern

variable {pre post : Pattern}

/-- **Replacing a token.** Wherever a token stands in an anchored list, the list is found in a line
exactly if it is found with one of the expansions in the place of the token. -/
theorem search_iff_exists_expansion {t : Token} (h : Anchored (pre ++ [t] ++ post))
    (line : List Char) :
    search (pre ++ [t] ++ post) line = true ↔
      ∃ us ∈ t.expansions, search (pre ++ us ++ post) line = true := by
  have h_around : Surrounds pre post := h.surrounds (List.cons_ne_nil t [])
  by_cases ht : t.IsAnchor
  · -- An anchor is its only expansion.
    obtain rfl | rfl := ht <;> simp [Token.expansions]
  · apply search_append_iff_exists h_around
    · exact List.forall_mem_singleton.mpr ht
    · exact Token.not_isAnchor_of_mem_expansions ht
    · intro w
      rw [language_singleton]
      exact Token.mem_language_iff_expansions

/-- **Plainer tokens.** Wherever it stands in an anchored list, a group is as good as the text of
one of its options, a positive class as the literal of one of its members, an optional char as no
char or one, and a run as one char or one char and a run. -/
theorem search_iff_plain_tokens (pre post : Pattern) (line : List Char) :
    (∀ options, Anchored (pre ++ [Token.group options] ++ post) →
        (search (pre ++ [Token.group options] ++ post) line = true ↔
          ∃ o ∈ options, search (pre ++ ofText o ++ post) line = true)) ∧
      (∀ members, Anchored (pre ++ [Token.charClass .positive members] ++ post) →
        (search (pre ++ [Token.charClass .positive members] ++ post) line = true ↔
          ∃ c ∈ members, search (pre ++ [Token.atom (.literal c) .one] ++ post) line = true)) ∧
      (∀ a, Anchored (pre ++ [Token.atom a .optional] ++ post) →
        (search (pre ++ [Token.atom a .optional] ++ post) line = true ↔
          search (pre ++ post) line = true ∨
            search (pre ++ [Token.atom a .one] ++ post) line = true)) ∧
      ∀ a, Anchored (pre ++ [Token.atom a .oneOrMore] ++ post) →
        (search (pre ++ [Token.atom a .oneOrMore] ++ post) line = true ↔
          search (pre ++ [Token.atom a .one] ++ post) line = true ∨
            search (pre ++ [Token.atom a .one, Token.atom a .oneOrMore] ++ post) line = true) := by
  -- Each of the four lists its expansions.
  refine ⟨?_, ?_, ?_, ?_⟩
  · intro options h
    simpa [Token.expansions] using search_iff_exists_expansion h line
  · intro members h
    simpa [Token.expansions, ofText] using search_iff_exists_expansion h line
  · intro a h
    simpa [Token.expansions] using search_iff_exists_expansion h line
  · intro a h
    simpa [Token.expansions] using search_iff_exists_expansion h line

/-- In each of the four lines a search has to come back to a choice in front of the token or at
it. -/
theorem search_of_plain_tokens :
    (Anchored [.lineStart, .group [['a'], ['a', 'b']], .lineEnd] ∧
        ∃ o ∈ [['a'], ['a', 'b']],
          search (.lineStart :: (ofText o ++ [.lineEnd])) ['a', 'b'] = true) ∧
      (Anchored [.atom .wildcard .oneOrMore, .charClass .positive ['c', 'b'], .lineEnd] ∧
        ∃ c ∈ ['c', 'b'],
          search [.atom .wildcard .oneOrMore, .atom (.literal c) .one, .lineEnd]
            ['c', 'a', 'b'] = true) ∧
      (Anchored [.atom .word .oneOrMore, .atom .digit .optional, .lineEnd] ∧
        (search [.atom .word .oneOrMore, .lineEnd] ['a', '1'] = true ∨
          search [.atom .word .oneOrMore, .atom .digit .one, .lineEnd] ['a', '1'] = true)) ∧
      Anchored [.lineStart, .atom .digit .oneOrMore, .atom (.literal '1') .one] ∧
        (search [.lineStart, .atom .digit .one, .atom (.literal '1') .one]
            ['0', '0', '1'] = true ∨
          search
            [.lineStart, .atom .digit .one, .atom .digit .oneOrMore, .atom (.literal '1') .one]
            ['0', '0', '1'] = true) := by
  have h_group : Anchored [.lineStart, .group [['a'], ['a', 'b']], .lineEnd] := by decide
  have h_class : Anchored
      [.atom .wildcard .oneOrMore, .charClass .positive ['c', 'b'], .lineEnd] := by decide
  have h_optional : Anchored
      [.atom .word .oneOrMore, .atom .digit .optional, .lineEnd] := by decide
  have h_run : Anchored
      [.lineStart, .atom .digit .oneOrMore, .atom (.literal '1') .one] := by decide
  refine ⟨⟨h_group, ?_⟩, ⟨h_class, ?_⟩, ⟨h_optional, ?_⟩, h_run, ?_⟩
  · exact ((search_iff_plain_tokens [.lineStart] [.lineEnd] _).1 _ h_group).mp (by decide)
  · exact ((search_iff_plain_tokens [.atom .wildcard .oneOrMore] [.lineEnd] _).2.1 _ h_class).mp
      (by decide)
  · exact ((search_iff_plain_tokens [.atom .word .oneOrMore] [.lineEnd] _).2.2.1 _ h_optional).mp
      (by decide)
  · exact ((search_iff_plain_tokens [.lineStart] [.atom (.literal '1') .one] _).2.2.2 _ h_run).mp
      (by decide)

end Pattern

end LinePattern
