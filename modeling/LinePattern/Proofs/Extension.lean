import LinePattern.Proofs.Grammar

/-!
# Texts that go on

What becomes of a pattern text when more is put behind it. The items that can be cut off its front
stay what they are: an item ends where it ended, unless the text behind it is new and starts with a
quantifier sign. So compiling the longer text is compiling what was left behind the items, and what
is new (`Cut.compile_append`).

* Where nothing was left, the two texts are compiled one after the other
  (`compile_append_of_compile`).
* Where a fault was left it may become an item. A fault that is a char out of place stays, whatever
  follows; a backslash at the end escapes the next char; and a bracket that is not closed waits for
  the char that closes it (`compile_append_of_error`).
-/

namespace LinePattern.Pattern

/-! ### The items in front -/

/-- Items can be cut off in front of a longer text as well. Only the last of them could mind, and
only if nothing stood behind it so far. -/
theorem ItemsBefore.append {items : List (List Char × Token)} {rest more : List Char}
    (h : ItemsBefore items rest)
    (h_head : rest = [] → more.head? ≠ some '+' ∧ more.head? ≠ some '?') :
    ItemsBefore items (rest ++ more) := by
  obtain ⟨h_writes, h_last⟩ := itemsBefore_iff.mp h
  refine itemsBefore_iff.mpr ⟨h_writes, ?_⟩
  intro i hi
  obtain ⟨h_ends, h_ne⟩ := h_last i hi
  refine ⟨?_, ?_⟩
  · -- The first char behind the last item is that of `rest`, if there is one.
    intro a ha
    cases rest with
    | nil => exact h_head rfl
    | cons c cs => exact h_ends a ha
  · intro h_dollar
    exact List.append_ne_nil_of_left_ne_nil (h_ne h_dollar) more

/-- **What is new goes behind what was left.** -/
theorem Cut.compile_append {c : Cut} (h : c.Valid) (h_ne : c.text ≠ []) {more : List Char}
    (h_head : c.rest = [] → more.head? ≠ some '+' ∧ more.head? ≠ some '?') :
    compile (c.text ++ more) =
      ((compileBody (c.rest ++ more)).mapError (.shift c.before.length)).map (c.tokens ++ ·) := by
  -- The cut at the same place of the longer text.
  let d : Cut := { c with rest := c.rest ++ more }
  have h_text : c.text ++ more = d.text := List.append_assoc ..
  have h_start : d.start = true ↔ d.text.head? = some '^' := by
    rw [← h_text, List.head?_append_of_ne_nil _ h_ne]
    exact h.start_iff
  rw [h_text]
  apply Cut.compile_text_of_itemsBefore h_start (h.items.append h_head)
  rw [← h_text]
  exact List.append_ne_nil_of_left_ne_nil h_ne more

/-! ### Behind a text that compiles -/

/-- Compiling goes on behind a text that does not end with the end of the line. -/
theorem compile_append {s more : List Char} {p : Pattern} (h : compile s = .ok p)
    (h_last : p.getLast? ≠ some .lineEnd) (h_ne : more ≠ []) (h_caret : more.head? ≠ some '^')
    (h_sign : more.head? ≠ some '+' ∧ more.head? ≠ some '?') :
    compile (s ++ more) = ((compile more).mapError (.shift s.length)).map (p ++ ·) := by
  obtain ⟨h_text, l, h_valid, rfl, rfl⟩ := exists_layout_of_compile h
  have h_stop : l.stop = false := by
    rw [← Bool.not_eq_true]
    intro h_stop
    apply h_last
    rw [Layout.tokens, h_stop, if_pos rfl]
    exact List.getLast?_concat
  -- So the whole text is in front of the cut, and the whole of `more` behind it.
  have h_rest : l.cut.rest = [] := by
    change (if l.stop then ['$'] else []) = []
    rw [h_stop, if_neg Bool.false_ne_true]
  have h_before : l.cut.before = l.text := by
    rw [← Layout.text_cut, Cut.text, h_rest, List.append_nil]
  have h_tokens : l.cut.tokens = l.tokens := by
    rw [Layout.tokens, h_stop, if_neg Bool.false_ne_true, List.append_nil]
    rfl
  calc compile (l.text ++ more)
      = ((compileBody (l.cut.rest ++ more)).mapError (.shift l.cut.before.length)).map
          (l.cut.tokens ++ ·) :=
        Cut.compile_append (Layout.valid_cut_iff.mpr h_valid) h_text fun _ => h_sign
    _ = ((compile more).mapError (.shift l.text.length)).map (l.tokens ++ ·) := by
        rw [h_rest, List.nil_append, h_before, h_tokens, compile_eq_compileBody h_ne h_caret]

/-- **One text behind the other.** Where the first compiles and does not end with the end of the
line, and the second starts with neither a caret nor a quantifier sign, the two together compile as
they do apart: the tokens stand one behind the other, and an error of the second counts the chars of
the first. -/
theorem compile_append_of_compile {s more : List Char} {p : Pattern} (h : compile s = .ok p)
    (h_last : p.getLast? ≠ some .lineEnd) (h_ne : more ≠ [])
    (h_head : more.head? ≠ some '^' ∧ more.head? ≠ some '+' ∧ more.head? ≠ some '?') :
    (∀ q, compile more = .ok q → compile (s ++ more) = .ok (p ++ q)) ∧
      ∀ e, compile more = .error e → compile (s ++ more) = .error (e.shift s.length) := by
  have h_append := compile_append h h_last h_ne h_head.1 h_head.2
  refine ⟨?_, ?_⟩
  · intro q hq
    rw [h_append, hq]
    rfl
  · intro e he
    rw [h_append, he]
    rfl

/-- The backslash at the seam is escaped and does not escape the dollar sign behind it, which is the
anchor. Of an error behind the seam only the position is another. -/
theorem compile_append_of_escaped_backslash :
    compile ['^', 'a', '\\', '\\'] =
        .ok [.lineStart, .atom (.literal 'a') .one, .atom (.literal '\\') .one] ∧
      compile ['^', 'a', '\\', '\\', '$'] =
        .ok [.lineStart, .atom (.literal 'a') .one, .atom (.literal '\\') .one, .lineEnd] ∧
      compile ['^', 'a', '\\', '\\', '$', '+', '+'] = .error (.unexpected '+' 6) := by
  have h : compile ['^', 'a', '\\', '\\'] =
      .ok [.lineStart, .atom (.literal 'a') .one, .atom (.literal '\\') .one] := by
    decide +kernel
  have h_dollar : compile ['$'] = .ok [.lineEnd] := by decide +kernel
  have h_signs : compile ['$', '+', '+'] = .error (.unexpected '+' 2) := by decide +kernel
  refine ⟨h, ?_, ?_⟩
  · apply (compile_append_of_compile h (by decide) _ (by decide)).1 _ h_dollar
    exact List.cons_ne_nil _ _
  · apply (compile_append_of_compile h (by decide) _ (by decide)).2 _ h_signs
    exact List.cons_ne_nil _ _

/-! ### Faults with more text behind them -/

/-- A fault stays the same fault, if it does not wait for a char that comes. -/
theorem Fault.append {v : List Char} {e : CompileError} (h : Fault v e) {more : List Char}
    (h_escape : ∀ k, e ≠ .danglingEscape k)
    (h_closer : ∀ bracket k, e = .unterminated bracket k → bracket.closer ∉ more) :
    Fault (v ++ more) e := by
  cases h with
  | dangling => exact absurd rfl (h_escape 0)
  | unterminated h =>
    exact .unterminated (List.not_mem_append h (h_closer _ 0 rfl))
  | emptyClass polarity cs =>
    rw [List.cons_append, List.append_assoc]
    exact .emptyClass polarity (cs ++ more)
  | emptyOption option ends =>
    rw [List.cons_append, List.append_assoc]
    apply Fault.emptyOption option
    -- The bracket that ends the group is still there.
    exact ends.imp_right fun h => ⟨h.1, List.mem_append_left more h.2⟩
  | misplaced h => exact .misplaced h

/-- Only a backslash at the end has nothing to escape. -/
theorem Fault.eq_of_dangling {v : List Char} {k : Nat} (h : Fault v (.danglingEscape k)) :
    v = ['\\'] := by
  cases h
  rfl

/-- The bracket that is not closed is the first char. -/
theorem Fault.exists_of_unterminated {v : List Char} {bracket : Bracket} {k : Nat}
    (h : Fault v (.unterminated bracket k)) :
    k = 0 ∧ ∃ cs, v = bracket.opener :: cs ∧ bracket.closer ∉ cs := by
  cases h with
  | unterminated h => exact ⟨rfl, _, rfl, h⟩

/-! ### Behind a text that is refused -/

namespace Breakdown

variable {b : Breakdown} {more : List Char}

/-- What is new goes behind the fault. -/
theorem compile_append (h : b.Valid) (more : List Char) :
    compile (b.text ++ more) =
      ((compileBody (b.rest ++ more)).mapError (.shift b.before.length)).map
        (b.cut.tokens ++ ·) := by
  obtain ⟨c, cs, h_cons⟩ := exists_cons_of_fault h.fault
  have h_rest : b.rest ≠ [] := h_cons ▸ List.cons_ne_nil c cs
  have h_text : b.text ≠ [] := List.append_ne_nil_of_right_ne_nil b.before h_rest
  exact Cut.compile_append (valid_iff.mp h).1 h_text fun h_nil => absurd h_nil h_rest

/-- Where there is a fault again, it is the first one. -/
theorem compile_append_of_fault (h : b.Valid) {e : CompileError}
    (h_fault : Fault (b.rest ++ more) e) :
    compile (b.text ++ more) = .error (e.shift b.before.length) := by
  rw [compile_append h, compileBody_of_fault h_fault]
  rfl

/-- Where the fault becomes an item there is no fault any more. -/
theorem compile_append_of_writes (h : b.Valid) {t : Token}
    (h_writes : Token.Writes (b.rest ++ more) t) :
    compile (b.text ++ more) = .ok (b.cut.tokens ++ [t]) := by
  have h_nil : compileBody [] = .ok [] := by rw [compileBody]
  have h_item : StandsBefore (b.rest ++ more, t) [] := by
    refine ⟨h_writes, fun _ _ => ⟨by decide, by decide⟩, ?_⟩
    -- A fault is not the dollar sign that is an anchor, with whatever text behind it.
    intro (h_dollar : b.rest ++ more = ['$'])
    obtain ⟨c, cs, h_cons⟩ := exists_cons_of_fault h.fault
    rw [h_cons, List.cons_append, List.cons_eq_cons, List.append_eq_nil_iff] at h_dollar
    obtain ⟨rfl, rfl, -⟩ := h_dollar
    exact absurd (h_cons ▸ h.fault) (not_fault_dollar b.cause)
  have h_body := compileBody_of_standsBefore h_item
  rw [List.append_nil, h_nil] at h_body
  rw [compile_append h, h_body]
  rfl

end Breakdown

/-- A text that is refused, and not for want of chars, breaks down at a fault. -/
theorem exists_breakdown_of_error {s : List Char} {e : CompileError} (h : compile s = .error e)
    (h_empty : e ≠ .emptyPattern) : ∃ b : Breakdown, b.Valid ∧ b.text = s ∧ b.error = e := by
  -- The text without chars has an error of its own.
  apply exists_breakdown_of_compile _ h
  intro h_nil
  rw [h_nil, compile, Except.error.injEq] at h
  exact h_empty h.symm

/-- A char out of place stays out of place. -/
theorem compile_append_of_unexpected {s : List Char} {found : Char} {pos : Nat}
    (h : compile s = .error (.unexpected found pos)) (more : List Char) :
    compile (s ++ more) = .error (.unexpected found pos) := by
  obtain ⟨b, h_valid, rfl, h_error⟩ := exists_breakdown_of_error h CompileError.noConfusion
  obtain ⟨k, h_cause, rfl⟩ := CompileError.shift_eq_unexpected_iff.mp h_error
  have h_fault := h_valid.fault
  rw [h_cause] at h_fault
  have h_append : Fault (b.rest ++ more) (.unexpected found k) :=
    h_fault.append (fun _ => CompileError.noConfusion) fun _ _ => CompileError.noConfusion
  exact Breakdown.compile_append_of_fault h_valid h_append

/-- A backslash at the end escapes the next char, whatever that is. -/
theorem exists_compile_append_of_dangling {s : List Char} {pos : Nat}
    (h : compile s = .error (.danglingEscape pos)) :
    ∃ q : Pattern, ∀ c, compile (s ++ [c]) = .ok (q ++ [.atom (Atom.ofEscape c) .one]) := by
  obtain ⟨b, h_valid, rfl, h_error⟩ := exists_breakdown_of_error h CompileError.noConfusion
  obtain ⟨k, h_cause, -⟩ := CompileError.shift_eq_danglingEscape_iff.mp h_error
  have h_rest : b.rest = ['\\'] := Fault.eq_of_dangling (h_cause ▸ h_valid.fault)
  refine ⟨b.cut.tokens, ?_⟩
  intro c
  apply Breakdown.compile_append_of_writes h_valid
  rw [h_rest]
  exact .atom (.escape c) .one

/-! ### Brackets that are not closed -/

/-- A text that is refused for a bracket that is not closed has no bracket that closes it from there
on. -/
theorem exists_breakdown_of_unterminated {s : List Char} {bracket : Bracket} {pos : Nat}
    (h : compile s = .error (.unterminated bracket pos)) :
    ∃ b : Breakdown, b.Valid ∧ b.text = s ∧ b.before.length = pos ∧
      b.cause = .unterminated bracket 0 ∧ b.rest = bracket.opener :: s.drop (pos + 1) ∧
      bracket.closer ∉ s.drop (pos + 1) := by
  obtain ⟨b, h_valid, rfl, h_error⟩ := exists_breakdown_of_error h CompileError.noConfusion
  obtain ⟨k, h_cause, h_pos⟩ := CompileError.shift_eq_unterminated_iff.mp h_error
  have h_fault := h_valid.fault
  rw [h_cause] at h_fault
  obtain ⟨rfl, cs, h_rest, h_closer⟩ := h_fault.exists_of_unterminated
  have h_drop : b.text.drop (pos + 1) = cs := by
    rw [← h_pos, Nat.add_zero, Breakdown.text, h_rest, List.drop_length_add_append]
    rfl
  rw [h_drop]
  exact ⟨b, h_valid, rfl, h_pos, h_cause, h_rest, h_closer⟩

/-- A bracket that is not closed waits for the char that closes it, and for nothing else. -/
theorem compile_append_eq_unterminated_iff {s : List Char} {bracket : Bracket} {pos : Nat}
    (h : compile s = .error (.unterminated bracket pos)) (more : List Char) :
    compile (s ++ more) = .error (.unterminated bracket pos) ↔ bracket.closer ∉ more := by
  obtain ⟨b, h_valid, rfl, h_pos, h_cause, h_rest, -⟩ := exists_breakdown_of_unterminated h
  refine ⟨?_, ?_⟩
  · intro h_append h_closer
    -- The longer text has no closing bracket behind the same place.
    obtain ⟨-, -, -, -, -, -, h_free⟩ := exists_breakdown_of_unterminated h_append
    apply h_free
    have h_le : pos + 1 ≤ b.text.length := by
      rw [Breakdown.text, List.length_append, h_rest, List.length_cons]
      omega
    rw [List.drop_append_of_le_length h_le]
    exact List.mem_append_right _ h_closer
  · intro h_closer
    have h_fault := h_valid.fault
    rw [h_cause] at h_fault
    have h_append : Fault (b.rest ++ more) (.unterminated bracket 0) := by
      apply h_fault.append (fun _ => CompileError.noConfusion)
      intro bracket' k h_eq
      cases h_eq
      exact h_closer
    rw [Breakdown.compile_append_of_fault h_valid h_append, CompileError.shift, h_pos, Nat.add_zero]

/-- A class can always be finished: one more member, and the bracket. -/
theorem exists_compile_append_of_square {s : List Char} {pos : Nat}
    (h : compile s = .error (.unterminated .square pos)) :
    ∃ (more : List Char) (p : Pattern), compile (s ++ more) = .ok p := by
  obtain ⟨b, h_valid, rfl, -, -, h_rest, h_closer⟩ := exists_breakdown_of_unterminated h
  generalize b.text.drop (pos + 1) = cs at h_rest h_closer
  -- A caret behind the opening bracket is a sign, and the rest of the body are the members.
  obtain ⟨polarity, members, h_body, h_head⟩ := Token.exists_eq_sign_append (cs ++ ['a'])
  have h_free : ']' ∉ cs ++ ['a'] := List.not_mem_append h_closer (by decide)
  -- The last char is a member, for it is no caret.
  have h_members : members ≠ [] := by
    intro h_nil
    have h_last := congrArg List.getLast? h_body
    rw [h_nil, List.append_nil, List.getLast?_concat] at h_last
    cases polarity <;> contradiction
  have h_writes : Token.Writes (b.rest ++ ['a', ']']) (.charClass polarity members) := by
    have h_members_free : ']' ∉ members := fun h => h_free (h_body ▸ List.mem_append_right _ h)
    have h_class := Token.writes_charClass h_members h_head h_members_free
    rw [← h_body] at h_class
    rw [h_rest, Bracket.opener]
    simpa using h_class
  exact ⟨_, _, Breakdown.compile_append_of_writes h_valid h_writes⟩

/-- A group with an empty option has a fault, whatever comes behind its text so far. An option that
is not empty yet ends with the text, so it does not count. -/
theorem exists_fault_of_empty_option {cs : List Char}
    (h_empty : cs.head? = some '|' ∨ ['|', '|'] <:+: cs) (h_closer : ')' ∉ cs)
    (more : List Char) : ∃ e, Fault ('(' :: (cs ++ more)) e := by
  by_cases h_more : ')' ∈ more
  · -- The group is closed, and cutting what is between the brackets gives the empty option.
    obtain ⟨front, rest, rfl, h_front⟩ := List.eq_append_cons_of_mem h_more
    have h_body : ')' ∉ cs ++ front := List.not_mem_append h_closer h_front
    have h_nil : [] ∈ (cs ++ front).splitOn '|' := by
      rw [Item.nil_mem_splitOn_iff]
      obtain h_head | h_bars := h_empty
      · obtain ⟨tail, rfl⟩ := List.head?_eq_some_iff.mp h_head
        exact .inr (.inl rfl)
      · exact .inr (.inr (.inr (h_bars.trans (List.prefix_append cs front).isInfix)))
    obtain ⟨before, after, h_split, h_before⟩ := List.eq_append_cons_of_mem h_nil
    rw [← List.append_assoc]
    exact ⟨_, Item.fault_of_splitOn_eq h_body h_split h_before⟩
  · have h_free : ')' ∉ cs ++ more := List.not_mem_append h_closer h_more
    exact ⟨_, @Fault.unterminated .round (cs ++ more) h_free⟩

/-- One more char that is no bar, and the bracket, finish a group without an empty option. -/
theorem writes_group_of_no_empty_option {cs : List Char} (h_head : cs.head? ≠ some '|')
    (h_bars : ¬ ['|', '|'] <:+: cs) (h_closer : ')' ∉ cs) :
    Token.Writes ('(' :: (cs ++ ['a'] ++ [')'])) (.group ((cs ++ ['a']).splitOn '|')) := by
  apply Item.writes_group_splitOn
  · exact List.not_mem_append h_closer (by decide)
  · rw [Item.nil_mem_splitOn_iff]
    intro h
    obtain h_nil | h_first | h_last | h_infix := h
    · exact absurd h_nil (List.append_ne_nil_of_right_ne_nil cs (List.cons_ne_nil _ _))
    · cases cs with
      | nil => exact absurd h_first (by decide)
      | cons c cs => exact h_head h_first
    · rw [List.getLast?_concat] at h_last
      exact absurd h_last (by decide)
    · -- Two bars end in front of the new char, which is none.
      obtain h_suffix | h_infix := List.infix_concat_iff.mp h_infix
      · have h_last := h_suffix.getLast (List.cons_ne_nil _ _)
        rw [List.getLast_concat] at h_last
        exact absurd h_last (by decide)
      · exact h_bars h_infix

/-- A group can be finished if no option that ends with a bar is empty. -/
theorem exists_compile_append_of_round_iff {s : List Char} {pos : Nat}
    (h : compile s = .error (.unterminated .round pos)) :
    (∃ (more : List Char) (p : Pattern), compile (s ++ more) = .ok p) ↔
      (s.drop (pos + 1)).head? ≠ some '|' ∧ ¬ ['|', '|'] <:+: s.drop (pos + 1) := by
  obtain ⟨b, h_valid, rfl, -, -, h_rest, h_closer⟩ := exists_breakdown_of_unterminated h
  generalize b.text.drop (pos + 1) = cs at h_rest h_closer
  rw [Bracket.opener] at h_rest
  refine ⟨?_, ?_⟩
  · intro h_ok
    obtain ⟨more, p, h_ok⟩ := h_ok
    rw [← not_or]
    intro h_empty
    -- Whatever `more` is, there is still a fault in the place of the bracket.
    obtain ⟨e, h_fault⟩ := exists_fault_of_empty_option h_empty h_closer more
    rw [← List.cons_append, ← h_rest] at h_fault
    rw [Breakdown.compile_append_of_fault h_valid h_fault] at h_ok
    contradiction
  · intro h_options
    obtain ⟨h_head, h_bars⟩ := h_options
    have h_writes : Token.Writes (b.rest ++ (['a'] ++ [')']))
        (.group ((cs ++ ['a']).splitOn '|')) := by
      rw [h_rest, List.cons_append, ← List.append_assoc]
      exact writes_group_of_no_empty_option h_head h_bars h_closer
    exact ⟨_, _, Breakdown.compile_append_of_writes h_valid h_writes⟩

/-- **Errors of a text that goes on.** A char out of place stays an error, at the same place. A
backslash at the end is none any more with one char behind it, whichever that is. A bracket that is
not closed stays so until the char comes that closes it. A class can then always be finished, and a
group exactly if it has no option yet that a bar has ended and that is empty. -/
theorem compile_append_of_error (s : List Char) :
    (∀ found pos, compile s = .error (.unexpected found pos) →
        ∀ more, compile (s ++ more) = .error (.unexpected found pos)) ∧
      (∀ pos, compile s = .error (.danglingEscape pos) →
        ∃ q, ∀ c, compile (s ++ [c]) = .ok (q ++ [.atom (Atom.ofEscape c) .one])) ∧
      (∀ bracket pos, compile s = .error (.unterminated bracket pos) →
        ∀ more, compile (s ++ more) = .error (.unterminated bracket pos) ↔
          bracket.closer ∉ more) ∧
      (∀ pos, compile s = .error (.unterminated .square pos) →
        ∃ more p, compile (s ++ more) = .ok p) ∧
      ∀ pos, compile s = .error (.unterminated .round pos) →
        ((∃ more p, compile (s ++ more) = .ok p) ↔
          (s.drop (pos + 1)).head? ≠ some '|' ∧ ¬ ['|', '|'] <:+: s.drop (pos + 1)) := by
  refine ⟨?_, ?_, ?_, ?_, ?_⟩
  · intro found pos h
    exact compile_append_of_unexpected h
  · intro pos h
    exact exists_compile_append_of_dangling h
  · intro bracket pos h
    exact compile_append_eq_unterminated_iff h
  · intro pos h
    exact exists_compile_append_of_square h
  · intro pos h
    exact exists_compile_append_of_round_iff h

/-- The empty option behind the bar is still to be written, and the one between two bars never
will be. -/
theorem compile_append_of_five_faults :
    compile ['(', '|', ')', '$'] = .error (.unexpected '|' 1) ∧
      (∃ q, ∀ c, compile (['^', 'a', '\\'] ++ [c]) =
        .ok (q ++ [.atom (Atom.ofEscape c) .one])) ∧
      (compile ['[', '\\', '['] = .error (.unterminated .square 0) ∧
        compile ['[', '\\', ']'] ≠ .error (.unterminated .square 0)) ∧
      (∃ more p, compile (['a', '[', '^'] ++ more) = .ok p) ∧
      (∃ more p, compile (['a', '+', '(', 'b', '|'] ++ more) = .ok p) ∧
      ¬ ∃ more p, compile (['a', '+', '(', 'b', '|', '|'] ++ more) = .ok p := by
  refine ⟨?_, ?_, ⟨?_, ?_⟩, ?_, ?_, ?_⟩
  · exact (compile_append_of_error ['(', '|', ')']).1 '|' 1 (by decide +kernel) ['$']
  · exact (compile_append_of_error ['^', 'a', '\\']).2.1 2 (by decide +kernel)
  · apply ((compile_append_of_error ['[', '\\']).2.2.1 .square 0 (by decide +kernel) ['[']).mpr
    decide
  · intro h
    exact ((compile_append_of_error ['[', '\\']).2.2.1 .square 0 (by decide +kernel) [']']).mp h
      List.mem_cons_self
  · exact (compile_append_of_error ['a', '[', '^']).2.2.2.1 1 (by decide +kernel)
  · apply ((compile_append_of_error ['a', '+', '(', 'b', '|']).2.2.2.2 2 (by decide +kernel)).mpr
    decide
  · rw [(compile_append_of_error ['a', '+', '(', 'b', '|', '|']).2.2.2.2 2 (by decide +kernel)]
    decide

end LinePattern.Pattern
