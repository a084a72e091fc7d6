import LinePattern.Proofs.Extension
import LinePattern.Proofs.WellFormed
import Mathlib.Algebra.Group.Nat.Even
import Mathlib.Algebra.Ring.Parity
import Mathlib.Data.List.DropRight

/-!
# Anchors found from the ends

The anchors of a pattern text can be looked for before anything is read. The first char is an anchor
if it is a caret. The last one is if it is a dollar sign that is not escaped, which the backslashes
in front of it tell: they escape each other in pairs, and only one that is left over escapes the
dollar sign.

`compileByEnds` compiles a text so. It counts backslashes without knowing what they are, be it signs
of an escape, or chars that one escapes, or members of a class. Between the anchors it then reads
items up to the end, and takes no dollar sign there for an anchor.

`compile` finds out about the last dollar sign on the way from the left, where items are read one
after the other. Both come to the same result, an error included. The invariant is that **an even
number of backslashes stands in front of each place where an item starts**: an item ends with a
backslash only if it is an escaped one, and then its two backslashes are all that it has
(`even_trailingBackslashes_append`). So a class or a group never ends with backslashes that would
count, and what is left over at a dollar sign, or at the end, is the sign of an escape.

Main statements:

* `even_trailingBackslashes_flatMap`: the invariant, in front of and behind any number of items.
* `Layout.last_dollar`: the dollar sign at the end of a text that compiles.
* `Fault.of_concat_dollar`: a fault is there with the anchor behind it cut off or not.
* `compileByEnds_eq`: looking back and reading ahead agree.
-/

namespace LinePattern.Pattern

/-- How many backslashes the text ends with. -/
def trailingBackslashes (s : List Char) : Nat := (s.rtakeWhile (· == '\\')).length

/-- Whether the text ends with a dollar sign that the backslashes in front of it do not escape. -/
def endsInAnchor (s : List Char) : Bool :=
  s.getLast? == some '$' && trailingBackslashes s.dropLast % 2 == 0

/-- Compiles a text up to its end, where no char is an anchor. -/
def compileItems : List Char → Except CompileError Pattern
  | [] => .ok []
  | c :: cs =>
    match _ : Item.read c cs with
    | .error e => .error e
    | .ok item =>
      ((compileItems item.rest).mapError (.shift item.text.length)).map (item.token :: ·)
termination_by cs => cs.length
decreasing_by exact Item.length_rest_lt_of_read ‹_›

/-- Compiles the part of a pattern text that is behind the caret, if there is one. The end is looked
at first. -/
def compileToAnchor (cs : List Char) : Except CompileError Pattern :=
  if endsInAnchor cs then (compileItems cs.dropLast).map (· ++ [.lineEnd]) else compileItems cs

/-- Compiles the text of a pattern, its ends first. -/
def compileByEnds : List Char → Except CompileError Pattern
  | [] => .error .emptyPattern
  | '^' :: cs => ((compileToAnchor cs).mapError (.shift 1)).map (.lineStart :: ·)
  | cs => compileToAnchor cs

/-! ### Counting backslashes -/

@[simp] theorem trailingBackslashes_nil : trailingBackslashes [] = 0 := rfl

@[simp] theorem trailingBackslashes_concat_backslash (s : List Char) :
    trailingBackslashes (s ++ ['\\']) = trailingBackslashes s + 1 := by
  rw [trailingBackslashes, List.rtakeWhile_concat_pos _ _ _ rfl, List.length_append]
  rfl

/-- Behind any other char the count starts anew. -/
theorem trailingBackslashes_concat_of_ne {c : Char} (h : c ≠ '\\') (s : List Char) :
    trailingBackslashes (s ++ [c]) = 0 := by
  rw [trailingBackslashes, List.rtakeWhile_concat_neg _ _ _ (by simpa using h), List.length_nil]

/-- The dollar sign at the end is an anchor if the backslashes in front of it are pairs. -/
theorem endsInAnchor_concat (front : List Char) :
    endsInAnchor (front ++ ['$']) = true ↔ Even (trailingBackslashes front) := by
  rw [endsInAnchor, List.getLast?_concat, List.dropLast_concat, beq_self_eq_true, Bool.true_and,
    beq_iff_eq, Nat.even_iff]

/-- Only a text that ends with a dollar sign ends in an anchor. -/
theorem exists_concat_of_endsInAnchor {s : List Char} (h : endsInAnchor s = true) :
    ∃ front, s = front ++ ['$'] := by
  rw [endsInAnchor, Bool.and_eq_true, beq_iff_eq] at h
  exact List.getLast?_eq_some_iff.mp h.1

variable {items : List (List Char × Token)} {front rest : List Char}

/-! ### The invariant -/

/-- **The step.** An item changes nothing in whether the number is even. -/
theorem even_trailingBackslashes_append {w : List Char} {t : Token} (h : Token.Writes w t)
    (h_even : Even (trailingBackslashes front)) : Even (trailingBackslashes (front ++ w)) := by
  -- Behind any char but a backslash the count starts anew.
  have h_zero (v : List Char) {c : Char} (hc : c ≠ '\\') :
      Even (trailingBackslashes (front ++ (v ++ [c]))) := by
    rw [← List.append_assoc, trailingBackslashes_concat_of_ne hc]
    exact Even.zero
  cases h with
  | @atom w a h q =>
    cases q with
    | optional => exact h_zero w (by decide)
    | oneOrMore => exact h_zero w (by decide)
    | one =>
      rw [Quantifier.sign, List.append_nil]
      cases h with
      | escape c =>
        by_cases hc : c = '\\'
        · -- The escaped backslash and the one that escapes it make two more.
          have h_two : front ++ ['\\', c] = front ++ ['\\'] ++ ['\\'] := by simp [hc]
          rw [h_two, trailingBackslashes_concat_backslash, trailingBackslashes_concat_backslash]
          exact h_even.add even_two
        · exact h_zero ['\\'] hc
      | wildcard => exact h_zero [] (by decide)
      | plain c hc =>
        have h_ne : c ≠ '\\' := by
          rintro rfl
          exact hc List.mem_cons_self
        exact h_zero [] h_ne
  | @positive members => exact h_zero ('[' :: members) (by decide)
  | @negative members => exact h_zero ('[' :: '^' :: members) (by decide)
  | @group options => exact h_zero ('(' :: ['|'].intercalate options) (by decide)

/-- **The run.** -/
theorem even_trailingBackslashes_flatMap (h : ∀ i ∈ items, Token.Writes i.1 i.2)
    (h_even : Even (trailingBackslashes front)) :
    Even (trailingBackslashes (front ++ items.flatMap Prod.fst)) := by
  induction items generalizing front with
  | nil => rwa [List.flatMap_nil, List.append_nil]
  | cons i items ih =>
    obtain ⟨h_item, h_items⟩ := List.forall_mem_cons.mp h
    rw [List.flatMap_cons, ← List.append_assoc]
    exact ih h_items (even_trailingBackslashes_append h_item h_even)

/-- The caret is no backslash. -/
theorem even_trailingBackslashes_sign (start : Bool) :
    Even (trailingBackslashes (if start then ['^'] else [])) := by
  cases start <;> exact Even.zero

/-- The invariant holds where no further item can be cut off. -/
theorem Cut.even_trailingBackslashes {c : Cut} (h : c.Valid) :
    Even (trailingBackslashes c.before) :=
  even_trailingBackslashes_flatMap (itemsBefore_iff.mp h.items).1
    (even_trailingBackslashes_sign c.start)

/-! ### The item at the end -/

/-- An item that ends with a dollar sign is the char, alone or escaped. -/
theorem eq_of_writes_of_getLast {w : List Char} {t : Token} (h : Token.Writes w t)
    (h_last : w.getLast? = some '$') :
    t = .atom (.literal '$') .one ∧ (w = ['$'] ∨ w = ['\\', '$']) := by
  -- Every other item ends with a sign of its own.
  have h_ne (v : List Char) {c : Char} (hc : c ≠ '$') : (v ++ [c]).getLast? ≠ some '$' := by
    rw [List.getLast?_concat, ne_eq, Option.some.injEq]
    exact hc
  cases h with
  | @atom w a h q =>
    cases q with
    | optional => exact absurd h_last (h_ne w (by decide))
    | oneOrMore => exact absurd h_last (h_ne w (by decide))
    | one =>
      rw [Quantifier.sign, List.append_nil] at h_last ⊢
      cases h with
      | escape c =>
        obtain rfl : c = '$' := Option.some.inj h_last
        exact ⟨rfl, .inr rfl⟩
      | wildcard => contradiction
      | plain c =>
        obtain rfl : c = '$' := Option.some.inj h_last
        exact ⟨rfl, .inl rfl⟩
  | @positive members => exact absurd h_last (h_ne ('[' :: members) (by decide))
  | @negative members => exact absurd h_last (h_ne ('[' :: '^' :: members) (by decide))
  | @group options =>
    exact absurd h_last (h_ne ('(' :: ['|'].intercalate options) (by decide))

/-- Where nothing is left behind items, a dollar sign at the end is the escaped char of the last
item. -/
theorem exists_concat_of_itemsBefore {before : List Char} (h : ItemsBefore items [])
    (h_before : before.getLast? ≠ some '$')
    (h_text : before ++ items.flatMap Prod.fst = front ++ ['$']) :
    ∃ init, items = init ++ [(['\\', '$'], .atom (.literal '$') .one)] ∧
      front = before ++ init.flatMap Prod.fst ++ ['\\'] := by
  obtain ⟨h_writes, h_last⟩ := itemsBefore_iff.mp h
  obtain rfl | ⟨init, i, rfl⟩ := List.eq_nil_or_concat' items
  · rw [List.flatMap_nil, List.append_nil] at h_text
    rw [h_text, List.getLast?_concat] at h_before
    exact absurd rfl h_before
  · have h_item : Token.Writes i.1 i.2 := h_writes i (List.mem_append_right _ List.mem_cons_self)
    obtain ⟨c, w, h_cons, -, -⟩ := exists_cons_of_writes h_item
    -- The text ends as its last item does.
    rw [List.flatMap_append, List.flatMap_singleton, ← List.append_assoc] at h_text
    have h_dollar : i.1.getLast? = some '$' := by
      have h_concat := congrArg List.getLast? h_text
      have h_ne : i.1 ≠ [] := h_cons ▸ List.cons_ne_nil c w
      rwa [List.getLast?_concat, List.getLast?_append_of_ne_nil _ h_ne] at h_concat
    obtain ⟨h_token, h_plain | h_escaped⟩ := eq_of_writes_of_getLast h_item h_dollar
    · -- A dollar sign alone would have been the anchor.
      exact absurd rfl ((h_last i List.getLast?_concat).2 h_plain)
    · refine ⟨init, by rw [← h_escaped, ← h_token], ?_⟩
      rw [h_escaped] at h_text
      have h_split : before ++ init.flatMap Prod.fst ++ ['\\'] ++ ['$'] = front ++ ['$'] := by
        rw [← h_text, List.append_assoc _ ['\\'] ['$']]
        rfl
      exact (List.append_cancel_right h_split).symm

/-- Such a dollar sign has an odd number of backslashes in front of it. -/
theorem odd_trailingBackslashes_of_itemsBefore {before : List Char} (h : ItemsBefore items [])
    (h_before : before.getLast? ≠ some '$') (h_even : Even (trailingBackslashes before))
    (h_text : before ++ items.flatMap Prod.fst = front ++ ['$']) :
    Odd (trailingBackslashes front) := by
  obtain ⟨init, rfl, rfl⟩ := exists_concat_of_itemsBefore h h_before h_text
  have h_writes := (itemsBefore_iff.mp h).1
  have h_init : Even (trailingBackslashes (before ++ init.flatMap Prod.fst)) :=
    even_trailingBackslashes_flatMap (fun i hi => h_writes i (List.mem_append_left _ hi)) h_even
  -- One more backslash than in front of the item, where their number is even.
  rw [trailingBackslashes_concat_backslash]
  exact h_init.add_one

/-! ### Layouts -/

namespace Layout

variable {l : Layout}

/-- The anchor at the end is behind all that is cut off. -/
theorem text_of_stop (h : l.stop = true) : l.text = l.cut.before ++ ['$'] := by
  rw [text, h]
  rfl

/-- **The dollar sign at the end of a layout.** Either it is the anchor, and the backslashes in
front of it make pairs, or one of them is left over and escapes it, and the two are the last item.
No class and no group has it. -/
theorem last_dollar (h : l.Valid) (h_text : l.text = front ++ ['$']) :
    (Even (trailingBackslashes front) ∧ l.stop = true) ∨
      (Odd (trailingBackslashes front) ∧ l.stop = false ∧
        l.items.getLast? = some (['\\', '$'], .atom (.literal '$') .one)) := by
  have h_cut := valid_cut_iff.mpr h
  cases h_stop : l.stop with
  | true =>
    -- In front of the anchor is a place where an item could start.
    rw [text_of_stop h_stop] at h_text
    rw [← List.append_cancel_right h_text]
    exact .inl ⟨Cut.even_trailingBackslashes h_cut, rfl⟩
  | false =>
    -- Nothing is behind the items, so the dollar sign belongs to the last of them.
    have h_items : ItemsBefore l.items [] := by
      have h_items := h_cut.items
      rwa [cut, h_stop] at h_items
    rw [text, h_stop, if_neg Bool.false_ne_true, List.append_nil] at h_text
    have h_sign : (if l.start then ['^'] else []).getLast? ≠ some '$' := by
      cases l.start <;> decide
    have h_odd := odd_trailingBackslashes_of_itemsBefore h_items h_sign
      (even_trailingBackslashes_sign l.start) h_text
    obtain ⟨init, h_init, -⟩ := exists_concat_of_itemsBefore h_items h_sign h_text
    refine .inr ⟨h_odd, rfl, ?_⟩
    rw [h_init, List.getLast?_concat]

/-- Behind pairs of backslashes the dollar sign is the anchor. -/
theorem stop_of_even (h : l.Valid) (h_text : l.text = front ++ ['$'])
    (h_even : Even (trailingBackslashes front)) : l.stop = true := by
  obtain ⟨-, h_stop⟩ | ⟨h_odd, -⟩ := last_dollar h h_text
  · exact h_stop
  · exact absurd h_even (Nat.not_even_iff_odd.mpr h_odd)

/-- Behind a backslash that is left over it is the escaped char of the last item. -/
theorem escaped_of_odd (h : l.Valid) (h_text : l.text = front ++ ['$'])
    (h_odd : Odd (trailingBackslashes front)) :
    l.stop = false ∧ l.items.getLast? = some (['\\', '$'], .atom (.literal '$') .one) := by
  obtain ⟨h_even, -⟩ | ⟨-, h_escaped⟩ := last_dollar h h_text
  · exact absurd h_even (Nat.not_even_iff_odd.mpr h_odd)
  · exact h_escaped

/-- Where the text does not end with the anchor, it ends with an item or the caret. -/
theorem even_trailingBackslashes_text (h : l.Valid) : Even (trailingBackslashes l.text) := by
  cases h_stop : l.stop with
  | true =>
    rw [text, h_stop, if_pos rfl, trailingBackslashes_concat_of_ne (by decide)]
    exact Even.zero
  | false =>
    rw [text, h_stop, if_neg Bool.false_ne_true, List.append_nil]
    exact Cut.even_trailingBackslashes (valid_cut_iff.mpr h)

/-- The anchor at the end writes the last token. -/
theorem getLast?_tokens_of_stop (h : l.stop = true) : l.tokens.getLast? = some .lineEnd := by
  rw [tokens, h, if_pos rfl, List.getLast?_concat]

/-- Without that anchor the last item writes it. -/
theorem getLast?_tokens_of_items (h_stop : l.stop = false) {i : List Char × Token}
    (h : l.items.getLast? = some i) : l.tokens.getLast? = some i.2 := by
  obtain ⟨init, h_items⟩ := List.getLast?_eq_some_iff.mp h
  rw [tokens, h_stop, if_neg Bool.false_ne_true, List.append_nil, h_items, List.map_append,
    List.map_singleton, ← List.append_assoc, List.getLast?_concat]

/-- Only the anchor at the end is told as one. -/
theorem stop_of_lineEnd_mem (h : l.Valid) (h_mem : .lineEnd ∈ l.tokens) : l.stop = true := by
  by_contra h_stop
  rw [tokens, if_neg h_stop, List.append_nil, List.mem_append] at h_mem
  rcases h_mem with h_mem | h_mem
  · cases h_start : l.start <;> simp [h_start] at h_mem
  · obtain ⟨i, hi, h_token⟩ := List.mem_map.mp h_mem
    exact Token.not_isAnchor_of_writes (h.writes i hi) (.inr h_token)

end Layout

/-! ### Reading between the anchors -/

/-- Nothing is left to compile at the end. -/
theorem compileItems_nil : compileItems [] = .ok [] := by rw [compileItems]

/-- How compiling goes on from a first char: it is the same as where anchors are minded, but for the
dollar sign at the end. -/
theorem compileItems_cons (c : Char) (cs : List Char) :
    compileItems (c :: cs) =
      match Item.read c cs with
      | .error e => .error e
      | .ok item =>
        ((compileItems item.rest).mapError (.shift item.text.length)).map (item.token :: ·) := by
  rw [compileItems]
  split <;> simp_all

/-- A fault in front ends compiling, with the error of the fault. -/
theorem compileItems_of_fault {e : CompileError} (h : Fault rest e) :
    compileItems rest = .error e := by
  obtain ⟨c, cs, rfl⟩ := exists_cons_of_fault h
  rw [compileItems_cons, Item.read_of_fault h]

/-- **The step.** The item in front is read, be it the dollar sign at the end. -/
theorem compileItems_of_writes {i : List Char × Token} (h : Token.Writes i.1 i.2)
    (h_ends : i.2.EndsBefore rest) :
    compileItems (i.1 ++ rest) =
      ((compileItems rest).mapError (.shift i.1.length)).map (i.2 :: ·) := by
  obtain ⟨c, w, h_cons, -, -⟩ := exists_cons_of_writes h
  have h_eq : i.1 ++ rest = c :: (w ++ rest) := by rw [h_cons, List.cons_append]
  rw [h_eq, compileItems_cons, Item.read_of_writes h h_ends h_eq]

/-- **The run.** Items are read one after the other, and only the last of them has to mind what is
behind the items. -/
theorem compileItems_flatMap_append (h_writes : ∀ i ∈ items, Token.Writes i.1 i.2)
    (h_last : ∀ i ∈ items.getLast?, i.2.EndsBefore rest) :
    compileItems (items.flatMap Prod.fst ++ rest) =
      ((compileItems rest).mapError (.shift (items.flatMap Prod.fst).length)).map
        (items.map Prod.snd ++ ·) := by
  induction items with
  | nil =>
    rw [List.flatMap_nil, List.map_nil, List.nil_append, List.length_nil]
    cases compileItems rest <;> simp [Except.mapError, Except.map]
  | cons i items ih =>
    obtain ⟨h_item, h_items⟩ := List.forall_mem_cons.mp h_writes
    have h_ends : i.2.EndsBefore (items.flatMap Prod.fst ++ rest) := by
      cases items with
      | nil => exact h_last i rfl
      | cons i' items =>
        rw [List.flatMap_cons, List.append_assoc]
        exact endsBefore_of_writes (h_items i' List.mem_cons_self) i.2
    have h_tail : ∀ j ∈ items.getLast?, j.2.EndsBefore rest := by
      intro j hj
      refine h_last j ?_
      rw [List.getLast?_cons, hj]
      rfl
    -- Positions are counted on by the item, and then by the items behind it.
    calc compileItems ((i :: items).flatMap Prod.fst ++ rest)
        = compileItems (i.1 ++ (items.flatMap Prod.fst ++ rest)) := by
          rw [List.flatMap_cons, List.append_assoc]
      _ = ((compileItems (items.flatMap Prod.fst ++ rest)).mapError (.shift i.1.length)).map
            (i.2 :: ·) := compileItems_of_writes h_item h_ends
      _ = ((compileItems rest).mapError (.shift ((i :: items).flatMap Prod.fst).length)).map
            ((i :: items).map Prod.snd ++ ·) := by
          rw [ih h_items h_tail, List.flatMap_cons, List.length_append, List.map_cons]
          cases compileItems rest <;> simp [Except.mapError, Except.map]

/-! ### A fault in front of the anchor -/

/-- A dollar sign at the end is behind every char that is none. -/
theorem exists_of_concat_dollar_eq {u v cs : List Char} {c : Char} (hc : c ≠ '$')
    (h : v ++ ['$'] = u ++ c :: cs) : ∃ cs', cs = cs' ++ ['$'] ∧ v = u ++ c :: cs' := by
  obtain rfl | ⟨cs, d, rfl⟩ := List.eq_nil_or_concat' cs
  · -- The char would be the last one, and so the dollar sign.
    have h_last := congrArg List.getLast? h
    rw [List.getLast?_concat, List.getLast?_concat, Option.some.injEq] at h_last
    exact absurd h_last.symm hc
  · rw [← List.cons_append, ← List.append_assoc] at h
    obtain ⟨h_front, h_dollar⟩ := List.append_inj' h rfl
    exact ⟨cs, by rw [h_dollar], h_front⟩

/-- A fault with a dollar sign at the end of its text is there without it. No fault waits for a
dollar sign, and none is a backslash that is cut off from one. -/
theorem Fault.of_concat_dollar {v : List Char} {e : CompileError} (h : Fault (v ++ ['$']) e) :
    Fault v e := by
  -- Each kind of fault has a char that is no dollar sign, and nothing behind that char matters to it
  -- but a closing bracket.
  generalize h_text : v ++ ['$'] = w at h
  cases h with
  | dangling =>
    obtain ⟨cs, h_cs, -⟩ := exists_of_concat_dollar_eq (u := []) (by decide) h_text
    exact absurd h_cs.symm (List.append_ne_nil_of_right_ne_nil cs (List.cons_ne_nil _ _))
  | @unterminated bracket cs h =>
    have h_opener : bracket.opener ≠ '$' := by cases bracket <;> decide
    obtain ⟨cs, rfl, rfl⟩ := exists_of_concat_dollar_eq (u := []) h_opener h_text
    exact .unterminated fun h_mem => h (List.mem_append_left _ h_mem)
  | emptyClass polarity cs =>
    rw [← List.cons_append] at h_text
    obtain ⟨cs, rfl, rfl⟩ := exists_of_concat_dollar_eq (by decide) h_text
    exact .emptyClass polarity cs
  | @emptyOption before found cs option ends =>
    have h_found : found ≠ '$' := by
      rcases ends with rfl | ⟨rfl, -⟩ <;> decide
    rw [← List.cons_append] at h_text
    obtain ⟨cs, rfl, rfl⟩ := exists_of_concat_dollar_eq h_found h_text
    apply Fault.emptyOption option
    -- The bracket that ends the group is in front of the dollar sign.
    exact ends.imp_right fun h => ⟨h.1, by simpa using h.2⟩
  | @misplaced c cs h =>
    have h_ne : c ≠ '$' := by
      rintro rfl
      exact absurd h (by decide)
    obtain ⟨cs, rfl, rfl⟩ := exists_of_concat_dollar_eq (u := []) h_ne h_text
    exact .misplaced h

/-! ### Looking back and reading ahead -/

/-- An anchor that is found by looking back is cut off, and what is in front of it has no anchor
left. -/
theorem compileToAnchor_concat {front : List Char} (h : Even (trailingBackslashes front)) :
    compileToAnchor (front ++ ['$']) = (compileItems front).map (· ++ [.lineEnd]) := by
  rw [compileToAnchor, if_pos ((endsInAnchor_concat front).mpr h), List.dropLast_concat]

/-- A fault is met with the anchor behind it cut off or not. -/
theorem compileToAnchor_of_fault {e : CompileError} (h_items : ItemsBefore items rest)
    (h_fault : Fault rest e) :
    compileToAnchor (items.flatMap Prod.fst ++ rest) =
      .error (e.shift (items.flatMap Prod.fst).length) := by
  obtain ⟨h_writes, h_last⟩ := itemsBefore_iff.mp h_items
  rw [compileToAnchor]
  split
  · next h_anchor =>
    -- The dollar sign is the last char from the fault on, which is there without it.
    obtain ⟨front, h_text⟩ := exists_concat_of_endsInAnchor h_anchor
    obtain rfl | ⟨v, d, rfl⟩ := List.eq_nil_or_concat' rest
    · obtain ⟨c, cs, h_cons⟩ := exists_cons_of_fault h_fault
      contradiction
    rw [← List.append_assoc] at h_text ⊢
    obtain ⟨-, h_dollar⟩ := List.append_inj' h_text rfl
    obtain rfl : d = '$' := List.singleton_inj.mp h_dollar
    have h_cut : Fault v e := h_fault.of_concat_dollar
    have h_ends : ∀ i ∈ items.getLast?, i.2.EndsBefore v := by
      intro i hi a ha
      obtain ⟨c, cs, rfl⟩ := exists_cons_of_fault h_cut
      exact (h_last i hi).1 a ha
    rw [List.dropLast_concat, compileItems_flatMap_append h_writes h_ends,
      compileItems_of_fault h_cut]
    rfl
  · rw [compileItems_flatMap_append h_writes fun i hi => (h_last i hi).1,
      compileItems_of_fault h_fault]
    rfl

/-- **Looking back and reading ahead agree**, behind the caret. -/
theorem compileToAnchor_eq (cs : List Char) : compileToAnchor cs = compileBody cs := by
  obtain ⟨items, rest, rfl, h_items, h_end⟩ := exists_itemsBefore cs
  obtain ⟨h_writes, h_last⟩ := itemsBefore_iff.mp h_items
  have h_even : Even (trailingBackslashes (items.flatMap Prod.fst)) :=
    @even_trailingBackslashes_flatMap items [] h_writes Even.zero
  rw [compileBody_of_itemsBefore h_items]
  obtain rfl | rfl | ⟨e, h_fault⟩ := h_end
  · -- The text ends with an item. Its dollar sign would be escaped, and so be no anchor.
    have h_anchor : ¬ endsInAnchor (items.flatMap Prod.fst ++ []) = true := by
      intro h
      obtain ⟨front, h_text⟩ := exists_concat_of_endsInAnchor h
      rw [h_text, endsInAnchor_concat] at h
      have h_odd := @odd_trailingBackslashes_of_itemsBefore items front [] h_items (by decide)
        Even.zero (by rwa [List.append_nil] at h_text)
      exact Nat.not_even_iff_odd.mpr h_odd h
    have h_nil : compileBody [] = .ok [] := Layout.compileBody_stop false
    rw [compileToAnchor, if_neg h_anchor, h_nil,
      compileItems_flatMap_append h_writes fun i hi => (h_last i hi).1, compileItems_nil]
  · -- The text ends with the anchor, which is found by looking back as well.
    have h_ends : ∀ i ∈ items.getLast?, i.2.EndsBefore [] :=
      fun _ _ _ _ => ⟨by decide, by decide⟩
    have h_dollar : compileBody ['$'] = .ok [.lineEnd] := Layout.compileBody_stop true
    have h_run := compileItems_flatMap_append h_writes h_ends
    rw [List.append_nil, compileItems_nil] at h_run
    rw [compileToAnchor_concat h_even, h_run, h_dollar]
    simp [Except.map, Except.mapError]
  · -- At a fault neither gets as far as the end.
    rw [compileToAnchor_of_fault h_items h_fault, compileBody_of_fault h_fault]
    rfl

/-- **Looking back and reading ahead agree.** -/
theorem compileByEnds_eq (s : List Char) : compileByEnds s = compile s := by
  unfold compileByEnds compile
  split <;> simp only [compileToAnchor_eq]

/-! ### The end of a pattern text -/

/-- A backslash with nothing behind it is the last char, and the one that is left over of those at
the end. -/
theorem length_and_odd_of_dangling {s : List Char} {pos : Nat}
    (h : compile s = .error (.danglingEscape pos)) :
    pos + 1 = s.length ∧ Odd (trailingBackslashes s) := by
  obtain ⟨b, h_valid, rfl, h_error⟩ := exists_breakdown_of_error h CompileError.noConfusion
  obtain ⟨k, h_cause, rfl⟩ := CompileError.shift_eq_danglingEscape_iff.mp h_error
  have h_fault := h_valid.fault
  rw [h_cause] at h_fault
  -- What is left behind the items is this backslash and no more.
  have h_rest : b.rest = ['\\'] ∧ k = 0 := by
    generalize b.rest = rest at h_fault
    cases h_fault
    exact ⟨rfl, rfl⟩
  have h_before : Even (trailingBackslashes b.before) :=
    Cut.even_trailingBackslashes (Breakdown.valid_iff.mp h_valid).1
  rw [Breakdown.text, h_rest.1, h_rest.2]
  refine ⟨?_, ?_⟩
  · rw [List.length_append, Nat.add_zero]
    rfl
  · rw [trailingBackslashes_concat_backslash]
    exact h_before.add_one

/-- **The end of a pattern text.** Looking back from the end and reading ahead give the same. In a
pattern that a text compiles to, the end of the line is at most the last token, and is it if and
only if the text ends with a dollar sign that has an even number of backslashes in front of it. If
their number is odd, the last token is the dollar sign itself, and its escape is the last item of
the one layout that the text has. A backslash dangles only where it is the last char of all and is
left over of those at the end; and where one is left over there, nothing compiles. -/
theorem compile_of_trailing_backslashes (s : List Char) :
    compileByEnds s = compile s ∧
      (∀ p, compile s = .ok p →
        .lineEnd ∉ p.dropLast ∧
        (p.getLast? = some .lineEnd ↔
          ∃ front, s = front ++ ['$'] ∧ Even (trailingBackslashes front)) ∧
        (∀ front, s = front ++ ['$'] → Odd (trailingBackslashes front) →
          p.getLast? = some (.atom (.literal '$') .one)) ∧
        ∃ l : Layout, (l.Valid ∧ l.text = s ∧ l.tokens = p) ∧
          (∀ m : Layout, m.Valid → m.text = s → m = l) ∧
          ∀ front, s = front ++ ['$'] →
            (Even (trailingBackslashes front) → l.stop = true) ∧
            (Odd (trailingBackslashes front) → l.stop = false ∧
              l.items.getLast? = some (['\\', '$'], .atom (.literal '$') .one))) ∧
      (∀ pos, compile s = .error (.danglingEscape pos) →
        pos + 1 = s.length ∧ Odd (trailingBackslashes s)) ∧
      (Odd (trailingBackslashes s) → ∀ p, compile s ≠ .ok p) := by
  refine ⟨compileByEnds_eq s, ?_, fun pos h => length_and_odd_of_dangling h, ?_⟩
  · intro p h
    have h_inner := (wellFormed_of_compile h).anchored.lineEnd_notMem_dropLast
    obtain ⟨-, l, h_valid, rfl, rfl⟩ := exists_layout_of_compile h
    refine ⟨h_inner, ⟨?_, ?_⟩, ?_, l, ⟨h_valid, rfl, rfl⟩, ?_, ?_⟩
    · -- The last token is an anchor only if the text has the sign.
      intro h_last
      have h_stop := l.stop_of_lineEnd_mem h_valid (List.mem_of_getLast? h_last)
      exact ⟨l.cut.before, l.text_of_stop h_stop,
        Cut.even_trailingBackslashes (Layout.valid_cut_iff.mpr h_valid)⟩
    · rintro ⟨front, h_text, h_even⟩
      exact l.getLast?_tokens_of_stop (l.stop_of_even h_valid h_text h_even)
    · intro front h_text h_odd
      obtain ⟨h_stop, h_last⟩ := l.escaped_of_odd h_valid h_text h_odd
      exact l.getLast?_tokens_of_items h_stop h_last
    · intro m hm h_text
      exact Layout.eq_of_text_eq hm h_valid h_text
    · intro front h_text
      exact ⟨l.stop_of_even h_valid h_text, l.escaped_of_odd h_valid h_text⟩
  · -- A text that compiles ends with an anchor sign or an item, and then the invariant holds there.
    intro h_odd p h
    obtain ⟨-, l, h_valid, rfl, -⟩ := exists_layout_of_compile h
    exact Nat.not_even_iff_odd.mpr h_odd (l.even_trailingBackslashes_text h_valid)

/-- Behind a class with a backslash, two backslashes leave the dollar sign an anchor, three escape
it, and the last of three with nothing behind them dangles. -/
theorem compile_of_two_and_three_backslashes :
    (∃ p, compile ['[', '\\', ']', '\\', '\\', '$'] = .ok p ∧ p.getLast? = some .lineEnd) ∧
      (∃ p, compile ['[', '\\', ']', '\\', '\\', '\\', '$'] = .ok p ∧
        p.getLast? = some (.atom (.literal '$') .one)) ∧
      (∃ pos, compile ['[', '\\', ']', '\\', '\\', '\\'] = .error (.danglingEscape pos) ∧
        pos + 1 = 6) ∧
      ∀ p, compile ['[', '\\', ']', '\\', '\\', '\\'] ≠ .ok p := by
  have h_two : compile ['[', '\\', ']', '\\', '\\', '$'] =
      .ok [.charClass .positive ['\\'], .atom (.literal '\\') .one, .lineEnd] := by
    decide +kernel
  have h_three : compile ['[', '\\', ']', '\\', '\\', '\\', '$'] =
      .ok [.charClass .positive ['\\'], .atom (.literal '\\') .one,
        .atom (.literal '$') .one] := by
    decide +kernel
  have h_error : compile ['[', '\\', ']', '\\', '\\', '\\'] = .error (.danglingEscape 5) := by
    decide +kernel
  have ⟨_, _, h_dangling, h_refused⟩ :=
    compile_of_trailing_backslashes ['[', '\\', ']', '\\', '\\', '\\']
  have h_odd : Odd (trailingBackslashes ['[', '\\', ']', '\\', '\\', '\\']) :=
    Nat.odd_iff.mpr (by decide)
  refine ⟨⟨_, h_two, ?_⟩, ⟨_, h_three, ?_⟩, ⟨5, h_error, (h_dangling 5 h_error).1⟩,
    h_refused h_odd⟩
  · have ⟨_, h_compiled, _⟩ := compile_of_trailing_backslashes ['[', '\\', ']', '\\', '\\', '$']
    exact (h_compiled _ h_two).2.1.mpr
      ⟨['[', '\\', ']', '\\', '\\'], rfl, Nat.even_iff.mpr (by decide)⟩
  · have ⟨_, h_compiled, _⟩ :=
      compile_of_trailing_backslashes ['[', '\\', ']', '\\', '\\', '\\', '$']
    exact (h_compiled _ h_three).2.2.1 ['[', '\\', ']', '\\', '\\', '\\'] rfl h_odd

end LinePattern.Pattern
