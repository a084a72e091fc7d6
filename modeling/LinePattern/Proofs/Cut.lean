import LinePattern.Pattern.Compile
import LinePattern.Proofs.Items

/-!
# Cutting a pattern text

Compiling reads one item after the other until nothing is left, or the dollar sign that is an
anchor, or a fault. A `Cut` says where that happens in a text: the caret in front, the items, and
what is left behind them. It is stated by the grammar alone, without reading anything.

* `StandsBefore i rest`: the item `i` can be cut off in front of `rest`.
* `ItemsBefore items rest`: the same for items one behind the other.
* `IsEnd rest`: no item can be cut off `rest`.

Main statements:

* `compileBody_of_standsBefore`, `compileBody_of_itemsBefore`: the step and the run. Compiling an
  item gives its token and goes on with what is behind the item, and so for any number of items.
* `Cut.exists_valid`, `Cut.eq_of_text_eq`: each text can be cut in one way and no other.
* `Cut.compile_text`: what compiling gives is decided by what is left behind the items.
-/

namespace LinePattern.Pattern

/-- The item `i`, a text with the token that it writes, can be cut off in front of `rest`. -/
structure StandsBefore (i : List Char × Token) (rest : List Char) : Prop where
  /-- The text writes the token. -/
  writes : Token.Writes i.1 i.2
  /-- No quantifier sign that belongs to the item is left behind. -/
  ends : i.2.EndsBefore rest
  /-- The item is not the dollar sign that is an anchor. -/
  rest_ne_nil : i.1 = ['$'] → rest ≠ []

/-- Each of the items can be cut off in front of what is behind it. -/
def ItemsBefore : List (List Char × Token) → List Char → Prop
  | [], _ => True
  | i :: items, rest => StandsBefore i (items.flatMap Prod.fst ++ rest) ∧ ItemsBefore items rest

/-- No item can be cut off the text: it is empty, or the anchor at the end, or starts with a
fault. -/
def IsEnd (rest : List Char) : Prop := rest = [] ∨ rest = ['$'] ∨ ∃ e, Fault rest e

/-! ### First chars -/

/-- An item starts with a char, and not with a quantifier sign. -/
theorem exists_cons_of_writes {w : List Char} {t : Token} (h : Token.Writes w t) :
    ∃ c w', w = c :: w' ∧ c ≠ '+' ∧ c ≠ '?' := by
  -- Only a char that stands for itself is not known, and the signs are reserved.
  cases h with
  | atom h q =>
    cases h with
    | escape c => exact ⟨'\\', _, rfl, by decide, by decide⟩
    | wildcard => exact ⟨'.', _, rfl, by decide, by decide⟩
    | plain c h =>
      simp only [reserved, List.mem_cons, List.not_mem_nil, or_false, not_or] at h
      exact ⟨c, _, rfl, h.2.2.2.2.1, h.2.2.2.2.2.1⟩
  | positive => exact ⟨'[', _, rfl, by decide, by decide⟩
  | negative => exact ⟨'[', _, rfl, by decide, by decide⟩
  | group => exact ⟨'(', _, rfl, by decide, by decide⟩

/-- A text with a fault in front has a first char. -/
theorem exists_cons_of_fault {v : List Char} {e : CompileError} (h : Fault v e) :
    ∃ c cs, v = c :: cs := by
  cases h <;> exact ⟨_, _, rfl⟩

/-- The dollar sign that is an anchor is no fault: read on its own it is an item. -/
theorem not_fault_dollar (e : CompileError) : ¬ Fault ['$'] e := by
  intro h
  have h_read : Item.read '$' [] = .error e := Item.read_of_fault h
  contradiction

/-- Whether an item can end in front of a text hangs on the first char of the text, and no item
starts with a char that would matter. -/
theorem endsBefore_of_writes {w rest : List Char} {t : Token} (h : Token.Writes w t) (t' : Token) :
    t'.EndsBefore (w ++ rest) := by
  obtain ⟨c, w', rfl, h_plus, h_mark⟩ := exists_cons_of_writes h
  intro a _
  rw [List.cons_append, List.head?_cons]
  exact ⟨fun h => h_plus (Option.some.inj h), fun h => h_mark (Option.some.inj h)⟩

/-! ### One item -/

/-- How compiling goes on from a first char: an item is read off, and its chars are counted into the
position of an error behind it. -/
theorem compileBody_cons {c : Char} {cs : List Char} (h : c :: cs ≠ ['$']) :
    compileBody (c :: cs) =
      match Item.read c cs with
      | .error e => .error e
      | .ok item =>
        ((compileBody item.rest).mapError (.shift item.text.length)).map (item.token :: ·) := by
  have h_dollar : c = '$' → cs = [] → False := fun hc hcs => h (by rw [hc, hcs])
  -- The equation for a text with chars asks that the text be no anchor.
  rw [compileBody]
  · split <;> simp_all
  · -- It is not: the text is more than a dollar sign.
    exact h_dollar

/-- A fault in front ends compiling, with the error of the fault. -/
theorem compileBody_of_fault {v : List Char} {e : CompileError} (h : Fault v e) :
    compileBody v = .error e := by
  obtain ⟨c, cs, rfl⟩ := exists_cons_of_fault h
  have h_ne : c :: cs ≠ ['$'] := fun h_eq => not_fault_dollar e (h_eq ▸ h)
  rw [compileBody_cons h_ne, Item.read_of_fault h]

/-- **An item in front of a text is read off it.** The text has a first char, from which reading
gives the item, and the text is not the anchor at the end alone. -/
theorem StandsBefore.exists_read {i : List Char × Token} {rest : List Char}
    (h : StandsBefore i rest) :
    ∃ c cs, i.1 ++ rest = c :: cs ∧ c :: cs ≠ ['$'] ∧
      Item.read c cs = .ok { token := i.2, text := i.1, rest } := by
  obtain ⟨c, w, h_cons, -, -⟩ := exists_cons_of_writes h.writes
  have h_eq : i.1 ++ rest = c :: (w ++ rest) := by rw [h_cons, List.cons_append]
  refine ⟨c, w ++ rest, h_eq, ?_, Item.read_of_writes h.writes h.ends h_eq⟩
  -- The anchor alone would be the item with nothing behind it.
  intro h_dollar
  obtain ⟨rfl, h_nil⟩ := List.cons.inj h_dollar
  obtain ⟨rfl, rfl⟩ := List.append_eq_nil_iff.mp h_nil
  exact h.rest_ne_nil h_cons rfl

/-- **The step.** Compiling gives the token of the item in front, and goes on behind the item. -/
theorem compileBody_of_standsBefore {i : List Char × Token} {rest : List Char}
    (h : StandsBefore i rest) :
    compileBody (i.1 ++ rest) =
      ((compileBody rest).mapError (.shift i.1.length)).map (i.2 :: ·) := by
  obtain ⟨c, cs, h_eq, h_ne, h_read⟩ := h.exists_read
  rw [h_eq, compileBody_cons h_ne, h_read]

/-- Where nothing can be cut off there is no item. -/
theorem not_standsBefore_of_isEnd {i : List Char × Token} {rest : List Char}
    (h : IsEnd (i.1 ++ rest)) : ¬ StandsBefore i rest := by
  intro h_item
  obtain ⟨c, cs, h_eq, h_ne, h_read⟩ := h_item.exists_read
  rw [h_eq] at h
  obtain h | h | ⟨e, h⟩ := h
  · contradiction
  · exact h_ne h
  · -- Reading cannot both give the item and name the fault.
    rw [Item.read_of_fault h] at h_read
    contradiction

/-- An item in front of a text is the only one there. -/
theorem StandsBefore.eq {i i' : List Char × Token} {rest rest' : List Char}
    (h : StandsBefore i rest) (h' : StandsBefore i' rest') (h_text : i.1 ++ rest = i'.1 ++ rest') :
    i = i' ∧ rest = rest' := by
  obtain ⟨c, cs, h_eq, -, h_read⟩ := h.exists_read
  obtain ⟨c', cs', h_eq', -, h_read'⟩ := h'.exists_read
  -- Both items are read from the same text, and reading gives one item.
  obtain ⟨rfl, rfl⟩ := List.cons.inj (h_eq.symm.trans (h_text.trans h_eq'))
  rw [h_read', Except.ok.injEq, Item.mk.injEq] at h_read
  obtain ⟨h_token, h_item, h_rest⟩ := h_read
  exact ⟨Prod.ext h_item.symm h_token.symm, h_rest.symm⟩

/-! ### Items one behind the other -/

/-- Only the last item has to mind what is behind the items: in front of an item nothing but the
item's own text matters. -/
theorem itemsBefore_iff {items : List (List Char × Token)} {rest : List Char} :
    ItemsBefore items rest ↔ (∀ i ∈ items, Token.Writes i.1 i.2) ∧
      ∀ i ∈ items.getLast?, i.2.EndsBefore rest ∧ (i.1 = ['$'] → rest ≠ []) := by
  induction items with
  | nil => simp [ItemsBefore]
  | cons i items ih =>
    cases items with
    | nil =>
      have h_iff : StandsBefore i rest ↔
          Token.Writes i.1 i.2 ∧ i.2.EndsBefore rest ∧ (i.1 = ['$'] → rest ≠ []) := by
        refine ⟨?_, ?_⟩
        · intro h
          exact ⟨h.writes, h.ends, h.rest_ne_nil⟩
        · intro h
          obtain ⟨h_writes, h_ends, h_ne⟩ := h
          exact ⟨h_writes, h_ends, h_ne⟩
      simpa [ItemsBefore] using h_iff
    | cons i' items =>
      rw [ItemsBefore, ih, List.getLast?_cons_cons]
      refine ⟨?_, ?_⟩
      · intro h
        obtain ⟨h_item, h_tail, h_last⟩ := h
        exact ⟨List.forall_mem_cons.mpr ⟨h_item.writes, h_tail⟩, h_last⟩
      · intro h
        obtain ⟨h_writes, h_last⟩ := h
        obtain ⟨h_item, h_tail⟩ := List.forall_mem_cons.mp h_writes
        -- What is behind the first item starts with the second, which is neither empty nor a sign.
        have h_next : Token.Writes i'.1 i'.2 := h_tail i' List.mem_cons_self
        obtain ⟨c, w, h_cons, -, -⟩ := exists_cons_of_writes h_next
        have h_ends : i.2.EndsBefore ((i' :: items).flatMap Prod.fst ++ rest) := by
          rw [List.flatMap_cons, List.append_assoc]
          exact endsBefore_of_writes h_next i.2
        have h_ne : (i' :: items).flatMap Prod.fst ++ rest ≠ [] := by
          rw [List.flatMap_cons, h_cons]
          exact List.cons_ne_nil c _
        exact ⟨⟨h_item, h_ends, fun _ => h_ne⟩, h_tail, h_last⟩

/-- **The run.** Compiling gives the tokens of the items in front, and goes on behind them. -/
theorem compileBody_of_itemsBefore {items : List (List Char × Token)} {rest : List Char}
    (h : ItemsBefore items rest) :
    compileBody (items.flatMap Prod.fst ++ rest) =
      ((compileBody rest).mapError (.shift (items.flatMap Prod.fst).length)).map
        (items.map Prod.snd ++ ·) := by
  induction items with
  | nil =>
    rw [List.flatMap_nil, List.map_nil, List.nil_append, List.length_nil]
    cases compileBody rest <;> simp [Except.mapError, Except.map]
  | cons i items ih =>
    -- Positions are counted on by the item, and then by the items behind it.
    calc compileBody ((i :: items).flatMap Prod.fst ++ rest)
        = compileBody (i.1 ++ (items.flatMap Prod.fst ++ rest)) := by
          rw [List.flatMap_cons, List.append_assoc]
      _ = ((compileBody (items.flatMap Prod.fst ++ rest)).mapError (.shift i.1.length)).map
            (i.2 :: ·) := compileBody_of_standsBefore h.1
      _ = ((compileBody rest).mapError (.shift ((i :: items).flatMap Prod.fst).length)).map
            ((i :: items).map Prod.snd ++ ·) := by
          rw [ih h.2, List.flatMap_cons, List.length_append, List.map_cons]
          cases compileBody rest <;> simp [Except.mapError, Except.map]

/-- Items can be cut off until no further one can. -/
theorem exists_itemsBefore (cs : List Char) :
    ∃ items rest, items.flatMap Prod.fst ++ rest = cs ∧ ItemsBefore items rest ∧ IsEnd rest := by
  -- Compiling goes through the items. It stops at one of the three ends, or reads one more item.
  fun_induction compileBody cs with
  | case1 => exact ⟨[], [], rfl, trivial, .inl rfl⟩
  | case2 => exact ⟨[], ['$'], rfl, trivial, .inr (.inl rfl)⟩
  | case3 c cs _ e h =>
    exact ⟨[], c :: cs, rfl, trivial, .inr (.inr ⟨e, Item.read_eq_error_iff.mp h⟩)⟩
  | case4 c cs h_dollar item h ih =>
    obtain ⟨items, rest, h_text, h_items, h_end⟩ := ih
    obtain ⟨h_item, h_exact⟩ := Item.read_eq_ok_iff.mp h
    refine ⟨(item.text, item.token) :: items, rest, ?_, ⟨⟨h_exact.writes, ?_, ?_⟩, h_items⟩, h_end⟩
    · rw [List.flatMap_cons, List.append_assoc, h_text, h_item]
    · rw [h_text]
      exact h_exact.ends
    · -- A last dollar sign is the anchor, and compiling does not read it as an item.
      intro (h_text' : item.text = ['$']) h_nil
      rw [h_text] at h_nil
      rw [h_text', h_nil] at h_item
      obtain ⟨rfl, rfl⟩ := List.cons.inj h_item
      exact h_dollar rfl rfl

/-- The items in front of a text that can be cut off are determined, and so is what is left. -/
theorem ItemsBefore.eq {items items' : List (List Char × Token)} {rest rest' : List Char}
    (h : ItemsBefore items rest) (h_end : IsEnd rest) (h' : ItemsBefore items' rest')
    (h_end' : IsEnd rest')
    (h_text : items.flatMap Prod.fst ++ rest = items'.flatMap Prod.fst ++ rest') :
    items = items' ∧ rest = rest' := by
  induction items generalizing items' with
  | nil =>
    cases items' with
    | nil => exact ⟨rfl, h_text⟩
    | cons i' items' =>
      -- One of the two goes on where the other says that there is no item.
      rw [List.flatMap_nil, List.nil_append, List.flatMap_cons, List.append_assoc] at h_text
      exact absurd h'.1 (not_standsBefore_of_isEnd (h_text ▸ h_end))
  | cons i items ih =>
    rw [List.flatMap_cons, List.append_assoc] at h_text
    cases items' with
    | nil =>
      rw [List.flatMap_nil, List.nil_append] at h_text
      exact absurd h.1 (not_standsBefore_of_isEnd (h_text ▸ h_end'))
    | cons i' items' =>
      -- The first items are the same, so what is behind them is the same text.
      rw [List.flatMap_cons, List.append_assoc] at h_text
      obtain ⟨rfl, h_tail⟩ := h.1.eq h'.1 h_text
      obtain ⟨rfl, rfl⟩ := ih h.2 h'.2 h_tail
      exact ⟨rfl, rfl⟩

/-- Without a caret in front the whole text is compiled as items. -/
theorem compile_eq_compileBody {s : List Char} (h_ne : s ≠ []) (h_head : s.head? ≠ some '^') :
    compile s = compileBody s := by
  unfold compile
  split
  · exact absurd rfl h_ne
  · exact absurd rfl h_head
  · rfl

/-! ### Cuts of a text -/

/-- A pattern text cut where no further item can be cut off. -/
structure Cut where
  /-- Whether a caret in front stands for the start of the line. -/
  start : Bool
  /-- The items behind the caret, each with the token that it writes. -/
  items : List (List Char × Token)
  /-- The text behind the items. -/
  rest : List Char

namespace Cut

/-- The text in front of the cut. -/
def before (c : Cut) : List Char :=
  (if c.start then ['^'] else []) ++ c.items.flatMap Prod.fst

/-- The text that is cut. -/
def text (c : Cut) : List Char := c.before ++ c.rest

/-- The tokens that the text in front of the cut writes. -/
def tokens (c : Cut) : Pattern :=
  (if c.start then [.lineStart] else []) ++ c.items.map Prod.snd

/-- The text is cut by the grammar, and as far to the right as can be. -/
structure Valid (c : Cut) : Prop where
  /-- A caret in front is split off, and nothing else is. -/
  start_iff : c.start = true ↔ c.text.head? = some '^'
  /-- The items can be cut off. -/
  items : ItemsBefore c.items c.rest
  /-- No further item can. -/
  isEnd : IsEnd c.rest

/-- The text from left to right: the caret, the items, and what is left. -/
theorem text_eq (c : Cut) :
    c.text = (if c.start then ['^'] else []) ++ (c.items.flatMap Prod.fst ++ c.rest) := by
  rw [text, before, List.append_assoc]

/-- Each text can be cut. -/
theorem exists_valid (s : List Char) : ∃ c : Cut, c.Valid ∧ c.text = s := by
  -- The caret is not cut off as an item, so it is split off first.
  by_cases h_head : s.head? = some '^'
  · obtain ⟨cs, rfl⟩ := List.head?_eq_some_iff.mp h_head
    obtain ⟨items, rest, rfl, h_items, h_end⟩ := exists_itemsBefore cs
    have h_valid : Valid ⟨true, items, rest⟩ := ⟨iff_of_true rfl rfl, h_items, h_end⟩
    exact ⟨⟨true, items, rest⟩, h_valid, rfl⟩
  · obtain ⟨items, rest, rfl, h_items, h_end⟩ := exists_itemsBefore s
    have h_valid : Valid ⟨false, items, rest⟩ :=
      ⟨iff_of_false Bool.false_ne_true h_head, h_items, h_end⟩
    exact ⟨⟨false, items, rest⟩, h_valid, rfl⟩

/-- No text can be cut in two ways. -/
theorem eq_of_text_eq {c d : Cut} (hc : c.Valid) (hd : d.Valid) (h : c.text = d.text) : c = d := by
  -- The text says whether there is a caret, and what is behind the caret has one cut.
  have h_start : c.start = d.start := by
    rw [Bool.eq_iff_iff, hc.start_iff, hd.start_iff, h]
  rw [text_eq, text_eq, h_start, List.append_cancel_left_eq] at h
  obtain ⟨h_items, h_rest⟩ := hc.items.eq hc.isEnd hd.items hd.isEnd h
  cases c
  cases d
  cases h_start
  cases h_items
  cases h_rest
  rfl

/-- **What is left behind the items decides.** Compiling a text compiles what is left of it behind
the items, puts the tokens of the text in front of the cut before the result and counts the chars of
that text into the position of an error. It does not matter whether more items could be cut off. -/
theorem compile_text_of_itemsBefore {c : Cut} (h_start : c.start = true ↔ c.text.head? = some '^')
    (h_items : ItemsBefore c.items c.rest) (h_ne : c.text ≠ []) :
    compile c.text =
      ((compileBody c.rest).mapError (.shift c.before.length)).map (c.tokens ++ ·) := by
  obtain ⟨start, items, rest⟩ := c
  have h_run := compileBody_of_itemsBefore h_items
  cases start with
  | true =>
    -- The caret counts as a char in front of the items.
    change compile ('^' :: (items.flatMap Prod.fst ++ rest)) = _
    rw [compile, h_run]
    cases compileBody rest <;> simp [Except.mapError, Except.map, before, tokens, Nat.add_comm]
  | false =>
    -- The text does not start with a caret, so the whole of it is compiled as items.
    have h_head : (items.flatMap Prod.fst ++ rest).head? ≠ some '^' := fun h_head =>
      Bool.false_ne_true (h_start.mpr h_head)
    have h_compile : compile (items.flatMap Prod.fst ++ rest) =
        compileBody (items.flatMap Prod.fst ++ rest) := compile_eq_compileBody h_ne h_head
    change compile (items.flatMap Prod.fst ++ rest) = _
    rw [h_compile, h_run]
    rfl

/-- The same for a cut as far to the right as can be. -/
theorem compile_text {c : Cut} (h : c.Valid) (h_ne : c.text ≠ []) :
    compile c.text =
      ((compileBody c.rest).mapError (.shift c.before.length)).map (c.tokens ++ ·) :=
  compile_text_of_itemsBefore h.start_iff h.items h_ne

end Cut

end LinePattern.Pattern
