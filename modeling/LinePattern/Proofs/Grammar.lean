import LinePattern.Proofs.Cut

/-!
# Compiling and the grammar

`Pattern.compile` accepts exactly the texts that can be laid out, and gives the tokens of the
layout. It refuses every other text with the error of its first fault.

A layout and a breakdown are two kinds of cuts. In a layout nothing is left behind the items but
the anchor at the end; in a breakdown there is a fault. So that a text has one cut settles at once
that layouts and breakdowns are unique and that no text has both.

Main statements:

* `compile_eq_ok_iff_layout`: what is accepted, and that it is laid out in one way.
* `compile_eq_error_iff_breakdown`: what is refused, for which fault, and that the fault is the only
  one that can be met first.
-/

namespace LinePattern.Pattern

namespace Layout

/-- The cut of a text that is laid out. Behind the items is the anchor at the end, or nothing. -/
def cut (l : Layout) : Cut where
  start := l.start
  items := l.items
  rest := if l.stop then ['$'] else []

/-- Cutting keeps the text of a layout. -/
theorem text_cut (l : Layout) : l.cut.text = l.text := rfl

/-- What is left behind the items says whether there is an anchor at the end, so nothing of a layout
is lost in its cut. -/
theorem cut_injective : Function.Injective cut := by
  intro l m h
  obtain ⟨start, items, stop⟩ := l
  obtain ⟨start', items', stop'⟩ := m
  simp only [cut, Cut.mk.injEq] at h
  obtain ⟨rfl, rfl, h_rest⟩ := h
  have h_stop : stop = stop' := by cases stop <;> cases stop' <;> simp_all
  rw [h_stop]

/-- **Layouts are cuts.** That an anchor sign which can be split off is split off is what it means
to cut no item in front of it. -/
theorem valid_cut_iff {l : Layout} : l.cut.Valid ↔ l.Valid := by
  obtain ⟨start, items, stop⟩ := l
  refine ⟨?_, ?_⟩
  · intro h
    obtain ⟨h_writes, h_last⟩ := itemsBefore_iff.mp h.items
    refine ⟨h_writes, h.start_iff.mpr, ?_⟩
    intro h_dollar
    -- With no anchor at the end nothing is left behind the last item.
    obtain ⟨i, h_mem, h_text⟩ := Option.map_eq_some_iff.mp h_dollar
    have h_rest := (h_last i h_mem).2 h_text
    cases stop with
    | true => rfl
    | false => exact absurd rfl h_rest
  · -- What a layout says of its last item is what the cut asks of it, and what is left behind the
    -- items is an end.
    intro h
    refine ⟨⟨?_, h.start_of_head⟩, itemsBefore_iff.mpr ⟨h.writes, ?_⟩, ?_⟩
    · intro (h_start : start = true)
      subst h_start
      rfl
    · intro i h_mem
      refine ⟨?_, ?_⟩
      · -- The dollar sign is no quantifier sign.
        intro a _
        cases stop <;> exact ⟨by simp [cut], by simp [cut]⟩
      · -- Behind a dollar sign there is another one, the anchor.
        intro h_text
        have h_last := Option.map_eq_some_iff.mpr ⟨i, h_mem, h_text⟩
        have h_stop : stop = true := h.stop_of_getLast h_last
        subst h_stop
        exact List.cons_ne_nil _ _
    · cases stop with
      | true => exact .inr (.inl rfl)
      | false => exact .inl rfl

/-- No text is laid out in two ways, as no text can be cut in two ways. -/
theorem eq_of_text_eq {l m : Layout} (hl : l.Valid) (hm : m.Valid) (h : l.text = m.text) :
    l = m := by
  have h_cut : l.cut = m.cut := Cut.eq_of_text_eq (valid_cut_iff.mpr hl) (valid_cut_iff.mpr hm) h
  exact cut_injective h_cut

/-- The anchor at the end is all that compiling adds to the tokens of the items. -/
theorem compileBody_stop (stop : Bool) :
    compileBody (if stop then ['$'] else []) = .ok (if stop then [.lineEnd] else []) := by
  cases stop with
  | true =>
    rw [if_pos rfl, if_pos rfl, compileBody]
  | false =>
    rw [if_neg Bool.false_ne_true, if_neg Bool.false_ne_true, compileBody]

/-- A text that is laid out compiles to the tokens of its layout. -/
theorem compile_text {l : Layout} (h : l.Valid) (h_ne : l.text ≠ []) :
    compile l.text = .ok l.tokens := by
  rw [← text_cut, Cut.compile_text (valid_cut_iff.mpr h) h_ne, cut, compileBody_stop]
  rfl

end Layout

namespace Breakdown

/-- The cut of a text that is refused. -/
def cut (b : Breakdown) : Cut where
  start := b.start
  items := b.items
  rest := b.rest

/-- Cutting keeps the text of a breakdown. -/
theorem text_cut (b : Breakdown) : b.cut.text = b.text := rfl

/-- **Breakdowns are cuts** in front of a fault. -/
theorem valid_iff {b : Breakdown} : b.Valid ↔ b.cut.Valid ∧ Fault b.rest b.cause := by
  refine ⟨?_, ?_⟩
  · intro h
    have h_end : IsEnd b.rest := .inr (.inr ⟨b.cause, h.fault⟩)
    refine ⟨⟨h.start_iff, itemsBefore_iff.mpr ⟨h.writes, ?_⟩, h_end⟩, h.fault⟩
    intro i h_mem
    refine ⟨h.ends i h_mem, ?_⟩
    -- A fault stands behind the last item, so that a dollar sign there is no anchor.
    intro _
    obtain ⟨c, cs, h_cons⟩ := exists_cons_of_fault h.fault
    change b.rest ≠ []
    rw [h_cons]
    exact List.cons_ne_nil c cs
  · intro h
    obtain ⟨h_cut, h_fault⟩ := h
    obtain ⟨h_writes, h_last⟩ := itemsBefore_iff.mp h_cut.items
    exact ⟨h_writes, fun i h_mem => (h_last i h_mem).1, h_cut.start_iff, h_fault⟩

/-- A text has one fault in front at most. -/
theorem cause_eq_of_fault {v : List Char} {e e' : CompileError} (h : Fault v e) (h' : Fault v e') :
    e = e' := by
  have h_compile := compileBody_of_fault h
  rw [compileBody_of_fault h', Except.error.injEq] at h_compile
  exact h_compile.symm

/-- No text breaks down in two ways: the cut is determined, and what is left behind the items has
one fault in front. -/
theorem eq_of_text_eq {b c : Breakdown} (hb : b.Valid) (hc : c.Valid) (h : b.text = c.text) :
    b = c := by
  have h_cut : b.cut = c.cut := Cut.eq_of_text_eq (valid_iff.mp hb).1 (valid_iff.mp hc).1 h
  obtain ⟨start, items, rest, cause⟩ := b
  obtain ⟨start', items', rest', cause'⟩ := c
  simp only [cut, Cut.mk.injEq] at h_cut
  obtain ⟨rfl, rfl, rfl⟩ := h_cut
  -- The cut does not have the error, but what is left has one fault only.
  have h_cause : cause = cause' := cause_eq_of_fault hb.fault hc.fault
  rw [h_cause]

/-- A text that breaks down is refused with the error of its fault. -/
theorem compile_text {b : Breakdown} (h : b.Valid) : compile b.text = .error b.error := by
  -- A fault has a first char, so the text is not empty.
  have h_ne : b.cut.text ≠ [] := by
    obtain ⟨c, cs, h_cons⟩ := exists_cons_of_fault h.fault
    change b.before ++ b.rest ≠ []
    rw [h_cons]
    exact List.append_ne_nil_of_right_ne_nil _ (List.cons_ne_nil c cs)
  rw [← text_cut, Cut.compile_text (valid_iff.mp h).1 h_ne]
  change ((compileBody b.rest).mapError _).map _ = _
  rw [compileBody_of_fault h.fault]
  rfl

end Breakdown

/-- A cut leaves an anchor or nothing, or it leaves a fault. -/
theorem Cut.Valid.layout_or_breakdown {c : Cut} (h : c.Valid) :
    (∃ l : Layout, l.Valid ∧ l.text = c.text) ∨ ∃ b : Breakdown, b.Valid ∧ b.text = c.text := by
  obtain ⟨start, items, rest⟩ := c
  -- The three ends: nothing is left, the anchor is, or a fault is.
  obtain h_rest | h_rest | ⟨e, h_fault⟩ := h.isEnd
  · change rest = [] at h_rest
    subst h_rest
    exact .inl ⟨⟨start, items, false⟩, Layout.valid_cut_iff.mp h, rfl⟩
  · change rest = ['$'] at h_rest
    subst h_rest
    exact .inl ⟨⟨start, items, true⟩, Layout.valid_cut_iff.mp h, rfl⟩
  · exact .inr ⟨⟨start, items, rest, e⟩, Breakdown.valid_iff.mpr ⟨h, h_fault⟩, rfl⟩

/-- Every text is laid out or breaks down, the empty one included: it is laid out without items. -/
theorem layout_or_breakdown (s : List Char) :
    (∃ l : Layout, l.Valid ∧ l.text = s) ∨ ∃ b : Breakdown, b.Valid ∧ b.text = s := by
  obtain ⟨c, h, rfl⟩ := Cut.exists_valid s
  exact h.layout_or_breakdown

/-- A text that compiles has a layout, for with a breakdown it would be refused. -/
theorem exists_layout_of_compile {s : List Char} {p : Pattern} (h : compile s = .ok p) :
    s ≠ [] ∧ ∃ l : Layout, l.Valid ∧ l.text = s ∧ l.tokens = p := by
  have h_ne : s ≠ [] := by
    rintro rfl
    contradiction
  obtain ⟨l, h_valid, rfl⟩ | ⟨b, h_valid, rfl⟩ := layout_or_breakdown s
  · rw [Layout.compile_text h_valid h_ne, Except.ok.injEq] at h
    exact ⟨h_ne, l, h_valid, rfl, h⟩
  · rw [Breakdown.compile_text h_valid] at h
    contradiction

/-- A text that is refused has a breakdown, for with a layout it would compile. The empty text is
left out: nothing is wrong at any place in it. -/
theorem exists_breakdown_of_compile {s : List Char} (hs : s ≠ []) {e : CompileError}
    (h : compile s = .error e) : ∃ b : Breakdown, b.Valid ∧ b.text = s ∧ b.error = e := by
  obtain ⟨l, h_valid, rfl⟩ | ⟨b, h_valid, rfl⟩ := layout_or_breakdown s
  · rw [Layout.compile_text h_valid hs] at h
    contradiction
  · rw [Breakdown.compile_text h_valid, Except.error.injEq] at h
    exact ⟨b, h_valid, rfl, h⟩

/-- **The grammar of patterns.** A text is accepted, and writes the tokens `p`, exactly if it has
chars and a layout whose tokens are `p`. No text has two layouts. -/
theorem compile_eq_ok_iff_layout (s : List Char) :
    (∀ p, compile s = .ok p ↔ s ≠ [] ∧ ∃ l : Layout, l.Valid ∧ l.text = s ∧ l.tokens = p) ∧
      ∀ l m : Layout, l.Valid → m.Valid → l.text = s → m.text = s → l = m := by
  refine ⟨?_, ?_⟩
  · intro p
    refine ⟨exists_layout_of_compile, ?_⟩
    rintro ⟨h_ne, l, h_valid, rfl, rfl⟩
    exact Layout.compile_text h_valid h_ne
  · intro l m hl hm h_text h_text'
    exact Layout.eq_of_text_eq hl hm (h_text.trans h_text'.symm)

/-- The caret in front and the last dollar sign are split off, and the first dollar sign is an
item. -/
theorem exists_layout_of_anchor_signs :
    ∃ l : Layout, l.Valid ∧ l.text = ['^', '$', '$'] ∧
      l.tokens = [.lineStart, .atom (.literal '$') .one, .lineEnd] :=
  (((compile_eq_ok_iff_layout ['^', '$', '$']).1 _).mp (by decide +kernel)).2

/-- **The first fault.** A text with chars is refused with the error `e` exactly if it breaks down
at a fault that gives `e` there. No text breaks down in two ways, so nothing in front of the fault
is at fault and the fault is the leftmost one. -/
theorem compile_eq_error_iff_breakdown {s : List Char} (hs : s ≠ []) (e : CompileError) :
    compile s = .error e ↔ ∃ b : Breakdown, b.Valid ∧ b.text = s ∧ b.error = e ∧
      ∀ c : Breakdown, c.Valid → c.text = s → c = b := by
  refine ⟨?_, ?_⟩
  · intro h
    obtain ⟨b, h_valid, rfl, h_error⟩ := exists_breakdown_of_compile hs h
    refine ⟨b, h_valid, rfl, h_error, ?_⟩
    intro c hc h_text
    exact Breakdown.eq_of_text_eq hc h_valid h_text
  · rintro ⟨b, h_valid, rfl, rfl, -⟩
    exact Breakdown.compile_text h_valid

/-- The empty option is refused, and not the quantifier sign behind the group or the bracket at the
end. -/
theorem exists_breakdown_of_three_faults :
    "^a+\\$(b||c)+)".toList ≠ [] ∧
      ∃ b : Breakdown, b.Valid ∧ b.text = "^a+\\$(b||c)+)".toList ∧ b.error = .unexpected '|' 8 ∧
        ∀ c : Breakdown, c.Valid → c.text = "^a+\\$(b||c)+)".toList → c = b := by
  have h_ne : "^a+\\$(b||c)+)".toList ≠ [] := by decide
  exact ⟨h_ne, (compile_eq_error_iff_breakdown h_ne _).mp (by decide +kernel)⟩

end LinePattern.Pattern
