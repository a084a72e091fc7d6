import LinePattern.Pattern.Language
import LinePattern.Proofs.Grammar
import Mathlib.Logic.Equiv.Basic

/-!
# Renaming chars

Three things are asked of a char: whether it is a sign of the syntax, and which one; whether it is a
digit or a word char; and whether it is the same as another char. Nothing else about it matters: not
its code point, not the number of bytes that it takes, not whether it is upper or lower case.

This is said by renaming chars. A renaming leaves the signs in place, keeps digits and word chars
among themselves and gives different chars different names (`IsRenaming`). A pattern text that is
renamed throughout is compiled to the renamed pattern, or refused with the same error at the same
place, and the renamed pattern is found in the renamed lines.

Compiling is compared by the grammar. The renamed text of an item writes the renamed token, and a
fault stays the same fault, so that a layout of the text gives one of the renamed text, and so does
a breakdown. As each text has one or the other, nothing has to be said in the other direction.
Searching is compared step by step: what a renamed token takes from a renamed line is the renamed
text of the token.

Main statements:

* `Token.Writes.rename`, `Pattern.Fault.rename`: the grammar of the renamed text.
* `IsRenaming.swap`: exchanging two chars of a kind is a renaming.
* `compile_map_and_search_rename`: compiling and searching the renamed text.
-/

namespace LinePattern

/-- The chars that have a meaning in pattern texts, some of them only in certain places. -/
def syntaxChars : List Char := reserved ++ [']', '^', '$', 'd', 'w']

/-- The map `f` gives chars new names under which they mean the same. -/
structure IsRenaming (f : Char → Char) : Prop where
  /-- Different chars have different names. -/
  injective : Function.Injective f
  /-- The chars of the syntax keep their names. -/
  eq_self : ∀ c ∈ syntaxChars, f c = c
  /-- The names of digits are digits, and no other names are. -/
  mem_digit_iff : ∀ c, f c ∈ Atom.digit.chars ↔ c ∈ Atom.digit.chars
  /-- The names of word chars are word chars, and no other names are. -/
  mem_word_iff : ∀ c, f c ∈ Atom.word.chars ↔ c ∈ Atom.word.chars

variable {f : Char → Char}

/-- The atom, renamed. -/
def Atom.rename (f : Char → Char) : Atom → Atom
  | literal c => literal (f c)
  | a => a

/-- The token, with its literals, members and options renamed. -/
def Token.rename (f : Char → Char) : Token → Token
  | atom a q => atom (a.rename f) q
  | charClass polarity members => charClass polarity (members.map f)
  | group options => group (options.map (List.map f))
  | t => t

/-- The pattern, with each of its tokens renamed. -/
def Pattern.rename (f : Char → Char) (p : Pattern) : Pattern := p.map (Token.rename f)

/-! ### The chars of the syntax -/

/-- The chars that start no literal are signs of the syntax. The others are signs in certain places
only. -/
theorem mem_syntaxChars_of_mem_reserved {c : Char} (h : c ∈ reserved) : c ∈ syntaxChars :=
  List.mem_append_left _ h

/-- An opening bracket keeps its name. -/
theorem Bracket.opener_mem_syntaxChars (bracket : Bracket) : bracket.opener ∈ syntaxChars := by
  cases bracket <;> decide

/-- A closing bracket keeps its name. -/
theorem Bracket.closer_mem_syntaxChars (bracket : Bracket) : bracket.closer ∈ syntaxChars := by
  cases bracket <;> decide

/-- The sign of a quantifier keeps its name. -/
theorem Quantifier.sign_subset_syntaxChars (q : Quantifier) : q.sign ⊆ syntaxChars := by
  cases q <;> simp [sign, syntaxChars, reserved]

/-- The sign of a negative class keeps its name. -/
theorem Polarity.sign_subset_syntaxChars (polarity : Polarity) : polarity.sign ⊆ syntaxChars := by
  cases polarity <;> simp [sign, syntaxChars]

namespace IsRenaming

/-- Two chars that are both in a set, or both not, can be exchanged without an effect on what is in
it. -/
theorem swap_mem_iff {s : Set Char} {c d : Char} (h : c ∈ s ↔ d ∈ s) (x : Char) :
    Equiv.swap c d x ∈ s ↔ x ∈ s := by
  rw [Equiv.swap_apply_def]
  -- Only the two themselves get another name.
  split_ifs with h_c h_d
  · rw [h_c, h]
  · rw [h_d, h]
  · rfl

/-- Two chars of a kind, neither of them a char of the syntax, can be exchanged. -/
theorem swap {c d : Char} (hc : c ∉ syntaxChars) (hd : d ∉ syntaxChars)
    (h_digit : c ∈ Atom.digit.chars ↔ d ∈ Atom.digit.chars)
    (h_word : c ∈ Atom.word.chars ↔ d ∈ Atom.word.chars) : IsRenaming (Equiv.swap c d) where
  injective := (Equiv.swap c d).injective
  eq_self x hx := by
    refine Equiv.swap_apply_of_ne_of_ne ?_ ?_
    · rintro rfl
      exact hc hx
    · rintro rfl
      exact hd hx
  mem_digit_iff := swap_mem_iff h_digit
  mem_word_iff := swap_mem_iff h_word

variable (h : IsRenaming f) {c d : Char} {cs ds : List Char}

include h

/-- A char has the name of a sign only if it is that sign. -/
theorem eq_iff (hd : d ∈ syntaxChars) : f c = d ↔ c = d :=
  calc f c = d ↔ f c = f d := by rw [h.eq_self d hd]
    _ ↔ c = d := h.injective.eq_iff

/-- A char has the name of one of some signs only if it is one of them. -/
theorem mem_iff (hds : ds ⊆ syntaxChars) : f c ∈ ds ↔ c ∈ ds := by
  refine ⟨?_, ?_⟩
  · -- A char of the syntax is its own name, and so the name of no other char.
    intro h_mem
    have h_eq : c = f c := (h.eq_iff (hds h_mem)).mp rfl
    rwa [h_eq]
  · intro h_mem
    rwa [h.eq_self c (hds h_mem)]

/-- A sign is in the renamed text exactly if it is in the text. -/
theorem mem_map_iff (hd : d ∈ syntaxChars) : d ∈ cs.map f ↔ d ∈ cs :=
  calc d ∈ cs.map f ↔ f d ∈ cs.map f := by rw [h.eq_self d hd]
    _ ↔ d ∈ cs := List.mem_map_of_injective h.injective

/-- It is in front of the one exactly if it is in front of the other. -/
theorem head?_map_iff (hd : d ∈ syntaxChars) : (cs.map f).head? = some d ↔ cs.head? = some d :=
  calc (cs.map f).head? = some d ↔ cs.head?.map f = (some d).map f := by
        rw [List.head?_map, Option.map_some, h.eq_self d hd]
    _ ↔ cs.head? = some d := (Option.map_injective h.injective).eq_iff

/-- A text that is made of chars of the syntax stays what it is. -/
theorem map_eq_self (hds : ds ⊆ syntaxChars) : ds.map f = ds :=
  calc ds.map f = ds.map id := List.map_congr_left fun c hc => h.eq_self c (hds hc)
    _ = ds := List.map_id ds

/-- A text that is renamed to signs is made of these signs. -/
theorem map_eq_iff (hds : ds ⊆ syntaxChars) : cs.map f = ds ↔ cs = ds :=
  calc cs.map f = ds ↔ cs.map f = ds.map f := by rw [h.map_eq_self hds]
    _ ↔ cs = ds := h.injective.list_map.eq_iff

/-- A sign alone stays what it is. -/
theorem map_singleton_eq_self (hd : d ∈ syntaxChars) : [d].map f = [d] := by
  rw [List.map_singleton, h.eq_self d hd]

/-- A sign that may be missing stays what it is. -/
theorem map_ite_eq_self (hd : d ∈ syntaxChars) (b : Bool) :
    (if b then [d] else []).map f = if b then [d] else [] := by
  cases b with
  | true => exact h.map_singleton_eq_self hd
  | false => rfl

/-- What stands between brackets is renamed, and the brackets are not. -/
theorem map_enclosed (bracket : Bracket) (cs : List Char) :
    (bracket.opener :: (cs ++ [bracket.closer])).map f =
      bracket.opener :: (cs.map f ++ [bracket.closer]) := by
  rw [List.map_cons, List.map_append, List.map_singleton,
    h.eq_self _ bracket.opener_mem_syntaxChars, h.eq_self _ bracket.closer_mem_syntaxChars]

/-- Each option is renamed, and the bars between them are not. -/
theorem map_intercalate (options : List (List Char)) :
    (['|'].intercalate options).map f = ['|'].intercalate (options.map (List.map f)) := by
  have h_bar : ['|'].map f = ['|'] := h.map_singleton_eq_self (by decide)
  induction options with
  | nil => rfl
  | cons o options ih =>
    cases options with
    | nil => simp
    | cons o' options =>
      rw [List.intercalate_cons_cons, List.map_append, List.map_append, ih, h_bar]
      simp only [List.map_cons, List.intercalate_cons_cons]

/-- The same with a bar behind each option. -/
theorem map_flatMap_append_bar (options : List (List Char)) :
    (options.flatMap (· ++ ['|'])).map f = (options.map (List.map f)).flatMap (· ++ ['|']) := by
  have h_bar : ['|'].map f = ['|'] := h.map_singleton_eq_self (by decide)
  rw [List.map_flatMap, List.flatMap_map]
  simp only [List.map_append, h_bar]

/-- Options stay options: none becomes empty, and no bar or closing bracket is a new name. -/
theorem forall_option_map {options : List (List Char)}
    (h_option : ∀ o ∈ options, o ≠ [] ∧ '|' ∉ o ∧ ')' ∉ o) :
    ∀ o ∈ options.map (List.map f), o ≠ [] ∧ '|' ∉ o ∧ ')' ∉ o := by
  rw [List.forall_mem_map]
  intro o ho
  obtain ⟨h_ne, h_bar, h_closer⟩ := h_option o ho
  refine ⟨mt List.map_eq_nil_iff.mp h_ne, ?_, ?_⟩
  · exact mt (h.mem_map_iff (by decide)).mp h_bar
  · exact mt (h.mem_map_iff (by decide)).mp h_closer

end IsRenaming

/-! ### Items and faults of the renamed text -/

section Grammar

variable (h : IsRenaming f)

include h

/-- Only `d` and `w` are escaped for another sake than their own, and they keep their names. -/
theorem Atom.rename_ofEscape (c : Char) : (ofEscape c).rename f = ofEscape (f c) := by
  have h_digit : f c = 'd' ↔ c = 'd' := h.eq_iff (by decide)
  have h_word : f c = 'w' ↔ c = 'w' := h.eq_iff (by decide)
  by_cases hd : c = 'd'
  · rw [h_digit.mpr hd, hd]
    rfl
  · by_cases hw : c = 'w'
    · rw [h_word.mpr hw, hw]
      rfl
    · -- Behind a backslash both the char and its name stand for themselves.
      have h_self : ∀ c, c ≠ 'd' → c ≠ 'w' → ofEscape c = literal c := by
        intro c hd hw
        unfold ofEscape
        split <;> trivial
      rw [h_self c hd hw, h_self (f c) (mt h_digit.mp hd) (mt h_word.mp hw), rename]

/-- The renamed text of an atom writes the renamed atom: no escaped char changes its meaning, and no
plain char gets a reserved name. -/
theorem Atom.Writes.rename {w : List Char} {a : Atom} (h_w : a.Writes w) :
    (a.rename f).Writes (w.map f) := by
  cases h_w with
  | escape c =>
    rw [List.map_cons, h.eq_self '\\' (by decide), Atom.rename_ofEscape h]
    exact .escape (f c)
  | wildcard =>
    rw [List.map_cons, h.eq_self '.' (by decide)]
    exact .wildcard
  | plain c h_plain =>
    -- Only a reserved char has a reserved name.
    have h_name : f c ∉ reserved :=
      mt (h.mem_iff fun _ => mem_syntaxChars_of_mem_reserved).mp h_plain
    exact .plain (f c) h_name

/-- **Items.** The renamed text of an item writes the renamed token. -/
theorem Token.Writes.rename {w : List Char} {t : Token} (h_w : Writes w t) :
    Writes (w.map f) (t.rename f) := by
  cases h_w with
  | atom h_w q =>
    rw [List.map_append, h.map_eq_self q.sign_subset_syntaxChars]
    exact .atom (h_w.rename h) q
  | @positive members ne_nil head closer =>
    have h_text := h.map_enclosed .square members
    have h_head := mt (h.head?_map_iff (by decide)).mp head
    have h_closer := mt (h.mem_map_iff (by decide)).mp closer
    exact h_text ▸ .positive (mt List.map_eq_nil_iff.mp ne_nil) h_head h_closer
  | @negative members ne_nil closer =>
    -- The caret in front stands between the brackets as well, and keeps its name.
    have h_caret : ('^' :: members).map f = '^' :: members.map f := by
      rw [List.map_cons, h.eq_self '^' (by decide)]
    have h_text := h.map_enclosed .square ('^' :: members)
    rw [h_caret] at h_text
    have h_closer := mt (h.mem_map_iff (by decide)).mp closer
    exact h_text ▸ .negative (mt List.map_eq_nil_iff.mp ne_nil) h_closer
  | @group options ne_nil option =>
    have h_text := h.map_enclosed .round (['|'].intercalate options)
    rw [h.map_intercalate] at h_text
    exact h_text ▸ .group (mt List.map_eq_nil_iff.mp ne_nil) (h.forall_option_map option)

/-- An item ends where it did, for a sign that would continue it would have been there before. -/
theorem Token.EndsBefore.rename {t : Token} {rest : List Char} (h_t : t.EndsBefore rest) :
    (t.rename f).EndsBefore (rest.map f) := by
  intro a ha
  -- A single atom has its name from a single atom.
  have h_one : ∃ b, t = .atom b .one := by
    cases t with
    | atom b q =>
      obtain ⟨-, rfl⟩ := Token.atom.inj ha
      exact ⟨b, rfl⟩
    | lineStart => contradiction
    | lineEnd => contradiction
    | charClass => contradiction
    | group => contradiction
  obtain ⟨b, hb⟩ := h_one
  obtain ⟨h_plus, h_mark⟩ := h_t b hb
  exact ⟨mt (h.head?_map_iff (by decide)).mp h_plus, mt (h.head?_map_iff (by decide)).mp h_mark⟩

namespace Pattern

/-- **Faults.** The renamed text has the same fault. -/
theorem Fault.rename {v : List Char} {e : CompileError} (h_v : Fault v e) : Fault (v.map f) e := by
  cases h_v with
  | dangling =>
    -- A text of signs alone.
    rw [h.map_eq_self (by simp [syntaxChars, reserved])]
    exact .dangling
  | @unterminated bracket cs h_closer =>
    rw [List.map_cons, h.eq_self _ bracket.opener_mem_syntaxChars]
    exact .unterminated (mt (h.mem_map_iff bracket.closer_mem_syntaxChars).mp h_closer)
  | emptyClass polarity cs =>
    rw [List.map_cons, List.map_append, List.map_cons, h.eq_self '[' (by decide),
      h.map_eq_self polarity.sign_subset_syntaxChars, h.eq_self ']' (by decide)]
    exact .emptyClass polarity (cs.map f)
  | @emptyOption before found cs option ends =>
    -- The options in front are as long as before, so the empty one is at the same place.
    have h_length : (before.flatMap (· ++ ['|'])).length =
        ((before.map (List.map f)).flatMap (· ++ ['|'])).length := by
      rw [← h.map_flatMap_append_bar, List.length_map]
    have h_found : f found = found := by
      obtain rfl | ⟨rfl, -⟩ := ends
      · exact h.eq_self ')' (by decide)
      · exact h.eq_self '|' (by decide)
    rw [List.map_cons, List.map_append, List.map_cons, h.eq_self '(' (by decide), h_found,
      h.map_flatMap_append_bar, h_length]
    refine .emptyOption (h.forall_option_map option) ?_
    rwa [h.mem_map_iff (by decide)]
  | @misplaced c cs h_c =>
    have h_signs : ['+', '?', '|', ')'] ⊆ syntaxChars := by simp [syntaxChars, reserved]
    rw [List.map_cons, h.eq_self c (h_signs h_c)]
    exact .misplaced h_c

/-! ### Compiling the renamed text -/

/-- The item, its text and its token renamed. -/
def renameItem (f : Char → Char) (i : List Char × Token) : List Char × Token :=
  (i.1.map f, i.2.rename f)

omit h in
/-- Renaming the items is renaming their text. -/
theorem flatMap_fst_renameItem (items : List (List Char × Token)) :
    (items.map (renameItem f)).flatMap Prod.fst = (items.flatMap Prod.fst).map f := by
  rw [List.flatMap_map, List.map_flatMap]
  rfl

/-- Each renamed item writes its renamed token. -/
theorem writes_renameItem {items : List (List Char × Token)}
    (h_items : ∀ i ∈ items, Token.Writes i.1 i.2) :
    ∀ i ∈ items.map (renameItem f), Token.Writes i.1 i.2 := by
  rw [List.forall_mem_map]
  intro i hi
  exact (h_items i hi).rename h

namespace Layout

/-- The layout of the renamed text. -/
def rename (f : Char → Char) (l : Layout) : Layout where
  start := l.start
  items := l.items.map (renameItem f)
  stop := l.stop

/-- The signs of the anchors keep their names, and so do not get in the way. -/
theorem text_rename (l : Layout) : (l.rename f).text = l.text.map f := by
  rw [text, text, List.map_append, List.map_append, h.map_ite_eq_self (by decide),
    h.map_ite_eq_self (by decide), ← flatMap_fst_renameItem]
  rfl

omit h in
/-- The renamed layout writes the renamed tokens. -/
theorem tokens_rename (l : Layout) : (l.rename f).tokens = Pattern.rename f l.tokens := by
  obtain ⟨start, items, stop⟩ := l
  cases start <;> cases stop <;> simp [rename, tokens, Pattern.rename, renameItem, Token.rename]

/-- **Layouts.** A layout of the text is one of the renamed text. -/
theorem Valid.rename {l : Layout} (h_l : l.Valid) : (l.rename f).Valid where
  writes := writes_renameItem h h_l.writes
  start_of_head h_head := by
    rw [text_rename h, h.head?_map_iff (by decide)] at h_head
    exact h_l.start_of_head h_head
  stop_of_getLast h_last := by
    -- A last item whose name is a dollar sign is a dollar sign.
    apply h_l.stop_of_getLast
    rw [Layout.rename, List.getLast?_map, Option.map_map, Option.map_eq_some_iff] at h_last
    obtain ⟨i, hi, h_text⟩ := h_last
    have h_dollar : i.1 = ['$'] := (h.map_eq_iff (by simp [syntaxChars])).mp h_text
    rw [hi, Option.map_some, h_dollar]

end Layout

namespace Breakdown

/-- The breakdown of the renamed text. -/
def rename (f : Char → Char) (b : Breakdown) : Breakdown where
  start := b.start
  items := b.items.map (renameItem f)
  rest := b.rest.map f
  cause := b.cause

/-- What is in front of the fault is renamed. -/
theorem before_rename (b : Breakdown) : (b.rename f).before = b.before.map f := by
  rw [before, before, List.map_append, h.map_ite_eq_self (by decide), ← flatMap_fst_renameItem]
  rfl

/-- The renamed breakdown is one of the renamed text. -/
theorem text_rename (b : Breakdown) : (b.rename f).text = b.text.map f := by
  rw [text, text, List.map_append, before_rename h]
  rfl

/-- The fault is at the same place. -/
theorem error_rename (b : Breakdown) : (b.rename f).error = b.error := by
  rw [error, error, before_rename h, List.length_map]
  rfl

/-- **Breakdowns.** A text that breaks down does so at the same fault when it is renamed. -/
theorem Valid.rename {b : Breakdown} (h_b : b.Valid) : (b.rename f).Valid where
  writes := writes_renameItem h h_b.writes
  ends i hi := by
    rw [Breakdown.rename, List.getLast?_map] at hi
    obtain ⟨j, hj, rfl⟩ := Option.map_eq_some_iff.mp hi
    exact (h_b.ends j hj).rename h
  start_iff := by
    rw [text_rename h, h.head?_map_iff (by decide)]
    exact h_b.start_iff
  fault := h_b.fault.rename h

end Breakdown

/-- **Compiling.** The renamed text is compiled to the renamed pattern, or refused with the same
error. -/
theorem compile_map (s : List Char) : compile (s.map f) = (compile s).map (rename f) := by
  by_cases h_ne : s = []
  · rw [h_ne]
    rfl
  · -- Whichever of the two the text has, the renamed text has the renamed one.
    obtain ⟨l, h_valid, rfl⟩ | ⟨b, h_valid, rfl⟩ := layout_or_breakdown s
    · have h_ne' : (l.rename f).text ≠ [] := by
        rw [l.text_rename h]
        exact mt List.map_eq_nil_iff.mp h_ne
      rw [← l.text_rename h, Layout.compile_text (h_valid.rename h) h_ne',
        Layout.compile_text h_valid h_ne, l.tokens_rename]
      rfl
    · rw [← b.text_rename h, Breakdown.compile_text (h_valid.rename h),
        Breakdown.compile_text h_valid, b.error_rename h]
      rfl

end Pattern

end Grammar

/-! ### Searching the renamed line -/

section Searching

/-- Anchors have no chars to rename. -/
theorem Token.isAnchor_rename_iff {t : Token} : (t.rename f).IsAnchor ↔ t.IsAnchor := by
  cases t <;> simp [rename, IsAnchor]

/-- A renamed text is a single name of some kind exactly if the text is a single char that has such
a name. -/
theorem exists_map_eq_singleton_iff {p q : Char → Prop} (h_name : ∀ c, q (f c) ↔ p c)
    {w : List Char} : (∃ c, q c ∧ w.map f = [c]) ↔ ∃ c, p c ∧ w = [c] := by
  refine ⟨?_, ?_⟩
  · intro h_exists
    obtain ⟨_, hq, h_w⟩ := h_exists
    obtain ⟨c, rfl, rfl⟩ := List.map_eq_singleton_iff.mp h_w
    exact ⟨c, (h_name c).mp hq, rfl⟩
  · intro h_exists
    obtain ⟨c, hp, rfl⟩ := h_exists
    exact ⟨f c, (h_name c).mpr hp, List.map_singleton⟩

variable (h : IsRenaming f)

include h

/-- The renamed atom takes the names of the chars that the atom takes, and of no others. -/
theorem Atom.mem_chars_rename_iff {a : Atom} (c : Char) :
    f c ∈ (a.rename f).chars ↔ c ∈ a.chars := by
  cases a with
  | literal l => exact h.injective.eq_iff
  | digit => exact h.mem_digit_iff c
  | word => exact h.mem_word_iff c
  | wildcard => exact Iff.rfl

namespace Token

variable {t : Token} {w line : List Char} {k k' : List Char → Bool}

/-- The texts of the renamed token, among texts that are renamed, are those of the token. That two
chars have one name only if they are the same is needed where chars are compared: with a literal,
with the members of a class and with the options of a group. -/
theorem map_mem_language_rename_iff : w.map f ∈ (t.rename f).language ↔ w ∈ t.language := by
  cases t with
  | lineStart => exact List.map_eq_nil_iff
  | lineEnd => exact List.map_eq_nil_iff
  | atom a q =>
    have h_one : w.map f ∈ (Token.atom (a.rename f) .one).language ↔
        w ∈ (Token.atom a .one).language :=
      exists_map_eq_singleton_iff (Atom.mem_chars_rename_iff h)
    cases q with
    | one => exact h_one
    | optional => exact or_congr List.map_eq_nil_iff h_one
    | oneOrMore =>
      -- A run is renamed char by char, and is as long as before.
      refine and_congr (not_congr List.map_eq_nil_iff) ?_
      rw [List.forall_mem_map]
      exact forall₂_congr fun c _ => Atom.mem_chars_rename_iff h c
  | charClass polarity members =>
    have h_mem : ∀ c, f c ∈ members.map f ↔ c ∈ members := fun c =>
      List.mem_map_of_injective h.injective
    cases polarity with
    | positive => exact exists_map_eq_singleton_iff h_mem
    | negative => exact exists_map_eq_singleton_iff fun c => not_congr (h_mem c)
  | group options => exact List.mem_map_of_injective h.injective.list_map

/-- **The step.** A renamed token does with a renamed line what the token does with the line. -/
theorem thenMatches_rename (hk : ∀ rest, k' (rest.map f) = k rest) :
    (t.rename f).thenMatches k' (line.map f) = t.thenMatches k line := by
  by_cases ht : t.IsAnchor
  · obtain rfl | rfl := ht
    · rfl
    · exact List.isEmpty_map
  · rw [Bool.eq_iff_iff, thenMatches_iff ht, thenMatches_iff (mt isAnchor_rename_iff.mp ht)]
    refine ⟨?_, ?_⟩
    · -- A renamed line is cut where the line is.
      intro h_taken
      obtain ⟨_, hw, _, h_line, h_rest⟩ := h_taken
      obtain ⟨w, rest, rfl, rfl, rfl⟩ := List.map_eq_append_iff.mp h_line
      rw [hk] at h_rest
      exact ⟨w, (map_mem_language_rename_iff h).mp hw, rest, rfl, h_rest⟩
    · -- What the token takes is renamed with the line.
      intro h_taken
      obtain ⟨w, hw, rest, rfl, h_rest⟩ := h_taken
      rw [← hk] at h_rest
      have h_w := (map_mem_language_rename_iff h).mpr hw
      exact ⟨w.map f, h_w, rest.map f, List.map_append, h_rest⟩

end Token

namespace Pattern

/-- **The run.** -/
theorem matchesHere_rename (p : Pattern) (line : List Char) :
    matchesHere (rename f p) (line.map f) = matchesHere p line := by
  induction p generalizing line with
  | nil => rfl
  | cons t ts ih => exact Token.thenMatches_rename h ih

omit h in
/-- A renamed line is tried at the same places. -/
theorem anySuffix_map {k k' : List Char → Bool} (hk : ∀ rest, k' (rest.map f) = k rest)
    (line : List Char) : anySuffix k' (line.map f) = anySuffix k line := by
  induction line with
  | nil => exact hk []
  | cons c line ih =>
    have h_k : k' (f c :: line.map f) = k (c :: line) := hk (c :: line)
    rw [List.map_cons, anySuffix, anySuffix, h_k, ih]

/-- **Searching.** -/
theorem search_rename (p : Pattern) (line : List Char) :
    search (rename f p) (line.map f) = search p line := by
  have h_here := matchesHere_rename h p
  -- Where the search starts hangs on the first token, and that is an anchor or none, as before.
  cases p with
  | nil => exact anySuffix_map h_here line
  | cons t ts =>
    cases t with
    | lineStart => exact matchesHere_rename h ts line
    | lineEnd => exact anySuffix_map h_here line
    | atom a q => exact anySuffix_map h_here line
    | charClass polarity members => exact anySuffix_map h_here line
    | group options => exact anySuffix_map h_here line

end Pattern

end Searching

/-- **Only the signs and the kinds of chars matter.** Let chars be renamed such that those of the
syntax keep their names and digits and word chars stay what they are. Then a pattern text that is
renamed throughout is compiled to the renamed pattern, or refused with the same error, and the
renamed pattern is found in a renamed line exactly if the pattern is found in the line. -/
theorem Pattern.compile_map_and_search_rename (h : IsRenaming f) (s : List Char) :
    compile (s.map f) = (compile s).map (rename f) ∧
      ∀ (p : Pattern) (line : List Char), search (rename f p) (line.map f) = search p line :=
  ⟨compile_map h s, search_rename h⟩

/-- A char of two bytes and one of a single byte are exchanged: as literals, as a member of a class
and as an option. The first text is compiled to a pattern that finds what the renamed option is, and
the second one is refused for the same char at the same place. -/
theorem Pattern.compile_map_and_search_of_swap :
    IsRenaming (Equiv.swap 'é' '-') ∧
      compile (['^', 'é', '+', '[', '^', '-', ']', '(', 'a', '|', '-', ')', '$'].map
          (Equiv.swap 'é' '-')) =
        .ok
          [.lineStart, .atom (.literal '-') .oneOrMore, .charClass .negative ['é'],
            .group [['a'], ['é']], .lineEnd] ∧
      search
          [.lineStart, .atom (.literal '-') .oneOrMore, .charClass .negative ['é'],
            .group [['a'], ['é']], .lineEnd] ['-', '-', '-', 'é'] = true ∧
      compile (['-', '(', 'é', '|', '|', ')', '+'].map (Equiv.swap 'é' '-')) =
        .error (.unexpected '|' 4) := by
  have h_digit : 'é' ∈ Atom.digit.chars ↔ '-' ∈ Atom.digit.chars := by
    rw [Atom.mem_chars_iff, Atom.mem_chars_iff]
    decide
  have h_word : 'é' ∈ Atom.word.chars ↔ '-' ∈ Atom.word.chars := by
    rw [Atom.mem_chars_iff, Atom.mem_chars_iff]
    decide
  have h : IsRenaming (Equiv.swap 'é' '-') := .swap (by decide) (by decide) h_digit h_word
  refine ⟨h, ?_, ?_, ?_⟩
  · exact (compile_map_and_search_rename h _).1.trans (by decide +kernel)
  · -- The line is the renamed one.
    exact ((compile_map_and_search_rename h []).2
      [.lineStart, .atom (.literal 'é') .oneOrMore, .charClass .negative ['-'],
        .group [['a'], ['-']], .lineEnd] ['é', 'é', 'é', '-']).trans (by decide)
  · exact (compile_map_and_search_rename h _).1.trans (by decide +kernel)

end LinePattern
