import LinePattern.Pattern.Grammar
import Mathlib.Data.List.Basic
import Mathlib.Data.List.TakeWhile

/-!
# Reading an item

`Item.read` against the grammar. Reading succeeds exactly where an item of the grammar stands in
front, and then takes that item and no more; it fails exactly where there is a fault, and then gives
the error that the fault is listed with. So an item and a fault exclude each other, and a text has
at most one of the two in front.

Main statements:

* `Item.read_eq_ok_iff`: what is read are the items of the grammar, a quantifier sign behind an atom
  included.
* `Item.read_eq_error_iff`: what is refused are the faults of the grammar.

Classes and groups are both read up to their first closing bracket. `readClass_append` and
`readGroup_append` say what reading gives once the text is cut there, and the rest is about the part
between the brackets: `ofClassBody?` for a class, `emptyOption?` for a group.
-/

namespace LinePattern

/-! ### Quantifier signs -/

/-- A sign is read back, whatever stands behind it. No sign stands for "exactly one" only if what
stands behind it is no sign. -/
theorem Quantifier.read_sign_append {q : Quantifier} {rest : List Char}
    (h : q = one → rest.head? ≠ some '+' ∧ rest.head? ≠ some '?') :
    read (q.sign ++ rest) = (q, rest) := by
  cases q with
  | optional => rfl
  | oneOrMore => rfl
  | one =>
    obtain ⟨h_plus, h_mark⟩ := h rfl
    rw [sign, List.nil_append]
    unfold read
    split
    · exact absurd rfl h_mark
    · exact absurd rfl h_plus
    · rfl

/-- Where no sign is read there is none. -/
theorem Quantifier.head?_read_of_eq_one {cs : List Char} (h : (read cs).1 = one) :
    (read cs).2.head? ≠ some '+' ∧ (read cs).2.head? ≠ some '?' := by
  unfold read at h ⊢
  split at h
  · contradiction
  · contradiction
  · next h_mark h_plus =>
    refine ⟨?_, ?_⟩
    · intro h_head
      obtain ⟨cs', rfl⟩ := List.head?_eq_some_iff.mp h_head
      exact h_plus cs' rfl
    · intro h_head
      obtain ⟨cs', rfl⟩ := List.head?_eq_some_iff.mp h_head
      exact h_mark cs' rfl

/-- A token other than a single atom can end anywhere. -/
theorem Token.endsBefore_of_ne {t : Token} (h : ∀ a, t ≠ atom a .one) (rest : List Char) :
    t.EndsBefore rest :=
  fun a ha => absurd ha (h a)

/-! ### The part between the brackets of a class -/

namespace Token

/-- The text of a class, whatever its polarity. -/
theorem writes_charClass {polarity : Polarity} {members : List Char} (ne_nil : members ≠ [])
    (head : polarity = .positive → members.head? ≠ some '^') (closer : ']' ∉ members) :
    Writes ('[' :: (polarity.sign ++ members ++ [']'])) (charClass polarity members) := by
  cases polarity with
  | positive => exact .positive ne_nil (head rfl) closer
  | negative => exact .negative ne_nil closer

/-- Every body is a sign and members, and only a positive class has to mind its first member. -/
theorem exists_eq_sign_append (body : List Char) :
    ∃ (polarity : Polarity) (members : List Char), body = polarity.sign ++ members ∧
      (polarity = .positive → members.head? ≠ some '^') := by
  by_cases h : body.head? = some '^'
  · obtain ⟨members, rfl⟩ := List.head?_eq_some_iff.mp h
    exact ⟨.negative, members, rfl, fun h => by contradiction⟩
  · exact ⟨.positive, body, rfl, fun _ => h⟩

/-- A sign with nothing behind it lists no member. -/
theorem ofClassBody?_sign (polarity : Polarity) : ofClassBody? polarity.sign = none := by
  cases polarity <;> rfl

/-- Members behind a sign make the class of that sign, unless a caret that should be a member is
taken for the sign. -/
theorem ofClassBody?_sign_append {polarity : Polarity} {members : List Char}
    (ne_nil : members ≠ []) (head : polarity = .positive → members.head? ≠ some '^') :
    ofClassBody? (polarity.sign ++ members) = some (charClass polarity members) := by
  cases members with
  | nil => exact absurd rfl ne_nil
  | cons c members =>
    cases polarity with
    | negative => rfl
    | positive =>
      have h_caret : c ≠ '^' := fun h => head rfl (by rw [h, List.head?_cons])
      -- The two cases in front of the last are those of a caret.
      simp only [Polarity.sign, List.nil_append]
      unfold ofClassBody?
      split
      · contradiction
      · next h_eq => exact absurd (List.cons.inj h_eq).1 h_caret
      · next h_eq => exact absurd (List.cons.inj h_eq).1 h_caret
      · rfl

end Token

namespace Pattern.Item

/-! ### Up to the first closing bracket -/

/-- A text without a closing bracket has no char at which reading the body stops. -/
theorem bne_of_notMem {closer : Char} {cs : List Char} (h : closer ∉ cs) :
    ∀ c ∈ cs, (c != closer) = true := by
  intro c hc
  rw [bne_iff_ne]
  rintro rfl
  exact h hc

/-- Nothing is left of a text that is not closed. -/
theorem dropWhile_bne_of_notMem {closer : Char} {cs : List Char} (h : closer ∉ cs) :
    cs.dropWhile (· != closer) = [] :=
  List.dropWhile_eq_nil_iff.mpr (bne_of_notMem h)

/-- The body is what stands in front of the first closing bracket. -/
theorem takeWhile_bne_append {closer : Char} {body : List Char} (h : closer ∉ body)
    (rest : List Char) : (body ++ closer :: rest).takeWhile (· != closer) = body := by
  rw [List.takeWhile_append_of_pos (bne_of_notMem h)]
  simp

/-- The first closing bracket and all that is behind it are left. -/
theorem dropWhile_bne_append {closer : Char} {body : List Char} (h : closer ∉ body)
    (rest : List Char) : (body ++ closer :: rest).dropWhile (· != closer) = closer :: rest := by
  rw [List.dropWhile_append_of_pos (bne_of_notMem h)]
  simp

section Enclosed

variable (bracket : Bracket) (ofBody : List Char → Except CompileError Token)

/-- An opening bracket that is not closed is refused, without a look at what would be the body. -/
theorem readEnclosed_of_notMem {cs : List Char} (h : bracket.closer ∉ cs) :
    readEnclosed bracket ofBody cs = .error (.unterminated bracket 0) := by
  simp only [readEnclosed, dropWhile_bne_of_notMem h]

/-- An item in brackets ends at the first closing bracket, and it is made of the body alone. -/
theorem readEnclosed_append {body : List Char} (h : bracket.closer ∉ body) (rest : List Char) :
    readEnclosed bracket ofBody (body ++ bracket.closer :: rest) =
      (ofBody body).map fun token =>
        { token, text := bracket.opener :: (body ++ [bracket.closer]), rest } := by
  simp only [readEnclosed, takeWhile_bne_append h, dropWhile_bne_append h]

end Enclosed

/-! ### Classes -/

/-- A class that is not closed is refused at its opening bracket. -/
theorem readClass_of_notMem {cs : List Char} (h : ']' ∉ cs) :
    readClass cs = .error (.unterminated .square 0) :=
  readEnclosed_of_notMem .square classOfBody h

/-- A class ends at the first closing bracket. -/
theorem readClass_append {body : List Char} (h : ']' ∉ body) (rest : List Char) :
    readClass (body ++ ']' :: rest) =
      match Token.ofClassBody? body with
      | none => .error (.unexpected ']' (1 + body.length))
      | some token => .ok { token, text := '[' :: (body ++ [']']), rest } := by
  refine (readEnclosed_append .square classOfBody h rest).trans ?_
  rw [classOfBody]
  cases Token.ofClassBody? body <;> rfl

/-! ### Groups -/

/-- A group that is not closed is refused at its opening bracket. -/
theorem readGroup_of_notMem {cs : List Char} (h : ')' ∉ cs) :
    readGroup cs = .error (.unterminated .round 0) :=
  readEnclosed_of_notMem .round groupOfBody h

/-- A group ends at the first closing bracket. -/
theorem readGroup_append {body : List Char} (h : ')' ∉ body) (rest : List Char) :
    readGroup (body ++ ')' :: rest) =
      match emptyOption? (body.splitOn '|') with
      | some e => .error (e.shift 1)
      | none =>
        .ok { token := .group (body.splitOn '|'), text := '(' :: (body ++ [')']), rest } := by
  refine (readEnclosed_append .round groupOfBody h rest).trans ?_
  rw [groupOfBody]
  cases emptyOption? (body.splitOn '|') <;> rfl

/-- Options that all have chars are not refused. -/
theorem emptyOption?_eq_none {options : List (List Char)} (h : ∀ o ∈ options, o ≠ []) :
    emptyOption? options = none := by
  induction options with
  | nil => rfl
  | cons o options ih =>
    -- The first option has a char, so the search for an empty one goes on behind it.
    cases o with
    | nil => exact absurd rfl (h [] List.mem_cons_self)
    | cons c o =>
      have h_tail := ih fun o ho => h o (List.mem_cons_of_mem _ ho)
      rw [emptyOption?, h_tail, Option.map_none]

/-- The first empty option is the one that is refused, by the char that ends it: the closing bracket
if it is the last option, a bar if it is not. -/
theorem emptyOption?_append {before : List (List Char)} (h : ∀ o ∈ before, o ≠ [])
    (after : List (List Char)) :
    emptyOption? (before ++ [] :: after) =
      some
        (.unexpected (if after = [] then ')' else '|')
          (before.flatMap (· ++ ['|'])).length) := by
  induction before with
  | nil => cases after <;> rfl
  | cons o before ih =>
    cases o with
    | nil => exact absurd rfl (h [] List.mem_cons_self)
    | cons c o =>
      have h_tail := ih fun o ho => h o (List.mem_cons_of_mem _ ho)
      rw [List.cons_append, emptyOption?, h_tail, Option.map_some, CompileError.shift]
      -- The position moves on by the chars of the option and its bar.
      congr 2
      simp only [List.flatMap_cons, List.length_append, List.length_cons, List.length_nil]

/-- Options with a bar behind each are the first ones that cutting at the bars gives. -/
theorem splitOn_flatMap_append {before : List (List Char)} (h : ∀ o ∈ before, '|' ∉ o)
    (cs : List Char) :
    (before.flatMap (· ++ ['|']) ++ cs).splitOn '|' = before ++ cs.splitOn '|' := by
  induction before with
  | nil => rfl
  | cons o before ih =>
    have h_tail := ih fun o ho => h o (List.mem_cons_of_mem _ ho)
    rw [List.flatMap_cons, List.append_assoc, List.append_assoc, List.singleton_append,
      List.splitOn_append_cons_self_of_not_mem (h o List.mem_cons_self), h_tail, List.cons_append]

/-- The text of options, taken apart in front of one of them. -/
theorem intercalate_append_cons (before : List (List Char)) (o : List Char)
    (after : List (List Char)) :
    ['|'].intercalate (before ++ o :: after) =
      before.flatMap (· ++ ['|']) ++ ['|'].intercalate (o :: after) := by
  induction before with
  | nil => rfl
  | cons b before ih =>
    have h_ne : before ++ o :: after ≠ [] :=
      List.append_ne_nil_of_right_ne_nil before (List.cons_ne_nil o after)
    rw [List.cons_append, List.intercalate_cons_of_ne_nil h_ne, ih, List.flatMap_cons,
      List.append_assoc, List.append_assoc, List.append_assoc]

/-- A char other than the bar is in the text of options only if it is in one of them. -/
theorem notMem_intercalate {c : Char} (hc : c ≠ '|') {options : List (List Char)}
    (h : ∀ o ∈ options, c ∉ o) : c ∉ ['|'].intercalate options := by
  induction options with
  | nil => exact List.not_mem_nil
  | cons o options ih =>
    have h_o : c ∉ o := h o List.mem_cons_self
    cases options with
    | nil => rwa [List.intercalate_singleton]
    | cons o' options =>
      have h_tail := ih fun o ho => h o (List.mem_cons_of_mem _ ho)
      rw [List.intercalate_cons_cons, List.mem_append, List.mem_append, List.mem_singleton]
      rintro ((h_mem | rfl) | h_mem)
      · exact h_o h_mem
      · exact hc rfl
      · exact h_tail h_mem

/-- Cutting at the bars leaves no bar in any part. -/
theorem notMem_of_mem_splitOn {cs o : List Char} (h : o ∈ cs.splitOn '|') : '|' ∉ o := by
  induction cs generalizing o with
  | nil =>
    rw [List.splitOn_nil, List.mem_singleton] at h
    rw [h]
    exact List.not_mem_nil
  | cons c cs ih =>
    -- A bar opens a new part, and any other char is put in front of the first part.
    rw [List.splitOn_cons_eq_if_modifyHead] at h
    split at h
    · rcases List.mem_cons.mp h with rfl | h
      · exact List.not_mem_nil
      · exact ih h
    · next hc =>
      obtain ⟨first, others, h_split⟩ := List.exists_cons_of_ne_nil (List.splitOn_ne_nil '|' cs)
      rw [h_split, List.modifyHead_cons] at h
      rcases List.mem_cons.mp h with rfl | h
      · have h_first : '|' ∉ first := ih (by rw [h_split]; exact List.mem_cons_self)
        have h_bar : ¬ '|' = c := fun h_eq => hc (by rw [h_eq, beq_self_eq_true])
        exact fun h_mem => (List.mem_cons.mp h_mem).elim h_bar h_first
      · exact ih (by rw [h_split]; exact List.mem_cons_of_mem _ h)

/-- Cutting at the bars brings in no char. -/
theorem mem_of_mem_splitOn {cs o : List Char} (h : o ∈ cs.splitOn '|') {c : Char} (hc : c ∈ o) :
    c ∈ cs := by
  obtain ⟨before, after, h_split⟩ := List.append_of_mem h
  have h_text : ['|'].intercalate (cs.splitOn '|') = cs := List.intercalate_splitOn '|'
  rw [h_split, intercalate_append_cons] at h_text
  -- The part stands in the text between the parts in front of it and those behind it.
  rw [← h_text]
  apply List.mem_append_right
  cases after with
  | nil => rwa [List.intercalate_singleton]
  | cons a after =>
    rw [List.intercalate_cons_cons]
    exact List.mem_append_left _ (List.mem_append_left _ hc)

/-- **Empty parts.** Cutting at the bars leaves an empty part where nothing stands between two bars,
or between a bar and an end of the text. -/
theorem nil_mem_splitOn_iff {cs : List Char} :
    [] ∈ cs.splitOn '|' ↔
      cs = [] ∨ cs.head? = some '|' ∨ cs.getLast? = some '|' ∨ ['|', '|'] <:+: cs := by
  refine ⟨?_, ?_⟩
  · intro h
    obtain ⟨before, after, h_split⟩ := List.append_of_mem h
    have h_text : cs = before.flatMap (· ++ ['|']) ++ ['|'].intercalate ([] :: after) := by
      rw [← intercalate_append_cons, ← h_split, List.intercalate_splitOn]
    -- Whether there are parts in front of the empty one and behind it says which case it is.
    obtain rfl | ⟨before, o, rfl⟩ := List.eq_nil_or_concat' before
    · cases after with
      | nil => exact .inl h_text
      | cons o after =>
        rw [h_text]
        exact .inr (.inl rfl)
    · rw [List.flatMap_append, List.flatMap_singleton] at h_text
      cases after with
      | nil =>
        rw [List.intercalate_singleton, List.append_nil, ← List.append_assoc] at h_text
        rw [h_text]
        exact .inr (.inr (.inl List.getLast?_concat))
      | cons a after =>
        -- One bar ends the part in front, and the other ends the empty part.
        refine .inr (.inr (.inr ?_))
        refine ⟨before.flatMap (· ++ ['|']) ++ o, ['|'].intercalate (a :: after), ?_⟩
        rw [h_text, List.intercalate_cons_cons]
        simp only [List.append_assoc, List.nil_append, List.cons_append]
  · intro h
    obtain rfl | h_head | h_last | ⟨front, back, rfl⟩ := h
    · rw [List.splitOn_nil]
      exact List.mem_cons_self
    · obtain ⟨back, rfl⟩ := List.head?_eq_some_iff.mp h_head
      exact (List.splitOn_append_cons_self [] back).symm ▸ List.mem_cons_self
    · obtain ⟨front, rfl⟩ := List.getLast?_eq_some_iff.mp h_last
      rw [List.splitOn_append_cons_self, List.splitOn_nil]
      exact List.mem_append_right _ List.mem_cons_self
    · have h_text : front ++ ['|', '|'] ++ back = front ++ '|' :: ([] ++ '|' :: back) := by simp
      rw [h_text, List.splitOn_append_cons_self, List.splitOn_append_cons_self, List.splitOn_nil]
      exact List.mem_append_right _ List.mem_cons_self

/-! ### What reading gives is in the grammar

Each reader either gives an item of the grammar or names a fault of it. -/

/-- The item is one of the grammar, and the text behind it does not continue it. -/
structure Exact (item : Item) : Prop where
  /-- The text writes the token. -/
  writes : Token.Writes item.text item.token
  /-- No quantifier sign that belongs to the item is left behind. -/
  ends : item.token.EndsBefore item.rest

/-- What is taken for an atom is an item. The sign that would continue it is taken with it. -/
theorem exact_ofAtom {a : Atom} {w : List Char} (h : a.Writes w) (cs : List Char) :
    (ofAtom a w cs).Exact where
  writes := .atom h _
  ends b hb := by
    have h_one : (Quantifier.read cs).1 = .one := by
      simp only [ofAtom, Token.atom.injEq] at hb
      exact hb.2
    exact Quantifier.head?_read_of_eq_one h_one

/-- A class is read, or what is wrong with it is named. -/
theorem readClass_cases (cs : List Char) :
    (∃ item, readClass cs = .ok item ∧ item.Exact) ∨
      ∃ e, readClass cs = .error e ∧ Fault ('[' :: cs) e := by
  by_cases h_closer : ']' ∈ cs
  · -- The class ends at its first closing bracket, and is a sign and members up to there.
    obtain ⟨body, rest, rfl, h_body⟩ := List.eq_append_cons_of_mem h_closer
    obtain ⟨polarity, members, rfl, h_head⟩ := Token.exists_eq_sign_append body
    rw [readClass_append h_body]
    by_cases h_members : members = []
    · subst h_members
      rw [List.append_nil, Token.ofClassBody?_sign]
      exact .inr ⟨_, rfl, .emptyClass polarity rest⟩
    · have h_closer' : ']' ∉ members := fun h => h_body (List.mem_append_right _ h)
      have h_writes := Token.writes_charClass h_members h_head h_closer'
      have h_ends : (Token.charClass polarity members).EndsBefore rest :=
        Token.endsBefore_of_ne (fun _ => Token.noConfusion) rest
      rw [Token.ofClassBody?_sign_append h_members h_head]
      exact .inl ⟨_, rfl, h_writes, h_ends⟩
  · exact .inr ⟨_, readClass_of_notMem h_closer, @Fault.unterminated .square cs h_closer⟩

/-- The text between the brackets of a group is a group where cutting it leaves no empty option. -/
theorem writes_group_splitOn {body : List Char} (h_closer : ')' ∉ body)
    (h_empty : [] ∉ body.splitOn '|') :
    Token.Writes ('(' :: (body ++ [')'])) (.group (body.splitOn '|')) := by
  -- The options are what cutting gives, so they have neither a bar nor the bracket.
  have h_option : ∀ o ∈ body.splitOn '|', o ≠ [] ∧ '|' ∉ o ∧ ')' ∉ o := by
    intro o ho
    exact ⟨fun h => h_empty (h ▸ ho), notMem_of_mem_splitOn ho,
      fun h => h_closer (mem_of_mem_splitOn ho h)⟩
  have h_writes := Token.Writes.group (List.splitOn_ne_nil '|' body) h_option
  rwa [List.intercalate_splitOn] at h_writes

/-- An empty option is a fault, be it the last option or not. -/
theorem fault_of_splitOn_eq {body rest : List Char} {before after : List (List Char)}
    (h_closer : ')' ∉ body) (h_split : body.splitOn '|' = before ++ [] :: after)
    (h_before : [] ∉ before) :
    Fault ('(' :: (body ++ ')' :: rest))
      (.unexpected (if after = [] then ')' else '|')
        (1 + (before.flatMap (· ++ ['|'])).length)) := by
  have h_option : ∀ o ∈ before, o ≠ [] ∧ '|' ∉ o ∧ ')' ∉ o := by
    intro o ho
    have h_mem : o ∈ body.splitOn '|' := by
      rw [h_split]
      exact List.mem_append_left _ ho
    exact ⟨fun h => h_before (h ▸ ho), notMem_of_mem_splitOn h_mem,
      fun h => h_closer (mem_of_mem_splitOn h_mem h)⟩
  have h_body : body = before.flatMap (· ++ ['|']) ++ ['|'].intercalate ([] :: after) :=
    calc body = ['|'].intercalate (body.splitOn '|') := (List.intercalate_splitOn '|').symm
      _ = ['|'].intercalate (before ++ [] :: after) := by rw [h_split]
      _ = _ := intercalate_append_cons before [] after
  rw [h_body]
  cases after with
  | nil =>
    -- The empty option is the last one, so the closing bracket ends it.
    have h_fault : Fault ('(' :: (before.flatMap (· ++ ['|']) ++ ')' :: rest)) _ :=
      .emptyOption h_option (.inl rfl)
    simpa using h_fault
  | cons o after =>
    -- A bar ends the empty option, and the closing bracket stands further on.
    have h_closer' : ')' ∈ ['|'].intercalate (o :: after) ++ ')' :: rest :=
      List.mem_append_right _ List.mem_cons_self
    have h_fault := Fault.emptyOption h_option (.inr ⟨rfl, h_closer'⟩)
    simpa using h_fault

/-- A group is read, or what is wrong with it is named. -/
theorem readGroup_cases (cs : List Char) :
    (∃ item, readGroup cs = .ok item ∧ item.Exact) ∨
      ∃ e, readGroup cs = .error e ∧ Fault ('(' :: cs) e := by
  by_cases h_closer : ')' ∈ cs
  · -- The group ends at its first closing bracket, whether or not an option is empty.
    obtain ⟨body, rest, rfl, h_body⟩ := List.eq_append_cons_of_mem h_closer
    rw [readGroup_append h_body]
    by_cases h_empty : [] ∈ body.splitOn '|'
    · obtain ⟨before, after, h_split, h_before⟩ := List.eq_append_cons_of_mem h_empty
      have h_ne : ∀ o ∈ before, o ≠ [] := fun o ho h => h_before (h ▸ ho)
      -- The first empty option is the one behind options that are not.
      rw [h_split, emptyOption?_append h_ne]
      exact .inr ⟨_, rfl, fault_of_splitOn_eq h_body h_split h_before⟩
    · have h_ne : ∀ o ∈ body.splitOn '|', o ≠ [] := fun o ho h => h_empty (h ▸ ho)
      have h_ends : (Token.group (body.splitOn '|')).EndsBefore rest :=
        Token.endsBefore_of_ne (fun _ => Token.noConfusion) rest
      rw [emptyOption?_eq_none h_ne]
      exact .inl ⟨_, rfl, writes_group_splitOn h_body h_empty, h_ends⟩
  · exact .inr ⟨_, readGroup_of_notMem h_closer, @Fault.unterminated .round cs h_closer⟩

/-- A char that is not reserved is read as a literal. -/
theorem read_of_notMem_reserved {c : Char} (h : c ∉ reserved) (cs : List Char) :
    read c cs = .ok (ofAtom (.literal c) [c] cs) := by
  simp only [reserved, List.mem_cons, List.not_mem_nil, or_false, not_or] at h
  -- Each case but the last is that of a reserved char.
  unfold read
  split <;> simp_all

/-- A text starts with an item of the grammar, which is then read, or with a fault, which is then
named. -/
theorem read_cases (c : Char) (cs : List Char) :
    (∃ item, read c cs = .ok item ∧ item.Exact) ∨
      ∃ e, read c cs = .error e ∧ Fault (c :: cs) e := by
  by_cases h : c ∈ reserved
  · simp only [reserved, List.mem_cons, List.not_mem_nil, or_false] at h
    rcases h with rfl | rfl | rfl | rfl | h_misplaced
    · cases cs with
      | nil => exact .inr ⟨_, rfl, .dangling⟩
      | cons escaped cs => exact .inl ⟨_, rfl, exact_ofAtom (.escape escaped) cs⟩
    · exact .inl ⟨_, rfl, exact_ofAtom .wildcard cs⟩
    · exact readClass_cases cs
    · exact readGroup_cases cs
    · -- The four other reserved chars start no item.
      refine .inr ⟨.unexpected c 0, ?_, .misplaced (by simpa using h_misplaced)⟩
      rcases h_misplaced with rfl | rfl | rfl | rfl <;> rfl
  · exact .inl ⟨_, read_of_notMem_reserved h cs, exact_ofAtom (.plain c h) cs⟩

/-! ### What is in the grammar is what reading gives -/

/-- The sign in front of a text is taken with the atom, as long as it ends there. -/
theorem ofAtom_sign_append {a : Atom} {q : Quantifier} {rest : List Char}
    (h : (Token.atom a q).EndsBefore rest) (w : List Char) :
    ofAtom a w (q.sign ++ rest) = { token := .atom a q, text := w ++ q.sign, rest } := by
  have h_read : Quantifier.read (q.sign ++ rest) = (q, rest) :=
    Quantifier.read_sign_append fun h_one => h a (by rw [h_one])
  rw [ofAtom, h_read]

/-- An atom is read from its text whatever stands behind it. -/
theorem read_of_atom_writes {w : List Char} {a : Atom} (h : a.Writes w) {c : Char}
    {cs rest : List Char} (h_eq : w ++ rest = c :: cs) : read c cs = .ok (ofAtom a w rest) := by
  cases h with
  | escape escaped =>
    obtain ⟨rfl, rfl⟩ := List.cons.inj h_eq
    rfl
  | wildcard =>
    obtain ⟨rfl, rfl⟩ := List.cons.inj h_eq
    rfl
  | plain c h_plain =>
    obtain ⟨rfl, rfl⟩ := List.cons.inj h_eq
    exact read_of_notMem_reserved h_plain rest

/-- A class is read back, whatever stands behind it. -/
theorem readClass_of_sign_append (polarity : Polarity) {members rest : List Char}
    (ne_nil : members ≠ []) (head : polarity = .positive → members.head? ≠ some '^')
    (closer : ']' ∉ members) :
    readClass (polarity.sign ++ members ++ ']' :: rest) =
      .ok
        { token := .charClass polarity members
          text := '[' :: (polarity.sign ++ members ++ [']'])
          rest } := by
  -- The sign is no closing bracket, so the first one is that behind the members.
  have h_body : ']' ∉ polarity.sign ++ members := by
    cases polarity <;> simpa [Polarity.sign] using closer
  rw [readClass_append h_body, Token.ofClassBody?_sign_append ne_nil head]

/-- A group is read back, whatever stands behind it. -/
theorem readGroup_of_intercalate {options : List (List Char)} {rest : List Char}
    (ne_nil : options ≠ []) (option : ∀ o ∈ options, o ≠ [] ∧ '|' ∉ o ∧ ')' ∉ o) :
    readGroup (['|'].intercalate options ++ ')' :: rest) =
      .ok
        { token := .group options
          text := '(' :: (['|'].intercalate options ++ [')'])
          rest } := by
  -- Options without bars are what cutting at the bars gives back.
  have h_split : (['|'].intercalate options).splitOn '|' = options :=
    List.splitOn_intercalate '|' (fun o ho => (option o ho).2.1) ne_nil
  have h_body : ')' ∉ ['|'].intercalate options :=
    notMem_intercalate (by decide) fun o ho => (option o ho).2.2
  rw [readGroup_append h_body, h_split, emptyOption?_eq_none fun o ho => (option o ho).1]

/-- An item of the grammar is read from its text whatever stands behind it, as long as that is no
quantifier sign that belongs to the item. -/
theorem read_of_writes {w rest : List Char} {t : Token} (h : Token.Writes w t)
    (h_ends : t.EndsBefore rest) {c : Char} {cs : List Char} (h_eq : w ++ rest = c :: cs) :
    read c cs = .ok { token := t, text := w, rest } := by
  cases h with
  | atom h q =>
    rw [List.append_assoc] at h_eq
    rw [read_of_atom_writes h h_eq, ofAtom_sign_append h_ends]
  | positive ne_nil head closer =>
    rw [List.cons_append, List.append_assoc] at h_eq
    obtain ⟨rfl, rfl⟩ := List.cons.inj h_eq
    exact readClass_of_sign_append .positive ne_nil (fun _ => head) closer
  | negative ne_nil closer =>
    rw [List.cons_append, List.cons_append, List.append_assoc] at h_eq
    obtain ⟨rfl, rfl⟩ := List.cons.inj h_eq
    exact readClass_of_sign_append .negative ne_nil (fun h => by contradiction) closer
  | group ne_nil option =>
    rw [List.cons_append, List.append_assoc] at h_eq
    obtain ⟨rfl, rfl⟩ := List.cons.inj h_eq
    exact readGroup_of_intercalate ne_nil option

/-- A class without members is refused at its closing bracket, behind its sign. -/
theorem readClass_of_emptyClass (polarity : Polarity) (cs : List Char) :
    readClass (polarity.sign ++ ']' :: cs) =
      .error (.unexpected ']' (1 + polarity.sign.length)) := by
  have h_body : ']' ∉ polarity.sign := by cases polarity <;> decide
  rw [readClass_append h_body, Token.ofClassBody?_sign]

/-- A group is refused for its first empty option, whatever its options behind that. -/
theorem readGroup_of_emptyOption {before : List (List Char)} {found : Char} {cs : List Char}
    (option : ∀ o ∈ before, o ≠ [] ∧ '|' ∉ o ∧ ')' ∉ o)
    (ends : found = ')' ∨ found = '|' ∧ ')' ∈ cs) :
    readGroup (before.flatMap (· ++ ['|']) ++ found :: cs) =
      .error (.unexpected found (1 + (before.flatMap (· ++ ['|'])).length)) := by
  have h_ne : ∀ o ∈ before, o ≠ [] := fun o ho => (option o ho).1
  have h_bar : ∀ o ∈ before, '|' ∉ o := fun o ho => (option o ho).2.1
  have h_before : ')' ∉ before.flatMap (· ++ ['|']) := by
    intro h
    obtain ⟨o, ho, h⟩ := List.mem_flatMap.mp h
    rcases List.mem_append.mp h with h | h
    · exact (option o ho).2.2 h
    · exact absurd h (by decide)
  rcases ends with rfl | ⟨rfl, h_closer⟩
  · -- The closing bracket ends the empty option, which is then the last one.
    have h_split : (before.flatMap (· ++ ['|'])).splitOn '|' = before ++ [[]] := by
      have h := splitOn_flatMap_append h_bar []
      rwa [List.append_nil, List.splitOn_nil] at h
    rw [readGroup_append h_before, h_split, emptyOption?_append h_ne]
    rfl
  · -- A bar ends the empty option, so the group goes on up to its first closing bracket.
    obtain ⟨more, rest, rfl, h_more⟩ := List.eq_append_cons_of_mem h_closer
    have h_body : ')' ∉ before.flatMap (· ++ ['|']) ++ '|' :: more := by
      rw [List.mem_append, List.mem_cons]
      rintro (h | h | h)
      · exact h_before h
      · exact absurd h (by decide)
      · exact h_more h
    have h_split : (before.flatMap (· ++ ['|']) ++ '|' :: more).splitOn '|' =
        before ++ [] :: more.splitOn '|' := by
      rw [splitOn_flatMap_append h_bar]
      exact congrArg _ (List.splitOn_append_cons_self_of_not_mem List.not_mem_nil more)
    have h_text : before.flatMap (· ++ ['|']) ++ '|' :: (more ++ ')' :: rest) =
        before.flatMap (· ++ ['|']) ++ '|' :: more ++ ')' :: rest := by
      rw [List.append_assoc, List.cons_append]
    rw [h_text, readGroup_append h_body, h_split, emptyOption?_append h_ne,
      if_neg (List.splitOn_ne_nil '|' more)]
    rfl

/-- A fault is named by reading. -/
theorem read_of_fault {c : Char} {cs : List Char} {e : CompileError} (h : Fault (c :: cs) e) :
    read c cs = .error e := by
  cases h with
  | dangling => rfl
  | @unterminated bracket cs h =>
    cases bracket with
    | square => exact readClass_of_notMem h
    | round => exact readGroup_of_notMem h
  | emptyClass polarity cs => exact readClass_of_emptyClass polarity cs
  | emptyOption option ends => exact readGroup_of_emptyOption option ends
  | misplaced h =>
    simp only [List.mem_cons, List.not_mem_nil, or_false] at h
    rcases h with rfl | rfl | rfl | rfl <;> rfl

/-! ### Reading and the grammar -/

/-- **Reading gives the items of the grammar.** An item is read from a text exactly if the grammar
has it, the text starts with it, and what follows it is no quantifier sign that belongs to it. -/
theorem read_eq_ok_iff {c : Char} {cs : List Char} {item : Item} :
    read c cs = .ok item ↔ item.text ++ item.rest = c :: cs ∧ item.Exact := by
  refine ⟨?_, ?_⟩
  · intro h
    refine ⟨text_append_rest_of_read h, ?_⟩
    obtain ⟨item', h_read, h_exact⟩ | ⟨e, h_read, -⟩ := read_cases c cs
    · rw [h, Except.ok.injEq] at h_read
      rwa [h_read]
    · rw [h] at h_read
      contradiction
  · -- The grammar says all that reading depends on: the item, and how it ends.
    intro h
    obtain ⟨h_text, h_exact⟩ := h
    exact read_of_writes h_exact.writes h_exact.ends h_text

/-- **Reading names the faults of the grammar.** A text is refused exactly if it starts with a
fault, with the error that the fault has. -/
theorem read_eq_error_iff {c : Char} {cs : List Char} {e : CompileError} :
    read c cs = .error e ↔ Fault (c :: cs) e := by
  refine ⟨?_, read_of_fault⟩
  intro h
  obtain ⟨item, h_read, -⟩ | ⟨e', h_read, h_fault⟩ := read_cases c cs
  · rw [h] at h_read
    contradiction
  · rw [h, Except.error.injEq] at h_read
    rwa [h_read]

end Pattern.Item

end LinePattern
