import LinePattern.Proofs.Items
import Mathlib.Order.Bounds.Defs

/-!
# Options collected char by char

`Item.readGroup` looks at a group as a whole: the text up to the closing bracket is cut at its bars,
and the options that come out are looked through for an empty one.

A group can also be split in a single pass over its chars, once its closing bracket is found. Each
char comes with its position in the pattern text. `collectOptions` gathers the chars of one option
after the other, and an option is complete when the char that ends it is met. So the pass takes in
the closing bracket, for no other char ends the last option, and it stops at the first char that
ends an option without chars. `scanGroup` is the reader that works so. It keeps what is left behind
the group whether or not the group is refused. `EndsEmptyOption` says without reading which chars it
can refuse a group for.

The options of a group are all there is between its brackets, and a group is refused only for an
empty one. Both are proved of the pass, and with it of the reader that cuts the text at its bars,
since the two come to the same. The invariant of the pass is `Collected`: **the complete options,
each with the bar that ended it, and the chars of the option at hand are the text read so far**, and
no complete option is empty. It holds at the start, it is kept by a bar and by any char that ends no
option, and where the closing bracket is met it says what the options are. Where an empty option
ends, it says that none ended in front of it.

Main statements:

* `Collected.splits`: a pass from any place inside a group, by the invariant.
* `scanGroup_eq`: reading char by char and cutting at the bars agree.
* `isLeast_endsEmptyOption`: the place where a pass stops is the first one where an empty option
  ends.
* `readGroup_of_first_closer`: what is read of a group, and what is left.
-/

namespace LinePattern.Pattern.Item

/-- Takes chars up to the first `closer`, which is taken as well, and puts those in front of it
behind `body`. Gives them with the position of the closer, if there is one, and the chars that are
left. -/
def takeUntil (closer : Char) (body : List (Char × Nat)) :
    List (Char × Nat) → Option (List (Char × Nat) × Nat) × List (Char × Nat)
  | [] => (none, [])
  | (c, pos) :: cs =>
    if c = closer then (some (body, pos), cs) else takeUntil closer (body ++ [(c, pos)]) cs

/-- Collects the options of a group behind those in `options`, where `current` is the part of the
next one that has been read. A bar and the closing bracket end an option. -/
def collectOptions (options : List (List Char)) (current : List Char) :
    List (Char × Nat) → Except CompileError (List (List Char))
  | [] => .ok options
  | (c, pos) :: cs =>
    if c = '|' ∨ c = Bracket.round.closer then
      if current = [] then .error (.unexpected c pos)
      else collectOptions (options ++ [current]) [] cs
    else collectOptions options (current ++ [c]) cs

/-- A char that ends an option is taken in, unless the option has no chars. -/
theorem collectOptions_cons_of_ends {c : Char} (h : c = '|' ∨ c = ')')
    (options : List (List Char)) (current : List Char) (pos : Nat) (cs : List (Char × Nat)) :
    collectOptions options current ((c, pos) :: cs) =
      if current = [] then .error (.unexpected c pos)
      else collectOptions (options ++ [current]) [] cs :=
  if_pos h

/-- Any other char is put behind the option at hand. -/
theorem collectOptions_cons_of_ne {c : Char} (h_bar : c ≠ '|') (h_closer : c ≠ ')')
    (options : List (List Char)) (current : List Char) (pos : Nat) (cs : List (Char × Nat)) :
    collectOptions options current ((c, pos) :: cs) =
      collectOptions options (current ++ [c]) cs :=
  if_neg (not_or.mpr ⟨h_bar, h_closer⟩)

/-- Reads the group whose opening bracket stands at `pos`, and gives the chars that are left. -/
def scanGroup (pos : Nat) (cs : List (Char × Nat)) :
    Except CompileError Token × List (Char × Nat) :=
  match takeUntil Bracket.round.closer [] cs with
  | (none, rest) => (.error (.unterminated .round pos), rest)
  | (some (body, close), rest) =>
    ((collectOptions [] [] (body ++ [(Bracket.round.closer, close)])).map .group, rest)

/-- The char at place `i` of a text ends an empty option, where the text starts directly behind the
opening bracket of a group: it is a bar or the closing bracket, and what stands directly in front of
it is the opening bracket or a bar. -/
def EndsEmptyOption (text : List Char) (i : Nat) : Prop :=
  (text[i]? = some '|' ∨ text[i]? = some Bracket.round.closer) ∧
    (i = 0 ∨ text[i - 1]? = some '|')

instance (text : List Char) (i : Nat) : Decidable (EndsEmptyOption text i) :=
  inferInstanceAs (Decidable (_ ∧ _))

variable {text back body current o : List Char} {options before : List (List Char)}
  {outcome : Except CompileError (List (List Char))}

/-! ### Up to the first closing bracket -/

/-- Without a closer all is taken, and nothing is left. -/
theorem takeUntil_of_notMem {closer : Char} {cs : List Char} (h : closer ∉ cs)
    (front : List (Char × Nat)) (pos : Nat) :
    takeUntil closer front (cs.zipIdx pos) = (none, []) := by
  induction cs generalizing front pos with
  | nil => rfl
  | cons c cs ih =>
    rw [List.mem_cons, not_or] at h
    rw [List.zipIdx_cons, takeUntil, if_neg (Ne.symm h.1)]
    exact ih h.2 _ _

/-- What is taken ends with the first closer, and what is left is untouched. -/
theorem takeUntil_append {closer : Char} (h : closer ∉ body) (front : List (Char × Nat))
    (pos : Nat) (rest : List Char) :
    takeUntil closer front ((body ++ closer :: rest).zipIdx pos) =
      (some (front ++ body.zipIdx pos, pos + body.length),
        rest.zipIdx (pos + body.length + 1)) := by
  -- Chars are put behind those that were taken, so the induction is for any of these.
  induction body generalizing front pos with
  | nil =>
    rw [List.nil_append, List.zipIdx_cons, takeUntil, if_pos rfl, List.zipIdx_nil,
      List.append_nil]
    rfl
  | cons c body ih =>
    rw [List.mem_cons, not_or] at h
    rw [List.cons_append, List.zipIdx_cons, takeUntil, if_neg (Ne.symm h.1), ih h.2,
      List.append_assoc, List.singleton_append, List.zipIdx_cons, List.length_cons,
      Nat.add_assoc pos 1, Nat.add_comm 1]

/-! ### The pass -/

/-- The text has been read up to here, with these options complete and `current` in front of the
next char. -/
structure Collected (text : List Char) (options : List (List Char)) (current : List Char) :
    Prop where
  /-- Nothing that was read is lost: each complete option stands in front of the bar that ended
  it. -/
  joined : options.flatMap (· ++ ['|']) ++ current = text
  /-- The complete options have chars, and none that ends an option. -/
  option : ∀ o ∈ options, o ≠ [] ∧ '|' ∉ o ∧ ')' ∉ o
  /-- No char that ends an option is in the one at hand. -/
  current : '|' ∉ current ∧ ')' ∉ current

namespace Collected

/-- Nothing has been read at the start, so nothing is lost. -/
theorem start : Collected [] [] [] where
  joined := rfl
  option _ ho := absurd ho List.not_mem_nil
  current := ⟨List.not_mem_nil, List.not_mem_nil⟩

/-- An option that ends is one of the complete ones. -/
theorem option_concat (h : Collected text options current) (h_ne : current ≠ []) :
    ∀ o ∈ options ++ [current], o ≠ [] ∧ '|' ∉ o ∧ ')' ∉ o := by
  intro o ho
  rcases List.mem_append.mp ho with ho | ho
  · exact h.option o ho
  · rw [List.mem_singleton.mp ho]
    exact ⟨h_ne, h.current⟩

/-- **The step at a bar.** The option at hand is complete, unless it is empty. -/
theorem bar (h : Collected text options current) (h_ne : current ≠ []) :
    Collected (text ++ ['|']) (options ++ [current]) [] where
  joined := by
    rw [← h.joined, List.flatMap_append, List.flatMap_singleton, List.append_nil,
      List.append_assoc]
  option := h.option_concat h_ne
  current := ⟨List.not_mem_nil, List.not_mem_nil⟩

/-- **The step at a char that ends no option.** -/
theorem push (h : Collected text options current) {c : Char} (h_bar : c ≠ '|')
    (h_closer : c ≠ ')') : Collected (text ++ [c]) options (current ++ [c]) where
  joined := by rw [← h.joined, List.append_assoc]
  option := h.option
  current := by
    simp only [List.mem_append, List.mem_singleton, not_or]
    exact ⟨⟨h.current.1, h_bar.symm⟩, ⟨h.current.2, h_closer.symm⟩⟩

end Collected

/-- What comes of a group with the text `body` between its brackets, where its first char is at
position `start`. -/
inductive Splits (start : Nat) (body : List Char) :
    Except CompileError (List (List Char)) → Prop
  /-- The options, with bars between them, are the text. -/
  | options {options : List (List Char)} (ne_nil : options ≠ [])
    (option : ∀ o ∈ options, o ≠ [] ∧ '|' ∉ o ∧ ')' ∉ o)
    (joined : ['|'].intercalate options = body) : Splits start body (.ok options)
  /-- Behind options that are not empty there is one that is, and `found` ends it. -/
  | emptyOption {before : List (List Char)} {found : Char} {back : List Char}
    (option : ∀ o ∈ before, o ≠ [] ∧ '|' ∉ o ∧ ')' ∉ o)
    (ends : found = ')' ∨ found = '|' ∧ ')' ∈ back)
    (joined : before.flatMap (· ++ ['|']) ++ found :: back = body ++ [')']) :
    Splits start body (.error (.unexpected found (start + (before.flatMap (· ++ ['|'])).length)))

/-- An option that ends without chars is refused, by the char that ends it. -/
theorem Collected.splits_of_empty (h : Collected text options []) {found : Char}
    (ends : found = ')' ∨ found = '|' ∧ ')' ∈ back)
    (joined : text ++ found :: back = body ++ [')']) (start : Nat) :
    Splits start body (.error (.unexpected found (start + text.length))) := by
  have h_text := h.joined
  rw [List.append_nil] at h_text
  rw [← h_text] at joined ⊢
  exact .emptyOption h.option ends joined

/-- **The run.** From any place inside a group, a pass over the rest of it and its closing bracket
finds all options of the group, or the first of them that is empty. -/
theorem Collected.splits (h : Collected text options current) (h_closer : ')' ∉ back)
    (start : Nat) :
    Splits start (text ++ back)
      (collectOptions options current ((back ++ [')']).zipIdx (start + text.length))) := by
  -- One char of what is left at a time, with the invariant for what has been read.
  induction back generalizing text options current with
  | nil =>
    -- The closing bracket ends the option at hand, which is the last one.
    rw [List.nil_append, List.zipIdx_singleton, collectOptions_cons_of_ends (.inr rfl),
      List.append_nil]
    split
    · next h_empty =>
      subst h_empty
      exact h.splits_of_empty (.inl rfl) rfl start
    · next h_ne =>
      refine .options (List.append_ne_nil_of_right_ne_nil _ (List.cons_ne_nil _ _))
        (h.option_concat h_ne) ?_
      rw [intercalate_append_cons, List.intercalate_singleton, h.joined]
  | cons c back ih =>
    rw [List.mem_cons, not_or] at h_closer
    have h_pos : start + text.length + 1 = start + (text ++ [c]).length := by
      rw [List.length_append, List.length_singleton, Nat.add_assoc]
    have h_text : text ++ c :: back = text ++ [c] ++ back := by
      rw [List.append_assoc, List.singleton_append]
    rw [List.cons_append, List.zipIdx_cons]
    by_cases h_bar : c = '|'
    · rw [collectOptions_cons_of_ends (.inl h_bar)]
      split
      · next h_empty =>
        -- The group is closed behind the bar, so it is the bar that ends the empty option.
        subst h_empty
        have h_ends : c = ')' ∨ c = '|' ∧ ')' ∈ back ++ [')'] :=
          .inr ⟨h_bar, List.mem_append_right _ List.mem_cons_self⟩
        exact h.splits_of_empty h_ends (List.append_assoc text (c :: back) [')']).symm start
      · next h_ne =>
        subst h_bar
        rw [h_pos, h_text]
        exact ih (h.bar h_ne) h_closer.2
    · rw [collectOptions_cons_of_ne h_bar (Ne.symm h_closer.1), h_pos, h_text]
      exact ih (h.push h_bar (Ne.symm h_closer.1)) h_closer.2

/-- A pass over the whole of a group. -/
theorem splits_collectOptions (h : ')' ∉ body) (start : Nat) :
    Splits start body (collectOptions [] [] ((body ++ [')']).zipIdx start)) :=
  Collected.start.splits h start

/-! ### Both readers

What a pass gives is in the form in which cutting at the bars is known to read and to refuse. -/

/-- What comes of a group is what `readGroup` gives, seen from the start of the pattern text. -/
theorem Splits.readGroup_eq {k : Nat} (h : Splits (k + 1) body outcome) (rest : List Char) :
    (readGroup (body ++ ')' :: rest)).mapError (.shift k) =
      outcome.map fun options =>
        { token := .group options, text := '(' :: (body ++ [')']), rest } := by
  cases h with
  | options ne_nil option joined =>
    rw [← joined, readGroup_of_intercalate ne_nil option]
    rfl
  | @emptyOption before found back option ends joined =>
    -- Where a bar ends the empty option, the bracket that closes the group is still further on.
    have h_ends : found = ')' ∨ found = '|' ∧ ')' ∈ back ++ rest :=
      ends.imp_right fun h => ⟨h.1, List.mem_append_left rest h.2⟩
    have h_text :
        body ++ ')' :: rest = before.flatMap (· ++ ['|']) ++ found :: (back ++ rest) := by
      rw [List.append_cons, ← joined, List.append_assoc, List.cons_append]
    rw [h_text, readGroup_of_emptyOption option h_ends, Except.mapError, Except.map,
      CompileError.shift, Nat.add_assoc]

/-- A group that is closed comes to an end of one of the two kinds, whatever is behind it. -/
theorem exists_splits_readGroup (h : ')' ∉ body) (rest : List Char) (k : Nat) :
    ∃ outcome, Splits (k + 1) body outcome ∧
      (readGroup (body ++ ')' :: rest)).mapError (.shift k) =
        outcome.map fun options =>
          { token := .group options, text := '(' :: (body ++ [')']), rest } :=
  ⟨_, splits_collectOptions h (k + 1), (splits_collectOptions h (k + 1)).readGroup_eq rest⟩

/-- A group is scanned up to its first closing bracket, and what is behind that keeps its positions.
-/
theorem scanGroup_append (h : ')' ∉ body) (rest : List Char) (k : Nat) :
    scanGroup k ((body ++ ')' :: rest).zipIdx (k + 1)) =
      ((collectOptions [] [] ((body ++ [')']).zipIdx (k + 1))).map .group,
        rest.zipIdx (k + 1 + body.length + 1)) := by
  rw [scanGroup, Bracket.closer, takeUntil_append h, List.nil_append, List.zipIdx_append]
  rfl

/-- **Reading char by char and cutting at the bars agree**, on a group that is never closed as
well. -/
theorem scanGroup_eq (k : Nat) (cs : List Char) :
    (scanGroup k (cs.zipIdx (k + 1))).1 =
      ((readGroup cs).mapError (.shift k)).map Item.token := by
  by_cases h : ')' ∈ cs
  · -- Closed, the group comes to one end in both readers.
    obtain ⟨body, rest, rfl, h_body⟩ := List.eq_append_cons_of_mem h
    rw [scanGroup_append h_body, (splits_collectOptions h_body (k + 1)).readGroup_eq]
    cases collectOptions [] [] ((body ++ [')']).zipIdx (k + 1)) <;> rfl
  · -- Not closed, it is refused in both at its opening bracket.
    rw [scanGroup, Bracket.closer, takeUntil_of_notMem h, readGroup_of_notMem h]
    rfl

/-! ### The place of the first empty option -/

/-- An option that has chars is not empty where it ends, nor does any of its chars end one. -/
theorem not_endsEmptyOption_of_le (h : o ≠ [] ∧ '|' ∉ o ∧ ')' ∉ o) {i : Nat}
    (h_le : i ≤ o.length) : ¬ EndsEmptyOption (o ++ '|' :: text) i := by
  obtain ⟨h_ne, h_bar, h_closer⟩ := h
  rintro ⟨h_sign, h_front⟩
  rcases Nat.lt_or_eq_of_le h_le with h_lt | rfl
  · -- Inside the option there is no char that ends one.
    rw [List.getElem?_append_left h_lt] at h_sign
    rcases h_sign with h_sign | h_sign
    · exact h_bar (List.mem_of_getElem? h_sign)
    · exact h_closer (List.mem_of_getElem? h_sign)
  · -- What stands in front of the bar is the last char of the option.
    have h_pos : 0 < o.length := List.length_pos_iff.mpr h_ne
    have h_last := h_front.resolve_left h_pos.ne'
    rw [List.getElem?_append_left (Nat.sub_one_lt_of_lt h_pos)] at h_last
    exact h_bar (List.mem_of_getElem? h_last)

/-- What stands in front of a bar makes no difference behind it. -/
theorem endsEmptyOption_append_bar_iff {i : Nat} :
    EndsEmptyOption (o ++ '|' :: text) (o.length + 1 + i) ↔ EndsEmptyOption text i := by
  have h_get (j : Nat) : (o ++ '|' :: text)[o.length + 1 + j]? = text[j]? := by
    rw [List.append_cons, ← List.length_singleton, ← List.length_append,
      List.getElem?_append_right (Nat.le_add_right _ _), Nat.add_sub_cancel_left]
  have h_front : (o ++ '|' :: text)[o.length + 1 + i - 1]? = some '|' ↔
      i = 0 ∨ text[i - 1]? = some '|' := by
    cases i with
    | zero => simp
    | succ i =>
      change (o ++ '|' :: text)[o.length + 1 + i]? = some '|' ↔ _
      rw [h_get, Nat.add_sub_cancel, or_iff_right (Nat.succ_ne_zero i)]
  have h_ne : o.length + 1 + i ≠ 0 := by omega
  rw [EndsEmptyOption, EndsEmptyOption, h_get, h_front, or_iff_right h_ne]

/-- **The first empty option** ends directly behind the options in front of it that have chars. -/
theorem isLeast_endsEmptyOption (option : ∀ o ∈ before, o ≠ [] ∧ '|' ∉ o ∧ ')' ∉ o)
    {found : Char} (ends : found = ')' ∨ found = '|') (back : List Char) :
    IsLeast {i | EndsEmptyOption (before.flatMap (· ++ ['|']) ++ found :: back) i}
      (before.flatMap (· ++ ['|'])).length := by
  -- One option at a time: no empty option ends in it or at its bar, and behind the bar the text is
  -- as if it started there.
  induction before with
  | nil =>
    refine ⟨⟨?_, .inl rfl⟩, fun _ _ => Nat.zero_le _⟩
    rcases ends with rfl | rfl
    · exact .inr rfl
    · exact .inl rfl
  | cons o before ih =>
    obtain ⟨h_ends, h_least⟩ := ih fun o ho => option o (List.mem_cons_of_mem _ ho)
    have h_text : (o :: before).flatMap (· ++ ['|']) ++ found :: back =
        o ++ '|' :: (before.flatMap (· ++ ['|']) ++ found :: back) := by simp
    have h_length : ((o :: before).flatMap (· ++ ['|'])).length =
        o.length + 1 + (before.flatMap (· ++ ['|'])).length := by
      rw [List.flatMap_cons, List.length_append, List.length_append, List.length_singleton]
    rw [h_text, h_length]
    refine ⟨endsEmptyOption_append_bar_iff.mpr h_ends, ?_⟩
    intro j hj
    rcases Nat.lt_or_ge o.length j with h_lt | h_le
    · -- Places behind the bar are counted from there.
      obtain ⟨i, rfl⟩ := Nat.exists_eq_add_of_le (Nat.succ_le_of_lt h_lt)
      exact Nat.add_le_add_left (h_least (endsEmptyOption_append_bar_iff.mp hj)) _
    · exact absurd hj (not_endsEmptyOption_of_le (option o List.mem_cons_self) h_le)

/-- Two empty options are behind the first one here, and a bar and the closing bracket end them. -/
example : (List.range 4).filter (fun i => EndsEmptyOption ['d', '|', '|', ')'] i) = [2, 3] := by
  decide

/-! ### What is read of a group -/

/-- There is one option more than there are bars between them. -/
theorem length_eq_count_add_one (ne_nil : options ≠ []) (h : ∀ o ∈ options, '|' ∉ o) :
    options.length = (['|'].intercalate options).count '|' + 1 := by
  induction options with
  | nil => exact absurd rfl ne_nil
  | cons o options ih =>
    -- No bar is in an option, so the one bar counted is that behind it.
    have h_o : o.count '|' = 0 := List.count_eq_zero.mpr (h o List.mem_cons_self)
    cases options with
    | nil => rw [List.intercalate_singleton, h_o, List.length_singleton]
    | cons o' options =>
      have h_tail := ih (List.cons_ne_nil _ _) fun o ho => h o (List.mem_cons_of_mem _ ho)
      rw [List.intercalate_cons_cons, List.count_append, List.count_append, h_o,
        List.length_cons, h_tail, List.count_singleton_self]
      omega

/-- What is read of a group is its text and no more, and the options are all of it. -/
theorem exists_options_of_readGroup (h : ')' ∉ body) {rest : List Char} {item : Item}
    (h_read : readGroup (body ++ ')' :: rest) = .ok item) :
    item.text = '(' :: (body ++ [')']) ∧ item.rest = rest ∧
      ∃ options, item.token = .group options ∧ ['|'].intercalate options = body ∧
        options.length = body.count '|' + 1 ∧ [] ∉ options := by
  -- Of the two ends only one is that of a group that is read.
  obtain ⟨outcome, h_splits, h_eq⟩ := exists_splits_readGroup h rest 0
  rw [h_read] at h_eq
  cases h_splits with
  | @options options ne_nil option joined =>
    obtain rfl := Except.ok.inj h_eq
    refine ⟨rfl, rfl, options, rfl, joined, ?_, fun h_nil => (option [] h_nil).1 rfl⟩
    rw [← joined]
    exact length_eq_count_add_one ne_nil fun o ho => (option o ho).2.1
  | emptyOption => cases h_eq

/-- A group is refused at the first place where an empty option ends. -/
theorem exists_isLeast_of_readGroup (h : ')' ∉ body) {rest : List Char} {e : CompileError}
    (h_read : readGroup (body ++ ')' :: rest) = .error e) (k : Nat) :
    ∃ found i, (body ++ [')'])[i]? = some found ∧
      IsLeast {j | EndsEmptyOption (body ++ [')']) j} i ∧
      e.shift k = .unexpected found (k + 1 + i) := by
  obtain ⟨outcome, h_splits, h_eq⟩ := exists_splits_readGroup h rest k
  rw [h_read] at h_eq
  cases h_splits with
  | options => cases h_eq
  | @emptyOption before found back option ends joined =>
    refine ⟨found, (before.flatMap (· ++ ['|'])).length, ?_, ?_, Except.error.inj h_eq⟩
    · rw [← joined, List.getElem?_append_right (Nat.le_refl _), Nat.sub_self]
      rfl
    · rw [← joined]
      exact isLeast_endsEmptyOption option (ends.imp_right And.left) back

/-- A group is refused exactly if cutting it at the bars leaves an empty option. -/
theorem exists_readGroup_eq_error_iff (h : ')' ∉ body) (rest : List Char) :
    (∃ e, readGroup (body ++ ')' :: rest) = .error e) ↔ [] ∈ body.splitOn '|' := by
  rw [readGroup_append h]
  constructor
  · rintro ⟨e, h_error⟩
    by_contra h_empty
    rw [emptyOption?_eq_none fun o ho h_nil => h_empty (h_nil ▸ ho)] at h_error
    contradiction
  · intro h_empty
    obtain ⟨before, after, h_split, h_before⟩ := List.eq_append_cons_of_mem h_empty
    rw [h_split, emptyOption?_append fun o ho h_nil => h_before (h_nil ▸ ho)]
    exact ⟨_, rfl⟩

/-- **Splitting a group loses nothing.** A group is all up to the first closing bracket, be it read
or refused, and what is behind it is left as it is. The options that are read, with bars between
them, are the text between the brackets; there is one more of them than there are bars, and none is
empty. A group is refused exactly if that text is empty, starts with a bar, ends with a bar or has
two bars in a row, and then for the first char there that ends an empty option, at its position. -/
theorem readGroup_of_first_closer (h : ')' ∉ body) (rest : List Char) (k : Nat) :
    scanGroup k ((body ++ ')' :: rest).zipIdx (k + 1)) =
        (((readGroup (body ++ ')' :: rest)).mapError (.shift k)).map Item.token,
          rest.zipIdx (k + 1 + body.length + 1)) ∧
      (∀ item, readGroup (body ++ ')' :: rest) = .ok item →
        item.text = '(' :: (body ++ [')']) ∧ item.rest = rest ∧
          ∃ options, item.token = .group options ∧ ['|'].intercalate options = body ∧
            options.length = body.count '|' + 1 ∧ [] ∉ options) ∧
      ((∃ e, readGroup (body ++ ')' :: rest) = .error e) ↔
        body = [] ∨ body.head? = some '|' ∨ body.getLast? = some '|' ∨ ['|', '|'] <:+: body) ∧
      ∀ e, readGroup (body ++ ')' :: rest) = .error e →
        ∃ found i, (body ++ [')'])[i]? = some found ∧
          IsLeast {j | EndsEmptyOption (body ++ [')']) j} i ∧
          e.shift k = .unexpected found (k + 1 + i) := by
  refine ⟨?_, ?_, ?_, ?_⟩
  · exact Prod.ext (scanGroup_eq k _) (by rw [scanGroup_append h])
  · intro item h_read
    exact exists_options_of_readGroup h h_read
  · exact (exists_readGroup_eq_error_iff h rest).trans nil_mem_splitOn_iff
  · intro e h_read
    exact exists_isLeast_of_readGroup h h_read k

/-- A group with an opening bracket in an option, and behind it a group with two empty options. The
first is read and the second is left as it is; read from its own place, the second is refused at its
second bar, and the dollar sign behind it is left. -/
theorem readGroup_of_two_groups :
    ')' ∉ ['a', '|', '(', 'b', '|', 'c'] ∧ ')' ∉ ['d', '|', '|'] ∧
      (∃ item,
        readGroup ['a', '|', '(', 'b', '|', 'c', ')', '(', 'd', '|', '|', ')', '$'] = .ok item ∧
          item.rest = ['(', 'd', '|', '|', ')', '$'] ∧
          ∃ options, item.token = .group options ∧
            ['|'].intercalate options = ['a', '|', '(', 'b', '|', 'c'] ∧
            options.length = 3 ∧ [] ∉ options) ∧
      readGroup ['d', '|', '|', ')', '$'] = .error (.unexpected '|' 3) ∧
      IsLeast {j | EndsEmptyOption ['d', '|', '|', ')'] j} 2 ∧
      scanGroup 8 [('d', 9), ('|', 10), ('|', 11), (')', 12), ('$', 13)] =
        (.error (.unexpected '|' 11), [('$', 13)]) := by
  have h_first : ')' ∉ ['a', '|', '(', 'b', '|', 'c'] := by decide
  have h_second : ')' ∉ ['d', '|', '|'] := by decide
  have ⟨_, h_ok, _, _⟩ := readGroup_of_first_closer h_first ['(', 'd', '|', '|', ')', '$'] 0
  have ⟨h_scan, _, _, h_least⟩ := readGroup_of_first_closer h_second ['$'] 8
  have h_read : readGroup ['a', '|', '(', 'b', '|', 'c', ')', '(', 'd', '|', '|', ')', '$'] =
      .ok
        { token := .group [['a'], ['(', 'b'], ['c']]
          text := ['(', 'a', '|', '(', 'b', '|', 'c', ')']
          rest := ['(', 'd', '|', '|', ')', '$'] } := by
    decide
  have h_error : readGroup ['d', '|', '|', ')', '$'] = .error (.unexpected '|' 3) := by decide
  refine ⟨h_first, h_second, ⟨_, h_read, (h_ok _ h_read).2⟩, h_error, ?_, ?_⟩
  · obtain ⟨found, i, -, h_i, h_pos⟩ := h_least _ h_error
    -- The position that is reported is that of place 2.
    have h_two : 11 = 8 + 1 + i := (CompileError.unexpected.inj h_pos).2
    obtain rfl : i = 2 := by omega
    exact h_i
  · simp only [List.cons_append, List.nil_append, h_error] at h_scan
    exact h_scan

end LinePattern.Pattern.Item
