/-!
# Why a pattern is refused

Every refusal but that of the empty pattern names a position, which counts chars. What reads a part
of a pattern text counts from the start of that part, and `CompileError.shift` takes account of the
text in front of it; the positions that `Pattern.compile` gives count from the start of the whole
text, a leading caret included.
-/

namespace LinePattern

/-- The two kinds of brackets that enclose part of a pattern. -/
inductive Bracket where
  /-- Around the members of a class. -/
  | square
  /-- Around the options of a group. -/
  | round
  deriving DecidableEq, Repr

namespace Bracket

/-- The char that opens the bracket. -/
def opener : Bracket → Char
  | square => '['
  | round => '('

/-- The char that closes the bracket. -/
def closer : Bracket → Char
  | square => ']'
  | round => ')'

end Bracket

namespace Pattern

/-- Why a text is not a pattern. -/
inductive CompileError where
  /-- The text has no chars. -/
  | emptyPattern
  /-- The backslash at `pos` is the last char and has nothing to escape. -/
  | danglingEscape (pos : Nat)
  /-- The bracket opened at `pos` is never closed. -/
  | unterminated (bracket : Bracket) (pos : Nat)
  /-- The char at `pos` cannot stand there. -/
  | unexpected (found : Char) (pos : Nat)
  deriving DecidableEq, Repr

namespace CompileError

/-- The text of the error. -/
def message : CompileError → String
  | emptyPattern => "empty pattern"
  | danglingEscape pos => s!"dangling `\\` at position {pos}"
  | unterminated bracket pos => s!"unterminated `{bracket.opener}` opened at position {pos}"
  | unexpected found pos => s!"unparsable pattern: unexpected `{found}` at position {pos}"

/-- The same error, seen from `n` chars further to the left. -/
def shift (n : Nat) : CompileError → CompileError
  | emptyPattern => emptyPattern
  | danglingEscape pos => danglingEscape (n + pos)
  | unterminated bracket pos => unterminated bracket (n + pos)
  | unexpected found pos => unexpected found (n + pos)

/-- Nothing in front moves no position. -/
@[simp] theorem shift_zero (e : CompileError) : e.shift 0 = e := by
  cases e <;> simp [shift]

/-- Two texts in front count as one, whichever of them is put there first. -/
@[simp] theorem shift_shift (m n : Nat) (e : CompileError) :
    (e.shift n).shift m = e.shift (m + n) := by
  cases e <;> simp [shift, Nat.add_assoc]

/-- A dangling backslash that is seen from further left was dangling before, nearer by what is in
front. -/
theorem shift_eq_danglingEscape_iff {n pos : Nat} {e : CompileError} :
    e.shift n = danglingEscape pos ↔ ∃ k, e = danglingEscape k ∧ n + k = pos := by
  cases e <;> simp [shift]

/-- The same for a bracket that is never closed: moving the position does not change the bracket. -/
theorem shift_eq_unterminated_iff {n pos : Nat} {bracket : Bracket} {e : CompileError} :
    e.shift n = unterminated bracket pos ↔ ∃ k, e = unterminated bracket k ∧ n + k = pos := by
  cases e <;> simp [shift, and_assoc]

/-- The same for a char that cannot stand where it does. -/
theorem shift_eq_unexpected_iff {n pos : Nat} {found : Char} {e : CompileError} :
    e.shift n = unexpected found pos ↔ ∃ k, e = unexpected found k ∧ n + k = pos := by
  cases e <;> simp [shift, and_assoc]

end CompileError

end Pattern

end LinePattern
