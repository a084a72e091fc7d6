/-!
# Patterns

A pattern is a list of tokens. Two tokens are anchors, which tie a match to an end of the line and
take no chars; every other token takes chars from the front of what is left of the line.

* `Atom` is a test on one char, and `Quantifier` says how many accepted chars in a row it takes.
* `Token` is an anchor, a quantified atom, a bracket class or a group of literal options.
* `Pattern` is a list of tokens. The list alone does not keep anchors at the ends or classes and
  groups non-empty: that is `Pattern.WellFormed`, and search is defined on all lists.

Texts are lists of chars throughout, so lengths and positions count chars.
-/

namespace LinePattern

/-- A test on a single char. -/
inductive Atom where
  /-- This char and no other. -/
  | literal (c : Char)
  /-- One of the ASCII digits. -/
  | digit
  /-- An ASCII letter, an ASCII digit or the underscore. -/
  | word
  /-- Any char, a newline included. -/
  | wildcard
  deriving DecidableEq, Repr

namespace Atom

/-- Whether the atom takes the char `c`. Only ASCII chars are digits or word chars. -/
def accepts : Atom → Char → Bool
  | literal l, c => c == l
  | digit, c => c.isDigit
  | word, c => c.isAlphanum || c == '_'
  | wildcard, _ => true

@[simp] theorem accepts_literal (l c : Char) : (literal l).accepts c = (c == l) := rfl

@[simp] theorem accepts_wildcard (c : Char) : wildcard.accepts c = true := rfl

/-- A word char is a digit, a letter or the underscore, so each digit is a word char. -/
theorem accepts_word_of_accepts_digit {c : Char} (h : digit.accepts c = true) :
    word.accepts c = true := by
  have h' : c.isDigit = true := h
  simp [accepts, Char.isAlphanum, h']

end Atom

/-- How many accepted chars in a row an atom takes. -/
inductive Quantifier where
  /-- Exactly one. -/
  | one
  /-- None or one. -/
  | optional
  /-- One or more. -/
  | oneOrMore
  deriving DecidableEq, Repr

/-- Whether a bracket class lists the chars it takes or the chars it refuses. -/
inductive Polarity where
  /-- The members are the chars that are taken. -/
  | positive
  /-- The members are the chars that are refused. -/
  | negative
  deriving DecidableEq, Repr

/-- Whether a class of this polarity with these members takes the char `c`. -/
def Polarity.admits (polarity : Polarity) (members : List Char) (c : Char) : Bool :=
  match polarity with
  | positive => members.contains c
  | negative => !members.contains c

/-- A positive class takes its members. -/
@[simp] theorem Polarity.admits_positive_iff {members : List Char} {c : Char} :
    positive.admits members c = true ↔ c ∈ members := by
  simp [admits]

/-- A negative class takes all chars but its members. -/
@[simp] theorem Polarity.admits_negative_iff {members : List Char} {c : Char} :
    negative.admits members c = true ↔ c ∉ members := by
  simp [admits]

/-- One step of a pattern. -/
inductive Token where
  /-- The start of the line. -/
  | lineStart
  /-- The end of the line. -/
  | lineEnd
  /-- As many chars accepted by `a` as the quantifier asks for. -/
  | atom (a : Atom) (q : Quantifier)
  /-- One char, tested against the members in pattern order, repeats kept. -/
  | charClass (polarity : Polarity) (members : List Char)
  /-- One of the options, char for char, in pattern order, repeats kept. -/
  | group (options : List (List Char))
  deriving DecidableEq, Repr

/-- A pattern: its tokens from left to right. -/
abbrev Pattern := List Token

end LinePattern
