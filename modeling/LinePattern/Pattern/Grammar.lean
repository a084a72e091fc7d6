import LinePattern.Pattern.Error
import LinePattern.Pattern.Printer

/-!
# The grammar of patterns

Which texts write which tokens, and which texts have a fault at their front, said without reading
them from left to right.

* `Token.Writes`: the item texts, and the token that each writes.
* `Pattern.Layout`: a pattern text cut into its items, the anchor signs at its ends split off.
* `Pattern.Fault`: the texts whose first item is at fault, and the error that says so.
* `Pattern.Breakdown`: a refused text cut into the items in front of its first fault and the text
  from there on.
-/

namespace LinePattern

/-- The chars that are no literal when they stand alone at the front of an item. -/
def reserved : List Char := ['\\', '.', '[', '(', '+', '?', '|', ')']

/-- The text `w` writes the atom. -/
inductive Atom.Writes : List Char → Atom → Prop where
  /-- A backslash in front of any char escapes it. -/
  | escape (c : Char) : Writes ['\\', c] (ofEscape c)
  /-- A full stop stands for any char. -/
  | wildcard : Writes ['.'] wildcard
  /-- Every char that is not reserved stands for itself. -/
  | plain (c : Char) (h : c ∉ reserved) : Writes [c] (literal c)

/-- The text `w` is an item, and writes the token. -/
inductive Token.Writes : List Char → Token → Prop where
  /-- An atom and the sign of its quantifier. -/
  | atom {w : List Char} {a : Atom} (h : a.Writes w) (q : Quantifier) :
    Writes (w ++ q.sign) (.atom a q)
  /-- A class that does not start with a caret. -/
  | positive {members : List Char} (ne_nil : members ≠ []) (head : members.head? ≠ some '^')
    (closer : ']' ∉ members) : Writes ('[' :: (members ++ [']'])) (.charClass .positive members)
  /-- A class that starts with a caret, which is no member. -/
  | negative {members : List Char} (ne_nil : members ≠ []) (closer : ']' ∉ members) :
    Writes ('[' :: '^' :: (members ++ [']'])) (.charClass .negative members)
  /-- A group: its options, with bars between them. -/
  | group {options : List (List Char)} (ne_nil : options ≠ [])
    (option : ∀ o ∈ options, o ≠ [] ∧ '|' ∉ o ∧ ')' ∉ o) :
    Writes ('(' :: (['|'].intercalate options ++ [')'])) (.group options)

/-- An item that writes the token can end in front of `rest`: a quantifier sign directly behind an
atom is part of the atom's item. -/
def Token.EndsBefore (t : Token) (rest : List Char) : Prop :=
  ∀ a, t = atom a .one → rest.head? ≠ some '+' ∧ rest.head? ≠ some '?'

namespace Pattern

/-- A pattern text cut into the items that it is made of. -/
structure Layout where
  /-- Whether a caret in front stands for the start of the line. -/
  start : Bool
  /-- The items from left to right, each with the token that it writes. -/
  items : List (List Char × Token)
  /-- Whether a dollar sign at the end stands for the end of the line. -/
  stop : Bool
  deriving DecidableEq, Repr

namespace Layout

/-- The text that is laid out. -/
def text (l : Layout) : List Char :=
  (if l.start then ['^'] else []) ++ l.items.flatMap Prod.fst ++ (if l.stop then ['$'] else [])

/-- The tokens that the text writes. -/
def tokens (l : Layout) : Pattern :=
  (if l.start then [.lineStart] else []) ++ l.items.map Prod.snd ++
    (if l.stop then [.lineEnd] else [])

/-- Each item writes its token. An anchor sign that can be split off is: no text that starts with a
caret starts with an item, and no item that is a dollar sign alone ends the text. -/
structure Valid (l : Layout) : Prop where
  /-- Each item writes its token. -/
  writes : ∀ i ∈ l.items, Token.Writes i.1 i.2
  /-- A caret in front is split off. -/
  start_of_head : l.text.head? = some '^' → l.start = true
  /-- A dollar sign at the end, if it is an item of its own, is split off. -/
  stop_of_getLast : (l.items.getLast?.map Prod.fst = some ['$']) → l.stop = true

end Layout

/-- The text starts with an item that cannot be read, for the reason given by the error, whose
position counts from the start of the text. -/
inductive Fault : List Char → CompileError → Prop where
  /-- A backslash with nothing behind it. -/
  | dangling : Fault ['\\'] (.danglingEscape 0)
  /-- A bracket that is not closed. -/
  | unterminated {bracket : Bracket} {cs : List Char} (h : bracket.closer ∉ cs) :
    Fault (bracket.opener :: cs) (.unterminated bracket 0)
  /-- A class without members. -/
  | emptyClass (polarity : Polarity) (cs : List Char) :
    Fault ('[' :: (polarity.sign ++ ']' :: cs)) (.unexpected ']' (1 + polarity.sign.length))
  /-- A group that is closed and has an empty option, behind options that are not. -/
  | emptyOption {before : List (List Char)} {found : Char} {cs : List Char}
    (option : ∀ o ∈ before, o ≠ [] ∧ '|' ∉ o ∧ ')' ∉ o)
    (ends : found = ')' ∨ found = '|' ∧ ')' ∈ cs) :
    Fault ('(' :: (before.flatMap (· ++ ['|']) ++ found :: cs))
      (.unexpected found (1 + (before.flatMap (· ++ ['|'])).length))
  /-- A char that starts no item. -/
  | misplaced {c : Char} {cs : List Char} (h : c ∈ ['+', '?', '|', ')']) :
    Fault (c :: cs) (.unexpected c 0)

/-- A pattern text that is refused, cut at its first fault. -/
structure Breakdown where
  /-- Whether a caret in front stands for the start of the line. -/
  start : Bool
  /-- The items in front of the fault, each with the token that it writes. -/
  items : List (List Char × Token)
  /-- The text from the fault on. -/
  rest : List Char
  /-- What is wrong with `rest`, at its distance from the start of `rest`. -/
  cause : CompileError
  deriving DecidableEq, Repr

namespace Breakdown

/-- The text in front of the fault. -/
def before (b : Breakdown) : List Char :=
  (if b.start then ['^'] else []) ++ b.items.flatMap Prod.fst

/-- The text that is cut. -/
def text (b : Breakdown) : List Char := b.before ++ b.rest

/-- What is wrong with the text, at its distance from the start of the text. -/
def error (b : Breakdown) : CompileError := b.cause.shift b.before.length

/-- Each item in front of the fault writes its token and is complete, and what follows is at
fault. -/
structure Valid (b : Breakdown) : Prop where
  /-- Each item writes its token. -/
  writes : ∀ i ∈ b.items, Token.Writes i.1 i.2
  /-- The last item leaves no quantifier sign behind that belongs to it. -/
  ends : ∀ i ∈ b.items.getLast?, i.2.EndsBefore b.rest
  /-- A caret in front is split off, and nothing else is. -/
  start_iff : b.start = true ↔ b.text.head? = some '^'
  /-- What follows the items is at fault. -/
  fault : Fault b.rest b.cause

end Breakdown

end Pattern

end LinePattern
