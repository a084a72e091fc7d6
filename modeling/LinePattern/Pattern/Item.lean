import LinePattern.Pattern.Basic
import LinePattern.Pattern.Error

/-!
# Items

An item is the text of one token other than an anchor: an atom with its quantifier, a bracket class
or a group. `Item.read` takes one item off the front of a text. What it takes depends on that text
alone and not on what was read before, so a text is read to its end by reading items one after the
other.

Main statements:

* `Item.text_append_rest_of_read`: the item and the text behind it make up what was read.
* `Item.text_ne_nil_of_read`: an item has at least one char, so reading makes progress.
-/

namespace LinePattern

/-- The atom that a backslash in front of `c` stands for. -/
def Atom.ofEscape : Char → Atom
  | 'd' => digit
  | 'w' => word
  | c => literal c

/-- The sign behind an atom that writes its quantifier. -/
def Quantifier.sign : Quantifier → List Char
  | one => []
  | optional => ['?']
  | oneOrMore => ['+']

/-- Reads the quantifier in front of a text. There is one in front of every text, for the absence of
a sign means "exactly one". -/
def Quantifier.read : List Char → Quantifier × List Char
  | '?' :: cs => (optional, cs)
  | '+' :: cs => (oneOrMore, cs)
  | cs => (one, cs)

/-- The sign that is read and what is left make up the text, also where there is no sign. -/
theorem Quantifier.sign_append_rest_read (cs : List Char) :
    (read cs).1.sign ++ (read cs).2 = cs := by
  unfold read
  split <;> rfl

/-- The class whose brackets enclose `body`, unless it lists no member. A caret in front of the
members makes the class negative and is none of them. -/
def Token.ofClassBody? : List Char → Option Token
  | [] => none
  | ['^'] => none
  | '^' :: members => some (charClass .negative members)
  | members => some (charClass .positive members)

namespace Pattern

/-- An item at the front of a text, and the text behind it. -/
structure Item where
  /-- The token that the item writes. -/
  token : Token
  /-- The chars of the item. -/
  text : List Char
  /-- The chars behind the item. -/
  rest : List Char
  deriving DecidableEq, Repr

namespace Item

/-- The item of the atom `a`, written as `text` and followed by `cs`. A quantifier sign directly
behind the atom belongs to the item. -/
def ofAtom (a : Atom) (text cs : List Char) : Item where
  token := .atom a (Quantifier.read cs).1
  text := text ++ (Quantifier.read cs).1.sign
  rest := (Quantifier.read cs).2

/-- Reads an item in brackets, where `cs` follows the opening one. The item ends at the first closing
bracket, whatever stands in front of that. Of the body between the two `ofBody` makes a token, unless
it refuses the body. -/
def readEnclosed (bracket : Bracket) (ofBody : List Char → Except CompileError Token)
    (cs : List Char) : Except CompileError Item :=
  let body := cs.takeWhile (· != bracket.closer)
  match cs.dropWhile (· != bracket.closer) with
  | [] => .error (.unterminated bracket 0)
  | closer :: rest =>
    (ofBody body).map fun token =>
      { token, text := bracket.opener :: (body ++ [closer]), rest }

/-- The class that a body writes. A body without members is refused at the closing bracket, which
stands behind the opening bracket and the body. -/
def classOfBody (body : List Char) : Except CompileError Token :=
  match Token.ofClassBody? body with
  | none => .error (.unexpected Bracket.square.closer (1 + body.length))
  | some token => .ok token

/-- Reads the class whose opening bracket is followed by `cs`. A backslash in front of the first
closing bracket does not keep it from ending the class. -/
def readClass (cs : List Char) : Except CompileError Item :=
  readEnclosed .square classOfBody cs

/-- The refusal of the first empty option of a group, from these options to the end of the group. It
names the char that ends the empty option, at its distance from the first of these options. -/
def emptyOption? : List (List Char) → Option CompileError
  | [] => none
  | [[]] => some (.unexpected Bracket.round.closer 0)
  | [] :: _ :: _ => some (.unexpected '|' 0)
  | (_ :: o) :: os => (emptyOption? os).map (.shift (o.length + 2))

/-- The group that a body writes. A bar separates options, and no char has another meaning. -/
def groupOfBody (body : List Char) : Except CompileError Token :=
  let options := body.splitOn '|'
  match emptyOption? options with
  | some e => .error (e.shift 1)
  | none => .ok (.group options)

/-- Reads the group whose opening bracket is followed by `cs`. -/
def readGroup (cs : List Char) : Except CompileError Item :=
  readEnclosed .round groupOfBody cs

/-- Reads the item whose first char `c` is followed by `cs`. A quantifier sign, a bar or a closing
round bracket starts no item. The positions in errors count from `c`. -/
def read (c : Char) (cs : List Char) : Except CompileError Item :=
  match c with
  | '\\' =>
    match cs with
    | [] => .error (.danglingEscape 0)
    | escaped :: cs => .ok (ofAtom (Atom.ofEscape escaped) ['\\', escaped] cs)
  | '.' => .ok (ofAtom .wildcard ['.'] cs)
  | '[' => readClass cs
  | '(' => readGroup cs
  | '?' | '+' | '|' | ')' => .error (.unexpected c 0)
  | _ => .ok (ofAtom (.literal c) [c] cs)

/-! ### Nothing is lost, and at least one char is taken

Both come to one statement about each reader: the item starts with the char that reading started
with, and its other chars are the front of what follows that char. -/

/-- An atom is followed by its sign, if there is one, and by what is left. -/
theorem exists_text_ofAtom (a : Atom) (c : Char) (w cs : List Char) :
    ∃ more, (ofAtom a (c :: w) cs).text = c :: more ∧
      more ++ (ofAtom a (c :: w) cs).rest = w ++ cs := by
  refine ⟨w ++ (Quantifier.read cs).1.sign, rfl, ?_⟩
  rw [List.append_assoc, ofAtom, Quantifier.sign_append_rest_read]

/-- **The cut.** What is read in brackets cuts the text behind its first closing bracket. -/
theorem exists_text_of_readEnclosed {bracket : Bracket}
    {ofBody : List Char → Except CompileError Token} {cs : List Char} {item : Item}
    (h : readEnclosed bracket ofBody cs = .ok item) :
    ∃ more, item.text = bracket.opener :: more ∧ more ++ item.rest = cs := by
  -- The body and what is behind it are the two parts that the text is cut into.
  have hcs := cs.takeWhile_append_dropWhile (p := (· != bracket.closer))
  unfold readEnclosed at h
  split at h
  · contradiction
  · next closer rest hrest =>
    rw [hrest] at hcs
    simp only at h
    cases htoken : ofBody (cs.takeWhile (· != bracket.closer)) with
    | error e =>
      rw [htoken] at h
      contradiction
    | ok token =>
      rw [htoken] at h
      cases h
      exact ⟨_, rfl, by rwa [List.append_assoc, List.singleton_append]⟩

/-- **Reading.** An item has the char that reading started with, and then the front of what follows
that char. -/
theorem exists_text_of_read {c : Char} {cs : List Char} {item : Item}
    (h : read c cs = .ok item) : ∃ more, item.text = c :: more ∧ more ++ item.rest = cs := by
  unfold read at h
  split at h
  · -- An escape, if there is a char behind the backslash.
    split at h
    · contradiction
    · next escaped cs =>
      cases h
      exact exists_text_ofAtom (Atom.ofEscape escaped) '\\' [escaped] cs
  · -- A wildcard.
    cases h
    exact exists_text_ofAtom .wildcard '.' [] cs
  -- A class and a group, each up to its closing bracket.
  · exact exists_text_of_readEnclosed h
  · exact exists_text_of_readEnclosed h
  -- The four chars that start no item.
  · contradiction
  · contradiction
  · contradiction
  · contradiction
  · -- A char that stands for itself.
    cases h
    exact exists_text_ofAtom (.literal c) c [] cs

/-- Nothing is lost: an item and the text behind it make up the text that was read. -/
theorem text_append_rest_of_read {c : Char} {cs : List Char} {item : Item}
    (h : read c cs = .ok item) : item.text ++ item.rest = c :: cs := by
  obtain ⟨more, htext, hcs⟩ := exists_text_of_read h
  rw [htext, List.cons_append, hcs]

/-- Reading makes progress: an item has at least one char. -/
theorem text_ne_nil_of_read {c : Char} {cs : List Char} {item : Item}
    (h : read c cs = .ok item) : item.text ≠ [] := by
  obtain ⟨more, htext, -⟩ := exists_text_of_read h
  rw [htext]
  exact List.cons_ne_nil c more

/-- The text behind an item is shorter than the text that was read. -/
theorem length_rest_lt_of_read {c : Char} {cs : List Char} {item : Item}
    (h : read c cs = .ok item) : item.rest.length < (c :: cs).length := by
  have hlen := congrArg List.length (text_append_rest_of_read h)
  have hpos := List.length_pos_iff.mpr (text_ne_nil_of_read h)
  rw [List.length_append] at hlen
  omega

end Item

end Pattern

end LinePattern
