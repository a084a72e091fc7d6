import LinePattern.Pattern.Item

/-!
# Printing a pattern

`Pattern.render` writes a pattern in a form in which no literal can be taken for something else. All
literals are escaped but `d` and `w`, which stand for classes of chars when they are escaped. For a
pattern that is a text and nothing else, `Pattern.ofText`, that form is the text, escaped.
-/

namespace LinePattern

/-- The text of an atom. -/
def Atom.render : Atom → List Char
  | literal c => if c = 'd' ∨ c = 'w' then [c] else ['\\', c]
  | digit => ['\\', 'd']
  | word => ['\\', 'w']
  | wildcard => ['.']

/-- The sign in front of the members of a class that writes its polarity. -/
def Polarity.sign : Polarity → List Char
  | positive => []
  | negative => ['^']

/-- The text of a token. -/
def Token.render : Token → List Char
  | lineStart => ['^']
  | lineEnd => ['$']
  | atom a q => a.render ++ q.sign
  | charClass polarity members =>
    Bracket.square.opener :: (polarity.sign ++ members ++ [Bracket.square.closer])
  | group options => Bracket.round.opener :: (['|'].intercalate options ++ [Bracket.round.closer])

/-- The text of a pattern. -/
def Pattern.render (p : Pattern) : List Char := p.flatMap Token.render

@[simp] theorem Pattern.render_nil : render [] = [] := rfl

@[simp] theorem Pattern.render_cons (t : Token) (ts : Pattern) :
    render (t :: ts) = t.render ++ render ts := rfl

/-- The pattern of a text: a literal for each char. -/
def Pattern.ofText (text : List Char) : Pattern := text.map fun c => .atom (.literal c) .one

/-- The text with a backslash in front of each char but `d` and `w`. -/
def escape (text : List Char) : List Char :=
  text.flatMap fun c => if c = 'd' ∨ c = 'w' then [c] else ['\\', c]

/-- Each token of a text is printed as its char is escaped. -/
theorem Pattern.render_ofText (text : List Char) : render (ofText text) = escape text := by
  rw [render, ofText, List.flatMap_map, escape]
  congr 1
  funext c
  rw [Token.render, Atom.render, Quantifier.sign, List.append_nil]

end LinePattern
