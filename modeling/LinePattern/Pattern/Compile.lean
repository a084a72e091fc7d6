import LinePattern.Pattern.Item

/-!
# Compiling a pattern

A pattern text is an optional caret, which stands for the start of the line, followed by items and,
at the very end, an optional dollar sign, which stands for the end of the line.

The dollar sign is the anchor exactly when it is the last char and an item would have to start
there. One that is escaped, that carries a quantifier, that stands between the brackets of a class
or group, or that has more text behind it never gets to that place, and is a char like any other.

Reading goes from left to right and stops at the first fault.
-/

namespace LinePattern

namespace Pattern

/-- Compiles the part of a pattern text that is behind the caret, if there is one. The positions in
errors count from the start of that part. -/
def compileBody : List Char → Except CompileError Pattern
  | [] => .ok []
  | ['$'] => .ok [.lineEnd]
  | c :: cs =>
    match _ : Item.read c cs with
    | .error e => .error e
    | .ok item =>
      ((compileBody item.rest).mapError (.shift item.text.length)).map (item.token :: ·)
termination_by cs => cs.length
decreasing_by exact Item.length_rest_lt_of_read ‹_›

/-- Compiles the text of a pattern. -/
def compile : List Char → Except CompileError Pattern
  | [] => .error .emptyPattern
  | '^' :: cs => ((compileBody cs).mapError (.shift 1)).map (.lineStart :: ·)
  | cs => compileBody cs

end Pattern

end LinePattern
