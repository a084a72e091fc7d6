/-!
# Lines

A line is read together with the terminator behind it: a line feed, or a carriage return and a line
feed. A text without a terminator is a line too.
-/

namespace LinePattern.Line

/-- The text without the one terminator at its end. A carriage return is part of a terminator only
in front of a line feed. -/
def stripTerminator (text : List Char) : List Char :=
  match text.reverse with
  | '\n' :: '\r' :: line => line.reverse
  | '\n' :: line => line.reverse
  | _ => text

/-- Both chars of a terminator go. -/
theorem stripTerminator_append_crlf (line : List Char) :
    stripTerminator (line ++ ['\r', '\n']) = line := by
  simp [stripTerminator]

/-- A line feed goes alone, unless a carriage return is in front of it. -/
theorem stripTerminator_append_lf {line : List Char} (h : line.getLast? ≠ some '\r') :
    stripTerminator (line ++ ['\n']) = line := by
  -- The end of the text is looked at as the front of its reverse, and so is the condition on it.
  rw [List.getLast?_eq_head?_reverse] at h
  rw [stripTerminator, List.reverse_append]
  split
  · -- A carriage return in front is what the condition excludes.
    simp_all
  · rename_i line' _ heq
    cases heq
    exact List.reverse_reverse line
  · -- The text has a line feed at its end, so it is not kept as it is.
    simp_all

/-- Without a line feed at the end there is no terminator, so a carriage return stays. -/
theorem stripTerminator_eq_self {text : List Char} (h : text.getLast? ≠ some '\n') :
    stripTerminator text = text := by
  rw [List.getLast?_eq_head?_reverse] at h
  rw [stripTerminator]
  split <;> simp_all

end LinePattern.Line
