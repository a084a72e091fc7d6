import LinePattern.Proofs.Outcome

/-!
# Line terminators

A text is answered as its line, which is the text without the one terminator at its end: a line
feed, or a carriage return and a line feed. What stands in front of that terminator counts, be it
another terminator or a carriage return alone.

`Request.AnswersAs` says what it is to answer an input as a line, and by `answersAs_ofText` every
text is answered as the line that `Line.stripTerminator` leaves of it. So it is enough to know what
is left of a text, and two texts of the same line have the same answer, an error included.
-/

namespace LinePattern

/-- The input that is read to its end and holds the text. -/
def Input.ofText (text : List Char) : Input where
  bytes := Utf8.encode text
  failure? := none

namespace Request

/-- The request answers the input as the line. A pattern that does not compile is told, whatever the
line is; a line that is longer than the request allows is refused with its length; and in any other
line the pattern is looked for. -/
structure AnswersAs (request : Request) (input : Input) (line : List Char) : Prop where
  /-- The pattern does not compile. -/
  refused : ∀ cause, Pattern.compile request.pattern.toList = .error cause →
    request.answer input = .error (.pattern request.pattern cause)
  /-- The line is too long. -/
  tooLong : ∀ p, Pattern.compile request.pattern.toList = .ok p →
    request.maxLineChars < line.length →
    request.answer input = .error (.lineTooLong line.length request.maxLineChars)
  /-- The pattern is looked for in the line. -/
  searched : ∀ p, Pattern.compile request.pattern.toList = .ok p →
    line.length ≤ request.maxLineChars → request.answer input = .ok (p.search line)

variable {request : Request} {input input' : Input} {line : List Char}

/-- A line has one answer. -/
theorem AnswersAs.answer_eq (h : request.AnswersAs input line)
    (h' : request.AnswersAs input' line) : request.answer input = request.answer input' := by
  cases h_compile : Pattern.compile request.pattern.toList with
  | error cause => rw [h.refused cause h_compile, h'.refused cause h_compile]
  | ok p =>
    -- Which of the two outcomes a line has hangs on its length, which is the same for both inputs.
    obtain h_lt | h_le := Nat.lt_or_ge request.maxLineChars line.length
    · rw [h.tooLong p h_compile h_lt, h'.tooLong p h_compile h_lt]
    · rw [h.searched p h_compile h_le, h'.searched p h_compile h_le]

/-- A text is answered as what is left of it without its terminator. -/
theorem answersAs_ofText (request : Request) (text : List Char) :
    request.AnswersAs (.ofText text) (Line.stripTerminator text) where
  refused _ h := answer_of_compile_error h _
  tooLong p h h_lt := by
    rw [answer_of_compile h, Input.line_of_text rfl rfl, if_pos h_lt]
    rfl
  searched p h h_le := by
    rw [answer_of_compile h, Input.line_of_text rfl rfl, if_neg h_le.not_gt]
    rfl

/-- Two texts of the same line are answered alike: all that counts is what is left of them. -/
theorem answersAs_of_stripTerminator {text : List Char} (h : Line.stripTerminator text = line) :
    request.AnswersAs (.ofText text) line := by
  rw [← h]
  exact answersAs_ofText request text

/-- **One terminator.** A text with a carriage return and a line feed behind it is answered as the
text. With a line feed alone behind it it is so too, unless it ends with a carriage return: that one
then belongs to the terminator, and no other. A text that does not end with a line feed is answered
as it is. So a text that ends with neither char has the same answer with a terminator and
without. -/
theorem answersAs_of_terminator (request : Request) (text : List Char) :
    request.AnswersAs (.ofText (text ++ ['\r', '\n'])) text ∧
      (text.getLast? ≠ some '\r' → request.AnswersAs (.ofText (text ++ ['\n'])) text) ∧
      (∀ line, text = line ++ ['\r'] → request.AnswersAs (.ofText (text ++ ['\n'])) line) ∧
      (text.getLast? ≠ some '\n' → request.AnswersAs (.ofText text) text) ∧
      (text.getLast? ≠ some '\r' → text.getLast? ≠ some '\n' →
        request.answer (.ofText (text ++ ['\n'])) = request.answer (.ofText text) ∧
          request.answer (.ofText (text ++ ['\r', '\n'])) = request.answer (.ofText text)) := by
  have h_crlf : request.AnswersAs (.ofText (text ++ ['\r', '\n'])) text :=
    answersAs_of_stripTerminator (Line.stripTerminator_append_crlf text)
  have h_lf (h : text.getLast? ≠ some '\r') :
      request.AnswersAs (.ofText (text ++ ['\n'])) text :=
    answersAs_of_stripTerminator (Line.stripTerminator_append_lf h)
  have h_self (h : text.getLast? ≠ some '\n') : request.AnswersAs (.ofText text) text :=
    answersAs_of_stripTerminator (Line.stripTerminator_eq_self h)
  -- From here on it is a matter of what the text ends with.
  refine ⟨h_crlf, h_lf, ?_, h_self, ?_⟩
  · intro line h_text
    -- The carriage return at the end of the text is the first half of a terminator.
    rw [h_text, List.append_assoc]
    exact answersAs_of_stripTerminator (Line.stripTerminator_append_crlf line)
  · intro h_cr h_newline
    exact ⟨(h_lf h_cr).answer_eq (h_self h_newline), h_crlf.answer_eq (h_self h_newline)⟩

/-- A carriage return goes with the line feed behind it. One more in front of the two is a char of
the line, and so is one that no line feed follows. A line that is too long stays so by the same
number of chars, whatever ends it. -/
theorem answersAs_of_three_endings :
    (Request.mk "^a.$" 2).answer (.ofText ['a', '\r', '\r', '\n']) = .ok true ∧
      (Request.mk "^a.$" 2).answer (.ofText ['a', '\r', '\n']) = .ok false ∧
      (Request.mk "^a.$" 2).answer (.ofText ['a', '\r']) = .ok true ∧
      (Request.mk "^a.$" 2).answer (.ofText ['a', 'b', 'c', '\n']) = .error (.lineTooLong 3 2) ∧
      (Request.mk "^a.$" 2).answer (.ofText ['a', 'b', 'c', '\r', '\n']) =
        .error (.lineTooLong 3 2) := by
  have h_compile : Pattern.compile (Request.mk "^a.$" 2).pattern.toList =
      .ok [.lineStart, .atom (.literal 'a') .one, .atom .wildcard .one, .lineEnd] := by
    decide +kernel
  obtain ⟨h_crlf, -, h_cr, h_self, -⟩ := answersAs_of_terminator ⟨"^a.$", 2⟩ ['a', '\r']
  obtain ⟨-, -, -, h_long, h_same⟩ := answersAs_of_terminator ⟨"^a.$", 2⟩ ['a', 'b', 'c']
  obtain ⟨h_lf', h_crlf'⟩ := h_same (by decide) (by decide)
  have h_tooLong := (h_long (by decide)).tooLong _ h_compile (by decide)
  refine ⟨h_crlf.searched _ h_compile (by decide), ?_, ?_, h_lf'.trans h_tooLong,
    h_crlf'.trans h_tooLong⟩
  · exact (h_cr ['a'] rfl).searched _ h_compile (by decide)
  · exact (h_self (by decide)).searched _ h_compile (by decide)

end Request

end LinePattern
