import LinePattern.Answer
import LinePattern.Text.Sequence

/-!
# The stages of an answer

What there is to tell of arguments and an input, stage by stage. A stage is reached where those in
front of it pass, and what `Fails` says of a stage says nothing of the later ones: there may be
faults behind the first that are never told.

* `Fails`: the first stage that fails, and how.
* `Passes`: no stage fails, and this is what they give.
* `Failure.chain`: what is told of a failure. `Failure.message` is its parts with a colon between
  them.
-/

namespace LinePattern

/-- The arguments make the request, and its pattern compiles. These stages do not look at the
input. -/
structure Configures (args : List String) (request : Request) (p : Pattern) : Prop where
  /-- The arguments make the request. -/
  ofArgs : Request.ofArgs args = .ok request
  /-- The pattern compiles. -/
  compile : Pattern.compile request.pattern.toList = .ok p

/-- The first stage that fails, and how. -/
inductive Fails (args : List String) (input : Input) : Failure → Prop where
  /-- The arguments are no request. -/
  | usage {cause : UsageError} (ofArgs : Request.ofArgs args = .error cause) :
    Fails args input (.usage cause)
  /-- The pattern does not compile, whatever the input is. -/
  | pattern {request : Request} {cause : Pattern.CompileError}
    (ofArgs : Request.ofArgs args = .ok request)
    (compile : Pattern.compile request.pattern.toList = .error cause) :
    Fails args input (.pattern request.pattern cause)
  /-- Reading fails, whatever was read before. -/
  | unreadable {request : Request} {p : Pattern} {reason : String}
    (configures : Configures args request p) (failure : input.failure? = some reason) :
    Fails args input (.unreadable reason)
  /-- The bytes are no UTF-8. -/
  | encoding {request : Request} {p : Pattern} {cause : Utf8.DecodeError}
    (configures : Configures args request p) (readable : input.failure? = none)
    (malformed : Utf8.Malformed input.bytes cause) : Fails args input (.encoding cause)
  /-- The text without its terminator is longer than the request allows. -/
  | lineTooLong {request : Request} {p : Pattern} {text : List Char}
    (configures : Configures args request p) (readable : input.failure? = none)
    (bytes : input.bytes = Utf8.encode text)
    (limit_lt : request.maxLineChars < (Line.stripTerminator text).length) :
    Fails args input (.lineTooLong (Line.stripTerminator text).length request.maxLineChars)

/-- No stage fails: the input is a text, whose line is not too long, and the pattern is looked for
in it. -/
structure Passes (args : List String) (input : Input) (request : Request) (p : Pattern)
    (text : List Char) : Prop where
  /-- The arguments make the request, and its pattern compiles. -/
  configures : Configures args request p
  /-- The input is read to its end. -/
  readable : input.failure? = none
  /-- The bytes are those of the text. -/
  bytes : input.bytes = Utf8.encode text
  /-- The text without its terminator is as long as the request allows, or shorter. -/
  length_le : (Line.stripTerminator text).length ≤ request.maxLineChars

/-! ### What is told -/

/-- What is told of arguments that are no request. -/
def UsageError.chain : UsageError → List String
  | missingFlag => ["missing -E\nusage: tinygrep -E <pattern> [--max-line-chars=N]"]
  | missingPattern =>
    ["missing pattern after -E\nusage: tinygrep -E <pattern> [--max-line-chars=N]"]
  | invalidLimit value cause => [s!"invalid --max-line-chars value `{value}`", cause.message]

/-- What is told of a failure: what failed first, and behind it what caused it. -/
def Failure.chain : Failure → List String
  | usage cause => cause.chain
  | pattern text cause => [s!"invalid pattern `{text}`", cause.message]
  | unreadable reason => ["read input text", reason]
  | encoding cause => ["input is not valid UTF-8", cause.message]
  | lineTooLong length limit => [s!"input line has {length} chars, limit is {limit}"]

/-- The backtick that closes a quoted argument goes with what is in front of the colon. -/
theorem append_backtick_colon (s t : String) : s ++ "`: " ++ t = s ++ "`" ++ ": " ++ t := by
  have h : "`: " = "`" ++ ": " := by decide +kernel
  rw [h, ← String.append_assoc]

/-- The text of a usage error is its chain, with a colon between the parts. -/
theorem UsageError.message_eq (cause : UsageError) :
    cause.message = ": ".intercalate cause.chain := by
  cases cause with
  | missingFlag =>
    -- A text without an argument in it, which both sides spell out.
    rw [chain, String.intercalate_singleton]
    decide +kernel
  | missingPattern =>
    rw [chain, String.intercalate_singleton]
    decide +kernel
  | invalidLimit value cause =>
    rw [chain, String.intercalate_cons_cons, String.intercalate_singleton]
    exact append_backtick_colon _ cause.message

/-- The text of a failure is its chain as well, down to what caused it. -/
theorem Failure.message_eq (failure : Failure) :
    failure.message = ": ".intercalate failure.chain := by
  cases failure with
  | usage cause => exact cause.message_eq
  | pattern text cause =>
    -- The quoted pattern, as any text, may have colons itself; only its closing backtick matters.
    rw [chain, String.intercalate_cons_cons, String.intercalate_singleton]
    exact append_backtick_colon _ cause.message
  | unreadable reason =>
    rw [chain, String.intercalate_cons_cons, String.intercalate_singleton]
    rfl
  | encoding cause =>
    rw [chain, String.intercalate_cons_cons, String.intercalate_singleton]
    rfl
  | lineTooLong length limit =>
    rw [chain, String.intercalate_singleton]
    rfl

end LinePattern
