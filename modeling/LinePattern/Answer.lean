import LinePattern.Pattern.Compile
import LinePattern.Pattern.Search
import LinePattern.Request
import LinePattern.Text.Line
import LinePattern.Text.Utf8

/-!
# Answers

The answer to a request says whether its pattern occurs in the line that is read, or why there is
no telling. The stages follow one another, and the first that fails decides:

1. the arguments make a request,
2. the request's pattern compiles,
3. the input is read to its end,
4. the bytes are UTF-8,
5. the line is no longer than the request allows.

The first two stages do not look at the input. `respond` is the whole program: from its arguments
and its input to what it prints and its exit code.
-/

namespace LinePattern

/-- What reading gives. -/
structure Input where
  /-- The bytes that were read. -/
  bytes : List UInt8
  /-- Why reading failed behind these bytes, unless it reached the end. -/
  failure? : Option String

/-- Why a request has no answer. -/
inductive Failure where
  /-- The arguments are no request. -/
  | usage (cause : UsageError)
  /-- The request's pattern, `text`, is not a pattern. -/
  | pattern (text : String) (cause : Pattern.CompileError)
  /-- The input cannot be read to its end. -/
  | unreadable (reason : String)
  /-- The input is not UTF-8. -/
  | encoding (cause : Utf8.DecodeError)
  /-- The line has `length` chars, which is more than `limit`. -/
  | lineTooLong (length limit : Nat)
  deriving DecidableEq, Repr

/-- The text of the failure: what failed, and behind a colon what caused it. -/
def Failure.message : Failure → String
  | usage cause => cause.message
  | pattern text cause => s!"invalid pattern `{text}`: {cause.message}"
  | unreadable reason => s!"read input text: {reason}"
  | encoding cause => s!"input is not valid UTF-8: {cause.message}"
  | lineTooLong length limit => s!"input line has {length} chars, limit is {limit}"

/-- The line of an input, which may have at most `limit` chars. Its terminator does not count. -/
def Input.line (limit : Nat) (input : Input) : Except Failure (List Char) :=
  match input.failure? with
  | some reason => .error (.unreadable reason)
  | none =>
    match Utf8.decode input.bytes with
    | .error cause => .error (.encoding cause)
    | .ok text =>
      let line := Line.stripTerminator text
      if limit < line.length then .error (.lineTooLong line.length limit) else .ok line

namespace Request

/-- The pattern of the request, compiled. -/
def compile (request : Request) : Except Failure Pattern :=
  (Pattern.compile request.pattern.toList).mapError (.pattern request.pattern)

/-- Whether the request's pattern occurs in the line of the input. -/
def answer (request : Request) (input : Input) : Except Failure Bool := do
  let pattern ← request.compile
  let line ← input.line request.maxLineChars
  return pattern.search line

end Request

/-- What the program leaves behind. -/
structure Report where
  /-- The exit code. -/
  exit : UInt32
  /-- What goes to the standard output. -/
  out : String
  /-- What goes to the standard error. -/
  err : String
  deriving DecidableEq, Repr

/-- The report of an answer. Only a failure is told, on the standard error. -/
def Report.ofAnswer : Except Failure Bool → Report
  | .ok true => { exit := 0, out := "", err := "" }
  | .ok false => { exit := 1, out := "", err := "" }
  | .error failure => { exit := 2, out := "", err := s!"error: {failure.message}\n" }

/-- The answer to the request that the arguments make. -/
def answer (args : List String) (input : Input) : Except Failure Bool := do
  let request ← (Request.ofArgs args).mapError .usage
  request.answer input

/-- What the program leaves behind for these arguments and this input. -/
def respond (args : List String) (input : Input) : Report := .ofAnswer (answer args input)

/-- Whether the arguments make a request whose pattern compiles. If they do not, that is all there
is to tell, and the input need not be read. -/
def needsInput (args : List String) : Bool :=
  match (Request.ofArgs args).mapError .usage >>= Request.compile with
  | .ok _ => true
  | .error _ => false

/-- An input that is not needed has no effect. -/
theorem respond_eq_of_needsInput_eq_false {args : List String} (h : needsInput args = false)
    (input other : Input) : respond args input = respond args other := by
  unfold respond answer
  unfold needsInput at h
  cases hr : (Request.ofArgs args).mapError Failure.usage with
  | error => rfl
  | ok request =>
    cases hp : request.compile with
    | error => simp [Request.answer, bind, Except.bind, hp]
    | ok => simp [hr, hp, bind, Except.bind] at h

end LinePattern
