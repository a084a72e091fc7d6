import LinePattern.Text.Numeral

/-!
# Requests

A request is what the arguments of the program ask for: a pattern, and how long a line may be.

The pattern is the argument behind the first `-E`, whatever it looks like. Of the other arguments
only the first that carries a limit counts. Every other one is ignored.
-/

namespace LinePattern

/-- What the program is asked to do. -/
structure Request where
  /-- The text of the pattern. -/
  pattern : String
  /-- The greatest number of chars that the line may have. -/
  maxLineChars : Nat
  deriving DecidableEq, Repr

/-- Why arguments are no request. -/
inductive UsageError where
  /-- No argument is `-E`. -/
  | missingFlag
  /-- The first `-E` is the last argument. -/
  | missingPattern
  /-- The limit is written as `value`, which is not a numeral. -/
  | invalidLimit (value : String) (cause : Numeral.ParseError)
  deriving DecidableEq, Repr

namespace Request

/-- The limit where the arguments carry none. -/
def defaultMaxLineChars : Nat := 16384

/-- The argument in front of the pattern. -/
def patternFlag : String := "-E"

/-- What an argument that carries a limit starts with. -/
def limitFlag : String := "--max-line-chars="

/-- How the arguments are written. -/
def usage : String := "usage: tinygrep -E <pattern> [--max-line-chars=N]"

end Request

/-- The text of the error. -/
def UsageError.message : UsageError → String
  | missingFlag => s!"missing {Request.patternFlag}\n{Request.usage}"
  | missingPattern => s!"missing pattern after {Request.patternFlag}\n{Request.usage}"
  | invalidLimit value cause => s!"invalid --max-line-chars value `{value}`: {cause.message}"

namespace Request

/-- The text behind the limit flag, if the argument starts with the flag. -/
def limitText? (arg : String) : Option String :=
  (limitFlag.toList.isPrefixOf? arg.toList).map String.ofList

/-- The limit that the arguments carry. -/
def readLimit (args : List String) : Except UsageError Nat :=
  match args.findSome? limitText? with
  | none => .ok defaultMaxLineChars
  | some value => (Numeral.parse value.toList).mapError (.invalidLimit value)

/-- The request that the arguments make. -/
def ofArgs (args : List String) : Except UsageError Request :=
  match args.span (· != patternFlag) with
  | (_, []) => .error .missingFlag
  | (_, [_]) => .error .missingPattern
  | (before, _ :: pattern :: after) =>
    (readLimit (before ++ after)).map ({ pattern, maxLineChars := · })

end Request

end LinePattern
