import LinePattern.Pattern.Search
import Mathlib.Data.List.Infix

/-!
# The attempts of a search

A search is a run of attempts. An attempt asks whether some tokens go through at the front of what
is left of the line. Its first token can hand on some remainders; an attempt of the other tokens is
made at each of them, one after the other, until one succeeds.

`Pattern.search` says how a search ends and keeps nothing of how it got there. `Pattern.trail` runs
the same search and writes down each attempt that it makes.

* `Token.remainders`: what a token can hand on, in the order in which it is tried.
* `Trail`: how a search ended, and its attempts in the order in which they were made.
* `Pattern.trailHere`, `Pattern.trail`: the search at one place of the line, and of the whole line.

Main statements:

* `found_trail`: the search that is written down ends as the search does.
* `attempts_trailHere_cons`, `attempts_trail`: no attempt is left out. The first one is followed by
  those at the remainders, up to the first remainder at which the other tokens match.
-/

namespace LinePattern

/-! ### Remainders -/

/-- The line behind its first char, if `p` accepts that char. -/
def oneRemainders (p : Char → Bool) : List Char → List (List Char)
  | [] => []
  | c :: line => if p c then [line] else []

/-- What is left of the line behind one or more chars accepted by `p`, the shortest run first. -/
def runRemainders (p : Char → Bool) : List Char → List (List Char)
  | [] => []
  | c :: line => if p c then line :: runRemainders p line else []

/-- The remainders that a token can hand on, in the order in which they are tried. The anchors hand
on nothing: the start of the line does not go through, and the end of the line ends the match. -/
def Token.remainders (t : Token) (line : List Char) : List (List Char) :=
  match t with
  | lineStart => []
  | lineEnd => []
  | atom a .one => oneRemainders a.accepts line
  | atom a .optional => line :: oneRemainders a.accepts line
  | atom a .oneOrMore => runRemainders a.accepts line
  | charClass polarity members => oneRemainders (polarity.admits members) line
  | group options => options.filterMap (·.isPrefixOf? line)

section

variable {p : Char → Bool} {k : List Char → Bool} {line : List Char}

/-- Taking one char leaves one remainder or none. -/
theorem oneThen_eq_any : oneThen p k line = (oneRemainders p line).any k := by
  cases line with
  | nil => rfl
  | cons c line =>
    rw [oneThen, oneRemainders]
    cases p c <;> simp

/-- Taking a run leaves a remainder for each length that the run can have. -/
theorem runThen_eq_any : runThen p k line = (runRemainders p line).any k := by
  induction line with
  | nil => rfl
  | cons c line ih =>
    -- A run is tried from short to long, and so are its remainders listed.
    rw [runThen, runRemainders, ih]
    cases p c <;> simp

/-- Taking a word leaves one remainder or none. -/
theorem wordThen_eq_any {word : List Char} :
    wordThen word k line = (word.isPrefixOf? line).any k := by
  rw [wordThen]
  cases word.isPrefixOf? line <;> rfl

/-- The places of a line are where its tails start. -/
theorem anySuffix_eq_any : anySuffix k line = line.tails.any k := by
  induction line with
  | nil => simp [anySuffix]
  | cons c line ih => rw [anySuffix, ih, List.tails_cons, List.any_cons]

/-- A token other than the end of the line goes through if the tokens behind it do so at one of its
remainders. -/
theorem Token.thenMatches_eq_any {t : Token} (h : t ≠ lineEnd) :
    t.thenMatches k line = (t.remainders line).any k := by
  cases t with
  | lineStart => rfl
  | lineEnd => exact absurd rfl h
  | atom a q =>
    cases q with
    | one => exact oneThen_eq_any
    | optional =>
      -- Taking nothing comes first, and leaves the line as it is.
      rw [thenMatches, remainders, oneThen_eq_any, List.any_cons]
    | oneOrMore => exact runThen_eq_any
  | charClass polarity members => exact oneThen_eq_any
  | group options =>
    -- An option that the line does not start with fails on one side and is left out on the other.
    rw [thenMatches, remainders, List.any_filterMap]
    congr 1
    funext o
    rw [wordThen_eq_any]
    cases o.isPrefixOf? line <;> rfl

end

/-! ### Trails -/

/-- An attempt to match the tokens at the front of the line. -/
structure Attempt where
  /-- The tokens that are left. -/
  tokens : Pattern
  /-- The part of the line that is left. -/
  line : List Char
  deriving DecidableEq, Repr

/-- A search that is written down. -/
structure Trail where
  /-- Whether it succeeded. -/
  found : Bool
  /-- The attempts that were made, the first one first. -/
  attempts : List Attempt
  deriving DecidableEq, Repr

namespace Trail

/-- The trail of `k` at one remainder after the other. Nothing is tried behind a success. -/
def firstOf (k : List Char → Trail) : List (List Char) → Trail
  | [] => { found := false, attempts := [] }
  | rest :: rests =>
    if (k rest).found then k rest
    else
      { found := (firstOf k rests).found
        attempts := (k rest).attempts ++ (firstOf k rests).attempts }

variable {k : List Char → Trail}

/-- One success is enough. -/
theorem found_firstOf (rests : List (List Char)) :
    (firstOf k rests).found = rests.any fun rest => (k rest).found := by
  induction rests with
  | nil => rfl
  | cons rest rests ih =>
    rw [firstOf, List.any_cons, ← ih]
    cases h : (k rest).found <;> simp [h]

/-- The attempts are those at the first remainders, up to the one that succeeds, or at all of them
if none does. -/
theorem attempts_firstOf (rests : List (List Char)) :
    (firstOf k rests).attempts =
      (rests.take (rests.findIdx (fun rest => (k rest).found) + 1)).flatMap
        fun rest => (k rest).attempts := by
  induction rests with
  | nil => rfl
  | cons rest rests ih =>
    rw [firstOf, List.findIdx_cons, List.take_succ_cons, List.flatMap_cons]
    cases h : (k rest).found with
    | true =>
      -- The search ends here, and none of the other remainders is taken.
      simp
    | false => simp [ih]

end Trail

namespace Pattern

/-- The trail of matching the pattern at the front of the line. -/
def trailHere : Pattern → List Char → Trail
  | [], line => { found := true, attempts := [⟨[], line⟩] }
  | .lineEnd :: ts, line => { found := line.isEmpty, attempts := [⟨.lineEnd :: ts, line⟩] }
  | t :: ts, line =>
    let behind := Trail.firstOf (trailHere ts) (t.remainders line)
    { found := behind.found, attempts := ⟨t :: ts, line⟩ :: behind.attempts }

/-- The trail of searching the line for the pattern. -/
def trail (p : Pattern) (line : List Char) : Trail :=
  match p with
  | .lineStart :: ts => trailHere ts line
  | ts => Trail.firstOf (trailHere ts) line.tails

/-- What is written down of a token that looks at the tokens behind it: the attempt itself, and then
the attempts that it leads to. -/
theorem trailHere_cons {t : Token} (h : t ≠ .lineEnd) (ts : Pattern) (line : List Char) :
    trailHere (t :: ts) line =
      { found := (Trail.firstOf (trailHere ts) (t.remainders line)).found
        attempts :=
          ⟨t :: ts, line⟩ :: (Trail.firstOf (trailHere ts) (t.remainders line)).attempts } := by
  cases t with
  | lineEnd => exact absurd rfl h
  | _ => rfl

/-- What is written down at one place of the line ends as the match does. -/
theorem found_trailHere (ts : Pattern) (line : List Char) :
    (trailHere ts line).found = matchesHere ts line := by
  induction ts generalizing line with
  | nil => rfl
  | cons t ts ih =>
    rw [matchesHere_cons]
    by_cases h : t = .lineEnd
    · -- Neither looks at the tokens behind the end of the line.
      subst h
      rfl
    · rw [trailHere_cons h, Trail.found_firstOf, Token.thenMatches_eq_any h]
      simp only [ih]

/-- A pattern that the start of the line is not in front of is tried at one place after the
other. -/
theorem trail_eq_firstOf {p : Pattern} (h : p.head? ≠ some .lineStart) (line : List Char) :
    p.trail line = Trail.firstOf (trailHere p) line.tails := by
  unfold trail
  split
  · exact absurd rfl h
  · rfl

/-- **The search is the one that is written down.** -/
theorem found_trail (p : Pattern) (line : List Char) : (p.trail line).found = p.search line := by
  by_cases h : p.head? = some .lineStart
  · obtain ⟨ts, rfl⟩ := List.head?_eq_some_iff.mp h
    exact found_trailHere ts line
  · rw [trail_eq_firstOf h, search_eq_anySuffix h, Trail.found_firstOf, anySuffix_eq_any]
    simp only [found_trailHere]

/-! ### Each attempt is written down

An attempt comes first in what is written down of it, and the attempts that it leads to follow in
the order in which they are made. Which ones are made depends on the search alone: they go on up to
the first remainder at which the other tokens match. -/

/-- Where no tokens are left there is one attempt, and it succeeds. -/
theorem attempts_trailHere_nil (line : List Char) :
    (trailHere [] line).attempts = [⟨[], line⟩] := rfl

/-- The end of the line is one attempt, whatever stands behind it. -/
theorem attempts_trailHere_lineEnd (ts : Pattern) (line : List Char) :
    (trailHere (.lineEnd :: ts) line).attempts = [⟨.lineEnd :: ts, line⟩] := rfl

/-- **The attempts at one place.** Any other token is one attempt as well, and then the other tokens
are tried at its remainders, up to the first one at which they match. -/
theorem attempts_trailHere_cons {t : Token} (h : t ≠ .lineEnd) (ts : Pattern) (line : List Char) :
    (trailHere (t :: ts) line).attempts =
      ⟨t :: ts, line⟩ ::
        ((t.remainders line).take ((t.remainders line).findIdx (matchesHere ts) + 1)).flatMap
          fun rest => (trailHere ts rest).attempts := by
  rw [trailHere_cons h, Trail.attempts_firstOf]
  simp only [found_trailHere]

/-- A pattern with the start of the line in front is tried at the start, without that token. -/
theorem attempts_trail_lineStart (ts : Pattern) (line : List Char) :
    (trail (.lineStart :: ts) line).attempts = (trailHere ts line).attempts := rfl

/-- **The attempts of a search.** Any other pattern is tried at the places of the line from left to
right, up to the first one at which it matches. -/
theorem attempts_trail {p : Pattern} (h : p.head? ≠ some .lineStart) (line : List Char) :
    (p.trail line).attempts =
      (line.tails.take (line.tails.findIdx p.matchesHere + 1)).flatMap
        fun rest => (trailHere p rest).attempts := by
  rw [trail_eq_firstOf h, Trail.attempts_firstOf]
  simp only [found_trailHere]

end Pattern

end LinePattern
