import LinePattern.Pattern.Attempts
import Mathlib.Data.List.Basic

/-!
# Search policies

An optional char can be left out or taken, and a run of chars can be short or long. A search has to
try one of them first, and a `Policy` says which. `Pattern.search` keeps to one policy: it leaves an
optional char out if it can, and takes as short a run as will do.

There are also two ways to lengthen a run:

* `Policy.byRuns` measures the run that the line allows, and then tries one length after the other.
  It calls itself on the tokens behind the run only, so it goes as deep as there are tokens.
* `Policy.byChars` measures nothing. It takes one char of the run and asks whether the tokens behind
  it go through; the other choice is to try the same token once more, on the line that is left.

Both give the part of the line that is left behind the first match they come to. So policies can be
told apart by what they find, and `Pattern.slide` makes a search of the whole line of either.

Whether a pattern occurs in a line does not depend on what is tried first, and it does not depend on
whether runs are measured or grow char by char.

* A measured run and one that grows come to the same matches in the same order
  (`byRuns_eq_byChars`). The one calls itself on the tokens alone and the other on the tokens and
  the line, so the induction follows the second: what `byChars` does with one char of a run is what
  happens to the list of remainders when the line gets one char longer (`runs_cons`).
* A policy puts the remainders of a token into an order and leaves none of them out
  (`remainders_perm`). Hence any two policies find a match in the same lines.

Which match it is that they find first does depend on the policy.
-/

namespace LinePattern

/-- Which choice of a token is tried first. -/
structure Policy where
  /-- An optional char is left out first, and taken if that does not do. -/
  skipFirst : Bool
  /-- A run is as short as can be first, and gets longer if that does not do. -/
  shortFirst : Bool
  deriving DecidableEq, Repr

namespace Policy

/-- The first success of two attempts: `x` goes first if `inOrder` holds, and `y` if not. -/
def firstOf {α : Type} (inOrder : Bool) (x y : Option α) : Option α :=
  if inOrder then x.or y else y.or x

/-! ### Measured runs -/

/-- The lengths that can be taken of a run of `run` chars, in the order in which they are tried. -/
def lengths (o : Policy) (run : Nat) : List Nat :=
  if o.shortFirst then List.range' 1 run else (List.range' 1 run).reverse

/-- What is left of the line behind the chars accepted by `p` that it starts with, for each number
of them that can be taken. -/
def runs (o : Policy) (p : Char → Bool) (line : List Char) : List (List Char) :=
  (o.lengths (line.takeWhile p).length).map line.drop

/-- The remainders that a token can hand on, in the order in which they are tried. -/
def remainders (o : Policy) (t : Token) (line : List Char) : List (List Char) :=
  match t with
  | .atom a .optional =>
    if o.skipFirst then line :: oneRemainders a.accepts line
    else oneRemainders a.accepts line ++ [line]
  | .atom a .oneOrMore => o.runs a.accepts line
  | t => t.remainders line

/-- What is left of the line behind the first match at its front, where runs are measured. -/
def byRuns (o : Policy) : Pattern → List Char → Option (List Char)
  | [], line => some line
  | .lineEnd :: _, line => if line.isEmpty then some line else none
  | t :: ts, line => (o.remainders t line).findSome? (byRuns o ts)

/-! ### Char by char -/

/-- What is left of the line behind the first match at its front, where runs grow char by char. -/
def byChars (o : Policy) : Pattern → List Char → Option (List Char)
  | [], line => some line
  | .lineStart :: _, _ => none
  | .lineEnd :: _, line => if line.isEmpty then some line else none
  | .atom _ .one :: _, [] => none
  | .atom a .one :: ts, c :: line => if a.accepts c then byChars o ts line else none
  | .atom _ .optional :: ts, [] => byChars o ts []
  | .atom a .optional :: ts, c :: line =>
    -- To leave `c` out shortens the tokens only, and to take it shortens both.
    firstOf o.skipFirst (byChars o ts (c :: line))
      (if a.accepts c then byChars o ts line else none)
  | .atom _ .oneOrMore :: _, [] => none
  | .atom a .oneOrMore :: ts, c :: line =>
    if a.accepts c then
      -- The run is over behind `c`, or the same token goes on behind it.
      firstOf o.shortFirst (byChars o ts line) (byChars o (.atom a .oneOrMore :: ts) line)
    else none
  | .charClass _ _ :: _, [] => none
  | .charClass polarity members :: ts, c :: line =>
    if polarity.admits members c then byChars o ts line else none
  | .group options :: ts, line =>
    options.findSome? fun option => (option.isPrefixOf? line).bind (byChars o ts)
termination_by p line => (p.length, line.length)

end Policy

/-- The search of a whole line that `here` makes at one place of the line. -/
def Pattern.slide (here : Pattern → List Char → Option (List Char)) (p : Pattern)
    (line : List Char) : Option (List Char) :=
  match p with
  | .lineStart :: ts => here ts line
  | ts => line.tails.findSome? (here ts)

namespace Policy

/-! ### Two attempts -/

/-- Where one of the attempts cannot succeed, their order does not matter. -/
theorem firstOf_none {α : Type} (inOrder : Bool) (x : Option α) : firstOf inOrder x none = x := by
  unfold firstOf
  split
  · exact Option.or_none
  · exact Option.none_or

/-- Where one is tried in front of the others or behind them, the first success is that of the one
and the others in that order. -/
theorem findSome?_ite_append {α β : Type} (inOrder : Bool) (f : α → Option β) (x : α)
    (xs : List α) :
    (if inOrder then x :: xs else xs ++ [x]).findSome? f =
      firstOf inOrder (f x) (xs.findSome? f) := by
  unfold firstOf
  split
  · rw [List.findSome?_cons]
    cases f x <;> rfl
  · rw [List.findSome?_append, List.findSome?_singleton]

/-! ### Measured runs -/

/-- Where no char is accepted there is no run. -/
theorem lengths_zero (o : Policy) : o.lengths 0 = [] := by
  unfold lengths
  split <;> rfl

/-- A run that may be longer by one char has one length more, which is the shortest. -/
theorem lengths_succ (o : Policy) (run : Nat) :
    o.lengths (run + 1) =
      if o.shortFirst then 1 :: (o.lengths run).map (· + 1)
      else (o.lengths run).map (· + 1) ++ [1] := by
  -- The lengths of the longer run are one, and those of the shorter run with one char more.
  have h_range : List.range' 1 (run + 1) = 1 :: (List.range' 1 run).map (· + 1) := by
    rw [List.range'_succ]
    congr 1
    calc List.range' (1 + 1) run = (List.range' 1 run).map (1 + ·) := (List.map_add_range' ..).symm
      _ = (List.range' 1 run).map (· + 1) := List.map_congr_left fun n _ => Nat.add_comm 1 n
  unfold lengths
  split
  · exact h_range
  · rw [h_range, List.reverse_cons, List.map_reverse]

/-- **One char of a run.** Behind a char that is accepted the run is over or goes on, and both are
tried in the order of the policy. Behind any other char there is no run. -/
theorem runs_cons (o : Policy) (p : Char → Bool) (c : Char) (line : List Char) :
    o.runs p (c :: line) =
      if p c then (if o.shortFirst then line :: o.runs p line else o.runs p line ++ [line])
      else [] := by
  unfold runs
  rw [List.takeWhile_cons]
  split
  · -- Dropping one char more of the longer line leaves the same.
    have h_drop : ((o.lengths (line.takeWhile p).length).map (· + 1)).map (c :: line).drop =
        (o.lengths (line.takeWhile p).length).map line.drop := by
      rw [List.map_map]
      rfl
    rw [List.length_cons, lengths_succ]
    split
    · rw [List.map_cons, h_drop]
      rfl
    · rw [List.map_append, h_drop]
      rfl
  · rw [List.length_nil, lengths_zero, List.map_nil]

/-- At the end of the line there is no run. -/
theorem runs_nil (o : Policy) (p : Char → Bool) : o.runs p [] = [] := by
  rw [runs, List.takeWhile_nil, List.length_nil, lengths_zero, List.map_nil]

/-- All policies take the same runs, shorter or longer ones first. -/
theorem runs_perm (o : Policy) (p : Char → Bool) (line : List Char) :
    (o.runs p line).Perm (runRemainders p line) := by
  induction line with
  | nil => rw [runs_nil, runRemainders]
  | cons c line ih =>
    rw [runs_cons, runRemainders]
    split
    · split
      · exact ih.cons line
      · exact (List.perm_append_singleton line _).trans (ih.cons line)
    · exact List.Perm.refl []

/-- **A policy only orders.** The remainders of a token are the same for all policies. -/
theorem remainders_perm (o : Policy) (t : Token) (line : List Char) :
    (o.remainders t line).Perm (t.remainders line) := by
  cases t with
  | atom a q =>
    cases q with
    | one => exact List.Perm.refl _
    | optional =>
      change (if o.skipFirst then _ else _ : List (List Char)).Perm _
      split
      · exact List.Perm.refl _
      · exact List.perm_append_singleton line _
    | oneOrMore => exact o.runs_perm a.accepts line
  | _ => exact List.Perm.refl _

/-! ### Measured or char by char -/

/-- Any token but the end of the line looks for the first of its remainders that leads on. -/
theorem byRuns_cons {o : Policy} {t : Token} (h : t ≠ .lineEnd) (ts : Pattern) (line : List Char) :
    o.byRuns (t :: ts) line = (o.remainders t line).findSome? (o.byRuns ts) := by
  cases t with
  | lineEnd => exact absurd rfl h
  | _ => rfl

/-- A char that has to be accepted leaves one remainder or none. -/
theorem findSome?_oneRemainders {β : Type} (p : Char → Bool) (f : List Char → Option β) (c : Char)
    (line : List Char) :
    (oneRemainders p (c :: line)).findSome? f = if p c then f line else none := by
  rw [oneRemainders]
  split
  · exact List.findSome?_singleton
  · rfl

/-- **Measured runs and runs that grow.** They lead to the same first match. -/
theorem byRuns_eq_byChars (o : Policy) (ts : Pattern) (line : List Char) :
    o.byRuns ts line = o.byChars ts line := by
  induction ts generalizing line with
  | nil => rw [byRuns, byChars]
  | cons t ts ih =>
    have h_tail : o.byRuns ts = o.byChars ts := funext ih
    by_cases h_end : t = .lineEnd
    · rw [h_end, byRuns, byChars]
    rw [byRuns_cons h_end, h_tail]
    cases t with
    | lineEnd => exact absurd rfl h_end
    | lineStart => rw [byChars]; rfl
    | group options =>
      -- An option is tried where it is a prefix, and that is where it leaves a remainder.
      rw [byChars]
      change (options.filterMap _).findSome? _ = _
      rw [← List.head?_filterMap, List.filterMap_filterMap, List.head?_filterMap]
    | charClass polarity members =>
      cases line with
      | nil => rw [byChars]; rfl
      | cons c line =>
        rw [byChars]
        exact findSome?_oneRemainders ..
    | atom a q =>
      cases q with
      | one =>
        cases line with
        | nil => rw [byChars]; rfl
        | cons c line =>
          rw [byChars]
          exact findSome?_oneRemainders ..
      | optional =>
        -- To leave the char out is tried in front of taking it, or behind.
        change (if o.skipFirst then _ else _ : List (List Char)).findSome? _ = _
        rw [findSome?_ite_append]
        cases line with
        | nil =>
          rw [byChars]
          exact firstOf_none ..
        | cons c line => rw [byChars, findSome?_oneRemainders]
      | oneOrMore =>
        -- Only here the same tokens are tried again, on a line that is shorter.
        change (o.runs a.accepts line).findSome? (o.byChars ts) = _
        induction line with
        | nil => rw [byChars, runs_nil]; rfl
        | cons c line ih_line =>
          rw [byChars, runs_cons, ← ih_line]
          split
          · exact findSome?_ite_append ..
          · rfl

/-! ### What is found -/

/-- At one place of the line a match is found exactly if there is one. -/
theorem isSome_byRuns (o : Policy) (ts : Pattern) (line : List Char) :
    (o.byRuns ts line).isSome = ts.matchesHere line := by
  induction ts generalizing line with
  | nil => rfl
  | cons t ts ih =>
    by_cases h_end : t = .lineEnd
    · subst h_end
      rw [byRuns, Pattern.matchesHere_cons, Token.thenMatches]
      cases line <;> rfl
    · -- The order of the remainders does not matter to whether one of them goes through.
      calc (o.byRuns (t :: ts) line).isSome
          = (o.remainders t line).any fun rest => (o.byRuns ts rest).isSome := by
            rw [byRuns_cons h_end, List.isSome_findSome?]
        _ = (t.remainders line).any fun rest => (o.byRuns ts rest).isSome :=
            (o.remainders_perm t line).any_eq
        _ = (t.remainders line).any (Pattern.matchesHere ts) := by simp only [ih]
        _ = Pattern.matchesHere (t :: ts) line := by
            rw [Pattern.matchesHere_cons, Token.thenMatches_eq_any h_end]

end Policy

namespace Pattern

/-- A search of the whole line succeeds where the pattern occurs, if at each place it does. -/
theorem isSome_slide {here : Pattern → List Char → Option (List Char)}
    (h : ∀ ts line, (here ts line).isSome = matchesHere ts line) (p : Pattern)
    (line : List Char) : (p.slide here line).isSome = p.search line := by
  by_cases h_head : p.head? = some .lineStart
  · obtain ⟨ts, rfl⟩ := List.head?_eq_some_iff.mp h_head
    exact h ts line
  · -- The places are the same, and at each of them both succeed or neither does.
    have h_slide : p.slide here line = line.tails.findSome? (here p) := by
      unfold slide
      split
      · exact absurd rfl h_head
      · rfl
    rw [h_slide, search_eq_anySuffix h_head, anySuffix_eq_any, List.isSome_findSome?]
    simp only [h]

/-- **Policies.** For each of the four policies, to measure runs and to let them grow char by char
leads to the same first match, and there is one exactly if the search finds the pattern. -/
theorem search_eq_isSome_of_policy (p : Pattern) (line : List Char) (o : Policy) :
    p.slide o.byRuns line = p.slide o.byChars line ∧
      (p.slide o.byRuns line).isSome = p.search line ∧
      (p.slide o.byChars line).isSome = p.search line := by
  have h_eq : o.byRuns = o.byChars := by
    ext ts line : 2
    exact o.byRuns_eq_byChars ts line
  have h_isSome : (p.slide o.byRuns line).isSome = p.search line :=
    isSome_slide o.isSome_byRuns p line
  rw [← h_eq]
  exact ⟨rfl, h_isSome, h_isSome⟩

/-- The policies do not find the same match first: an optional char is left behind or is not. -/
example :
    slide (Policy.byRuns ⟨true, true⟩) [.atom (.literal 'a') .optional] ['a'] = some ['a'] ∧
      slide (Policy.byRuns ⟨false, true⟩) [.atom (.literal 'a') .optional] ['a'] = some [] := by
  decide

end Pattern

end LinePattern
