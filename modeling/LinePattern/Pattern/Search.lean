import LinePattern.Pattern.Basic

/-!
# Searching a line

`Pattern.search` says whether a pattern occurs in a line. The tokens are tried from left to right.
Each token takes chars from the front of what is left of the line and hands the remainder to the
tokens behind it; where a token can take several amounts, they are tried one after the other until
the rest of the pattern goes through.

What stands behind a token is given to it as a test `k` on the remainder, so every function here
recurses on the pattern or on the line and on nothing else.

Chars left over when the tokens run out do not matter. A pattern whose first token is the start of
the line is tried at the start only, any other one at every place of the line, its end included.
-/

namespace LinePattern

/-- Takes one char accepted by `p` and passes `k` the remainder. -/
@[inline] def oneThen (p : Char → Bool) (k : List Char → Bool) : List Char → Bool
  | [] => false
  | c :: line => p c && k line

/-- Takes one or more chars accepted by `p`, as few as will do, and passes `k` the remainder. -/
@[specialize] def runThen (p : Char → Bool) (k : List Char → Bool) : List Char → Bool
  | [] => false
  | c :: line => p c && (k line || runThen p k line)

/-- Takes the chars of `word` and passes `k` the remainder. -/
def wordThen (word : List Char) (k : List Char → Bool) (line : List Char) : Bool :=
  match word.isPrefixOf? line with
  | none => false
  | some rest => k rest

/-- Whether `k` holds of the line or of a part of it that reaches to its end, the empty one
included. -/
def anySuffix (k : List Char → Bool) : List Char → Bool
  | [] => k []
  | c :: line => k (c :: line) || anySuffix k line

/-! ### What the steps find

Each step succeeds exactly if the line is what it takes and, behind that, a remainder that `k` holds
of. -/

/-- One char is taken where the line has one in front that is accepted. -/
theorem oneThen_iff {p : Char → Bool} {k : List Char → Bool} {line : List Char} :
    oneThen p k line = true ↔ ∃ c rest, line = c :: rest ∧ p c = true ∧ k rest = true := by
  cases line <;> simp [oneThen, and_assoc]

/-- A run of accepted chars is taken if it is not empty. Whether a shorter one would do as well is
of no account: only the order in which they are tried depends on it. -/
theorem runThen_iff {p : Char → Bool} {k : List Char → Bool} {line : List Char} :
    runThen p k line = true ↔
      ∃ run rest, line = run ++ rest ∧ run ≠ [] ∧ (∀ c ∈ run, p c = true) ∧ k rest = true := by
  induction line with
  | nil => simp [runThen]
  | cons c line ih =>
    simp only [runThen, Bool.and_eq_true, Bool.or_eq_true, ih]
    constructor
    · rintro ⟨hc, hk | ⟨run, rest, rfl, -, hrun, hk⟩⟩
      · -- The run ends behind `c`.
        exact ⟨[c], line, rfl, by simp, by simpa using hc, hk⟩
      · -- The run goes on.
        exact ⟨c :: run, rest, rfl, by simp, by simpa using ⟨hc, hrun⟩, hk⟩
    · rintro ⟨run, rest, heq, hne, hrun, hk⟩
      cases run with
      | nil => exact absurd rfl hne
      | cons d run =>
        obtain ⟨rfl, rfl⟩ := List.cons.inj heq
        refine ⟨hrun c (by simp), ?_⟩
        -- No more than one char is a case of its own, as no run is empty.
        cases run with
        | nil => exact .inl hk
        | cons e run =>
          exact .inr ⟨e :: run, rest, rfl, by simp, fun x hx => hrun x (.tail _ hx), hk⟩

/-- The parts that reach to the end of the line are those that some chars stand in front of. -/
theorem anySuffix_iff {k : List Char → Bool} {line : List Char} :
    anySuffix k line = true ↔ ∃ before rest, line = before ++ rest ∧ k rest = true := by
  induction line with
  | nil => simp [anySuffix, and_assoc]
  | cons c line ih =>
    simp only [anySuffix, Bool.or_eq_true, ih]
    constructor
    · rintro (hk | ⟨before, rest, rfl, hk⟩)
      · exact ⟨[], c :: line, rfl, hk⟩
      · exact ⟨c :: before, rest, rfl, hk⟩
    · rintro ⟨before, rest, heq, hk⟩
      cases before with
      | nil => exact .inl (heq ▸ hk)
      | cons d before => exact .inr ⟨before, rest, (List.cons.inj heq).2, hk⟩

/-- Takes what the token can take and passes `k` the remainder. The end of the line ends the match
as well, and the start of the line is no place to be met on the way. -/
def Token.thenMatches (t : Token) (k : List Char → Bool) (line : List Char) : Bool :=
  match t with
  | lineStart => false
  | lineEnd => line.isEmpty
  | atom a .one => oneThen a.accepts k line
  | atom a .optional => k line || oneThen a.accepts k line
  | atom a .oneOrMore => runThen a.accepts k line
  | charClass polarity members => oneThen (polarity.admits members) k line
  | group options => options.any (wordThen · k line)

namespace Pattern

/-- Whether the pattern takes some chars from the front of the line, token by token. -/
def matchesHere (p : Pattern) : List Char → Bool := p.foldr Token.thenMatches fun _ => true

@[simp] theorem matchesHere_nil (line : List Char) : matchesHere [] line = true := rfl

@[simp] theorem matchesHere_cons (t : Token) (ts : Pattern) (line : List Char) :
    matchesHere (t :: ts) line = t.thenMatches (matchesHere ts) line := rfl

/-- Whether the pattern occurs in the line. -/
def search (p : Pattern) (line : List Char) : Bool :=
  match p with
  | .lineStart :: ts => matchesHere ts line
  | ts => anySuffix (matchesHere ts) line

/-- A pattern that the start of the line is not in front of is tried at every place. -/
theorem search_eq_anySuffix {p : Pattern} (h : p.head? ≠ some .lineStart) (line : List Char) :
    p.search line = anySuffix (matchesHere p) line := by
  unfold search
  split
  · exact absurd rfl h
  · rfl

/-- The first token alone says that a pattern is tried at every place. -/
theorem search_cons {t : Token} (ht : t ≠ .lineStart) (ts : Pattern) (line : List Char) :
    search (t :: ts) line = anySuffix (matchesHere (t :: ts)) line := by
  apply search_eq_anySuffix
  rw [List.head?_cons]
  exact mt Option.some.inj ht

end Pattern

end LinePattern
